import ObjectStream.Registry
import ObjectStream.ByteOrder

/-!
# Contexts and events

A context is what a writer and the reader of its bytes have to agree on: the
byte order, whether shared objects are written once and referred to afterwards,
the registry and the category index. Nothing on the wire checks the agreement.

An event is a note of what happened, for an observer; no operation depends on
whether it is observed.
-/

namespace ObjectStream

/-- What a family of streams has in common. -/
structure Context where
  byteOrder : ByteOrder
  dedup : Bool
  registry : Registry
  categories : CategoryIndex

namespace Context

/-- Most significant byte first, no deduplication, no types, the standard categories. -/
def standard : Context := ⟨.bigEndian, false, .empty, .standard⟩

def summary (c : Context) : String :=
  s!"Context \x7b byte_order: {c.byteOrder.label}, dedup: {c.dedup}, registry: " ++
    c.registry.listing ++ ", categories: " ++ c.categories.listing ++ " \x7d"

end Context

inductive EventLevel
  | debug | trace
  deriving DecidableEq, Repr

inductive Event
  | registeredType (tag : TypeTag) (type : Ty)
  | registeredUpcast (tag : TypeTag) (type target : Ty)
  | builtContext (order : ByteOrder) (dedup : Bool) (types categories : Nat)
  | newObject (tag : TypeTag) (serial : Nat)
  | backReference (tag : TypeTag) (serial : Nat)
  | constructing (tag : TypeTag) (target : Ty)
  | decodedObject (tag : TypeTag) (serial : Nat)
  | resolvedObject (tag : TypeTag) (serial : Nat)
  deriving DecidableEq

namespace Event

def level : Event → EventLevel
  | .registeredType .. | .registeredUpcast .. | .builtContext .. => .debug
  | _ => .trace

def message : Event → String
  | .registeredType .. => "registered type"
  | .registeredUpcast .. => "registered upcast"
  | .builtContext .. => "built serialization context"
  | .newObject .. => "new shared object"
  | .backReference .. => "shared object back-reference"
  | .constructing .. => "constructing"
  | .decodedObject .. => "decoded shared object"
  | .resolvedObject .. => "resolved shared object"

def fields : Event → List (String × String)
  | .registeredType tag t => [("tag", toString tag), ("type_name", t.fullName)]
  | .registeredUpcast tag t target =>
      [("tag", toString tag), ("type_name", t.fullName), ("target", target.fullName)]
  | .builtContext order dedup types categories =>
      [("byte_order", order.label), ("dedup", toString dedup), ("types", toString types),
        ("categories", toString categories)]
  | .constructing tag target => [("tag", toString tag), ("target", target.fullName)]
  | .newObject tag serial | .backReference tag serial
  | .decodedObject tag serial | .resolvedObject tag serial =>
      [("tag", toString tag), ("serial", toString serial)]

end Event

/-- The events that an observer has seen, or `none` when nobody observes. -/
abbrev Journal := Option (Array Event)

namespace Journal

def note (journal : Journal) (event : Event) : Journal := journal.map (·.push event)

end Journal

namespace Registry

inductive Step
  | assign (type : Ty) (tag : TypeTag)
  | upcast (target : Ty) (upcast : Upcast)

/-- Runs a step; a step that succeeds is an event. -/
def Step.run : Step → Setup Event
  | .assign t tag => do
      Registry.assign t tag
      pure (.registeredType tag t)
  | .upcast target u => do
      let tag ← addUpcast target u
      pure (.registeredUpcast tag u.source target)

def take (r : Registry) (step : Step) : Except StreamError (Registry × Event) :=
  match step.run r with
  | .ok event r' => .ok (r', event)
  | .error e _ => .error e

/-- Takes steps up to the first that fails, noting events. -/
def takeAll (r : Registry) (journal : Journal) :
    List Step → Except StreamError Registry × Journal
  | [] => (.ok r, journal)
  | step :: steps =>
      match r.take step with
      | .error e => (.error e, journal)
      | .ok (r, event) => r.takeAll (journal.note event) steps

end Registry

def Context.built (c : Context) : Event :=
  .builtContext c.byteOrder c.dedup c.registry.size c.categories.size

end ObjectStream
