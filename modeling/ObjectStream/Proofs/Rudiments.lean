import ObjectStream.Reader.Scalar
import ObjectStream.Reader.Skip

/-!
# What headers and scalars are read with

Headers and scalars are read with a handful of actions: a look at the next byte, a
move over some bytes, a number, a run of raw bytes, and the way back after a
failure. So a property that these actions have, and that passes from parts to the
whole, is one of every reader of a header or a scalar, and of the walk that skips
values.
-/

namespace ObjectStream

namespace Reader

/-- A property of readers that the rudimentary ones have, and that passes from parts to the
whole. -/
structure Rudiments (M : {α : Type} → Reader α → Prop) : Prop where
  pure : ∀ {α : Type} (a : α), M (Pure.pure a : Reader α)
  throw : ∀ {α : Type} (e : StreamError), M (MonadExcept.throw e : Reader α)
  bind : ∀ {α β : Type} {x : Reader α} {f : α → Reader β}, M x → (∀ a, M (f a)) → M (x >>= f)
  orRestore : ∀ {α : Type} {x : Reader α}, M x → M (Reader.orRestore x)
  peek : M Reader.peek
  advance : ∀ n, M (Reader.advance n)
  number : ∀ kind, M (Reader.number kind)
  raw : ∀ n, M (Reader.raw n)

namespace Rudiments

variable {M : {α : Type} → Reader α → Prop} {α : Type}

theorem ite (_ : Rudiments M) {P : Prop} [Decidable P] {x y : Reader α} (hx : M x) (hy : M y) :
    M (if P then x else y) := by
  split
  · exact hx
  · exact hy

theorem byte (h : Rudiments M) : M Reader.byte :=
  h.bind h.peek fun b => h.bind (h.advance 1) fun _ => h.pure b

theorem length (h : Rudiments M) (kind : NumberKind) : M (Reader.length kind) :=
  h.bind (h.number kind) fun _ => h.pure _

theorem refuse (h : Rudiments M) (expected : Expected) (code : UInt8) :
    M (Reader.refuse expected code : Reader α) := h.throw _

/-! ## Headers -/

theorem mapHeader (h : Rudiments M) : M Reader.mapHeader :=
  h.orRestore (h.bind h.byte fun _ =>
    h.ite (h.pure _) (h.ite (h.length _) (h.ite (h.length _) (h.refuse _ _))))

theorem arrayHeader (h : Rudiments M) : M Reader.arrayHeader :=
  h.orRestore (h.bind h.byte fun _ =>
    h.ite (h.pure _) (h.ite (h.length _) (h.ite (h.length _) (h.refuse _ _))))

theorem blobHeader (h : Rudiments M) : M Reader.blobHeader :=
  h.orRestore (h.bind h.byte fun _ =>
    h.ite (h.length _) (h.ite (h.length _) (h.ite (h.length _) (h.refuse _ _))))

theorem strHeader (h : Rudiments M) : M Reader.strHeader :=
  h.orRestore (h.bind h.byte fun _ => h.ite (h.pure _)
    (h.ite (h.length _) (h.ite (h.length _) (h.ite (h.length _) (h.refuse _ _)))))

theorem blob (h : Rudiments M) : M Reader.blob :=
  h.orRestore (h.bind h.blobHeader fun _ => h.raw _)

theorem textOf (h : Rudiments M) (bytes : ByteArray) : M (Reader.textOf bytes) := by
  unfold Reader.textOf
  split
  · exact h.pure _
  · exact h.throw _

theorem str (h : Rudiments M) : M Reader.str :=
  h.orRestore (h.bind h.strHeader fun _ => h.bind (h.raw _) fun _ => h.textOf _)

theorem extLength (h : Rudiments M) (code : UInt8) : M (Reader.extLength code) := by
  unfold Reader.extLength
  split
  · exact h.pure _
  · exact h.ite (h.length _) (h.ite (h.length _) (h.ite (h.length _) (h.refuse _ _)))

theorem extHeader (h : Rudiments M) : M Reader.extHeader :=
  h.orRestore (h.bind h.byte fun _ => h.bind (h.extLength _) fun _ =>
    h.bind (h.number _) fun _ => h.pure _)

theorem ext (h : Rudiments M) : M Reader.ext :=
  h.orRestore (h.bind h.extHeader fun _ => h.bind (h.raw _) fun _ => h.pure _)

/-! ## Scalars -/

theorem nil (h : Rudiments M) : M Reader.nil :=
  h.bind h.peek fun _ => h.ite (h.advance _) (h.refuse _ _)

theorem bool (h : Rudiments M) : M Reader.bool := by
  have hflag (b : Bool) : M (do Reader.advance 1; Pure.pure b) :=
    h.bind (h.advance 1) fun _ => h.pure b
  exact h.bind h.peek fun _ => h.ite (hflag true) (h.ite (hflag false) (h.refuse _ _))

theorem f32 (h : Rudiments M) : M Reader.f32 :=
  h.orRestore (h.bind h.byte fun _ =>
    h.ite (h.bind (h.length _) fun _ => h.pure _) (h.refuse _ _))

theorem f64 (h : Rudiments M) : M Reader.f64 :=
  h.orRestore (h.bind h.byte fun _ => h.ite (h.bind (h.length _) fun _ => h.pure _)
    (h.ite (h.bind (h.length _) fun _ => h.pure _) (h.refuse _ _)))

theorem intBody (h : Rudiments M) (code : UInt8) : M (Reader.intBody code) :=
  h.ite (h.number _) (h.ite (h.number _) (h.ite (h.number _) (h.number _)))

theorem uintBody (h : Rudiments M) (code : UInt8) : M (Reader.uintBody code) :=
  h.ite (h.length _) (h.ite (h.length _) (h.ite (h.length _) (h.length _)))

theorem uint (h : Rudiments M) : M Reader.uint := by
  refine h.orRestore (h.bind h.byte fun code => ?_)
  split
  · exact h.pure _
  · exact h.uintBody code
  · exact h.bind (h.intBody code) fun _ => h.ite (h.pure _) (h.throw _)
  all_goals exact h.throw _

theorem int (h : Rudiments M) : M Reader.int := by
  refine h.orRestore (h.bind h.byte fun code => ?_)
  split
  · exact h.pure _
  · exact h.pure _
  · exact h.intBody code
  · exact h.bind (h.uintBody code) fun _ => h.ite (h.pure _) (h.throw _)
  all_goals exact h.throw _

theorem unsigned (h : Rudiments M) (width : IntWidth) : M (Reader.unsigned width) :=
  h.orRestore (h.bind h.uint fun _ => h.ite (h.pure _) (h.throw _))

/-! ## Skipped values -/

theorem stepOver (h : Rudiments M) : M Reader.stepOver := by
  refine h.bind h.peek fun code => ?_
  have hover (n : Nat) : M (do Reader.advance n; Pure.pure 0) :=
    h.bind (h.advance n) fun _ => h.pure 0
  split
  all_goals first
    | exact hover _
    | exact h.bind h.strHeader fun n => hover n
    | exact h.bind h.blobHeader fun n => hover n
    | exact h.bind h.extHeader fun header => hover header.2
    | exact h.arrayHeader
    | exact h.bind h.mapHeader fun n => h.pure (2 * n)
    | exact h.refuse _ _

theorem skipMany (h : Rudiments M) (fuel pending : Nat) : M (Reader.skipMany fuel pending) := by
  induction fuel generalizing pending with
  | zero =>
      cases pending with
      | zero => exact h.pure ()
      | succ pending => exact h.throw _
  | succ fuel ih =>
      cases pending with
      | zero => exact h.pure ()
      | succ pending => exact h.bind h.stepOver fun nested => ih (pending + nested)

end Rudiments

end Reader

end ObjectStream
