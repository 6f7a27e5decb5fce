import ObjectStream.Proofs.Elements
import ObjectStream.Proofs.Local
import ObjectStream.Proofs.Still

/-!
# The shape of reading

Whatever the type, the reading of a value is put together from a few pieces: it
reads headers and scalars, it tells an absent value by its first byte, it goes on
with the values inside, and behind the tag of a pointer there is an object or a
reference. In front of every value inside a header or a scalar is read, but for
the content of an option. `Shape` says so of a reader as a function of how the
values inside are read, so that what holds of all reading is one induction.
-/

namespace ObjectStream

namespace Reader

/-- The reader of a header or a scalar, with or without checks of what it says. -/
inductive Head : {α : Type} → Reader α → Prop
  | arrayHeader : Head Reader.arrayHeader
  | mapHeader : Head Reader.mapHeader
  | nil : Head Reader.nil
  | bool : Head Reader.bool
  | uint : Head Reader.uint
  | int : Head Reader.int
  | f32 : Head Reader.f32
  | f64 : Head Reader.f64
  | str : Head Reader.str
  | blob : Head Reader.blob
  | ext : Head Reader.ext
  | check {α β : Type} {x : Reader α} {P : α → Prop} [DecidablePred P] {f : α → β}
      {e : α → StreamError} :
      Head x → Head (x >>= fun a => if P a then Pure.pure (f a) else throw (e a))
  | orRestore {α : Type} {x : Reader α} : Head x → Head (Reader.orRestore x)

/-- A reader as a function of how the values inside are read. It reads values of the types `front`
and otherwise only such as stand behind a header or a scalar. The readers `foreign` come with types
and fields. -/
inductive Shape (foreign : Reader Value → Prop) :
    (Ty → Prop) → {α : Type} → ((Ty → Reader Value) → Reader α) → Prop
  | pure {front : Ty → Prop} {α : Type} (a : α) : Shape foreign front fun _ => Pure.pure a
  | throw {front : Ty → Prop} {α : Type} (e : StreamError) :
      Shape foreign front fun _ => (MonadExcept.throw e : Reader α)
  | bind {front : Ty → Prop} {α β : Type} {X : (Ty → Reader Value) → Reader α}
      {F : α → (Ty → Reader Value) → Reader β} : Shape foreign front X →
      (∀ a, Shape foreign front (F a)) →
      Shape foreign front fun value => X value >>= fun a => F a value
  | head {front : Ty → Prop} {α : Type} {x : Reader α} : Head x → Shape foreign front fun _ => x
  | behind {front : Ty → Prop} {α β : Type} {x : Reader α}
      {F : α → (Ty → Reader Value) → Reader β} : Head x →
      (∀ a, Shape foreign (fun _ => True) (F a)) →
      Shape foreign front fun value => x >>= fun a => F a value
  | context {front : Ty → Prop} : Shape foreign front fun _ => Reader.context
  | note {front : Ty → Prop} (event : Event) : Shape foreign front fun _ => Reader.note event
  | foreign {front : Ty → Prop} {x : Reader Value} : foreign x → Shape foreign front fun _ => x
  | value {front : Ty → Prop} {t : Ty} : front t → Shape foreign front fun value => value t
  | nilOr {front : Ty → Prop} {X : (Ty → Reader Value) → Reader Value} : Shape foreign front X →
      Shape foreign front fun value => Reader.nilOr (X value)
  | sharedBehind (tag : TypeTag) (target : Ty) :
      Shape foreign (fun _ => True) fun value => Reader.sharedBehind tag target value

/-! ## Headers and scalars -/

/-- Headers and scalars have what the rudimentary readers have. -/
theorem Rudiments.head {M : {α : Type} → Reader α → Prop} (hM : Rudiments M) {α : Type}
    {x : Reader α} (hx : Head x) : M x := by
  induction hx with
  | arrayHeader => exact hM.arrayHeader
  | mapHeader => exact hM.mapHeader
  | nil => exact hM.nil
  | bool => exact hM.bool
  | uint => exact hM.uint
  | int => exact hM.int
  | f32 => exact hM.f32
  | f64 => exact hM.f64
  | str => exact hM.str
  | blob => exact hM.blob
  | ext => exact hM.ext
  | check _ ih => exact hM.bind ih fun _ => hM.ite (hM.pure _) (hM.throw _)
  | orRestore _ ih => exact hM.orRestore ih

namespace Head

/-- Headers and scalars take bytes. -/
theorem bites {α : Type} {x : Reader α} (hx : Head x) : Bites x := by
  induction hx with
  | arrayHeader => exact .arrayHeader
  | mapHeader => exact .mapHeader
  | nil => exact .nil
  | bool => exact .bool
  | uint => exact .uint
  | int => exact .int
  | f32 => exact .f32
  | f64 => exact .f64
  | str => exact .str
  | blob => exact .blob
  | ext => exact .ext
  | check _ ih => exact ih.bind fun a => .ite (.pure _) (.throw _)
  | orRestore _ ih => exact ih.orRestore

theorem arrayHeaderOf (n : Nat) : Head (Reader.arrayHeaderOf n) := orRestore (check arrayHeader)

theorem unsigned (width : IntWidth) : Head (Reader.unsigned width) := orRestore (check uint)

theorem signed (width : IntWidth) : Head (Reader.signed width) := orRestore (check int)

theorem char : Head Reader.char := check (unsigned .w32)

theorem uuid : Head Reader.uuid := check (orRestore (check ext))

/-- A scalar is a header or a scalar form that has been turned into a datum; only text that is
borrowed cannot be read. -/
theorem scalar_cases (s : Scalar) :
    (∃ (α : Type) (x : Reader α) (f : α → Datum), Head x ∧ Reader.scalar s = f <$> x) ∨
    ∃ e, Reader.scalar s = throw e := by
  cases s with
  | bool => exact .inl ⟨_, _, _, .bool, rfl⟩
  | unsigned width => exact .inl ⟨_, _, _, .unsigned width, rfl⟩
  | signed width => exact .inl ⟨_, _, _, .signed width, rfl⟩
  | char => exact .inl ⟨_, _, _, .char, rfl⟩
  | float32 => exact .inl ⟨_, _, _, .f32, rfl⟩
  | float64 => exact .inl ⟨_, _, _, .f64, rfl⟩
  | string | smallString => exact .inl ⟨_, _, _, .str, rfl⟩
  | str => exact .inr ⟨_, rfl⟩
  | bytes | bytesMut => exact .inl ⟨_, _, _, .blob, rfl⟩
  | duration | typeTag => exact .inl ⟨_, _, _, .unsigned _, rfl⟩
  | systemTime => exact .inl ⟨_, _, _, .signed .w64, Reader.scalar_systemTime⟩
  | dateTime => exact .inl ⟨_, _, _, .signed .w64, rfl⟩
  | uuid => exact .inl ⟨_, _, _, .uuid, rfl⟩

/-- Whether it succeeds or fails, a header or a scalar leaves the table alone. -/
theorem still {α : Type} {x : Reader α} (h : Head x) : Still x := rudiments_still.head h

end Head

namespace Shape

variable {foreign : Reader Value → Prop} {front : Ty → Prop} {α β : Type}

/-- What reads values of some types in front may stand where every type may. -/
theorem anywhere {X : (Ty → Reader Value) → Reader α} (h : Shape foreign front X) :
    Shape foreign (fun _ => True) X := by
  induction h with
  | pure a => exact .pure a
  | throw e => exact .throw e
  | bind _ _ ihX ihF => exact ihX.bind ihF
  | head hx => exact .head hx
  | behind hx hF _ => exact .behind hx hF
  | context => exact .context
  | note event => exact .note event
  | foreign hx => exact .foreign hx
  | value _ => exact .value trivial
  | nilOr _ ih => exact .nilOr ih
  | sharedBehind tag target => exact .sharedBehind tag target

theorem map {X : (Ty → Reader Value) → Reader α} (f : α → β) (h : Shape foreign front X) :
    Shape foreign front fun value => f <$> X value := by
  simp only [map_eq_pure_bind]
  exact h.bind fun a => pure (f a)

theorem ite {P : Prop} [Decidable P] {X Y : (Ty → Reader Value) → Reader α}
    (hX : Shape foreign front X) (hY : Shape foreign front Y) :
    Shape foreign front fun value => if P then X value else Y value := by
  split
  · exact hX
  · exact hY

theorem scalar (s : Scalar) : Shape foreign front fun _ => Reader.scalar s := by
  rcases Head.scalar_cases s with ⟨α, x, f, hx, hread⟩ | ⟨e, hrefused⟩
  · rw [hread]
    exact .map f (.head hx)
  · rw [hrefused]
    exact .throw e

theorem errorCode : Shape foreign front fun _ => Reader.errorCode := by
  refine .behind (.arrayHeaderOf 2) fun _ => .behind (.unsigned .w32) fun place =>
    .behind (.signed .w32) fun value => .bind .context fun c => ?_
  split
  · exact .pure _
  · exact .throw _

/-! ## Lists -/

theorem each {Read : α → (Ty → Reader Value) → Reader β} {as : List α}
    (h : ∀ a ∈ as, Shape foreign front (Read a)) :
    Shape foreign front fun value => Reader.each (fun a => Read a value) as := by
  induction as with
  | nil => exact .pure []
  | cons a as ih =>
      rw [List.forall_mem_cons] at h
      exact h.1.bind fun b => (ih h.2).bind fun bs => .pure (b :: bs)

theorem times {X : (Ty → Reader Value) → Reader α} (h : Shape foreign front X) (n : Nat) :
    Shape foreign front fun value => Reader.times n (X value) := by
  have honto (n : Nat) (done : List α) :
      Shape foreign front fun value => repeatOnto (X value) n done := by
    induction n generalizing done with
    | zero => exact .pure _
    | succ n ih => exact h.bind fun a => ih (a :: done)
  exact honto n []

theorem decodeVec {X : (Ty → Reader Value) → Reader α} (h : Shape foreign (fun _ => True) X) :
    Shape foreign front fun value => Reader.decodeVec (X value) :=
  .behind .arrayHeader fun count => h.times count

theorem pair {X Y : (Ty → Reader Value) → Reader Value} (hX : Shape foreign (fun _ => True) X)
    (hY : Shape foreign (fun _ => True) Y) :
    Shape foreign front fun value => Reader.pair (X value) (Y value) :=
  .behind (.arrayHeaderOf 2) fun _ => hX.bind fun _ => hY.bind fun _ => .pure _

/-! ## Pointers -/

theorem required (fault : TypeFault) {X : (Ty → Reader Value) → Reader (Option Value)}
    (h : Shape foreign front X) :
    Shape foreign front fun value => Reader.required fault (X value) := by
  refine h.bind fun v? => ?_
  cases v? with
  | none => exact .throw _
  | some v => exact .pure v

theorem optionOf {X : (Ty → Reader Value) → Reader (Option Value)} (h : Shape foreign front X) :
    Shape foreign front fun value => Reader.optionOf (X value) := by
  refine h.bind fun v? => ?_
  cases v? with
  | none => exact .pure _
  | some v => exact .pure _

theorem build (registry : Registry) (tag : TypeTag) (target : Ty) :
    Shape foreign (fun _ => True) fun value => Reader.build registry tag target value := by
  unfold Reader.build
  split
  · exact .throw _
  · exact .bind (.note _) fun _ => .bind (.value trivial) fun _ => .pure _

/-- What is behind the tag of a pointer, or nothing if it is the null pointer. -/
theorem behindTag {X : TypeTag → (Ty → Reader Value) → Reader α}
    (h : ∀ tag, Shape foreign (fun _ => True) (X tag)) :
    Shape foreign front fun value => (do
      match ← Reader.pointerTag with
      | none => Pure.pure none
      | some tag => some <$> X tag value) := by
  unfold Reader.pointerTag
  simp only [bind_assoc]
  refine .behind (.arrayHeaderOf 2) fun _ => .behind (.unsigned .w32) fun tag => ?_
  by_cases hnull : tag = nullTag
  · simp only [if_pos hnull, bind_assoc, pure_bind]
    exact .behind .nil fun _ => .pure none
  · simp only [if_neg hnull, pure_bind]
    exact .map some (h tag)

theorem sharedValue (target : Ty) :
    Shape foreign front fun value => Reader.sharedValue target value :=
  .bind (.behindTag fun tag => .sharedBehind tag target) fun _ => .pure _

theorem uniqueValue (target : Ty) :
    Shape foreign front fun value => Reader.uniqueValue target value :=
  .bind (.behindTag fun tag => .bind .context fun c => .build c.registry tag target) fun _ =>
    .pure _

end Shape

end Reader

/-! ## Values -/

namespace Schema

inductive Foreign (Γ : Schema) : Reader Value → Prop
  | type {t : Ty} {codec : Codec} : Γ.codec? t = some codec → Foreign Γ codec.read
  | rule {path : String} {codec : Codec} : Γ.rule? path = some codec → Foreign Γ codec.read

end Schema

/-- The content of an option is read without a header in front if it is neither an option nor a
pointer. -/
def Ty.Fronts (t u : Ty) : Prop := t = .option u ∧ u.isOption = false

namespace Reader

namespace Shape

variable {Γ : Schema} {front : Ty → Prop}

theorem decodeField {fields : Ty → (Ty → Reader Value) → Reader Value}
    (hfields : ∀ t, Shape Γ.Foreign (fun _ => True) (fields t)) (σ : List (String × Ty))
    (field : FieldReader Ty) : Shape Γ.Foreign (fun _ => True) fun value =>
      ObjectStream.decodeField Γ value (fun t => fields t value) σ field := by
  cases field with
  | value t => exact .value trivial
  | fields t => exact hfields _
  | rule path t =>
      simp only [ObjectStream.decodeField]
      cases hrule : Γ.rule? path with
      | some codec => exact .foreign (.rule hrule)
      | none => exact .throw _

theorem decodeFieldList (fuel : Nat) (t : Ty) : Shape Γ.Foreign (fun _ => True) fun value =>
    ObjectStream.decodeFieldList Γ value fuel t := by
  induction fuel generalizing t with
  | zero => exact .throw _
  | succ fuel ih =>
      cases t with
      | named name args =>
          simp only [ObjectStream.decodeFieldList]
          split
          · exact .map _ (.each fun field _ => .decodeField ih _ field)
          · exact .throw _
      | _ => exact .throw _

theorem decodeEntries {Read : FieldReader Ty → (Ty → Reader Value) → Reader Value}
    (h : ∀ field, Shape Γ.Foreign (fun _ => True) (Read field)) (struct : String)
    (holders : List (Holder Ty)) (n : Nat) (slots : List (Option Value)) :
    Shape Γ.Foreign front fun value =>
      ObjectStream.decodeEntries struct holders (fun field => Read field value) n slots := by
  induction n generalizing front slots with
  | zero => exact .pure slots
  | succ n ih =>
      refine .behind .str fun key => ?_
      split
      · exact (h _).bind fun v => ih _
      · exact .throw _

theorem takeSlots (struct : String) (helds : List Held) (slots : List (Option Value)) :
    Shape Γ.Foreign front fun _ => ObjectStream.takeSlots struct helds slots := by
  induction helds generalizing slots with
  | nil => exact .pure []
  | cons held helds ih =>
      cases slots with
      | nil => exact .pure []
      | cons slot slots =>
          cases slot with
          | none => exact .throw _
          | some v => exact (ih slots).bind fun vs => .pure (v :: vs)

theorem decodeDerived (fuel : Nat) (t : Ty) (σ : List (String × Ty)) (item : Item Ty)
    (body : ReaderBody Ty) : Shape Γ.Foreign front fun value =>
      ObjectStream.decodeDerived Γ value (ObjectStream.decodeFieldList Γ value fuel) t σ item
        body := by
  have hfield := decodeField (Γ := Γ) (decodeFieldList fuel) σ
  cases body with
  | fieldArray struct =>
      refine .behind .arrayHeader fun count => .ite (.throw _) ?_
      exact decodeFieldList fuel t
  | fieldMap struct n holders result =>
      refine .behind .mapHeader fun count => .ite (.throw _) ?_
      exact (decodeEntries hfield _ _ _ _).bind fun slots => .map _ (.takeSlots _ _ _)
  | discriminant enum names =>
      refine .behind (.signed .w64) fun number => ?_
      split
      · split
        · exact .pure _
        · exact .throw _
      · exact .throw _
  | variantArray enum arms =>
      refine .behind .arrayHeader fun len => .ite (.throw _) <|
        .behind (.unsigned .w32) fun index => ?_
      split
      · exact .ite (.throw _) (.map _ (.each fun field _ => hfield field))
      · exact .throw _

theorem decodeOptional (t : Ty) : Shape Γ.Foreign (Ty.Fronts (.option t)) fun value =>
    ObjectStream.decodeOptional value t := by
  cases t with
  | option t => exact .nilOr (.behind (.arrayHeaderOf 1) fun _ => .value trivial)
  | shared pointee => exact .optionOf (.sharedValue pointee)
  | unique pointee => exact .optionOf (.uniqueValue pointee)
  | _ => exact .nilOr (.value ⟨rfl, rfl⟩)

/-- The shape of a step of the reading of values. -/
theorem decodeStep (t : Ty) : Shape Γ.Foreign t.Fronts fun value =>
    ObjectStream.decodeStep Γ value t := by
  induction t using Ty.tuple_induction with
  | tuple ts ih =>
      simp only [decodeStep_tuple]
      exact .behind (.arrayHeaderOf _) fun _ => .map _ (.each fun t ht => (ih t ht).anywhere)
  | other t htuple =>
      cases hcodec : Γ.codec? t with
      | some codec =>
          simp only [decodeStep_custom _ hcodec]
          exact .foreign (.type hcodec)
      | none =>
          cases t with
          | scalar s => exact .map _ (.scalar s)
          | errorCode => exact .map _ .errorCode
          | tuple ts => exact absurd rfl (htuple ts)
          | array e n =>
              simp only [decodeStep_array]
              exact .behind (.arrayHeaderOf n) fun _ => .map _ (.times (.value trivial) n)
          | seq kind e =>
              by_cases hslice : kind = .slice
              · subst hslice
                exact .throw _
              · simp only [decodeStep_seq _ hslice]
                exact .map _ (.decodeVec (.value trivial))
          | set kind e =>
              simp only [decodeStep_set]
              exact .map _ (.decodeVec (.value trivial))
          | map kind k u =>
              simp only [decodeStep_map]
              exact .map _ (.decodeVec (.pair (.value trivial) (.value trivial)))
          | option inner =>
              simp only [decodeStep_option _ hcodec]
              exact .decodeOptional inner
          | shared pointee => exact .required _ (.sharedValue pointee)
          | unique pointee => exact .required _ (.uniqueValue pointee)
          | named name args =>
              simp only [ObjectStream.decodeStep, hcodec]
              split
              · exact .decodeDerived _ _ _ _ _
              · exact .throw _
          | ref target | dyn name | param name => exact .throw _

end Shape

/-! ## Properties of all reading -/

/-- A property of readers that every piece has, and that passes from parts to the whole. -/
structure Pieces (M : {α : Type} → Reader α → Prop) : Prop where
  pure : ∀ {α : Type} (a : α), M (Pure.pure a : Reader α)
  throw : ∀ {α : Type} (e : StreamError), M (MonadExcept.throw e : Reader α)
  bind : ∀ {α β : Type} {x : Reader α} {f : α → Reader β}, M x → (∀ a, M (f a)) → M (x >>= f)
  head : ∀ {α : Type} {x : Reader α}, Head x → M x
  context : M Reader.context
  note : ∀ event, M (Reader.note event)
  nilOr : ∀ {x : Reader Value}, M x → M (Reader.nilOr x)
  sharedBehind : ∀ (tag : TypeTag) (target : Ty) {read : Ty → Reader Value}, (∀ t, M (read t)) →
    M (Reader.sharedBehind tag target read)

namespace Pieces

variable {M : {α : Type} → Reader α → Prop}

theorem of_shape (hM : Pieces M) {foreign : Reader Value → Prop} (hforeign : ∀ x, foreign x → M x)
    {front : Ty → Prop} {α : Type} {X : (Ty → Reader Value) → Reader α}
    (hX : Shape foreign front X) {value : Ty → Reader Value} (h : ∀ t, M (value t)) :
    M (X value) := by
  induction hX with
  | pure a => exact hM.pure a
  | throw e => exact hM.throw e
  | bind _ _ ihX ihF => exact hM.bind ihX ihF
  | head hx => exact hM.head hx
  | behind hx _ ih => exact hM.bind (hM.head hx) ih
  | context => exact hM.context
  | note event => exact hM.note event
  | foreign hx => exact hforeign _ hx
  | value _ => exact h _
  | nilOr _ ih => exact hM.nilOr ih
  | sharedBehind tag target => exact hM.sharedBehind tag target h

/-- The reading of every type has the property, whatever the bound on the depth. -/
theorem decodeWithin (hM : Pieces M) {Γ : Schema} (hforeign : ∀ x, Γ.Foreign x → M x)
    (depth : Nat) (t : Ty) : M (ObjectStream.decodeWithin Γ depth t) := by
  induction depth generalizing t with
  | zero => exact hM.throw _
  | succ depth ih => exact hM.of_shape hforeign (.decodeStep t) ih

end Pieces

end Reader

end ObjectStream
