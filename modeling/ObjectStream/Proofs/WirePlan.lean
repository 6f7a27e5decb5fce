import ObjectStream.Proofs.Part

/-!
# Generated code on the wire

What a generated writer puts on the wire, and what a generated reader expects
there, as far as the code says it: the framing, the number of elements that a
header announces, and for each field where its value comes from or goes to, the
key in front of it and the function by which it is written or read. The two are
taken from the two pieces of code, each by itself, and are the same for every
item; an item that one generator refuses is refused by the other for the same
reason.
-/

namespace ObjectStream

/-- The function by which a field travels: that of its type, that for its type's fields, or that of
a rule. -/
inductive FieldRule (τ : Type)
  | plain (type : τ)
  | base (type : τ)
  | rule (path : String) (type : τ)
  deriving DecidableEq, Repr

/-- One field on the wire: the member of the value that it is, its key if it has one, and how it
travels. -/
structure WireField (τ : Type) where
  member : Option Member
  key : Option String
  rule : FieldRule τ
  deriving DecidableEq, Repr

/-- A variant on the wire: its place, the elements that its header announces, and its fields. -/
structure WireArm (τ : Type) where
  variant : Ident
  index : Nat
  elements : Nat
  fields : List (WireField τ)
  deriving DecidableEq, Repr

inductive WireFraming (τ : Type)
  | fieldArray
  | fieldMap (entries : Nat) (fields : List (WireField τ))
  | discriminant (variants : List Ident)
  | variantArray (arms : List (WireArm τ))
  deriving DecidableEq, Repr

/-- The fields of a struct without a header. Of each field there is the type that counts its
elements, or none if it is one element. -/
structure WireFieldList (τ : Type) where
  counts : List (Option τ)
  fields : List (WireField τ)
  deriving DecidableEq, Repr

/-- What travels for an item's values. -/
structure WirePlan (τ : Type) where
  fieldList : Option (WireFieldList τ)
  framing : WireFraming τ
  deriving DecidableEq, Repr

variable {τ : Type} {check : PathCheck}

/-! ## Writers -/

def FieldWriter.wire : FieldWriter τ → FieldRule τ
  | .value t => .plain t
  | .fields t => .base t
  | .rule path t => .rule path t

def CountTerm.wire : CountTerm τ → Option τ
  | .one => none
  | .fieldsOf t => some t

def FieldListWriter.fieldCount (base : τ → Nat) (list : FieldListWriter τ) : Nat :=
  let counts := list.counts.map fun
    | .one => 1
    | .fieldsOf t => base t
  counts.foldr (· + ·) 0

/-- The members that a pattern binds, in the order of the bindings. -/
def Pattern.members : Pattern → List Member
  | .named names => names.map .named
  | .positional count => (List.range count).map .position
  | .unit => []

def Access.member? (bound : List Member) : Access → Option Member
  | .member m => some m
  | .binding n => bound[n]?

namespace WriteStep

def wire (bound : List Member) (step : WriteStep τ) : WireField τ :=
  ⟨step.access.member? bound, step.key, step.writer.wire⟩

end WriteStep

def WriteArm.wire (arm : WriteArm τ) : WireArm τ where
  variant := arm.variant
  index := arm.index
  elements := arm.header
  fields := arm.steps.map (WriteStep.wire arm.pattern.members)

def WriterBody.wire : WriterBody τ → WireFraming τ
  | .fieldArray => .fieldArray
  | .fieldMap count entries => .fieldMap count (entries.map (WriteStep.wire []))
  | .discriminant variants => .discriminant variants
  | .variantArray arms => .variantArray (arms.map WriteArm.wire)

def FieldListWriter.wire (list : FieldListWriter τ) : WireFieldList τ :=
  ⟨list.counts.map CountTerm.wire, list.steps.map (WriteStep.wire [])⟩

def WriterCode.wire (code : WriterCode τ) : WirePlan τ :=
  ⟨code.fieldList.map FieldListWriter.wire, code.body.wire⟩

/-! ## Readers -/

def FieldReader.wire : FieldReader τ → FieldRule τ
  | .value t => .plain t
  | .fields t => .base t
  | .rule path t => .rule path t

def ReadCount.wire : ReadCount τ → Option τ
  | .one => none
  | .fieldsOf t => some t

def FieldListReader.fieldCount (base : τ → Nat) (list : FieldListReader τ) : Nat :=
  let counts := list.counts.map fun
    | .one => 1
    | .fieldsOf t => base t
  counts.foldr (· + ·) 0

/-- The parts of a value, each with the member that it becomes. -/
def Construction.members {ε : Type} : Construction ε → List (Member × ε)
  | .named parts => parts.map fun (name, part) => (.named name, part)
  | .positional parts => parts.zipIdx.map fun (part, n) => (.position n, part)
  | .unit => []

def Construction.wire (result : Construction (FieldReader τ)) : List (WireField τ) :=
  result.members.map fun (member, reader) => ⟨some member, none, reader.wire⟩

/-- The field that goes into a slot, and from there into a part of the value if the part takes what
is in this slot. -/
def Holder.wire (holder : Holder τ) (part? : Option (Member × Held)) : WireField τ where
  member := part?.bind fun (member, held) =>
    if held = ⟨holder.slot, holder.key⟩ then some member else none
  key := some holder.key
  rule := holder.reader.wire

/-- What has to come for a variant when it is read: its place is one element more. -/
def ReadArm.wire (arm : ReadArm τ) : WireArm τ where
  variant := arm.variant
  index := arm.index
  elements := 1 + arm.count
  fields := arm.result.wire

def ReaderBody.wire : ReaderBody τ → WireFraming τ
  | .fieldArray _ => .fieldArray
  | .fieldMap _ count holders result =>
      .fieldMap count (holders.zipIdx.map fun (holder, n) => holder.wire result.members[n]?)
  | .discriminant _ variants => .discriminant variants
  | .variantArray _ arms => .variantArray (arms.map ReadArm.wire)

def FieldListReader.wire (list : FieldListReader τ) : WireFieldList τ :=
  ⟨list.counts.map ReadCount.wire, list.result.wire⟩

def ReaderCode.wire (code : ReaderCode τ) : WirePlan τ :=
  ⟨code.fieldList.map FieldListReader.wire, code.body.wire⟩

/-! ## Fields -/

namespace MarkedField

theorem wire_reader (f : MarkedField τ) : f.reader.wire = f.writer.wire := by
  unfold reader writer
  cases f.marks.base with
  | true => rfl
  | false => cases f.marks.rule <;> rfl

/-- What is read into the slot of a field, and from there into its member, is its entry. -/
theorem wire_holder (f : MarkedField τ) :
    f.holder.wire (some (f.member, f.held)) = f.entryStep.wire [] := by
  have hheld : f.held = ⟨f.holder.slot, f.holder.key⟩ := rfl
  simp only [Holder.wire, Option.bind_some, hheld, if_true]
  exact congrArg (WireField.mk (some f.member) (some f.key)) f.wire_reader

theorem wire_readCount (f : MarkedField τ) : f.readCount.wire = f.writeCount.wire := by
  unfold readCount writeCount
  cases f.marks.base <;> rfl

end MarkedField

namespace Fields

variable {fields : Fields τ} {marked : List (MarkedField τ)}

theorem members_pattern (fields : Fields τ) :
    fields.pattern.members = fields.members.map Prod.fst := by
  cases fields with
  | named declared => simp [pattern, Pattern.members, members]
  | positional declared =>
      refine List.ext_getElem (by simp [pattern, Pattern.members, members]) fun n _ _ => ?_
      simp [pattern, Pattern.members, members]
  | unit => rfl

/-- Parts, one for each field, become the members that the fields are. -/
theorem members_assemble {ε : Type} {parts : List ε} (h : fields.members.length = parts.length) :
    (fields.assemble parts).members = (fields.members.map Prod.fst).zip parts := by
  cases fields with
  | named declared =>
      simp only [assemble, Construction.members, members, List.map_map, List.zip_map_left]
      rfl
  | positional declared =>
      have hlen : declared.length = parts.length := by simpa [members] using h
      refine List.ext_getElem (by simp [assemble, Construction.members, members, hlen])
        fun n _ _ => ?_
      simp [assemble, Construction.members, members]
  | unit =>
      have hnil : parts = [] := List.eq_nil_of_length_eq_zero h.symm
      rw [hnil]
      rfl

theorem members_assemble_marked {ε : Type} (h : fields.marked check = .ok marked)
    (part : MarkedField τ → ε) :
    (fields.assemble (marked.map part)).members = marked.map fun f => (f.member, part f) := by
  have hlen : fields.members.length = (marked.map part).length := by
    rw [Item.length_marked h, List.length_map]
  rw [members_assemble hlen, ← Item.members_of_marked h, List.zip_map']

/-- A value is read from its fields as they are written behind each other. -/
theorem wire_assemble (h : fields.marked check = .ok marked) :
    (fields.assemble (marked.map MarkedField.reader)).wire =
      marked.map fun f => ⟨some f.member, none, f.writer.wire⟩ := by
  rw [Construction.wire, members_assemble_marked h, List.map_map]
  exact List.map_congr_left fun f _ => by simp [f.wire_reader]

end Fields

namespace Item

/-! ## Structs -/

theorem wire_memberSteps (marked : List (MarkedField τ)) :
    (marked.map MarkedField.memberStep).map (WriteStep.wire []) =
      marked.map fun f => ⟨some f.member, none, f.writer.wire⟩ := by
  rw [List.map_map]
  rfl

theorem wire_counts (marked : List (MarkedField τ)) :
    (marked.map MarkedField.readCount).map ReadCount.wire =
      (marked.map MarkedField.writeCount).map CountTerm.wire := by
  rw [List.map_map, List.map_map]
  exact List.map_congr_left fun f _ => f.wire_readCount

/-- The slots of a map are filled from the entries that are written, and emptied into the members
that these are taken from. -/
theorem wire_holders {fields : Fields τ} {marked : List (MarkedField τ)}
    (h : fields.marked check = .ok marked) :
    ((marked.map MarkedField.holder).zipIdx.map fun (holder, n) =>
        holder.wire (fields.assemble (marked.map MarkedField.held)).members[n]?) =
      (marked.map MarkedField.entryStep).map (WriteStep.wire []) := by
  rw [Fields.members_assemble_marked h]
  refine List.ext_getElem (by simp) fun n hn _ => ?_
  have hlt : n < marked.length := by simpa using hn
  simp only [List.getElem_map, List.getElem_zipIdx, Nat.zero_add, List.getElem?_map,
    List.getElem?_eq_getElem hlt, Option.map_some, MarkedField.wire_holder]

theorem wire_struct {fields : Fields τ} {marked : List (MarkedField τ)}
    (h : fields.marked check = .ok marked) (asMap : Bool) (name : String) :
    (if asMap then
        ReaderBody.fieldMap name marked.length (marked.map MarkedField.holder)
          (fields.assemble (marked.map MarkedField.held))
      else .fieldArray name).wire =
    (if asMap then
        WriterBody.fieldMap marked.length (marked.map MarkedField.entryStep)
      else .fieldArray).wire := by
  cases asMap with
  | false => rfl
  | true => exact congrArg (WireFraming.fieldMap marked.length) (wire_holders h)

/-! ## Variants -/

/-- The bindings of a variant's pattern are the members that its fields are. -/
theorem wire_bindings {fields : Fields τ} {marked : List (MarkedField τ)}
    (h : fields.marked check = .ok marked) :
    (marked.zipIdx.map fun (f, n) => WriteStep.mk none (.binding n) f.writer).map
        (WriteStep.wire fields.pattern.members) =
      marked.map fun f => ⟨some f.member, none, f.writer.wire⟩ := by
  rw [Fields.members_pattern, ← members_of_marked h]
  refine List.ext_getElem (by simp) fun n _ hn => ?_
  have hlt : n < marked.length := by simpa using hn
  simp only [List.getElem_map, List.getElem_zipIdx, Nat.zero_add, WriteStep.wire, Access.member?,
    List.getElem?_map, List.getElem?_eq_getElem hlt, Option.map_some]

theorem wire_arm {v : Variant τ} {marked : List (MarkedField τ)}
    (h : variantFields check v = .ok marked) (index : Nat) :
    (readArmOf v marked index).wire = (writeArmOf v marked index).wire := by
  have hmarked := (marked_of_variant h).1
  have hfields := (Fields.wire_assemble hmarked).trans (wire_bindings hmarked).symm
  exact congrArg (WireArm.mk v.name index (1 + marked.length)) hfields

theorem wire_arms {variants : List (Variant τ)} {fields : List (List (MarkedField τ))}
    (h : variants.mapM (variantFields check) = .ok fields) :
    (arms readArmOf variants fields).map ReadArm.wire =
      (arms writeArmOf variants fields).map WriteArm.wire := by
  have hall := List.forall₂_iff_zip.1 ((mapM_ok_iff _ _ _).1 h)
  rw [arms, arms, List.map_map, List.map_map]
  refine List.map_congr_left fun x hmem => ?_
  obtain ⟨⟨v, marked⟩, index⟩ := x
  exact wire_arm (hall.2 (List.fst_mem_of_mem_zipIdx hmem)) index

/-! ## Items -/

/-- The two pieces of code made from a plan belong together. -/
theorem wire_readerOf {item : Item τ} {p : Plan τ} (h : item.plan = .ok p) :
    (item.readerOf p).wire = (item.writerOf p).wire := by
  cases p with
  | struct asMap marked =>
      have hmarked := marked_of_plan h
      have hlist : FieldListReader.wire ⟨marked.map MarkedField.readCount,
          item.fields.assemble (marked.map MarkedField.reader)⟩ =
          FieldListWriter.wire ⟨marked.map MarkedField.writeCount,
            marked.map MarkedField.memberStep⟩ := by
        rw [FieldListReader.wire, FieldListWriter.wire, wire_counts, Fields.wire_assemble hmarked,
          wire_memberSteps]
      rw [ReaderCode.wire, WriterCode.wire, readerOf, writerOf]
      simp only [Option.map_some, hlist, wire_struct hmarked]
  | bare => rfl
  | variants fields =>
      have harms := wire_arms (variants_of_plan h)
      exact congrArg (fun arms => WirePlan.mk none (.variantArray arms)) harms

theorem fieldCount_readerOf (item : Item τ) (p : Plan τ) (base : τ → Nat) :
    (item.readerOf p).fieldList.map (FieldListReader.fieldCount base) =
      (item.writerOf p).fieldList.map (FieldListWriter.fieldCount base) := by
  cases p with
  | struct asMap marked =>
      simp only [readerOf, writerOf, Option.map_some, FieldListReader.fieldCount,
        FieldListWriter.fieldCount, List.map_map]
      congr 2
      refine List.map_congr_left fun f _ => ?_
      simp only [Function.comp_apply, MarkedField.readCount, MarkedField.writeCount]
      cases f.marks.base <;> rfl
  | bare => rfl
  | variants fields => rfl

/-- An item without a writer has no reader, for the same reason. One with a writer has a reader,
which expects on the wire what the writer puts there: the same framing, the same fields in the same
order with the same keys and by the same rules, the same number of elements in front of them, and
the same place and number of elements for each variant. A base counts for as many elements when it
is read as when it is written. -/
theorem writerCode_agrees_readerCode (item : Item τ) :
    (∀ e, item.writerCode = .error e ↔ item.readerCode = .error e) ∧
    item.writerCode.map WriterCode.wire = item.readerCode.map ReaderCode.wire ∧
    (∀ base, item.writerCode.map (·.fieldList.map (FieldListWriter.fieldCount base)) =
      item.readerCode.map (·.fieldList.map (FieldListReader.fieldCount base))) ∧
    ∀ (Γ : Schema) t, Γ.writtenFieldCount t = Γ.readFieldCount t := by
  rw [writerCode_eq, readerCode_eq]
  refine ⟨fun e => ?_, ?_, fun base => ?_, Schema.writtenFieldCount_eq⟩
  · cases item.plan <;> simp [Except.map]
  · cases hplan : item.plan with
    | error e => rfl
    | ok p => exact congrArg Except.ok (wire_readerOf hplan).symm
  · cases item.plan with
    | error e => rfl
    | ok p => exact congrArg Except.ok (fieldCount_readerOf item p base).symm

end Item

end ObjectStream
