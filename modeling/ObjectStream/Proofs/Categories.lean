import ObjectStream.Proofs.Discriminant

/-!
# Places of error categories

An index of categories comes about by adding one after the other, and a category is
known by its name. So no two categories of an index have the same name, and its
place and its name determine each other. What is added comes behind all others: an
index that has grown knows every category at the place that it had. This is why an
error code can be read with a later index than that it was written with.
-/

namespace ObjectStream

namespace CategoryIndex

variable {I J K : CategoryIndex} {c : ErrorCategory} {name : String} {place : Nat}

/-- The second index comes about by adding categories to the first. -/
inductive Grows (I : CategoryIndex) : CategoryIndex → Prop
  | refl : Grows I I
  | add {J : CategoryIndex} (c : ErrorCategory) : Grows I J → Grows I (J.add c).1

/-- The index comes about from the empty one, or from the standard one. -/
def Built (I : CategoryIndex) : Prop := empty.Grows I ∨ standard.Grows I

/-! ## One category more -/

theorem add_known (h : I.placeOf? c.name = some place) : I.add c = (I, place) := by
  rw [add, h]

theorem add_unknown (h : I.placeOf? c.name = none) :
    I.add c = (⟨I.categories ++ [c]⟩, I.size % 2 ^ 32) := by
  rw [add, h]
  rfl

theorem placeOf?_eq_none_iff :
    I.placeOf? name = none ↔ name ∉ I.categories.map (·.name) := by
  simp only [placeOf?, before?, Option.map_eq_none_iff, List.findIdx?_eq_none_iff, List.mem_map,
    not_exists, not_and, beq_eq_false_iff_ne, ne_eq]

/-- What is added comes last, if it is added at all. -/
theorem kept_add (I : CategoryIndex) (c : ErrorCategory) :
    I.categories <+: (I.add c).1.categories := by
  cases h : I.placeOf? c.name with
  | none =>
      rw [add_unknown h]
      exact List.prefix_append _ _
  | some place => exact (add_known h).symm ▸ List.prefix_refl I.categories

theorem nodup_add (hI : (I.categories.map (·.name)).Nodup) (c : ErrorCategory) :
    ((I.add c).1.categories.map (·.name)).Nodup := by
  cases h : I.placeOf? c.name with
  | none =>
      rw [add_unknown h, List.map_append, List.map_singleton]
      refine List.Nodup.append hI (List.nodup_singleton _) ?_
      rw [List.disjoint_singleton]
      exact placeOf?_eq_none_iff.1 h
  | some place => rwa [add_known h]

/-- Whether or not it was known, a category that is added is found at the place that is returned. -/
theorem placeOf?_add (I : CategoryIndex) (c : ErrorCategory) :
    (I.add c).1.placeOf? c.name = some (I.add c).2 := by
  cases h : I.placeOf? c.name with
  | none =>
      have hbefore : I.before? c.name = none := Option.map_eq_none_iff.1 h
      rw [add_unknown h, placeOf?, before?, List.findIdx?_append, ← before?, hbefore]
      simp [size]
  | some place => rw [add_known h, h]

/-! ## Growing -/

theorem Grows.trans (h : I.Grows J) (h' : J.Grows K) : I.Grows K := by
  induction h' with
  | refl => exact h
  | add c _ ih => exact .add c ih

theorem Grows.kept (h : I.Grows J) : I.categories <+: J.categories := by
  induction h with
  | refl => exact List.prefix_refl _
  | add c _ ih => exact ih.trans (kept_add _ c)

theorem Grows.nodup (h : I.Grows J) (hI : (I.categories.map (·.name)).Nodup) :
    (J.categories.map (·.name)).Nodup := by
  induction h with
  | refl => exact hI
  | add c _ ih => exact nodup_add ih c

theorem Grows.category? (h : I.Grows J) (hc : I.category? place = some c) :
    J.category? place = some c := by
  obtain ⟨more, hmore⟩ := h.kept
  have hlt : place < I.categories.length := (List.getElem?_eq_some_iff.1 hc).1
  rw [CategoryIndex.category?, ← hmore, List.getElem?_append_left hlt]
  exact hc

theorem Grows.before? (h : I.Grows J) (hplace : I.before? name = some place) :
    J.before? name = some place := by
  obtain ⟨more, hmore⟩ := h.kept
  rw [CategoryIndex.before?, ← hmore, List.findIdx?_append, ← CategoryIndex.before?, hplace]
  rfl

theorem Grows.placeOf? (h : I.Grows J) (hplace : I.placeOf? name = some place) :
    J.placeOf? name = some place := by
  obtain ⟨first, hfirst, hplace⟩ := Option.map_eq_some_iff.1 hplace
  rw [CategoryIndex.placeOf?, h.before? hfirst, Option.map_some, hplace]

/-- The standard index has grown from the empty one. -/
theorem Built.grows (h : I.Built) : empty.Grows I := by
  rcases h with h | h
  · exact h
  · exact .trans (.add .system (.add .generic .refl)) h

theorem Built.nodup (h : I.Built) : (I.categories.map (·.name)).Nodup :=
  h.grows.nodup List.nodup_nil

/-- Where names are distinct, each place is the first of its name. -/
theorem before?_of_category? (hI : (I.categories.map (·.name)).Nodup)
    (hc : I.category? place = some c) : I.before? c.name = some place := by
  -- The first place of the name holds a category of that name too, so it is this very place.
  obtain ⟨first, -, hfirst⟩ := exists_before? hc
  obtain ⟨c', hc', hname⟩ := category?_of_before? hfirst
  have hnames {i : Nat} {d : ErrorCategory} (hd : I.category? i = some d) :
      (I.categories.map (·.name))[i]? = some d.name := by
    rw [List.getElem?_map, ← CategoryIndex.category?, hd, Option.map_some]
  have hlt : place < (I.categories.map (·.name)).length :=
    (List.getElem?_eq_some_iff.1 (hnames hc)).1
  have hsame : place = first :=
    (List.getElem?_inj hlt hI).1 ((hnames hc).trans (hname ▸ (hnames hc').symm))
  rw [hfirst, hsame]

end CategoryIndex

/-! ## Error codes on the wire -/

section Wire

variable {code : ErrorCode} {place : Nat} {value : Int} {r : InStream} {bytes tail : List UInt8}

theorem encode_errorCode (Γ : Schema) (code : ErrorCode) :
    encode Γ .errorCode (.errorCode code) = Writer.errorCode code :=
  Γ.writePart_errorCode code

theorem decode_errorCode (Γ : Schema) :
    decode Γ .errorCode = Value.errorCode <$> Reader.errorCode := rfl

/-- The three atoms of an error code. -/
theorem Form.spells_errorCode (order : ByteOrder) (hplace : place < 2 ^ 32)
    (hlow : -2 ^ 31 ≤ value) (hhigh : value < 2 ^ 31) :
    Spells order [.array 2, .int place, .int value] (Form.errorCode place value order) := by
  have harray : Heading.array.Spells 2 (.array 2) := .short rfl
  have hfirst : (Atom.int place).Spelled (.uint place) := spelled_uint (by omega)
  have hsecond : (Atom.int value).Spelled (.int value) := spelled_int (by omega) (by omega)
  have hbytes : Spells order _ _ := .cons (.array harray) (.cons hfirst (.cons hsecond .nil))
  rw [List.append_nil] at hbytes
  exact hbytes

theorem Atom.Spelled.spells_array {n : Nat} {f : Form} (h : (Atom.array n).Spelled f) :
    Heading.array.Spells n f := by
  cases h with
  | array hf => exact hf

namespace Reader

def codeNumbers : Reader (Nat × Int) := do
  arrayHeaderOf 2
  let place ← unsigned .w32
  let value ← signed .w32
  pure (place, value)

theorem errorCode_eq : Reader.errorCode = (do
    let (place, value) ← codeNumbers
    match (← context).categories.category? place with
    | some category => pure ⟨category, value⟩
    | none => throw (.unregisteredType (.categoryPlace place))) := by
  simp only [codeNumbers, bind_assoc, pure_bind]
  rfl

theorem codeNumbers_of_spells {c : Context}
    (hbytes : Spells c.byteOrder [.array 2, .int place, .int value] bytes)
    (hplace : place < 2 ^ 32) (hlow : -2 ^ 31 ≤ value) (hhigh : value < 2 ^ 31) :
    Takes c codeNumbers bytes (place, value) := by
  obtain _ | ⟨hheader, _ | ⟨hfirst, _ | ⟨hsecond, _ | _⟩⟩⟩ := hbytes
  have harray := Takes.arrayHeader_of_spells (c := c) hheader.spells_array
  have huint := Takes.uint_of_spelled (c := c) hfirst (Int.natCast_nonneg place)
  rw [Int.toNat_natCast] at huint
  have hint := Takes.int_of_spelled (c := c) hsecond (by omega)
  have hsigned := (IntWidth.holdsSigned_iff .w32 value).2 ⟨hlow, hhigh⟩
  exact (Takes.arrayHeaderOf_of harray).bind
    ((Takes.unsigned_of (IntWidth.holdsUnsigned_of_lt hplace) huint).bind
      ((Takes.signed_of hsigned hint).bind (.pure _)))

/-- However an error code is spelled, its category is looked up behind both numbers. -/
theorem errorCode_of_spells
    (hbytes : Spells r.context.byteOrder [.array 2, .int place, .int value] bytes)
    (hplace : place < 2 ^ 32) (hlow : -2 ^ 31 ≤ value) (hhigh : value < 2 ^ 31)
    (hrest : r.rest = bytes ++ tail) :
    Reader.errorCode r =
      match r.context.categories.category? place with
      | some category => .ok ⟨category, value⟩ (r.skip bytes.length)
      | none => .error (.unregisteredType (.categoryPlace place)) (r.skip bytes.length) := by
  have hnumbers := codeNumbers_of_spells hbytes hplace hlow hhigh r tail rfl hrest
  rw [errorCode_eq, bind_of_ok hnumbers]
  simp only [bind, EStateM.bind, context, InStream.context_skip]
  cases r.context.categories.category? place <;> rfl

end Reader

namespace Writer

variable {s : OutStream}

theorem errorCode_unknown (h : s.context.categories.placeOf? code.category.name = none) :
    errorCode code s = .error (.unregisteredType (.category code.category.name)) s := by
  simp only [errorCode, bind, EStateM.bind, context, h]
  rfl

/-- Without a limit an error code of a known category is written. -/
theorem errorCode_known (h : s.context.categories.placeOf? code.category.name = some place)
    (hgrowing : s.sink.limit = none) :
    errorCode code s =
      .ok () (s.append (Form.errorCode place code.value s.context.byteOrder)) := by
  have hrun : errorCode code s =
      (do arrayHeader 2; uint place; int code.value : Writer Unit) s := by
    simp only [errorCode, bind, EStateM.bind, context, h]
  have hwithin : Within s.context _ (do arrayHeader 2; uint place; int code.value) :=
    (Within.arrayHeader (by decide) (Nat.le_refl _)).bind
      ((Within.uint (Nat.le_refl _)).bind (.int (Nat.le_refl _)))
  obtain ⟨bytes, -, hok⟩ := hwithin s rfl (s.sink.refusal?_growing hgrowing _)
  rw [← hrun] at hok
  obtain ⟨place', hplace, happend⟩ := errorCode_ok hok
  obtain rfl := Option.some.inj (h.symm.trans hplace)
  rw [hok, happend]

end Writer

end Wire

/-- How an index names categories, and how error codes travel by it. A place is a number of 32
bits, so the two directions ask that the place, or every place, be one. -/
structure CategoryIndex.Naming (Γ : Schema) (I : CategoryIndex) : Prop where
  distinct : (I.categories.map (·.name)).Nodup
  /-- The place of a category is found by its name, and its name at its place. -/
  placeOf_category : ∀ place c, place < 2 ^ 32 → I.category? place = some c →
    I.placeOf? c.name = some place
  category_placeOf : I.size ≤ 2 ^ 32 → ∀ name place, I.placeOf? name = some place →
    ∃ c, I.category? place = some c ∧ c.name = name
  /-- To add a category changes nothing if its name is known, and puts it behind all others if it
  is not. In either case its place is returned. -/
  adds_known : ∀ c place, I.placeOf? c.name = some place → I.add c = (I, place)
  adds_unknown : ∀ c, I.placeOf? c.name = none →
    I.add c = (⟨I.categories ++ [c]⟩, I.size % 2 ^ 32)
  adds_place : ∀ c, (I.add c).1.placeOf? c.name = some (I.add c).2
  /-- What is known stays in its place, whatever is added. -/
  keeps_category : ∀ J, I.Grows J → ∀ place c,
    I.category? place = some c → J.category? place = some c
  keeps_place : ∀ J, I.Grows J → ∀ name place,
    I.placeOf? name = some place → J.placeOf? name = some place
  /-- An error code is written as the place of its category and its number, or refused in front of
  the first byte if its category has no place. -/
  writes : ∀ (code : ErrorCode) place (s : OutStream), s.context.categories = I →
    I.placeOf? code.category.name = some place → s.sink.limit = none →
      encode Γ .errorCode (.errorCode code) s =
        .ok () (s.append (Form.errorCode place code.value s.context.byteOrder))
  refuses : ∀ (code : ErrorCode) (s : OutStream), s.context.categories = I →
    I.placeOf? code.category.name = none →
      encode Γ .errorCode (.errorCode code) s =
        .error (.unregisteredType (.category code.category.name)) s
  /-- What is written under the index is read under every later one as the same error code. Places
  and the numbers of error codes have 32 bits. -/
  carries : ∀ (code : ErrorCode) c place bytes (s s' : OutStream), s.context.categories = I →
    I.category? place = some c → c.name = code.category.name → place < 2 ^ 32 →
    -2 ^ 31 ≤ code.value → code.value < 2 ^ 31 →
    bytes = Form.errorCode place code.value s.context.byteOrder →
    encode Γ .errorCode (.errorCode code) s = .ok () s' → s' = s.append bytes ∧
      ∀ J, I.Grows J → ∀ (r : InStream) tail, r.context.categories = J →
        r.context.byteOrder = s.context.byteOrder → r.rest = bytes ++ tail →
          ∃ code', code.same code' = true ∧
            decode Γ .errorCode r = .ok (.errorCode code') (r.skip bytes.length)
  /-- However it is spelled, an error code with a place that the index does not have is refused. -/
  misses : ∀ (r : InStream) place value bytes tail, r.context.categories = I →
    I.size ≤ place → place < 2 ^ 32 → -2 ^ 31 ≤ value → value < 2 ^ 31 →
    Spells r.context.byteOrder [.array 2, .int place, .int value] bytes →
    r.rest = bytes ++ tail →
      decode Γ .errorCode r =
        .error (.unregisteredType (.categoryPlace place)) (r.skip bytes.length)

theorem CategoryIndex.Built.naming {I : CategoryIndex} (h : I.Built) (Γ : Schema) :
    I.Naming Γ where
  distinct := h.nodup
  placeOf_category _ _ hlt hc := placeOf?_of_before? (before?_of_category? h.nodup hc) hlt
  category_placeOf hI _ _ hplace := category?_of_before? (before?_of_placeOf? hI hplace)
  adds_known _ _ hplace := add_known hplace
  adds_unknown _ hplace := add_unknown hplace
  adds_place c := placeOf?_add I c
  keeps_category _ hJ _ _ hc := hJ.category? hc
  keeps_place _ hJ _ _ hplace := hJ.placeOf? hplace
  writes code place s hs hplace hgrowing := by
    subst hs
    rw [encode_errorCode, Writer.errorCode_known hplace hgrowing]
  refuses code s hs hplace := by
    subst hs
    rw [encode_errorCode, Writer.errorCode_unknown hplace]
  carries code c place bytes s s' hs hc hname hlt hlow hhigh hbytes hwrite := by
    subst hs hbytes
    rw [encode_errorCode] at hwrite
    obtain ⟨place', hplace', hs'⟩ := Writer.errorCode_ok hwrite
    have hfirst := before?_of_category? h.nodup hc
    rw [hname] at hfirst
    obtain rfl := Option.some.inj ((placeOf?_of_before? hfirst hlt).symm.trans hplace')
    refine ⟨hs', fun J hJ r tail hr horder hrest => ?_⟩
    subst hr
    -- The later index has a category of that name in the same place, if perhaps not the same one.
    obtain ⟨category, hcategory, hsame⟩ := category?_of_before? (hJ.before? hfirst)
    have hbytes := Form.spells_errorCode s.context.byteOrder hlt hlow hhigh
    rw [← horder] at hbytes hrest ⊢
    have hread := Reader.errorCode_of_spells hbytes hlt hlow hhigh hrest
    rw [hcategory] at hread
    refine ⟨⟨category, code.value⟩, (ErrorCode.same_iff _ _).2 ⟨rfl, hsame.symm⟩, ?_⟩
    rw [decode_errorCode]
    exact bind_of_ok hread
  misses r place value bytes tail hr hsize hplace hlow hhigh hbytes hrest := by
    subst hr
    have hnone : r.context.categories.category? place = none := List.getElem?_eq_none hsize
    have hread := Reader.errorCode_of_spells hbytes hplace hlow hhigh hrest
    rw [hnone] at hread
    rw [decode_errorCode]
    exact bind_failed hread

namespace Sample

def stored : CategoryIndex := (CategoryIndex.standard.add ⟨"storage", .labelled "storage error"⟩).1

def networked : CategoryIndex := (stored.add ⟨"net", .labelled "net error"⟩).1

def diskFull : ErrorCode := ⟨⟨"storage", .labelled "other storage error"⟩, 1⟩

/-- The error code takes three bytes, and is read from them when the index has grown. -/
theorem naming_stored :
    encode .empty .errorCode (.errorCode diskFull)
        (.ofSink { Context.standard with categories := stored } .growable none) =
      .ok () ((OutStream.ofSink { Context.standard with categories := stored } .growable
        none).append [0x92, 2, 1]) ∧
    ∃ code' r', diskFull.same code' = true ∧
      decode .empty .errorCode (.ofBytes { Context.standard with categories := networked }
        (packed [0x92, 2, 1]) 0 none) = .ok (.errorCode code') r' := by
  have hnaming := CategoryIndex.Built.naming (I := stored) (.inr (.add _ .refl)) .empty
  have hwrite := hnaming.writes diskFull 2
    (.ofSink { Context.standard with categories := stored } .growable none) rfl rfl rfl
  obtain ⟨-, hread⟩ := hnaming.carries diskFull ⟨"storage", .labelled "storage error"⟩ 2
    [0x92, 2, 1] _ _ rfl rfl rfl (by decide) (by decide) (by decide) rfl hwrite
  obtain ⟨code', hsame, hdecode⟩ := hread networked (.add _ .refl)
    (.ofBytes { Context.standard with categories := networked } (packed [0x92, 2, 1]) 0 none) []
    rfl rfl rfl
  exact ⟨hwrite, code', _, hsame, hdecode⟩

end Sample

end ObjectStream
