import ObjectStream.Proofs.Writing

/-!
# How values are laid out

Whatever part is asked for and whatever value is given, what the writer does is
one of a few actions: it refuses, it leaves the value to a writer that comes with
the type or the field, or it writes a header or a scalar and goes on with the
parts inside. `Layout` lists these actions with what they say of the part, so
that a property of all writing is proved once for each of them. Nothing is asked
of the value, so the shape of every write is covered, also of those that fail.
-/

namespace ObjectStream

namespace Schema

variable {Γ : Schema}

/-- The parts that stand behind the array header of a value of a type, the value being a list of
`k` things and the header announcing `n`. -/
inductive Members (Γ : Schema) : Ty → Nat → Nat → List Part → Prop
  | tuple (ts : List Ty) : Members Γ (.tuple ts) ts.length ts.length (ts.map .whole)
  | array (e : Ty) (n : Nat) : Members Γ (.array e n) n n (List.replicate n (.whole e))
  | seq (kind : SeqKind) (e : Ty) (n : Nat) :
      Members Γ (.seq kind e) n n (List.replicate n (.whole e))
  | set (kind : TableKind) (e : Ty) (n : Nat) :
      Members Γ (.set kind e) n n (List.replicate n (.whole e))
  | map (kind : TableKind) (k u : Ty) (n : Nat) :
      Members Γ (.map kind k u) n n (List.replicate n (.whole (.tuple [k, u])))
  | struct {name : String} {args : List Ty} {item : Item Ty} {fields : List (MarkedField Ty)}
      (k : Nat) : Γ.plan? name = some (item, .struct false fields) →
      Members Γ (.named name args) k (Γ.writtenFieldCount (.named name args))
        (fields.map (MarkedField.part (arguments item args)))

def partCodec? (Γ : Schema) : Part → Option Codec
  | .whole t => Γ.codec? t.deref
  | .fields _ => none
  | .rule path _ => Γ.rule? path

/-- What the writing of a value as a part comes to. -/
inductive Layout (Γ : Schema) : Part → Value → Writer Unit → Prop
  | refused (p : Part) (v : Value) (e : StreamError) : Layout Γ p v (throw e)
  | codec {p : Part} {codec : Codec} (v : Value) :
      Γ.partCodec? (p.asked v) = some codec → Layout Γ p v (codec.write v)
  | scalar {t : Ty} {s : Scalar} (d : Datum) :
      t.deref = .scalar s → Layout Γ (.whole t) (.scalar d) (Writer.scalar s d)
  | errorCode {t : Ty} (code : ErrorCode) :
      t.deref = .errorCode → Layout Γ (.whole t) (.errorCode code) (Writer.errorCode code)
  | array {t : Ty} {n : Nat} {ps : List Part} {vs : List Value} :
      Γ.Members t.deref vs.length n ps →
      Layout Γ (.whole t) (.list vs) (do Writer.arrayHeader n; Γ.writeParts ps vs)
  | map {t : Ty} {name : String} {args : List Ty} {item : Item Ty}
      {fields : List (MarkedField Ty)} (vs : List Value) : t.deref = .named name args →
      Γ.plan? name = some (item, .struct true fields) →
      Layout Γ (.whole t) (.list vs) (do
        Writer.mapHeader fields.length
        Γ.writeEntries (fields.map (entry (arguments item args))) vs)
  | fields {name : String} {args : List Ty} {item : Item Ty} {asMap : Bool}
      {fields : List (MarkedField Ty)} (vs : List Value) :
      Γ.plan? name = some (item, .struct asMap fields) →
      Layout Γ (.fields (.named name args)) (.list vs)
        (Γ.writeParts (fields.map (MarkedField.part (arguments item args))) vs)
  | absent {t inner : Ty} :
      t.deref = .option inner → Layout Γ (.whole t) .absent (encodeAbsent inner)
  | present {t inner : Ty} (v : Value) : t.deref = .option inner →
      Layout Γ (.whole t) (.present v) (do
        if inner.deref.isOption then Writer.arrayHeader 1
        Γ.writePart (.whole inner) v)
  | discriminant {t : Ty} {name : String} {args : List Ty} {item : Item Ty}
      (index : Nat) (vs : List Value) (d : Int) : t.deref = .named name args →
      Γ.plan? name = some (item, .bare) →
      Layout Γ (.whole t) (.variant index vs) (Writer.int (wireDiscriminant d))
  | variant {t : Ty} {name : String} {args : List Ty} {item : Item Ty}
      {fieldss : List (List (MarkedField Ty))} {fields : List (MarkedField Ty)} {index : Nat}
      (vs : List Value) : t.deref = .named name args →
      Γ.plan? name = some (item, .variants fieldss) → fieldss[index]? = some fields →
      Layout Γ (.whole t) (.variant index vs) (do
        Writer.arrayHeader (1 + fields.length)
        Writer.uint index
        Γ.writeParts (fields.map (MarkedField.part (arguments item args))) vs)
  | shared {t pointee type : Ty} (id : Identity) (body : Value) : t.deref = .shared pointee →
      canPoint pointee type = true →
      Layout Γ (.whole t) (.shared id type body)
        (Writer.shared id type (Γ.writePart (.whole type) body))
  | unique {t pointee type : Ty} (body : Value) : t.deref = .unique pointee →
      canPoint pointee type = true →
      Layout Γ (.whole t) (.unique type body)
        (Writer.unique type (Γ.writePart (.whole type) body))

theorem writer?_of_no_plan {name : String} (h : Γ.plan? name = none) : Γ.writer? name = none := by
  rw [writer?_eq, h]
  rfl

namespace Layout

variable {t : Ty} {name : String} {args : List Ty}

/-- A list as a value of a declared type. -/
theorem struct {vs : List Value} (hcodec : Γ.codec? (t.asked (.list vs)) = none)
    (ht : t.deref = .named name args) : Γ.Layout (.whole t) (.list vs) (encode Γ t (.list vs)) := by
  rw [encode, hcodec, ht]
  dsimp only
  cases hplan : Γ.plan? name with
  | none =>
      rw [writer?_of_no_plan hplan]
      exact refused _ _ _
  | some found =>
      obtain ⟨item, plan⟩ := found
      rw [writer?_of_plan hplan]
      cases plan with
      | struct asMap fields =>
          have hsteps := encodeSteps_eq Γ (arguments item args)
            (fields.map MarkedField.memberStep) fields vs (by simp [MarkedField.memberStep])
          cases asMap with
          | true =>
              simp only [Item.writerOf, if_true, encodeSteps_entries]
              exact map vs ht hplan
          | false =>
              simp only [Item.writerOf, Bool.false_eq_true, if_false, hsteps, Writer.objectHeader]
              refine array ?_
              rw [ht]
              exact .struct _ hplan
      | bare => exact refused _ _ _
      | variants fieldss => exact refused _ _ _

theorem list {vs : List Value} (hcodec : Γ.codec? (t.asked (.list vs)) = none) :
    Γ.Layout (.whole t) (.list vs) (encode Γ t (.list vs)) := by
  cases ht : t.deref with
  | named name args => exact struct hcodec ht
  | tuple ts =>
      rw [encode, hcodec, ht]
      dsimp only
      by_cases hlen : vs.length = ts.length
      · rw [if_pos hlen, encodeParts_eq Γ ts vs hlen]
        refine array ?_
        rw [ht, hlen]
        exact .tuple ts
      · rw [if_neg hlen]
        exact refused _ _ _
  | array e n =>
      rw [encode, hcodec, ht]
      dsimp only
      by_cases hlen : vs.length = n
      · rw [if_pos hlen, encodeEach_eq, hlen]
        refine array ?_
        rw [ht, hlen]
        exact .array e n
      · rw [if_neg hlen]
        exact refused _ _ _
  | seq kind e =>
      rw [encode, hcodec, ht]
      dsimp only
      rw [encodeEach_eq]
      refine array ?_
      rw [ht]
      exact .seq kind e _
  | set kind e =>
      rw [encode, hcodec, ht]
      dsimp only
      rw [encodeEach_eq]
      refine array ?_
      rw [ht]
      exact .set kind e _
  | map kind k u =>
      rw [encode, hcodec, ht]
      dsimp only
      rw [encodeEach_eq]
      refine array ?_
      rw [ht]
      exact .map kind k u _
  | _ =>
      rw [encode, hcodec, ht]
      exact refused _ _ _

theorem variants {index : Nat} {vs : List Value}
    (hcodec : Γ.codec? (t.asked (.variant index vs)) = none) :
    Γ.Layout (.whole t) (.variant index vs) (encode Γ t (.variant index vs)) := by
  rw [encode, hcodec]
  cases ht : t.deref with
  | named name args =>
      dsimp only
      cases hplan : Γ.plan? name with
      | none =>
          rw [writer?_of_no_plan hplan]
          exact refused _ _ _
      | some found =>
          obtain ⟨item, plan⟩ := found
          have hwriter := writer?_of_plan hplan
          cases plan with
          | struct asMap fields =>
              cases asMap with
              | true =>
                  simp only [hwriter, Item.writerOf, if_true]
                  exact refused _ _ _
              | false =>
                  simp only [hwriter, Item.writerOf, Bool.false_eq_true, if_false]
                  exact refused _ _ _
          | bare =>
              have hdata := Item.data_of_bare (plan_of_plan? hplan)
              obtain ⟨itemName, attributes, generics, whereClause, data, checkPath⟩ := item
              cases data with
              | struct fields | union fields => cases hdata
              | enum variants =>
                  simp only [hwriter, Item.writerOf]
                  cases (ObjectStream.discriminants variants)[index]? with
                  | none => exact refused _ _ _
                  | some d => exact discriminant index vs d ht hplan
          | variants fieldss =>
              cases hfields : fieldss[index]? with
              | some fields =>
                  have hpart : Γ.writePart (.whole t) (.variant index vs) = _ :=
                    writePart_variant ht hplan hfields
                  rw [writePart, encode] at hpart
                  simp only [Ty.asked, ht, codec?_of_plan? hplan] at hpart
                  rw [hpart]
                  exact variant vs ht hplan hfields
              | none =>
                  simp only [hwriter, Item.writerOf, Item.getElem?_arms_none _ _ hfields]
                  exact refused _ _ _
  | _ => exact refused _ _ _

/-- A value of a type that comes without a writer of its own. -/
theorem value {v : Value} (hcodec : Γ.codec? (t.asked v) = none) :
    Γ.Layout (.whole t) v (encode Γ t v) := by
  cases v with
  | list vs => exact list hcodec
  | variant index vs => exact variants hcodec
  | scalar d =>
      rw [encode, hcodec]
      cases ht : t.deref with
      | scalar s => exact scalar d ht
      | _ => exact refused _ _ _
  | errorCode code =>
      rw [encode, hcodec]
      cases ht : t.deref with
      | errorCode => exact errorCode code ht
      | _ => exact refused _ _ _
  | absent =>
      rw [encode, hcodec]
      cases ht : t.deref with
      | option inner => exact absent ht
      | _ => exact refused _ _ _
  | present v =>
      rw [encode, hcodec]
      cases ht : t.deref with
      | option inner => exact present v ht
      | _ => exact refused _ _ _
  | shared id type body =>
      rw [encode, hcodec]
      cases ht : t.deref with
      | shared pointee =>
          dsimp only
          by_cases hpoint : canPoint pointee type = true
          · rw [if_pos hpoint]
            exact shared id body ht hpoint
          · rw [if_neg hpoint]
            exact refused _ _ _
      | _ => exact refused _ _ _
  | unique type body =>
      rw [encode, hcodec]
      cases ht : t.deref with
      | unique pointee =>
          dsimp only
          by_cases hpoint : canPoint pointee type = true
          · rw [if_pos hpoint]
            exact unique body ht hpoint
          · rw [if_neg hpoint]
            exact refused _ _ _
      | _ => exact refused _ _ _

/-- The fields of a base. -/
theorem base (t : Ty) (v : Value) : Γ.Layout (.fields t) v (encodeFields Γ t v) := by
  rw [encodeFields.eq_def]
  cases v with
  | list vs =>
      cases t with
      | named name args =>
          dsimp only
          cases hplan : Γ.plan? name with
          | none =>
              rw [writer?_of_no_plan hplan]
              exact refused _ _ _
          | some found =>
              obtain ⟨item, plan⟩ := found
              cases plan with
              | struct asMap marked =>
                  have hpart : Γ.writePart (.fields (.named name args)) (.list vs) = _ :=
                    writePart_fields hplan
                  rw [writePart, encodeFields] at hpart
                  rw [hpart]
                  exact fields vs hplan
              | bare | variants fieldss =>
                  rw [writer?_of_plan hplan]
                  exact refused _ _ _
      | _ => exact refused _ _ _
  | _ => exact refused _ _ _

end Layout

/-- What the writing of a part comes to, for any value at all. -/
theorem layout (Γ : Schema) (p : Part) (v : Value) : Γ.Layout p v (Γ.writePart p v) := by
  cases p with
  | whole t =>
      rw [writePart]
      cases hcodec : Γ.codec? (t.asked v) with
      | some codec =>
          rw [encode.eq_def]
          simp only [hcodec]
          refine .codec v ?_
          rw [Part.asked, partCodec?, Ty.deref_asked, hcodec]
      | none => exact .value hcodec
  | fields t => exact .base t v
  | rule path t =>
      rw [writePart]
      cases hrule : Γ.rule? path with
      | some codec => exact .codec v hrule
      | none => exact .refused _ _ _

end Schema

end ObjectStream
