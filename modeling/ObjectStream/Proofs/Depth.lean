import ObjectStream.Proofs.Shape

/-!
# The bound on the depth

Reading is bounded in its depth, and only a failure can come of the bound: what is
read under a bound is read in the same way under every larger one. A reader that
extends another one does what that does wherever it succeeds. The pieces of all
reading keep extensions, so a step of the reading of values does.
-/

namespace ObjectStream

namespace Reader

variable {α β : Type}

/-- Where the first reader succeeds, the second one does the same. -/
def Extends (x y : Reader α) : Prop := ∀ r a r', x r = .ok a r' → y r = .ok a r'

namespace Extends

variable {x y : Reader α} {f g : α → Reader β} {value value' : Ty → Reader Value}

theorem refl (x : Reader α) : Extends x x := fun _ _ _ h => h

theorem bind (hx : Extends x y) (hf : ∀ a, Extends (f a) (g a)) :
    Extends (x >>= f) (y >>= g) := by
  intro r b r' h
  obtain ⟨a, t, hxr, hft⟩ := bind_ok h
  simp only [Bind.bind, EStateM.bind, hx r a t hxr]
  exact hf a t b r' hft

/-- What comes first is the same. -/
theorem behind (x : Reader α) (hf : ∀ a, Extends (f a) (g a)) : Extends (x >>= f) (x >>= g) :=
  (refl x).bind hf

theorem ite {P : Prop} [Decidable P] {x' y' : Reader α} (h : Extends x y) (h' : Extends x' y') :
    Extends (if P then x else x') (if P then y else y') := by
  by_cases hp : P
  · rw [if_pos hp, if_pos hp]
    exact h
  · rw [if_neg hp, if_neg hp]
    exact h'

/-! ## Options and pointers -/

theorem nilOr {x y : Reader Value} (h : Extends x y) : Extends (Reader.nilOr x) (Reader.nilOr y) :=
  behind _ fun _ => ite (refl _) (h.bind fun _ => refl _)

theorem build (h : ∀ t, Extends (value t) (value' t)) (registry : Registry) (tag : TypeTag)
    (target : Ty) :
    Extends (Reader.build registry tag target value) (Reader.build registry tag target value') := by
  unfold Reader.build
  split
  · exact refl _
  · exact behind _ fun _ => (h _).bind fun _ => refl _

theorem makeShared (h : ∀ t, Extends (value t) (value' t)) (tag : TypeTag) (target : Ty) :
    Extends (Reader.makeShared tag target value) (Reader.makeShared tag target value') :=
  behind _ fun _ => (build h _ tag target).bind fun _ => refl _

theorem sharedBehind (h : ∀ t, Extends (value t) (value' t)) (tag : TypeTag) (target : Ty) :
    Extends (Reader.sharedBehind tag target value) (Reader.sharedBehind tag target value') := by
  have hmake := makeShared h tag target
  refine behind _ fun _ => ite (behind _ fun _ => ite (refl _) ?_) hmake
  exact behind _ fun _ => hmake.bind fun _ => refl _

/-- Whatever is made of the pieces of reading reads what it read, if the values inside are read as
they were. -/
theorem of_shape {foreign : Reader Value → Prop} {front : Ty → Prop}
    {X : (Ty → Reader Value) → Reader α} (hX : Shape foreign front X)
    (h : ∀ t, Extends (value t) (value' t)) : Extends (X value) (X value') := by
  induction hX with
  | pure | throw | head | context | note | foreign => exact refl _
  | bind _ _ ihX ihF => exact ihX.bind ihF
  | behind _ _ ih => exact behind _ ih
  | value _ => exact h _
  | nilOr _ ih => exact ih.nilOr
  | sharedBehind tag target => exact sharedBehind h tag target

end Extends

end Reader

open Reader

/-- What is read under a bound is read in the same way under a larger one. -/
theorem extends_decodeWithin (Γ : Schema) {depth depth' : Nat} (hle : depth ≤ depth') (t : Ty) :
    Extends (decodeWithin Γ depth t) (decodeWithin Γ depth' t) := by
  induction depth generalizing depth' t with
  | zero =>
      intro r v r' h
      cases h
  | succ depth ih =>
      cases depth' with
      | zero => cases hle
      | succ depth' => exact .of_shape (.decodeStep t) (ih (Nat.le_of_succ_le_succ hle))

/-- What is read at all is read in the same way under every bound that its bytes allow. -/
theorem decodeWithin_of_decode {Γ : Schema} {t : Ty} {r r' : InStream} {v : Value} {depth : Nat}
    (h : decode Γ t r = .ok v r') (hdepth : depthBound r.rest.length ≤ depth) :
    decodeWithin Γ depth t r = .ok v r' := by
  rw [r.length_rest] at hdepth
  exact extends_decodeWithin Γ hdepth t r v r' h

end ObjectStream
