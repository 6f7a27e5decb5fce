import Mathlib.Algebra.GroupWithZero.Nat
import ObjectStream.Proofs.Demand

/-!
# The grammar of values

A value is an atom with the values that belong to it: none behind a scalar, a
string, raw bytes or an extension, `n` behind the header of an array, and `2 * n`
behind that of a map. This is a recursion over values inside of values. Skipping
walks from left to right instead and only counts the values still to come; it takes
exactly what the grammar calls a value. Where it fails, a value has to start at the
code that starts none, or the stream ends inside of a value.
-/

namespace ObjectStream

mutual

inductive IsValue (order : ByteOrder) : List UInt8 → Prop
  | atom {atom : Atom} {f : Form} {inner : List UInt8} : atom.Spelled f →
      AreValues order atom.nested inner → IsValue order (f order ++ inner)

inductive AreValues (order : ByteOrder) : Nat → List UInt8 → Prop
  | none : AreValues order 0 []
  | more {n : Nat} {value rest : List UInt8} : IsValue order value → AreValues order n rest →
      AreValues order (n + 1) (value ++ rest)

end

mutual

/-- The bytes are the start of a value up to a place where a value has to start, which is the value
itself or one inside of it. -/
inductive ValueDue (order : ByteOrder) : List UInt8 → Prop
  | here : ValueDue order []
  | inside {atom : Atom} {f : Form} {inner : List UInt8} : atom.Spelled f →
      OneDue order atom.nested inner → ValueDue order (f order ++ inner)

/-- The bytes are the start of a number of values up to a place where one of them, or a value
inside of one, has to start. -/
inductive OneDue (order : ByteOrder) : Nat → List UInt8 → Prop
  | first {n : Nat} {start : List UInt8} : ValueDue order start → OneDue order (n + 1) start
  | later {n : Nat} {value start : List UInt8} : IsValue order value → OneDue order n start →
      OneDue order (n + 1) (value ++ start)

end

section Runs

variable {order : ByteOrder} {m n : Nat} {a b : List UInt8}

theorem areValues_one : AreValues order 1 a ↔ IsValue order a := by
  constructor
  · intro h
    cases h with
    | more hvalue hrest =>
        cases hrest
        rwa [List.append_nil]
  · intro h
    have hone : AreValues order 1 (a ++ []) := .more h .none
    rwa [List.append_nil] at hone

theorem oneDue_one : OneDue order 1 a ↔ ValueDue order a := by
  constructor
  · intro h
    cases h with
    | first h => exact h
    | later _ hrest => cases hrest
  · exact .first

theorem AreValues.split (h : AreValues order (n + m) a) :
    ∃ p q, a = p ++ q ∧ AreValues order m p ∧ AreValues order n q := by
  induction m generalizing a with
  | zero => exact ⟨[], a, rfl, .none, h⟩
  | succ m ih =>
      cases h with
      | @more _ value rest hvalue hrest =>
          obtain ⟨p, q, rfl, hp, hq⟩ := ih hrest
          exact ⟨value ++ p, q, (List.append_assoc _ _ _).symm, .more hvalue hp, hq⟩

/-- The next value to come may be inside of the ones at the front or behind them. -/
theorem OneDue.split (h : OneDue order (n + m) a) :
    OneDue order m a ∨ ∃ p q, a = p ++ q ∧ AreValues order m p ∧ OneDue order n q := by
  induction m generalizing a with
  | zero => exact .inr ⟨[], a, rfl, .none, h⟩
  | succ m ih =>
      cases h with
      | first h => exact .inl (.first h)
      | @later _ value start hvalue hstart =>
          rcases ih hstart with hfront | ⟨p, q, rfl, hp, hq⟩
          · exact .inl (.later hvalue hfront)
          · exact .inr ⟨value ++ p, q, (List.append_assoc _ _ _).symm, .more hvalue hp, hq⟩

/-- An atom in front of the values that belong to it and of others. -/
theorem AreValues.cons {atom : Atom} {f : Form} (hf : atom.Spelled f)
    (h : AreValues order (n + atom.nested) a) : AreValues order (n + 1) (f order ++ a) := by
  obtain ⟨p, q, rfl, hp, hq⟩ := h.split
  rw [← List.append_assoc]
  exact .more (.atom hf hp) hq

theorem OneDue.cons {atom : Atom} {f : Form} (hf : atom.Spelled f)
    (h : OneDue order (n + atom.nested) a) : OneDue order (n + 1) (f order ++ a) := by
  rcases h.split with hinside | ⟨p, q, rfl, hp, hq⟩
  · exact .first (.inside hf hinside)
  · rw [← List.append_assoc]
    exact .later (.atom hf hp) hq

/-- There are that many values. -/
theorem exists_areValues (order : ByteOrder) (n : Nat) : ∃ bytes, AreValues order n bytes := by
  induction n with
  | zero => exact ⟨[], .none⟩
  | succ n ih =>
      obtain ⟨bytes, h⟩ := ih
      exact ⟨_, .cons .nil h⟩

end Runs

/-! ## From the grammar to the walk -/

section Passing

variable {c : Context}

mutual

/-- Over a value the number of values still to come goes down by one. -/
theorem IsValue.passes {a : List UInt8} : IsValue c.byteOrder a → ∀ m, Passes c (m + 1) a m
  | .atom hf hinner, m => .step (Reader.Takes.stepOver_of_spelled hf) (hinner.passes m)

theorem AreValues.passes {n : Nat} {a : List UInt8} :
    AreValues c.byteOrder n a → ∀ m, Passes c (m + n) a m
  | .none, m => .refl m
  | .more hvalue hrest, m => (hvalue.passes _).trans (hrest.passes m)

end

mutual

/-- Where a value has to start, there is one still to come. -/
theorem ValueDue.passes {a : List UInt8} :
    ValueDue c.byteOrder a → ∀ m, ∃ k, Passes c (m + 1) a (k + 1)
  | .here, m => ⟨m, .refl (m + 1)⟩
  | .inside hf hinner, m =>
      have ⟨k, hk⟩ := hinner.passes m
      ⟨k, .step (Reader.Takes.stepOver_of_spelled hf) hk⟩

theorem OneDue.passes {n : Nat} {a : List UInt8} :
    OneDue c.byteOrder n a → ∀ m, ∃ k, Passes c (m + n) a (k + 1)
  | .first h, m => h.passes _
  | .later hvalue hstart, m =>
      have ⟨k, hk⟩ := hstart.passes m
      ⟨k, (hvalue.passes _).trans hk⟩

end

end Passing

namespace Reader

variable {r : InStream} {bytes tail : List UInt8}

/-- A value is skipped. -/
theorem skip_of_isValue (h : IsValue r.context.byteOrder bytes) (hrest : r.rest = bytes ++ tail) :
    skip r = .ok () (r.skip bytes.length) :=
  Takes.skip_iff.2 (h.passes 0) r tail rfl hrest

/-- The code that starts no value is refused where a value has to start. -/
theorem skip_of_valueDue (h : ValueDue r.context.byteOrder bytes)
    (hrest : r.rest = bytes ++ Format.unused :: tail) :
    ∃ t, skip r = .error (.type (.unexpected .value Format.unused)) t := by
  obtain ⟨k, hk⟩ := h.passes 0
  obtain ⟨fuel, hfuel⟩ : ∃ fuel, r.cursor.remaining + 1 = bytes.length + (fuel + 1) := by
    refine ⟨tail.length + 1, ?_⟩
    rw [← r.length_rest, hrest, List.length_append, List.length_cons]
    omega
  obtain ⟨more, hmore⟩ := skipMany_through hk rfl hrest (fuel + 1)
  have hbehind : (r.skip bytes.length).rest = Format.unused :: tail :=
    InStream.rest_skip_append hrest
  have hstep : stepOver (r.skip bytes.length) =
      .error (.type (.unexpected .value Format.unused)) (r.skip bytes.length) :=
    bind_of_ok (peek_of_rest hbehind)
  refine ⟨r.skip bytes.length, ?_⟩
  have hskip : skip r = skipMany (bytes.length + (fuel + 1)) 1 r := by
    rw [← hfuel]
    rfl
  rw [hskip, hmore, ← Nat.add_assoc, skipMany]
  exact bind_failed hstep

/-- What walking over a number of values can come to: values, or a place where one has to start and
the code that starts none, or the end of the stream inside of them. -/
theorem skipMany_cases {fuel : Nat} (pending : Nat) (hfuel : r.rest.length < fuel) :
    (∃ bytes tail, AreValues r.context.byteOrder pending bytes ∧ r.rest = bytes ++ tail ∧
      skipMany fuel pending r = .ok () (r.skip bytes.length)) ∨
    (∃ start tail t, OneDue r.context.byteOrder pending start ∧
      r.rest = start ++ Format.unused :: tail ∧
      skipMany fuel pending r = .error (.type (.unexpected .value Format.unused)) t) ∨
    (∃ more, more ≠ [] ∧ AreValues r.context.byteOrder pending (r.rest ++ more) ∧
      ∃ needed left t, skipMany fuel pending r = .error (.outOfRange needed left) t) := by
  induction fuel generalizing pending r with
  | zero => omega
  | succ fuel ih =>
      cases pending with
      | zero => exact .inl ⟨[], r.rest, .none, rfl, rfl⟩
      | succ pending =>
          rcases stepOver_cases r with ⟨atom, f, tail, hf, hrest, hstep⟩ |
            ⟨tail, hrest, hstep⟩ | ⟨atom, f, more, hf, hmore, hform, needed, left, t, hstep⟩
          · -- behind the atom are the values in it that are due and those that were
            have hwalk : skipMany (fuel + 1) (pending + 1) r =
                skipMany fuel (pending + atom.nested) (r.skip (f r.context.byteOrder).length) :=
              bind_of_ok hstep
            have hbehind := InStream.rest_skip_append hrest
            have hpos := List.length_pos_iff.2 (hf.opens r.context.byteOrder).ne_nil
            have hshorter : (r.skip (f r.context.byteOrder).length).rest.length < fuel := by
              rw [hrest, List.length_append] at hfuel
              rw [hbehind]
              omega
            rcases ih (pending + atom.nested) hshorter with ⟨bytes, tail', hvalues, hrest', hok⟩ |
              ⟨start, tail', t, hdue, hrest', herror⟩ | ⟨more, hmore, hvalues, hshort⟩
            · rw [hbehind] at hrest'
              refine .inl ⟨_, tail', .cons hf hvalues, ?_, ?_⟩
              · rw [hrest, hrest', List.append_assoc]
              · rw [hwalk, hok, InStream.skip_skip, List.length_append]
            · rw [hbehind] at hrest'
              refine .inr (.inl ⟨_, tail', t, .cons hf hdue, ?_, hwalk.trans herror⟩)
              rw [hrest, hrest', List.append_assoc]
            · rw [hbehind] at hvalues
              have hall : AreValues r.context.byteOrder (pending + 1) (r.rest ++ more) := by
                rw [hrest, List.append_assoc]
                exact .cons hf hvalues
              exact .inr (.inr ⟨more, hmore, hall, hwalk ▸ hshort⟩)
          · exact .inr (.inl ⟨[], tail, r, .first .here, hrest, bind_failed hstep⟩)
          · -- the stream ends inside of the atom, and any values complete it
            obtain ⟨bytes, hbytes⟩ :=
              exists_areValues r.context.byteOrder (pending + atom.nested)
            refine .inr (.inr ⟨more ++ bytes, List.append_ne_nil_of_left_ne_nil hmore bytes, ?_,
              needed, left, t, bind_failed hstep⟩)
            rw [← List.append_assoc, hform]
            exact .cons hf hbytes

/-- What skipping one value can come to. -/
theorem skip_cases (r : InStream) :
    (∃ bytes tail, IsValue r.context.byteOrder bytes ∧ r.rest = bytes ++ tail ∧
      skip r = .ok () (r.skip bytes.length)) ∨
    (∃ start tail t, ValueDue r.context.byteOrder start ∧
      r.rest = start ++ Format.unused :: tail ∧
      skip r = .error (.type (.unexpected .value Format.unused)) t) ∨
    (∃ more, more ≠ [] ∧ IsValue r.context.byteOrder (r.rest ++ more) ∧
      ∃ needed left t, skip r = .error (.outOfRange needed left) t) := by
  have hfuel : r.rest.length < r.cursor.remaining + 1 := by
    rw [r.length_rest]
    omega
  have hcases := skipMany_cases 1 hfuel
  simp only [areValues_one, oneDue_one] at hcases
  exact hcases

/-- A value of which only the start is there is not skipped: with the missing bytes the walk would
go on, and not end where it did. -/
theorem skip_of_part {more : List UInt8} (hmore : more ≠ [])
    (h : IsValue r.context.byteOrder (r.rest ++ more)) :
    ∃ needed left t, skip r = .error (.outOfRange needed left) t := by
  let s : InStream := .ofBytes r.context (packed (r.rest ++ more)) 0 none
  have hrest : s.rest = r.rest ++ more := rfl
  have hwhole := skip_of_isValue (r := s) h (List.append_nil _).symm
  rcases skip_cases r with ⟨bytes, tail, hvalue, hpart, -⟩ | ⟨start, tail, t, hdue, hpart, -⟩ |
    ⟨-, -, -, hshort⟩
  · have hstart : s.rest = bytes ++ (tail ++ more) := by rw [hrest, hpart, List.append_assoc]
    have hsooner := skip_of_isValue (r := s) hvalue hstart
    rw [hwhole] at hsooner
    have hlen := InStream.skip_inj (EStateM.Result.ok.inj hsooner).2
    have hpos := List.length_pos_iff.2 hmore
    rw [hpart, List.length_append, List.length_append] at hlen
    omega
  · have hstart : s.rest = start ++ Format.unused :: (tail ++ more) := by
      rw [hrest, hpart, List.append_assoc, List.cons_append]
    obtain ⟨t, ht⟩ := skip_of_valueDue (r := s) hdue hstart
    rw [hwhole] at ht
    cases ht
  · exact hshort

/-! ## An explicit stack -/

/-- Skips values by a stack of counts: those still to come in the innermost array or map, and in
each one around it. The fuel is a bound on the number of steps. -/
def skipStack : Nat → List Nat → Reader Unit
  | _, [] => pure ()
  | 0, _ :: _ => throw .tooDeep
  | fuel + 1, 0 :: stack => skipStack fuel stack
  | fuel + 1, (left + 1) :: stack => do
      let nested ← stepOver
      skipStack fuel (if 0 < nested then nested :: left :: stack else left :: stack)

/-- A count that is pushed adds to the values still to come. -/
theorem sum_pushed (nested left : Nat) (stack : List Nat) :
    (if 0 < nested then nested :: left :: stack else left :: stack).sum =
      left + stack.sum + nested := by
  split
  · rw [List.sum_cons, List.sum_cons, Nat.add_comm]
  · next hnone =>
    obtain rfl := Nat.eq_zero_of_not_pos hnone
    exact List.sum_cons

theorem length_pushed (nested left : Nat) (stack : List Nat) :
    (if 0 < nested then nested :: left :: stack else left :: stack).length ≤ stack.length + 2 := by
  split
  · exact Nat.le_refl _
  · exact Nat.le_succ _

/-- The counts on the stack add up to the number of values still to come. A step over a header
takes a byte and adds at most one count, which another step takes away again. -/
theorem skipStack_eq {fuel fuel' : Nat} {stack : List Nat}
    (hfuel : 2 * r.rest.length + stack.length < fuel) (hfuel' : r.rest.length < fuel') :
    skipStack fuel stack r = skipMany fuel' stack.sum r := by
  induction fuel generalizing r stack fuel' with
  | zero => omega
  | succ fuel ih =>
      cases stack with
      | nil =>
          rw [skipStack, List.sum_nil]
          cases fuel' <;> rfl
      | cons count stack =>
          rw [List.length_cons] at hfuel
          cases count with
          | zero =>
              rw [skipStack, List.sum_cons, Nat.zero_add]
              exact ih (by omega) hfuel'
          | succ left =>
              obtain ⟨fuel', rfl⟩ : ∃ k, fuel' = k + 1 := ⟨fuel' - 1, by omega⟩
              have hsum : ((left + 1) :: stack).sum = left + stack.sum + 1 := by
                rw [List.sum_cons, Nat.add_right_comm]
              rw [skipStack, hsum, skipMany]
              cases hstep : stepOver r with
              | error e t => rw [bind_failed hstep, bind_failed hstep]
              | ok nested t =>
                  rw [bind_of_ok hstep, bind_of_ok hstep]
                  obtain ⟨head, tail, hrest, rfl, -, hne⟩ := Bites.stepOver r nested t hstep
                  have hpos := List.length_pos_iff.2 hne
                  have hbehind := InStream.rest_skip_append hrest
                  rw [hrest, List.length_append] at hfuel hfuel'
                  rw [← sum_pushed]
                  have hlength := length_pushed nested left stack
                  refine ih ?_ ?_ <;> rw [hbehind] <;> omega

end Reader

structure SkipsByGrammar (r : InStream) : Prop where
  /-- It succeeds exactly behind one value. -/
  accepts : ∀ r', Reader.skip r = .ok () r' ↔ ∃ bytes tail,
    IsValue r.context.byteOrder bytes ∧ r.rest = bytes ++ tail ∧ r' = r.skip bytes.length
  /-- It fails with a type error exactly if the code that starts no value stands where a value has
  to start. -/
  refuses : (∃ fault t, Reader.skip r = .error (.type fault) t) ↔ ∃ start tail,
    ValueDue r.context.byteOrder start ∧ r.rest = start ++ Format.unused :: tail
  /-- It lacks bytes exactly if the stream ends inside of a value. -/
  lacks : (∃ needed left t, Reader.skip r = .error (.outOfRange needed left) t) ↔
    ∃ more, more ≠ [] ∧ IsValue r.context.byteOrder (r.rest ++ more)
  /-- It ends in one of these ways. -/
  ends : (∃ t, Reader.skip r = .ok () t) ∨
    (∃ t, Reader.skip r = .error (.type (.unexpected .value Format.unused)) t) ∨
    ∃ needed left t, Reader.skip r = .error (.outOfRange needed left) t
  /-- The walk by an explicit stack is the same, and takes at most two steps for each byte. -/
  stack : ∀ fuel, 2 * r.rest.length + 1 < fuel → Reader.skipStack fuel [1] r = Reader.skip r

theorem skip_by_grammar (r : InStream) : SkipsByGrammar r where
  accepts r' := by
    constructor
    · intro h
      rcases Reader.skip_cases r with ⟨bytes, tail, hvalue, hrest, hok⟩ |
        ⟨start, tail, t, -, -, herror⟩ | ⟨more, -, -, needed, left, t, herror⟩
      · rw [hok] at h
        cases h
        exact ⟨bytes, tail, hvalue, hrest, rfl⟩
      · rw [herror] at h
        cases h
      · rw [herror] at h
        cases h
    · rintro ⟨bytes, tail, hvalue, hrest, rfl⟩
      exact Reader.skip_of_isValue hvalue hrest
  refuses := by
    constructor
    · rintro ⟨fault, t, h⟩
      rcases Reader.skip_cases r with ⟨bytes, tail, -, -, hok⟩ |
        ⟨start, tail, t', hdue, hrest, -⟩ | ⟨more, -, -, needed, left, t', herror⟩
      · rw [hok] at h
        cases h
      · exact ⟨start, tail, hdue, hrest⟩
      · rw [herror] at h
        cases h
    · rintro ⟨start, tail, hdue, hrest⟩
      obtain ⟨t, ht⟩ := Reader.skip_of_valueDue hdue hrest
      exact ⟨_, t, ht⟩
  lacks := by
    constructor
    · rintro ⟨needed, left, t, h⟩
      rcases Reader.skip_cases r with ⟨bytes, tail, -, -, hok⟩ |
        ⟨start, tail, t', -, -, herror⟩ | ⟨more, hmore, hvalue, -⟩
      · rw [hok] at h
        cases h
      · rw [herror] at h
        cases h
      · exact ⟨more, hmore, hvalue⟩
    · rintro ⟨more, hmore, hvalue⟩
      exact Reader.skip_of_part hmore hvalue
  ends := by
    rcases Reader.skip_cases r with ⟨bytes, tail, -, -, h⟩ | ⟨start, tail, t, -, -, h⟩ |
      ⟨more, -, -, h⟩
    · exact .inl ⟨_, h⟩
    · exact .inr (.inl ⟨t, h⟩)
    · exact .inr (.inr h)
  stack fuel hfuel := Reader.skipStack_eq hfuel (by
    rw [r.length_rest]
    exact Nat.lt_succ_self _)

end ObjectStream
