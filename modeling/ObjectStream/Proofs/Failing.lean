import ObjectStream.Proofs.Local
import ObjectStream.Proofs.Still

/-!
# Readers that fail

What is read first decides how a sequence fails. A header or a scalar that fails
has put the cursor back and has moved nothing else, so the stream is as it was.
Where bytes are missing, the error says how many were wanted and how many are left.
-/

namespace ObjectStream

namespace Reader

variable {α : Type} {r t : InStream} {code : UInt8} {e : StreamError} {tail : List UInt8}

theorem rest_behind (hrest : r.rest = code :: tail) : (r.skip 1).rest = tail := by
  rw [InStream.rest_skip, hrest, List.drop_one, List.tail_cons]

/-- A reader that moves nothing but the cursor, and puts it back, has not moved when it fails. -/
theorem orRestore_failed {x : Reader α} (hx : Still (orRestore x)) (h : x r = .error e t) :
    orRestore x r = .error e r := by
  obtain ⟨pos, hpos⟩ := hx r
  simp only [stateAfter, orRestore, h, InStream.mk.injEq, ByteCursor.mk.injEq] at hpos ⊢
  obtain ⟨hcontext, ⟨hdata, -⟩, hshared, hnext, hjournal⟩ := hpos
  rw [InStream.pos, hcontext, hdata, hshared, hnext, hjournal]

/-- What is behind a code fails. -/
theorem headed_failed {g : UInt8 → Reader α} (hstill : Still (orRestore (byte >>= g)))
    (hrest : r.rest = code :: tail) (h : g code (r.skip 1) = .error e t) :
    orRestore (byte >>= g) r = .error e r := by
  have hbyte : byte r = .ok code (r.skip 1) := Takes.byte code r tail rfl hrest
  exact orRestore_failed hstill ((bind_of_ok hbyte).trans h)

theorem peek_failed (hrest : r.rest = []) : peek r = .error (.outOfRange 1 0) r := by
  have hremaining : r.cursor.remaining = 0 := by
    rw [← r.length_rest, hrest]
    rfl
  have hnone : r.cursor.data[r.cursor.pos]? = none := by
    rw [InStream.rest, List.drop_eq_nil_iff, length_unpacked] at hrest
    simpa [getElem?_def] using hrest
  simp only [peek, ByteCursor.peek, hnone, hremaining]

/-- There is no code. -/
theorem headed_empty {g : UInt8 → Reader α} (hstill : Still (orRestore (byte >>= g)))
    (hrest : r.rest = []) : orRestore (byte >>= g) r = .error (.outOfRange 1 0) r := by
  have hbyte : byte r = .error (.outOfRange 1 0) r := bind_failed (peek_failed hrest)
  exact orRestore_failed hstill (bind_failed hbyte)

theorem advance_failed {n : Nat} (h : r.rest.length < n) :
    advance n r = .error (.outOfRange n r.rest.length) r := by
  rw [r.length_rest] at h ⊢
  simp only [advance, ByteCursor.advance, ByteCursor.shortage?, if_pos h]

theorem raw_failed {n : Nat} (h : r.rest.length < n) :
    raw n r = .error (.outOfRange n r.rest.length) r := by
  rw [r.length_rest] at h ⊢
  simp only [raw, ByteCursor.take, ByteCursor.shortage?, if_pos h]

theorem number_failed {kind : NumberKind} (h : r.rest.length < kind.width) :
    number kind r = .error (.outOfRange kind.width r.rest.length) r := by
  rw [r.length_rest] at h ⊢
  simp only [number, ByteCursor.takeNumber, ByteCursor.take, ByteCursor.shortage?, if_pos h,
    Except.map]

theorem length_failed {kind : NumberKind} (h : r.rest.length < kind.width) :
    length kind r = .error (.outOfRange kind.width r.rest.length) r :=
  bind_failed (number_failed h)

end Reader

end ObjectStream
