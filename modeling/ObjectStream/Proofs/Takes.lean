import ObjectStream.Proofs.Form
import ObjectStream.Reader.Scalar

/-!
# Reading forms back

A reader takes a run of bytes for a value if, whenever the stream goes on with
these bytes, it returns the value and moves the cursor behind them, whatever
follows. Readers that take runs compose: the run of a sequence is that of its
first part and then that of its second.
-/

namespace ObjectStream

namespace InStream

def rest (r : InStream) : List UInt8 := (unpacked r.cursor.data).drop r.cursor.pos

def skip (r : InStream) (n : Nat) : InStream := { r with cursor := r.cursor.skip n }

@[simp] theorem rest_skip (r : InStream) (n : Nat) : (r.skip n).rest = r.rest.drop n := by
  simp [rest, skip, ByteCursor.skip]

@[simp] theorem context_skip (r : InStream) (n : Nat) : (r.skip n).context = r.context := rfl

@[simp] theorem shared_skip (r : InStream) (n : Nat) : (r.skip n).shared = r.shared := rfl

@[simp] theorem nextObject_skip (r : InStream) (n : Nat) :
    (r.skip n).nextObject = r.nextObject := rfl

@[simp] theorem skip_zero (r : InStream) : r.skip 0 = r := rfl

theorem skip_skip (r : InStream) (m n : Nat) : (r.skip m).skip n = r.skip (m + n) := by
  simp [skip, ByteCursor.skip, Nat.add_assoc]

theorem skip_inj {r : InStream} {m n : Nat} (h : r.skip m = r.skip n) : m = n := by
  have hpos := congrArg (fun s => s.cursor.pos) h
  simpa [skip, ByteCursor.skip] using hpos

theorem rest_skip_append {r : InStream} {bytes tail : List UInt8}
    (h : r.rest = bytes ++ tail) : (r.skip bytes.length).rest = tail := by
  simp [h]

theorem length_rest (r : InStream) : r.rest.length = r.cursor.remaining := by
  simp [rest, ByteCursor.remaining, ByteCursor.size, length_unpacked]

end InStream

namespace Reader

theorem peek_of_rest {r : InStream} {c : UInt8} {tail : List UInt8} (h : r.rest = c :: tail) :
    peek r = .ok c r := by
  have hget : (unpacked r.cursor.data)[r.cursor.pos]? = some c := by
    have := congrArg List.head? h
    rwa [InStream.rest, List.head?_drop] at this
  have hbyte : r.cursor.data[r.cursor.pos]? = some c := by
    rw [← hget]
    simp [unpacked, getElem?_def, ByteArray.getElem_eq_getElem_data]
  simp [peek, ByteCursor.peek, hbyte]

theorem advance_of_rest {r : InStream} {bytes tail : List UInt8} (h : r.rest = bytes ++ tail) :
    advance bytes.length r = .ok () (r.skip bytes.length) := by
  have hle : bytes.length ≤ r.cursor.remaining := by
    rw [← r.length_rest, h]
    simp
  have hshort := (r.cursor.shortage?_eq_none_iff bytes.length).2 hle
  simp only [advance, ByteCursor.advance, hshort]
  rfl

theorem raw_of_rest {r : InStream} {bytes tail : List UInt8} (h : r.rest = bytes ++ tail) :
    raw bytes.length r = .ok (packed bytes) (r.skip bytes.length) := by
  have hle : bytes.length ≤ r.cursor.remaining := by
    rw [← r.length_rest, h]
    simp
  have hshort := (r.cursor.shortage?_eq_none_iff bytes.length).2 hle
  have hwindow : r.cursor.window bytes.length = packed bytes := by
    apply ByteArray.ext
    apply Array.toList_inj.1
    have : (unpacked r.cursor.data).drop r.cursor.pos = bytes ++ tail := h
    simp only [unpacked] at this
    simp [ByteCursor.window, packed, ByteArray.data_extract, this]
  simp only [raw, ByteCursor.take, hshort, hwindow]
  rfl

theorem number_of_rest {r : InStream} {kind : NumberKind} {bytes tail : List UInt8}
    (h : r.rest = bytes ++ tail) (hlen : bytes.length = kind.width) :
    number kind r = .ok (kind.ofBytes r.context.byteOrder bytes) (r.skip kind.width) := by
  have hraw := raw_of_rest h
  rw [hlen] at hraw
  simp only [Reader.raw] at hraw
  simp only [Reader.number, ByteCursor.takeNumber]
  cases htake : r.cursor.take kind.width with
  | error e => simp [htake] at hraw
  | ok taken =>
      simp only [htake, EStateM.Result.ok.injEq] at hraw
      obtain ⟨hbytes, hcursor⟩ := hraw
      rw [← hcursor]
      simp only [Except.map, hbytes, unpacked_packed]

/-- Whenever the stream goes on with `bytes`, the reader returns `a` and moves behind them. -/
def Takes {α : Type} (c : Context) (x : Reader α) (bytes : List UInt8) (a : α) : Prop :=
  ∀ r tail, r.context = c → r.rest = bytes ++ tail → x r = .ok a (r.skip bytes.length)

namespace Takes

variable {α β : Type} {c : Context}

theorem pure (a : α) : Takes c (Pure.pure a) [] a := fun _ _ _ _ => rfl

theorem bind {x : Reader α} {f : α → Reader β} {p q : List UInt8} {a : α} {b : β}
    (hx : Takes c x p a) (hf : Takes c (f a) q b) : Takes c (x >>= f) (p ++ q) b := by
  intro r tail hc hrest
  have hp : r.rest = p ++ (q ++ tail) := by
    rw [hrest, List.append_assoc]
  have h1 := hx r _ hc hp
  have h2 := hf (r.skip p.length) tail hc (InStream.rest_skip_append hp)
  simp only [Bind.bind, EStateM.bind, h1, h2, InStream.skip_skip, List.length_append]

theorem map {x : Reader α} {p : List UInt8} {a : α} (f : α → β) (hx : Takes c x p a) :
    Takes c (f <$> x) p (f a) := by
  intro r tail hc hrest
  simp only [Functor.map, EStateM.map, hx r tail hc hrest]

theorem orRestore {x : Reader α} {p : List UInt8} {a : α} (hx : Takes c x p a) :
    Takes c (Reader.orRestore x) p a := by
  intro r tail hc hrest
  simp only [Reader.orRestore, hx r tail hc hrest]

/-- A check that holds takes no bytes. -/
theorem check {P : Prop} [Decidable P] {x y : Reader α} {p : List UInt8} {a : α} (h : P)
    (hx : Takes c x p a) : Takes c (if P then x else y) p a := by
  rw [if_pos h]
  exact hx

theorem byte (b : UInt8) : Takes c Reader.byte [b] b := by
  intro r tail _ hrest
  have hpeek := peek_of_rest hrest
  have hadvance : advance [b].length r = .ok () (r.skip [b].length) := advance_of_rest hrest
  simp only [Reader.byte, Bind.bind, EStateM.bind, hpeek]
  simp only [List.length_cons, List.length_nil] at hadvance
  rw [hadvance]
  rfl

theorem raw (bytes : List UInt8) : Takes c (Reader.raw bytes.length) bytes (packed bytes) :=
  fun _ _ _ hrest => raw_of_rest hrest

theorem number {kind : NumberKind} {value : Int} (h : kind.Holds value) :
    Takes c (Reader.number kind) (Form.number kind value c.byteOrder) value := by
  intro r tail hc hrest
  have hlen : (Form.number kind value c.byteOrder).length = kind.width := by simp
  rw [number_of_rest hrest hlen, hlen, hc, Form.number,
    NumberKind.ofBytes_bytes kind c.byteOrder value h]

theorem length {kind : NumberKind} {n : Nat} (h : kind.Holds n) :
    Takes c (Reader.length kind) (Form.number kind n c.byteOrder) n := by
  have := (number (c := c) h).bind (f := fun z => Pure.pure z.toNat) (Takes.pure (c := c) n)
  simpa [Reader.length] using this

end Takes

end Reader

end ObjectStream
