import Mathlib.Logic.Function.Basic
import ObjectStream.Hex

/-!
# Dumps lose nothing

A dump is made for the eye, and still its columns alone give the bytes back. Only
digits stand in front of the colon of a line and only printable characters behind
its columns, so no byte can break a line or look like a column: the lines are found
at the newlines, the columns behind the colon, and the blanks of a short line end
its columns where its bytes end.
-/

namespace ObjectStream

namespace Hex

/-! ## Reading a dump -/

/-- The bytes in the first columns of a line, up to a blank column. -/
def columns? : Nat → List Char → Option (List UInt8)
  | 0, _ => some []
  | n + 1, high :: low :: _ :: rest =>
      if high = ' ' then some []
      else do
        let byte ← ofDigits? [high, low]
        let bytes ← columns? n rest
        pure (UInt8.ofNat byte :: bytes)
  | _ + 1, _ => none

/-- The bytes of a line. Its columns start behind the colon and a blank. -/
def lineBytes? (line : List Char) : Option (List UInt8) :=
  columns? lineLength ((line.dropWhile (· ≠ ':')).drop 2)

def textLines (text : String) : List (List Char) := (text.toList.splitOn '\n').dropLast

/-- The bytes that a dump lists. -/
def undump? (text : String) : Option (List UInt8) := do
  let chunks ← (textLines text).mapM lineBytes?
  pure chunks.flatten

/-! ## The shape of a dump -/

/-- A line for some bytes with the first of them at an offset: at least eight digits, a colon and a
blank, 49 characters, and a character for each byte, which is never a control character. -/
def IsLine (offset : Nat) (bytes : List UInt8) (line : List Char) : Prop :=
  ∃ number columns characters, line = number ++ [':', ' '] ++ columns ++ characters ∧
    8 ≤ number.length ∧ ofDigits? number = some offset ∧ columns.length = 49 ∧
    characters = bytes.map printable ∧ ∀ c ∈ characters, 0x20 ≤ c.toNat ∧ c.toNat ≤ 0x7e

/-- A text lists bytes: every line has a newline behind it and sixteen bytes, the last one what is
left of them, and the bytes can be read off the columns. -/
structure Listing (bytes : List UInt8) (text : String) : Prop where
  newlines : text.toList = (textLines text).flatMap (· ++ ['\n'])
  count : (textLines text).length = (bytes.length + 15) / 16
  lines : ∀ i line, (textLines text)[i]? = some line →
    IsLine (16 * i) ((bytes.drop (16 * i)).take 16) line
  columns : undump? text = some bytes

/-! ## Digits -/

def IsDigit (c : Char) : Prop := ∃ n < 16, c = digit n

theorem IsDigit.ne {c : Char} (h : IsDigit c) : c ≠ ' ' ∧ c ≠ ':' ∧ c ≠ '\n' := by
  obtain ⟨n, hn, rfl⟩ := h
  revert n
  decide

theorem isDigit_digitsOnto {fuel n : Nat} {tail : List Char} (htail : ∀ c ∈ tail, IsDigit c) :
    ∀ c ∈ digitsOnto fuel n tail, IsDigit c := by
  induction fuel generalizing n tail with
  | zero => exact htail
  | succ fuel ih =>
      rw [digitsOnto]
      split
      · next hn => exact List.forall_mem_cons.2 ⟨⟨n, hn, rfl⟩, htail⟩
      · exact ih (List.forall_mem_cons.2 ⟨⟨n % 16, Nat.mod_lt n (by decide), rfl⟩, htail⟩)

theorem isDigit_padded (width n : Nat) : ∀ c ∈ padded width n, IsDigit c := by
  intro c hc
  rw [padded, List.mem_append] at hc
  rcases hc with hzero | hdigit
  · exact ⟨0, by decide, List.eq_of_mem_replicate hzero⟩
  · exact isDigit_digitsOnto (List.forall_mem_nil _) c hdigit

theorem le_length_padded (width n : Nat) : width ≤ (padded width n).length := by
  rw [padded, List.length_append, List.length_replicate]
  omega

/-- Leading zeros do not change the number. -/
theorem ofDigits?_padded (width n : Nat) : ofDigits? (padded width n) = some n := by
  have hzeros (k : Nat) : ofDigits? (List.replicate k '0' ++ digits n) = some n := by
    induction k with
    | zero => exact ofDigits?_digits n
    | succ k ih => exact ih
  exact hzeros _

theorem isDigit_byte (b : UInt8) : ∀ c ∈ byte b, IsDigit c := by
  have hhigh : b.toNat / 16 < 16 := Nat.div_lt_of_lt_mul b.toNat_lt
  have hlow : b.toNat % 16 < 16 := Nat.mod_lt _ (by decide)
  exact List.forall_mem_cons.2 ⟨⟨_, hhigh, rfl⟩, List.forall_mem_singleton.2 ⟨_, hlow, rfl⟩⟩

/-! ## Lines -/

theorem printable_range (b : UInt8) : 0x20 ≤ (printable b).toNat ∧ (printable b).toNat ≤ 0x7e := by
  have hall : ∀ n < 256, 0x20 ≤ (printable (UInt8.ofNat n)).toNat ∧
      (printable (UInt8.ofNat n)).toNat ≤ 0x7e := by decide +kernel
  have hb := hall b.toNat b.toNat_lt
  rwa [UInt8.ofNat_toNat] at hb

def columnText (bytes : List UInt8) : List Char :=
  bytes.flatMap (fun b => byte b ++ [' ']) ++
    List.replicate (3 * (lineLength - bytes.length)) ' ' ++ [' ']

def lineText (offset : Nat) (bytes : List UInt8) : List Char :=
  padded 8 offset ++ [':', ' '] ++ columnText bytes ++ bytes.map printable

theorem line_eq (offset : Nat) (bytes : List UInt8) :
    line offset bytes = lineText offset bytes ++ ['\n'] := by
  simp only [line, lineText, columnText, List.append_assoc]

variable {bytes : List UInt8} {offset : Nat}

theorem length_columnText (h : bytes.length ≤ lineLength) : (columnText bytes).length = 49 := by
  have hcolumns : (bytes.flatMap fun b => byte b ++ [' ']).length = 3 * bytes.length := by
    induction bytes with
    | nil => rfl
    | cons b bytes ih =>
        rw [List.flatMap_cons, List.length_append, ih (Nat.le_of_succ_le h), List.length_cons,
          Nat.mul_succ, Nat.add_comm]
        rfl
  rw [columnText, List.length_append, List.length_append, hcolumns, List.length_replicate]
  rw [lineLength] at h ⊢
  simp only [List.length_singleton]
  omega

theorem isLine_lineText (h : bytes.length ≤ lineLength) :
    IsLine offset bytes (lineText offset bytes) := by
  refine ⟨padded 8 offset, columnText bytes, bytes.map printable, rfl, le_length_padded 8 offset,
    ofDigits?_padded 8 offset, length_columnText h, rfl, fun c hc => ?_⟩
  obtain ⟨b, -, rfl⟩ := List.mem_map.1 hc
  exact printable_range b

/-- No byte breaks a line. -/
theorem newline_not_mem_lineText : '\n' ∉ lineText offset bytes := by
  intro hmem
  have hblank : ∀ c ∈ columnText bytes, IsDigit c ∨ c = ' ' := by
    intro c hc
    rw [columnText, List.mem_append, List.mem_append, List.mem_flatMap] at hc
    rcases hc with (⟨b, -, hbyte⟩ | hpad) | hlast
    · rw [List.mem_append] at hbyte
      exact hbyte.imp (isDigit_byte b c) List.mem_singleton.1
    · exact .inr (List.eq_of_mem_replicate hpad)
    · exact .inr (List.mem_singleton.1 hlast)
  rw [lineText, List.mem_append, List.mem_append, List.mem_append] at hmem
  rcases hmem with ((hnumber | hcolon) | hcolumns) | hprintable
  · exact (isDigit_padded 8 offset _ hnumber).ne.2.2 rfl
  · revert hcolon
    decide
  · rcases hblank _ hcolumns with hdigit | hspace
    · exact hdigit.ne.2.2 rfl
    · revert hspace
      decide
  · obtain ⟨b, -, hb⟩ := List.mem_map.1 hprintable
    have hrange := printable_range b
    rw [hb] at hrange
    revert hrange
    decide

/-- A column is taken off, and the columns behind it are read on. -/
theorem columns?_byte (n : Nat) (b : UInt8) (rest : List Char) :
    columns? (n + 1) (byte b ++ [' '] ++ rest) = (b :: ·) <$> columns? n rest := by
  have hblank : digit (b.toNat / 16) ≠ ' ' := (isDigit_byte b _ List.mem_cons_self).ne.1
  have hbyte := ofDigits?_byte b
  rw [byte] at hbyte ⊢
  simp only [List.cons_append, List.nil_append, columns?, if_neg hblank, hbyte]
  cases columns? n rest with
  | none => rfl
  | some bytes => simp

/-- Whatever stands behind the columns, they are read up to the first blank one or to the last. -/
theorem columns?_columnText {n : Nat} (h : bytes.length ≤ n) (rest : List Char) :
    columns? n (bytes.flatMap (fun b => byte b ++ [' ']) ++
      List.replicate (3 * (n - bytes.length)) ' ' ++ rest) = some bytes := by
  induction bytes generalizing n with
  | nil =>
      cases n with
      | zero => rfl
      | succ n => rfl
  | cons b bytes ih =>
      cases n with
      | zero => cases h
      | succ n =>
          rw [List.length_cons, Nat.add_sub_add_right, List.flatMap_cons, List.append_assoc,
            List.append_assoc, columns?_byte, ← List.append_assoc, ih (Nat.le_of_succ_le_succ h)]
          rfl

theorem lineBytes?_lineText (h : bytes.length ≤ lineLength) :
    lineBytes? (lineText offset bytes) = some bytes := by
  have hnumber : ∀ c ∈ padded 8 offset, (c ≠ ':') = true := fun c hc => by
    simpa using (isDigit_padded 8 offset c hc).ne.2.1
  have hcolon : ((lineText offset bytes).dropWhile (· ≠ ':')).drop 2 =
      columnText bytes ++ bytes.map printable := by
    rw [lineText, List.append_assoc, List.append_assoc,
      List.dropWhile_append_of_pos (by simpa using hnumber)]
    rfl
  rw [lineBytes?, hcolon, columnText, List.append_assoc]
  exact columns?_columnText h _

/-! ## Dumps -/

def chunk (bytes : List UInt8) (i : Nat) : List UInt8 := (bytes.drop (16 * i)).take 16

theorem length_chunk_le (bytes : List UInt8) (i : Nat) : (chunk bytes i).length ≤ lineLength :=
  List.length_take_le _ _

theorem chunk_succ (bytes : List UInt8) (i : Nat) :
    chunk bytes (i + 1) = chunk (bytes.drop 16) i := by
  rw [chunk, chunk, List.drop_drop, Nat.mul_succ, Nat.add_comm]

def lineCount (n : Nat) : Nat := (n + 15) / 16

theorem lineCount_drop (h : bytes ≠ []) :
    lineCount bytes.length = lineCount (bytes.drop 16).length + 1 := by
  have hpos := List.length_pos_iff.2 h
  rw [List.length_drop, lineCount, lineCount]
  omega

/-- The lines of a dump, one for each sixteen bytes. -/
theorem lines_eq {fuel : Nat} (h : bytes.length ≤ fuel) :
    lines fuel offset bytes = (List.range (lineCount bytes.length)).map fun i =>
      line (offset + 16 * i) (chunk bytes i) := by
  -- With the first line taken off, the others are those of the rest from sixteen further on.
  induction fuel generalizing offset bytes with
  | zero =>
      obtain rfl := List.eq_nil_of_length_eq_zero (Nat.le_zero.1 h)
      rfl
  | succ fuel ih =>
      rw [lines]
      cases hbytes : bytes with
      | nil => rfl
      | cons b tail =>
          rw [← hbytes]
          have hne : bytes ≠ [] := hbytes ▸ List.cons_ne_nil b tail
          have hdrop : (bytes.drop lineLength).length ≤ fuel := by
            rw [List.length_drop, lineLength]
            omega
          rw [if_neg (by simpa using hne), ih hdrop, lineCount_drop hne, List.range_succ_eq_map,
            List.map_cons, List.map_map]
          refine congrArg₂ List.cons rfl (List.map_congr_left fun i _ => ?_)
          rw [Function.comp_apply, chunk_succ, lineLength, Nat.mul_succ, Nat.add_assoc,
            Nat.add_comm 16]

/-- The chunks are the bytes. -/
theorem flatten_chunks (bytes : List UInt8) :
    ((List.range (lineCount bytes.length)).map (chunk bytes)).flatten = bytes := by
  induction h : bytes.length using Nat.strongRecOn generalizing bytes with
  | _ n ih =>
    subst h
    cases hbytes : bytes with
    | nil => rfl
    | cons b tail =>
        rw [← hbytes]
        have hne : bytes ≠ [] := hbytes ▸ List.cons_ne_nil b tail
        have hshorter : (bytes.drop 16).length < bytes.length := by
          have hpos := List.length_pos_iff.2 hne
          rw [List.length_drop]
          omega
        have hrest := ih _ hshorter (bytes.drop 16) rfl
        rw [lineCount_drop hne, List.range_succ_eq_map, List.map_cons, List.map_map,
          List.flatten_cons]
        have hbehind : (chunk bytes ∘ Nat.succ) = chunk (bytes.drop 16) :=
          funext fun i => chunk_succ bytes i
        rw [hbehind, hrest]
        exact List.take_append_drop 16 bytes

/-- Pieces without a newline are found again between the newlines. -/
theorem splitOn_newlines (pieces : List (List Char)) (h : ∀ piece ∈ pieces, '\n' ∉ piece) :
    (pieces.flatMap (· ++ ['\n'])).splitOn '\n' = pieces ++ [[]] := by
  induction pieces with
  | nil => rfl
  | cons piece pieces ih =>
      obtain ⟨hpiece, hpieces⟩ := List.forall_mem_cons.1 h
      have hnone : ∀ c ∈ piece, (c == '\n') = false := fun c hc =>
        beq_eq_false_iff_ne.2 fun heq => hpiece (heq ▸ hc)
      rw [List.flatMap_cons, List.append_assoc, List.singleton_append, List.splitOn,
        List.splitOnP_append_cons_of_forall_mem hnone '\n' (beq_self_eq_true _), ← List.splitOn,
        ih hpieces]
      rfl

theorem toList_dump (bytes : List UInt8) : (dump bytes).toList =
    ((List.range (lineCount bytes.length)).map fun i => lineText (16 * i) (chunk bytes i)).flatMap
      (· ++ ['\n']) := by
  rw [dump, String.toList_ofList, lines_eq (Nat.le_refl _), List.flatMap_map, ← List.flatMap_def]
  simp only [line_eq, Nat.zero_add]

theorem textLines_dump (bytes : List UInt8) : textLines (dump bytes) =
    (List.range (lineCount bytes.length)).map fun i => lineText (16 * i) (chunk bytes i) := by
  rw [textLines, toList_dump, splitOn_newlines, List.dropLast_concat]
  intro piece hpiece
  obtain ⟨i, -, rfl⟩ := List.mem_map.1 hpiece
  exact newline_not_mem_lineText

theorem undump?_dump (bytes : List UInt8) : undump? (dump bytes) = some bytes := by
  have hlines (is : List Nat) :
      (is.map fun i => lineText (16 * i) (chunk bytes i)).mapM lineBytes? =
        some (is.map (chunk bytes)) := by
    induction is with
    | nil => rfl
    | cons i is ih =>
        rw [List.map_cons, List.mapM_cons, lineBytes?_lineText (length_chunk_le bytes i), ih]
        rfl
  rw [undump?, textLines_dump, hlines]
  exact congrArg some (flatten_chunks bytes)

/-- The dump of a byte string lists it, and two byte strings never have the same dump. -/
theorem listing_dump : (∀ bytes, Listing bytes (dump bytes)) ∧ Function.Injective dump := by
  constructor
  · intro bytes
    have hlines := textLines_dump bytes
    refine ⟨?_, ?_, fun i line hline => ?_, undump?_dump bytes⟩
    · rw [hlines]
      exact toList_dump bytes
    · rw [hlines, List.length_map, List.length_range, lineCount]
    · rw [hlines, List.getElem?_map, Option.map_eq_some_iff] at hline
      obtain ⟨j, hj, rfl⟩ := hline
      obtain ⟨-, rfl⟩ := List.getElem?_eq_some_iff.1 hj
      rw [List.getElem_range]
      exact isLine_lineText (length_chunk_le bytes i)
  · intro a b hab
    have hbytes := undump?_dump a
    rw [hab, undump?_dump] at hbytes
    exact (Option.some.inj hbytes).symm

/-- A space, a newline and a byte outside of the printable ones. -/
example : dump [0x20, 0x0a, 0xff] =
    "00000000: 20 0a ff                                          ..\n" := by
  decide +kernel

end Hex

end ObjectStream
