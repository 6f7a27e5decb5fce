/-!
# Hexadecimal

Lower-case digits of numbers and bytes, and the dump of a byte string: sixteen
bytes a line, the offset of the line in front and the printable characters
behind.
-/

namespace ObjectStream

namespace Hex

def digit (n : Nat) : Char :=
  if n < 10 then Char.ofNat (48 + n) else Char.ofNat (87 + n)

def value? (c : Char) : Option Nat :=
  if '0' ≤ c ∧ c ≤ '9' then some (c.toNat - 48)
  else if 'a' ≤ c ∧ c ≤ 'f' then some (c.toNat - 87)
  else if 'A' ≤ c ∧ c ≤ 'F' then some (c.toNat - 55)
  else none

/-- The digits of `n`, without leading zeros, put in front of `tail`. The fuel is a bound on
their number. -/
def digitsOnto : Nat → Nat → List Char → List Char
  | 0, _, tail => tail
  | fuel + 1, n, tail =>
      if n < 16 then digit n :: tail else digitsOnto fuel (n / 16) (digit (n % 16) :: tail)

/-- The digits of `n` without leading zeros; zero is the one digit `0`. -/
def digits (n : Nat) : List Char := digitsOnto (n + 1) n []

def padded (width n : Nat) : List Char :=
  let ds := digits n
  List.replicate (width - ds.length) '0' ++ ds

def byte (b : UInt8) : List Char := [digit (b.toNat / 16), digit (b.toNat % 16)]

def ofDigits? (cs : List Char) : Option Nat :=
  cs.foldlM (fun n c => (value? c).map (16 * n + ·)) 0

def text (bytes : List UInt8) : String := String.ofList (bytes.flatMap byte)

theorem value?_digit {n : Nat} (h : n < 16) : value? (digit n) = some n := by
  revert n
  decide

/-- Digits in front of others are read as the number from which the reading goes on. -/
theorem foldlM_digitsOnto (fuel n : Nat) (tail : List Char) (h : n < fuel) :
    (digitsOnto fuel n tail).foldlM (fun n c => (value? c).map (16 * n + ·)) 0 =
      tail.foldlM (fun n c => (value? c).map (16 * n + ·)) n := by
  induction fuel generalizing n tail with
  | zero => omega
  | succ fuel ih =>
      rw [digitsOnto]
      split
      · next hn => simp [value?_digit hn]
      · next hn =>
          rw [ih (n / 16) (digit (n % 16) :: tail) (by omega)]
          have hlow : n % 16 < 16 := Nat.mod_lt n (by decide)
          simp [value?_digit hlow, Nat.div_add_mod]

theorem ofDigits?_digits (n : Nat) : ofDigits? (digits n) = some n := by
  rw [ofDigits?, digits, foldlM_digitsOnto (n + 1) n [] (Nat.lt_succ_self n)]
  rfl

theorem ofDigits?_byte (b : UInt8) : ofDigits? (byte b) = some b.toNat := by
  have hhigh : b.toNat / 16 < 16 := by
    have := b.toNat_lt
    omega
  have hlow : b.toNat % 16 < 16 := Nat.mod_lt _ (by decide)
  simp [ofDigits?, byte, value?_digit hhigh, value?_digit hlow, Nat.div_add_mod]

/-! ## Dumps -/

def lineLength : Nat := 16

/-- The character that stands for a byte in the last column: itself from the space to the
tilde, a full stop otherwise. -/
def printable (b : UInt8) : Char :=
  if 0x20 ≤ b ∧ b ≤ 0x7e then Char.ofNat b.toNat else '.'

/-- One line: the offset, each byte with a space behind it, the missing bytes as blanks, one
more space, and the characters. -/
def line (offset : Nat) (bytes : List UInt8) : List Char :=
  padded 8 offset ++ [':', ' '] ++ bytes.flatMap (fun b => byte b ++ [' ']) ++
    List.replicate (3 * (lineLength - bytes.length)) ' ' ++ [' '] ++ bytes.map printable ++ ['\n']

/-- The lines of a byte string whose first byte has the given offset. The fuel is a bound on
their number. -/
def lines : Nat → Nat → List UInt8 → List (List Char)
  | 0, _, _ => []
  | fuel + 1, offset, bytes =>
      if bytes.isEmpty then []
      else line offset (bytes.take lineLength) ::
        lines fuel (offset + lineLength) (bytes.drop lineLength)

def dump (bytes : List UInt8) : String :=
  String.ofList (lines bytes.length 0 bytes).flatten

end Hex

end ObjectStream
