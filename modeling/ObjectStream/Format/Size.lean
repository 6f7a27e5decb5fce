import ObjectStream.Format.Code

/-!
# Sizes of the shortest forms

How many bytes the shortest form of a header or of an integer takes. A writer
makes sure of so much room before it writes the form, so that a form is written
whole or not at all.
-/

namespace ObjectStream

namespace Format.Size

def array (count : Nat) : Nat :=
  if count ≤ 15 then 1 else if count < 2 ^ 16 then 3 else 5

def map (count : Nat) : Nat := array count

def blob (length : Nat) : Nat :=
  if length < 2 ^ 8 then 2 else if length < 2 ^ 16 then 3 else 5

def str (length : Nat) : Nat :=
  if length ≤ 31 then 1 else blob length

/-- The size of the header of an extension, its subtype included. -/
def ext (length : Nat) : Nat :=
  match fixext? length with
  | some _ => 2
  | none => blob length + 1

def uint (value : Nat) : Nat :=
  if value < 2 ^ 7 then 1
  else if value < 2 ^ 8 then 2
  else if value < 2 ^ 16 then 3
  else if value < 2 ^ 32 then 5
  else 9

def int (value : Int) : Nat :=
  if 0 ≤ value then uint value.toNat
  else if -32 ≤ value then 1
  else if -2 ^ 7 ≤ value then 2
  else if -2 ^ 15 ≤ value then 3
  else if -2 ^ 31 ≤ value then 5
  else 9

end Format.Size

end ObjectStream
