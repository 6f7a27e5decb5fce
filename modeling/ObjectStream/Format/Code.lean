/-!
# Codes

Every value starts with a code byte. Some codes carry their payload inline
(small integers, short arrays, maps and strings), and are given here by the
first of their range; the others are followed by a length or a number of fixed
width in the byte order of the stream. The family of a code is the kind of value
that it starts. Each of the 256 bytes has one, also `unused`, which starts no
value.
-/

namespace ObjectStream

namespace Format

/-- The kind of value that a code starts. -/
inductive Family
  | positiveFixint
  | negativeFixint
  | map
  | array
  | str
  | bin
  | ext
  | nil
  | bool
  | float32
  | float64
  | uint
  | int
  | unused
  deriving DecidableEq, Repr

def Family.label : Family → String
  | .positiveFixint => "PositiveFixint"
  | .negativeFixint => "NegativeFixint"
  | .map => "Map"
  | .array => "Array"
  | .str => "Str"
  | .bin => "Bin"
  | .ext => "Ext"
  | .nil => "Nil"
  | .bool => "Bool"
  | .float32 => "Float32"
  | .float64 => "Float64"
  | .uint => "Uint"
  | .int => "Int"
  | .unused => "Unused"

def Family.isInteger : Family → Bool
  | .positiveFixint | .negativeFixint | .uint | .int => true
  | _ => false

/-! ## The codes -/

def fixmap : UInt8 := 0x80
def fixarray : UInt8 := 0x90
def fixstr : UInt8 := 0xa0
def nil : UInt8 := 0xc0
def unused : UInt8 := 0xc1
def falseCode : UInt8 := 0xc2
def trueCode : UInt8 := 0xc3
def bin8 : UInt8 := 0xc4
def bin16 : UInt8 := 0xc5
def bin32 : UInt8 := 0xc6
def ext8 : UInt8 := 0xc7
def ext16 : UInt8 := 0xc8
def ext32 : UInt8 := 0xc9
def float32 : UInt8 := 0xca
def float64 : UInt8 := 0xcb
def uint8 : UInt8 := 0xcc
def uint16 : UInt8 := 0xcd
def uint32 : UInt8 := 0xce
def uint64 : UInt8 := 0xcf
def int8 : UInt8 := 0xd0
def int16 : UInt8 := 0xd1
def int32 : UInt8 := 0xd2
def int64 : UInt8 := 0xd3
def fixext1 : UInt8 := 0xd4
def fixext2 : UInt8 := 0xd5
def fixext4 : UInt8 := 0xd6
def fixext8 : UInt8 := 0xd7
def fixext16 : UInt8 := 0xd8
def str8 : UInt8 := 0xd9
def str16 : UInt8 := 0xda
def str32 : UInt8 := 0xdb
def array16 : UInt8 := 0xdc
def array32 : UInt8 := 0xdd
def map16 : UInt8 := 0xde
def map32 : UInt8 := 0xdf

def family (code : UInt8) : Family :=
  if code ≤ 0x7f then .positiveFixint
  else if code ≤ 0x8f then .map
  else if code ≤ 0x9f then .array
  else if code ≤ 0xbf then .str
  else if code ≥ 0xe0 then .negativeFixint
  else match code with
    | 0xc0 => .nil
    | 0xc1 => .unused
    | 0xc2 | 0xc3 => .bool
    | 0xc4 | 0xc5 | 0xc6 => .bin
    | 0xc7 | 0xc8 | 0xc9 => .ext
    | 0xca => .float32
    | 0xcb => .float64
    | 0xcc | 0xcd | 0xce | 0xcf => .uint
    | 0xd0 | 0xd1 | 0xd2 | 0xd3 => .int
    | 0xd4 | 0xd5 | 0xd6 | 0xd7 | 0xd8 => .ext
    | 0xd9 | 0xda | 0xdb => .str
    | 0xdc | 0xdd => .array
    | _ => .map

def name (code : UInt8) : String :=
  if code ≤ 0x7f then "positive_fixint"
  else if code ≤ 0x8f then "fixmap"
  else if code ≤ 0x9f then "fixarray"
  else if code ≤ 0xbf then "fixstr"
  else if code ≥ 0xe0 then "negative_fixint"
  else match code with
    | 0xc0 => "nil"
    | 0xc1 => "unused"
    | 0xc2 => "false"
    | 0xc3 => "true"
    | 0xc4 => "bin_8"
    | 0xc5 => "bin_16"
    | 0xc6 => "bin_32"
    | 0xc7 => "ext_8"
    | 0xc8 => "ext_16"
    | 0xc9 => "ext_32"
    | 0xca => "float_32"
    | 0xcb => "float_64"
    | 0xcc => "uint_8"
    | 0xcd => "uint_16"
    | 0xce => "uint_32"
    | 0xcf => "uint_64"
    | 0xd0 => "int_8"
    | 0xd1 => "int_16"
    | 0xd2 => "int_32"
    | 0xd3 => "int_64"
    | 0xd4 => "fixext_1"
    | 0xd5 => "fixext_2"
    | 0xd6 => "fixext_4"
    | 0xd7 => "fixext_8"
    | 0xd8 => "fixext_16"
    | 0xd9 => "str_8"
    | 0xda => "str_16"
    | 0xdb => "str_32"
    | 0xdc => "array_16"
    | 0xdd => "array_32"
    | 0xde => "map_16"
    | _ => "map_32"

/-! ## Extensions without a length field -/

def fixext? : Nat → Option UInt8
  | 1 => some fixext1
  | 2 => some fixext2
  | 4 => some fixext4
  | 8 => some fixext8
  | 16 => some fixext16
  | _ => none

/-- The payload length that the code of an extension gives by itself. -/
def fixextLength? (code : UInt8) : Option Nat :=
  if code = fixext1 then some 1
  else if code = fixext2 then some 2
  else if code = fixext4 then some 4
  else if code = fixext8 then some 8
  else if code = fixext16 then some 16
  else none

theorem fixextLength?_of_fixext? {length : Nat} {code : UInt8} (h : fixext? length = some code) :
    fixextLength? code = some length := by
  unfold fixext? at h
  split at h <;> cases h <;> rfl

/-! ## Families -/

section Families

variable {code : UInt8}

theorem not_le_of_lt_of_le {a b : UInt8} (hab : a < b) (h : b ≤ code) : ¬ code ≤ a :=
  UInt8.not_le.2 (UInt8.lt_of_lt_of_le hab h)

theorem family_fixint {n : Nat} (h : n < 2 ^ 7) :
    family (UInt8.ofNat n) = .positiveFixint := by
  have hfamily : ∀ m < 128, family (UInt8.ofNat m) = .positiveFixint := by decide
  exact hfamily n h

theorem family_negativeFixint {n : Int} (hlow : -32 ≤ n) (hneg : n < 0) :
    family (UInt8.ofNat (n + 256).toNat) = .negativeFixint := by
  have hfamily : ∀ m < 256, 224 ≤ m → family (UInt8.ofNat m) = .negativeFixint := by
    decide +kernel
  exact hfamily _ (by omega) (by omega)

theorem family_fixmap (hlow : 0x80 ≤ code) (hhigh : code ≤ 0x8f) : family code = .map := by
  have h7f : ¬ code ≤ 0x7f := not_le_of_lt_of_le (by decide) hlow
  simp only [family, if_neg h7f, if_pos hhigh]

theorem family_fixarray (hlow : 0x90 ≤ code) (hhigh : code ≤ 0x9f) : family code = .array := by
  have h7f : ¬ code ≤ 0x7f := not_le_of_lt_of_le (by decide) hlow
  have h8f : ¬ code ≤ 0x8f := not_le_of_lt_of_le (by decide) hlow
  simp only [family, if_neg h7f, if_neg h8f, if_pos hhigh]

theorem family_fixstr (hlow : 0xa0 ≤ code) (hhigh : code ≤ 0xbf) : family code = .str := by
  have h7f : ¬ code ≤ 0x7f := not_le_of_lt_of_le (by decide) hlow
  have h8f : ¬ code ≤ 0x8f := not_le_of_lt_of_le (by decide) hlow
  have h9f : ¬ code ≤ 0x9f := not_le_of_lt_of_le (by decide) hlow
  simp only [family, if_neg h7f, if_neg h8f, if_neg h9f, if_pos hhigh]

theorem code_of_uint (h : family code = .uint) :
    code = uint8 ∨ code = uint16 ∨ code = uint32 ∨ code = uint64 := by
  unfold family at h
  repeat' split at h
  all_goals first
    | decide
    | cases h

theorem code_of_int (h : family code = .int) :
    code = int8 ∨ code = int16 ∨ code = int32 ∨ code = int64 := by
  unfold family at h
  repeat' split at h
  all_goals first
    | decide
    | cases h

theorem family_ext {n : Nat} (h : fixextLength? code = some n) : family code = .ext := by
  unfold fixextLength? at h
  repeat' split at h
  all_goals first
    | subst code
      rfl
    | cases h

end Families

end Format

end ObjectStream
