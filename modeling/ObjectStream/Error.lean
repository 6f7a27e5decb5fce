import ObjectStream.Format.Code
import ObjectStream.Hex
import ObjectStream.Time
import ObjectStream.Text.Utf8
import ObjectStream.Ty.Name

/-!
# Errors

Why writing or reading a value failed. Each error is a cause with the numbers
that belong to it; the wording is in one place, `StreamError.message`. The
coarser `ErrorKind` groups the causes for callers that only want to know what
sort of thing went wrong.

Three causes stand apart. `illTyped` is a value that its type does not have, and
`tooDeep` a nesting that the bound on recursion cut off; neither arises from a
value of the type it is written at, or from reading within the bound. And a
`lostPlace` is no answer to a caller: there reading breaks off, because the place
of an object has gone while the object was read.
-/

namespace ObjectStream

/-- The number that names a concrete type on the wire. Zero names none. -/
abbrev TypeTag := Nat

abbrev Identity := Nat

/-- The kinds of value that a reader asks for. -/
inductive Expected
  | map | array | binary | string | extension | nil | bool | integer | float32 | float | value
  deriving DecidableEq, Repr

def Expected.label : Expected → String
  | .map => "map"
  | .array => "array"
  | .binary => "binary"
  | .string => "string"
  | .extension => "extension"
  | .nil => "nil"
  | .bool => "bool"
  | .integer => "integer"
  | .float32 => "float_32"
  | .float => "float"
  | .value => "a value"

/-- A value on the wire that is not of the kind or in the range asked for. -/
inductive TypeFault
  | unexpected (expected : Expected) (code : UInt8)
  | negative (value : Int)
  | beyondSigned (value : Nat)
  | narrow (value : Int) (target : Scalar)
  | notScalarValue (value : Nat)
  | badText (fault : Utf8Fault)
  | uuidSubtype (subtype : Int)
  | uuidLength (length : Nat)
  | beyondClock (ticks : Int)
  | nullShared
  | nullUnique
  | unknownSerial (serial : Nat)
  | otherTag (serial : Nat) (tag written : TypeTag)
  | unfinished (serial : Nat)
  | otherPointer (serial : Nat) (pointee : Ty)
  | lostPlace (serial places : Nat)
  | emptyVariant (enum : String)
  deriving DecidableEq

inductive ArgumentFault
  | position (position length : Nat)
  | length (length : Nat)
  | extensionLength (length : Nat)
  | timeRange (target : Scalar) (nanos : Int)
  | reservedTag (tag : TypeTag)
  | tagTaken (tag : TypeTag) (holder : Ty)
  | typeTaken (type : Ty) (tag : TypeTag)
  | integerBody (type : Ty)
  /-- A field rule rejected what it read. -/
  | rule (text : String)
  deriving DecidableEq

/-- What a registry or an index does not know. -/
inductive Unregistered
  | type (type : Ty)
  | category (name : String)
  | categoryPlace (place : Nat)
  deriving DecidableEq

inductive StructFault
  | fieldCount (struct : String) (expected actual : Nat)
  | unknownField (field struct : String)
  | missingField (field struct : String)
  deriving DecidableEq

inductive EnumFault
  | discriminant (value : Int) (enum : String)
  | variant (index : Nat) (enum : String)
  | fieldCount (enum variant : String) (expected actual : Nat)
  deriving DecidableEq

/-- Why writing or reading failed. -/
inductive StreamError
  | outOfRange (needed remaining : Nat)
  | overflow (needed remaining : Nat)
  | type (fault : TypeFault)
  | countMismatch (expected actual : Nat)
  | invalidArgument (fault : ArgumentFault)
  | unregisteredType (subject : Unregistered)
  | unregisteredTag (tag : TypeTag) (target : Ty)
  | structDecode (fault : StructFault)
  | enumDecode (fault : EnumFault)
  | illTyped (type : Ty)
  | tooDeep
  deriving DecidableEq

inductive ErrorKind
  | outOfRange | overflow | type | invalidArgument | unregisteredType
  deriving DecidableEq, Repr

def TypeFault.message : TypeFault → String
  | .unexpected expected code =>
      s!"Expected {expected.label}, got {Format.name code} (0x" ++ Hex.text [code] ++ ")"
  | .negative value => s!"Negative value {value} for unsigned integer"
  | .beyondSigned value => s!"Value {value} out of range for signed integer"
  | .narrow value target => s!"Value {value} out of range for {target.fullName}"
  | .notScalarValue value =>
      "Invalid char scalar value 0x" ++ String.ofList (Hex.digits value)
  | .badText fault => s!"Invalid UTF-8 in string: {fault.message}"
  | .uuidSubtype subtype => s!"Expected UUID extension type 1, got {subtype}"
  | .uuidLength length =>
      s!"Invalid UUID payload: invalid length: expected 16 bytes, found {length}"
  | .beyondClock ticks => s!"Timestamp {ticks}ns is out of range"
  | .nullShared => "Null pointer for non-optional Arc"
  | .nullUnique => "Null pointer for non-optional Box"
  | .unknownSerial serial => s!"Back-reference to unknown shared object #{serial}"
  | .otherTag serial tag written =>
      s!"Back-reference #{serial} carries tag {tag}, object was written with tag {written}"
  | .unfinished serial => s!"Back-reference #{serial} to an object that is still being decoded"
  | .otherPointer serial pointee =>
      s!"Shared object #{serial} was not decoded as " ++ (Ty.shared pointee).fullName
  | .lostPlace serial places =>
      s!"index out of bounds: the len is {places} but the index is {serial}"
  | .emptyVariant enum => s!"Empty variant array for enum {enum}"

def timeText (target : Scalar) (nanos : Int) : String :=
  match target with
  | .duration => Time.spanText nanos.toNat
  | .dateTime => Time.calendarText nanos
  | _ => Time.clockText nanos

def ArgumentFault.message : ArgumentFault → String
  | .position pos n => s!"position {pos} out of range for buffer of {n} bytes"
  | .length n => s!"length {n} exceeds the 32-bit limit"
  | .extensionLength n => s!"extension payload of {n} bytes exceeds the 32-bit limit"
  | .timeRange target nanos => timeText target nanos ++ " does not fit in 64-bit nanoseconds"
  | .reservedTag tag => s!"tag {tag} is reserved for null pointers"
  | .tagTaken tag holder => s!"tag {tag} is already assigned to {holder.fullName}"
  | .typeTaken t tag => s!"{t.fullName} is already registered with tag {tag}"
  | .integerBody t =>
      s!"shared {t.fullName} encodes as an integer, which is ambiguous with a back-reference"
  | .rule text => text

def Unregistered.name : Unregistered → String
  | .type t => t.fullName
  | .category name => s!"error category '{name}'"
  | .categoryPlace place => s!"error category #{place}"

def StructFault.message : StructFault → String
  | .fieldCount struct expected actual =>
      s!"Field count mismatch for struct {struct}: expected {expected}, got {actual}"
  | .unknownField field struct => s!"Unknown field '{field}' for struct {struct}"
  | .missingField field struct => s!"Required field '{field}' not found for struct {struct}"

def EnumFault.message : EnumFault → String
  | .discriminant value enum => s!"Unknown discriminant {value} for enum {enum}"
  | .variant index enum => s!"Unknown variant index {index} for enum {enum}"
  | .fieldCount enum name expected actual =>
      s!"Field count mismatch for variant {enum}::{name}: expected {expected}, got {actual}"

namespace StreamError

def message : StreamError → String
  | .outOfRange needed remaining =>
      s!"Read past end of buffer: needed {needed} bytes, {remaining} remaining"
  | .overflow needed remaining =>
      s!"Overflow on non-expandable buffer: needed {needed} bytes, {remaining} remaining"
  | .type fault => s!"Type error: {fault.message}"
  | .countMismatch expected actual =>
      s!"Invalid element count: expected {expected}, found {actual}"
  | .invalidArgument fault => s!"Invalid argument: {fault.message}"
  | .unregisteredType subject => s!"Type {subject.name} is not registered"
  | .unregisteredTag tag target =>
      s!"No constructor registered for tag {tag} as {target.fullName}"
  | .structDecode fault => fault.message
  | .enumDecode fault => fault.message
  | .illTyped t => s!"The value is not of type {t.fullName}"
  | .tooDeep => "The nesting exceeds the bound of the reader"

def kind : StreamError → ErrorKind
  | .outOfRange .. => .outOfRange
  | .overflow .. => .overflow
  | .type _ | .countMismatch .. | .structDecode _ | .enumDecode _ => .type
  | .invalidArgument _ => .invalidArgument
  | .unregisteredType _ | .unregisteredTag .. => .unregisteredType
  | .illTyped _ => .invalidArgument
  | .tooDeep => .type

/-- The text with which an unchecked write gives up. -/
def writeAbort (e : StreamError) : String := s!"bstream: write failed: {e.message}"

def readAbort (e : StreamError) (t : Ty) : String :=
  s!"bstream: read of {t.fullName} failed: {e.message}"

end StreamError

end ObjectStream
