import ObjectStream.Ty.Basic

/-!
# Full names of types

The name under which messages and the registry's listing mention a type: the
path of its declaration and, in angle brackets, its arguments.
-/

namespace ObjectStream

namespace IntWidth

/-- What stands behind the letter of an integer type. -/
def suffix : IntWidth → String
  | .w8 => "8"
  | .w16 => "16"
  | .w32 => "32"
  | .w64 => "64"
  | .native => "size"

end IntWidth

def Scalar.fullName : Scalar → String
  | .bool => "bool"
  | .unsigned width => "u" ++ width.suffix
  | .signed width => "i" ++ width.suffix
  | .char => "char"
  | .float32 => "f32"
  | .float64 => "f64"
  | .string => "alloc::string::String"
  | .smallString => "smol_str::SmolStr"
  | .str => "str"
  | .bytes => "bytes::bytes::Bytes"
  | .bytesMut => "bytes::bytes_mut::BytesMut"
  | .duration => "core::time::Duration"
  | .systemTime => "std::time::SystemTime"
  | .dateTime => "chrono::datetime::DateTime<chrono::offset::utc::Utc>"
  | .uuid => "uuid::Uuid"
  | .typeTag => "bstream::registry::TypeTag"

def TableKind.setPath : TableKind → String
  | .ordered => "alloc::collections::btree::set::BTreeSet"
  | .hashed => "std::collections::hash::set::HashSet"
  | .fastHashed => "ahash::hash_set::AHashSet"
  | .indexed => "indexmap::set::IndexSet"

def TableKind.mapPath : TableKind → String
  | .ordered => "alloc::collections::btree::map::BTreeMap"
  | .hashed => "std::collections::hash::map::HashMap"
  | .fastHashed => "ahash::hash_map::AHashMap"
  | .indexed => "indexmap::map::IndexMap"

namespace Ty

/-- A path with arguments in angle brackets, or the path alone. -/
def applied (path : String) (arguments : List String) : String :=
  if arguments.isEmpty then path else path ++ "<" ++ ", ".intercalate arguments ++ ">"

mutual

def fullName : Ty → String
  | .scalar s => s.fullName
  | .errorCode => "bstream::category::ErrorCode"
  | .tuple parts =>
      match fullNames parts with
      | [part] => "(" ++ part ++ ",)"
      | names => "(" ++ ", ".intercalate names ++ ")"
  | .array t n => "[" ++ fullName t ++ "; " ++ toString n ++ "]"
  | .seq .vector t => applied "alloc::vec::Vec" [fullName t]
  | .seq .deque t => applied "alloc::collections::vec_deque::VecDeque" [fullName t]
  | .seq .linked t => applied "alloc::collections::linked_list::LinkedList" [fullName t]
  | .seq .slice t => "[" ++ fullName t ++ "]"
  | .set k t => applied k.setPath [fullName t]
  | .map k t u => applied k.mapPath [fullName t, fullName u]
  | .option t => applied "core::option::Option" [fullName t]
  | .shared t => applied "alloc::sync::Arc" [fullName t]
  | .unique t => applied "alloc::boxed::Box" [fullName t]
  | .ref t => "&" ++ fullName t
  | .dyn name => "dyn " ++ name
  | .named name arguments => applied name (fullNames arguments)
  | .param name => name

def fullNames : List Ty → List String
  | [] => []
  | t :: ts => fullName t :: fullNames ts

end

end Ty

end ObjectStream
