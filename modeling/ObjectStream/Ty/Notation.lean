import ObjectStream.Ty.Basic

/-!
# Type notation

Reading a type from its short notation, such as `Vec<Option<u8>>`, `[u16;3]`,
`(u8,String)` or `Arc<dyn Shape>`. The names of the library's own types are
fixed. Every other name is an abbreviation of the scope, or a type declared in
the scope's home module.
-/

namespace ObjectStream

/-- What the names in a notation refer to: abbreviations by name, and the module in which the
remaining names are declared. -/
structure Scope where
  home : String
  abbreviations : List (String × Ty)

namespace Scope

def path (scope : Scope) (name : String) : String := scope.home ++ "::" ++ name

def plain (scope : Scope) (name : String) : Ty :=
  match name with
  | "bool" => .bool
  | "u8" => .u8
  | "u16" => .u16
  | "u32" => .u32
  | "u64" => .u64
  | "usize" => .usize
  | "i8" => .i8
  | "i16" => .i16
  | "i32" => .i32
  | "i64" => .i64
  | "isize" => .isize
  | "char" => .char
  | "f32" => .f32
  | "f64" => .f64
  | "String" => .string
  | "SmolStr" => .scalar .smallString
  | "str" => .scalar .str
  | "Bytes" => .bytes
  | "BytesMut" => .scalar .bytesMut
  | "Duration" => .scalar .duration
  | "SystemTime" => .scalar .systemTime
  | "Uuid" => .scalar .uuid
  | "TypeTag" => .scalar .typeTag
  | "ErrorCode" => .errorCode
  | _ => (scope.abbreviations.lookup name).getD (.named (scope.path name) [])

def applied (scope : Scope) (name : String) (arguments : List Ty) : Ty :=
  match name, arguments with
  | "Vec", [t] => .vec t
  | "VecDeque", [t] => .seq .deque t
  | "LinkedList", [t] => .seq .linked t
  | "BTreeSet", [t] => .set .ordered t
  | "HashSet", [t] => .set .hashed t
  | "AHashSet", [t] => .set .fastHashed t
  | "IndexSet", [t] => .set .indexed t
  | "BTreeMap", [t, u] => .map .ordered t u
  | "HashMap", [t, u] => .map .hashed t u
  | "AHashMap", [t, u] => .map .fastHashed t u
  | "IndexMap", [t, u] => .map .indexed t u
  | "Option", [t] => .option t
  | "Arc", [t] => .shared t
  | "Box", [t] => .unique t
  | "DateTime", [_] => .scalar .dateTime
  | _, _ => .named (scope.path name) arguments

def isNameChar (c : Char) : Bool := c.isAlphanum || c == '_'

mutual

/-- Reads one type and returns the characters behind it. The fuel bounds the nesting. -/
def readType (scope : Scope) : Nat → List Char → Option (Ty × List Char)
  | 0, _ => none
  | fuel + 1, cs =>
      match cs with
      | '&' :: rest => (readType scope fuel rest).map fun (t, rest) => (.ref t, rest)
      | '(' :: rest => (readTypes scope ')' fuel rest).map fun (ts, rest) => (.tuple ts, rest)
      | '[' :: rest =>
          match readType scope fuel rest with
          | some (t, ']' :: rest) => some (.seq .slice t, rest)
          | some (t, ';' :: rest) =>
              match (String.ofList (rest.takeWhile Char.isDigit)).toNat?,
                rest.dropWhile Char.isDigit with
              | some n, ']' :: rest => some (.array t n, rest)
              | _, _ => none
          | _ => none
      | 'd' :: 'y' :: 'n' :: ' ' :: rest =>
          some (.dyn (scope.path (String.ofList (rest.takeWhile isNameChar))),
            rest.dropWhile isNameChar)
      | _ =>
          let name := String.ofList (cs.takeWhile isNameChar)
          match cs.dropWhile isNameChar with
          | '<' :: rest =>
              (readTypes scope '>' fuel rest).map fun (ts, rest) => (scope.applied name ts, rest)
          | rest => if name.isEmpty then none else some (scope.plain name, rest)

/-- Reads types separated by commas up to the closing character, which is read as well. A comma
may stand behind the last type. -/
def readTypes (scope : Scope) (close : Char) : Nat → List Char → Option (List Ty × List Char)
  | 0, _ => none
  | fuel + 1, cs =>
      match cs with
      | [] => none
      | c :: rest =>
          if c = close then some ([], rest)
          else match readType scope fuel cs with
            | some (t, ',' :: rest) =>
                (readTypes scope close fuel rest).map fun (ts, rest) => (t :: ts, rest)
            | some (t, c :: rest) => if c = close then some ([t], rest) else none
            | _ => none

end

def type? (scope : Scope) (text : String) : Option Ty :=
  match scope.readType (text.length + 1) text.toList with
  | some (t, []) => some t
  | _ => none

end Scope

end ObjectStream
