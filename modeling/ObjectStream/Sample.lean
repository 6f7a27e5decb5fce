import ObjectStream.Rule
import ObjectStream.Ty.Notation

/-!
# A sample schema

Declared types of every kind: structs with named, positional and no fields, with
bases and rules, framed as arrays and as maps; enums with and without fields;
generic and recursive types; and pictures, whose shapes stand behind pointers to
interfaces.
-/

namespace ObjectStream

namespace Sample

/-- The module in which the sample types are declared. -/
def home : String := "driver"

def type (name : String) : Ty := .named (home ++ "::" ++ name) []

/-! ## Parts of declarations -/

def asMap : Attribute := ⟨attributePath, .list [.word "as_map"]⟩

def base : Attribute := ⟨attributePath, .list [.word "base"]⟩

def withRule (path : String) : Attribute := ⟨attributePath, .list [.assign "with" path]⟩

def hexPath : String := "crate::hexnum"

/-- A field without a name. -/
def part (t : Ty) : Field Ty := ⟨t, []⟩

def field (name : String) (t : Ty) : Ident × Field Ty := (.ofText name, part t)

def marked (a : Attribute) (name : String) (t : Ty) : Ident × Field Ty := (.ofText name, ⟨t, [a]⟩)

def structOf (attributes : List Attribute) (params : List String) (name : String)
    (fields : Fields Ty) : String × Declaration :=
  (home ++ "::" ++ (Ident.ofText name).name,
    .derived
      { name := .ofText name
        attributes
        generics := params.map fun p => .type p ""
        whereClause := ""
        data := .struct fields })

/-- A struct framed as an array. -/
def struct (name : String) (fields : Fields Ty) : String × Declaration :=
  structOf [] [] name fields

def mapStruct (name : String) (fields : List (Ident × Field Ty)) : String × Declaration :=
  structOf [asMap] [] name (.named fields)

def enumOf (params : List String) (name : String) (variants : List (Variant Ty)) :
    String × Declaration :=
  (home ++ "::" ++ (Ident.ofText name).name,
    .derived
      { name := .ofText name
        attributes := []
        generics := params.map fun p => .type p ""
        whereClause := ""
        data := .enum variants })

def enum (name : String) (variants : List (Variant Ty)) : String × Declaration :=
  enumOf [] name variants

def variant (name : String) (fields : Fields Ty) : Variant Ty := ⟨.ofText name, fields, [], none⟩

def plain (name : String) : Variant Ty := variant name .unit

def numbered (name : String) (d : Int) : Variant Ty := ⟨.ofText name, .unit, [], some d⟩

def sixteen : List (Ident × Field Ty) :=
  (List.range 16).map fun i => field ("f" ++ toString i) .u8

/-! ## Declarations -/

def records : List (String × Declaration) := [
  struct "Header" (.named [field "id" .u32, field "version" .u8]),
  struct "Message" (.named [marked base "header" (type "Header"), field "body" .string]),
  struct "Point" (.positional [part .i32, part .i32]),
  struct "Envelope" (.named [field "seq" .u16, marked base "message" (type "Message"),
    marked base "at" (type "Point"), field "flag" .bool]),
  struct "Tagged" (.positional [⟨type "Header", [base]⟩, part .string]),
  struct "Marker" .unit,
  struct "Empty" (.named []),
  struct "WithMarker" (.named [marked base "m" (type "Marker"), field "x" .u8]),
  structOf [] ["T"] "Pair"
    (.named [field "first" (.param "T"), field "second" (.param "T")]),
  struct "PairPlus" (.named [marked base "pair" (.named (home ++ "::Pair") [.u8]),
    field "extra" (.option .u8)]),
  mapStruct "Config" [field "name" .string, field "retries" .u8,
    field "tags" (.option (.vec .string))],
  mapStruct "Entry" [field "r#type" .u8],
  mapStruct "EmptyMap" [],
  mapStruct "MapWith" [marked (withRule hexPath) "code" .u32, field "inner" (type "Config")],
  struct "InlineConfig" (.named [marked base "config" (type "Config"), field "extra" .u8]),
  struct "Packet" (.named [field "kind" .u8,
    marked (withRule Codec.blobPath) "payload" (.vec .u8)]),
  struct "Wide16" (.named sixteen),
  mapStruct "WideMap" sixteen,
  struct "Record" (.named [field "id" .u64, field "name" .string, field "scores" (.vec .i32),
    field "ratio" (.option .f64)])]

def enums : List (String × Declaration) := [
  enum "Level" [numbered "Low" 1, plain "Medium", numbered "High" (-5)],
  enum "Big" [numbered "Zero" 0, numbered "Mid" (2 ^ 32), numbered "Huge" (2 ^ 64 - 1)],
  enum "Signed" [numbered "Min" (-2 ^ 63), numbered "NegOne" (-1), plain "Zero", plain "One",
    numbered "Max" (2 ^ 63 - 1)],
  enum "Single" [plain "Only"],
  enum "Command" [plain "Stop", variant "Move" (.named [field "x" .i32, field "y" .i32]),
    variant "Say" (.positional [part .string])],
  enum "Rule" [variant "Code" (.positional [⟨.u32, [withRule hexPath]⟩]),
    variant "Blob" (.named [marked (withRule Codec.blobPath) "data" (.vec .u8), field "n" .u8]),
    plain "Unit", variant "Parens" (.positional []), variant "Braces" (.named [])],
  enumOf ["L", "R"] "Either" [variant "Left" (.positional [part (.param "L")]),
    variant "Right" (.positional [part (.param "R")])],
  enum "r#match" [variant "r#fn" (.named [field "r#in" .u8]), plain "r#loop"],
  enum "Expr" [variant "Num" (.positional [part .i64]),
    variant "Neg" (.positional [part (.unique (type "Expr"))]),
    variant "Add" (.positional [part (.unique (type "Expr")), part (.unique (type "Expr"))]),
    variant "List" (.positional [part (.vec (type "Expr"))])]]

def graphs : List (String × Declaration) := [
  struct "Tree" (.named [field "children" (.vec (type "Tree"))]),
  struct "Chain" (.named [field "v" .i32, field "next" (.option (.unique (type "Chain")))]),
  struct "Node" (.named [field "v" .i32, field "next" (.option (.shared (type "Node")))]),
  struct "GNode" (.named [field "name" .string, field "links" (.vec (.shared (type "GNode")))])]

def shape : Ty := .dyn (home ++ "::Shape")

def namedThing : Ty := .dyn (home ++ "::Named")

def pictures : List (String × Declaration) := [
  struct "Circle" (.named [field "radius" .f64]),
  struct "Square" (.named [field "side" .f64]),
  struct "Triangle" (.named [field "base" .f64, field "height" .f64]),
  struct "Group" (.named [field "members" (.vec (.shared shape))]),
  struct "Label" (.positional [part .string]),
  struct "Drawing" (.named [field "layers" (.vec (.shared shape)),
    field "highlight" (.option (.shared shape))]),
  (home ++ "::Nothing", .custom .empty Codec.empty.hooks)]

def schema : Schema where
  types := records ++ enums ++ graphs ++ pictures
  rules := [(Codec.blobPath, .blob), (hexPath, .hexNumber)]

/-- How an object of one type becomes one of a target type: to an interface it goes as it is, and
a square goes as the circle whose radius is its side. -/
def upcast (source target : Ty) : Upcast :=
  match target with
  | .dyn _ => .plain source
  | _ => ⟨source, target, id⟩

def byteTuple (n : Nat) : Ty := .tuple (List.replicate n .u8)

/-- The names of sample types in type notation, with abbreviations for long tuples. -/
def scope : Scope where
  home := home
  abbreviations := [
    ("tuple6", byteTuple 6), ("tuple7", byteTuple 7), ("tuple8", byteTuple 8),
    ("tuple9", byteTuple 9), ("tuple10", byteTuple 10), ("tuple11", byteTuple 11),
    ("tuple12", .tuple [.u8, .u16, .u32, .u64, .i8, .i16, .i32, .i64, .f32, .f64, .char, .unit])]

/-! ## Values -/

/-- Reads trees from a parenthesis text, one pair a node. The stack holds the children read so far
of each open node in reverse, below them the trees outside of all nodes; other characters are
passed over. -/
def readTrees : List Char → List (List Value) → List Value
  | '(' :: cs, stack => readTrees cs ([] :: stack)
  | ')' :: cs, top :: below :: stack =>
      readTrees cs ((.list [.list top.reverse] :: below) :: stack)
  | _ :: cs, stack => readTrees cs stack
  | [], stack => (stack.getLast?.getD []).reverse

def treeOfText? (text : String) : Option Value :=
  match readTrees text.toList [[]] with
  | [tree] => some tree
  | _ => none

mutual

def treeTextOnto (text : String) : Value → String
  | .list vs => childrenOnto text vs
  | _ => text

/-- The pair of a node around the texts of its children, put behind a text. -/
def childrenOnto (text : String) : List Value → String
  | [.list children] => (treesOnto (text.push '(') children).push ')'
  | _ => text

def treesOnto (text : String) : List Value → String
  | [] => text
  | tree :: trees => treesOnto (treeTextOnto text tree) trees

end

def treeText (tree : Value) : String := treeTextOnto "" tree

/-- The chain of some numbers; there is at least one in a chain. -/
def chain : List Int → Value
  | [] => .list []
  | [v] => .list [.scalar (.int v), .absent]
  | v :: vs => .list [.scalar (.int v), .present (.unique (type "Chain") (chain vs))]

mutual

def chainValues : Value → List Int
  | .list vs => linkValues vs
  | _ => []

def linkValues : List Value → List Int
  | [.scalar (.int v), .present (.unique _ rest)] => v :: chainValues rest
  | .scalar (.int v) :: _ => [v]
  | _ => []

end

/-! ## Error categories -/

/-- The sample categories of error numbers by key. Two of them share a name, and one has none. -/
def categories : List (String × ErrorCategory) := [
  ("generic", .generic),
  ("system", .system),
  ("storage", ⟨"storage", .labelled "storage error"⟩),
  ("storage2", ⟨"storage", .labelled "other storage error"⟩),
  ("net", ⟨"net", .labelled "net error"⟩),
  ("", ⟨"", .labelled "unnamed"⟩)]

end Sample

end ObjectStream
