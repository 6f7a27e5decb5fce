import ObjectStream.Item.Writer
import ObjectStream.Item.Reader
import ObjectStream.Item.Angles

/-!
# Generated code as text

The generated writer and reader of an item as a sequence of tokens with one
space between any two. What is taken from the item (types, bounds, paths, the
`where` clause) is split into tokens as well, and lists in angle brackets have
their lifetimes first.
-/

namespace ObjectStream

/-- A sequence of tokens, in pieces. -/
abbrev Source := List String

namespace Source

def text (source : Source) : String := " ".intercalate (source.filter (· ≠ ""))

def ofText (text : String) : Source := Angles.arrange (Token.split text)

def braced (inner : Source) : Source := ["\x7b"] ++ inner ++ ["\x7d"]

def parenthesized (inner : Source) : Source := ["("] ++ inner ++ [")"]

def literal (s : String) : String := "\"" ++ s ++ "\""

def count (n : Nat) : String := toString n ++ "usize"

def place (n : Nat) : String := toString n ++ "u32"

def commas (pieces : List Source) : Source := [","].intercalate pieces

/-! ## Headers of implementations -/

/-- A type parameter's bounds, to which one more is added. -/
def bounds (own : String) (added : String) : Source :=
  let tokens := ofText own
  if tokens.isEmpty then ["bstream ::", added]
  else if tokens.getLast? = some "+" then tokens ++ ["bstream ::", added]
  else tokens ++ ["+ bstream ::", added]

def declared (added : String) : GenericParam → Source
  | .lifetime name own =>
      let tokens := ofText own
      if tokens.isEmpty then [name] else [name, ":"] ++ tokens
  | .type name own => [name, ":"] ++ bounds own added
  | .const name t => ["const", name, ":"] ++ ofText t

def used : GenericParam → Source
  | .lifetime name _ | .type name _ | .const name _ => [name]

def angled (part : GenericParam → Source) (generics : List GenericParam) : Source :=
  if generics.isEmpty then []
  else
    let entries := Angles.Entry.separated (generics.map fun p => (p.isLifetime, part p))
    ["<"] ++ Angles.arranged entries ++ [">"]

def whereClause (text : String) : Source :=
  let tokens := ofText text
  if tokens.isEmpty then [] else ["where"] ++ tokens

/-- An implementation of a trait for an item. The type parameters have to have the trait that
`added` names. -/
def implementation {τ : Type} (item : Item τ) (trait added : String) (inner : Source) : Source :=
  ["impl"] ++ angled (declared added) item.generics ++
    ["bstream ::", trait, "for", item.name.text] ++ angled used item.generics ++
    whereClause item.whereClause ++ braced inner

/-! ## Writers -/

/-- Where a value is found, as an expression for a reference to it. -/
def access : Access → Source
  | .member (.named name) => ["& self .", name.text]
  | .member (.position n) => ["& self .", toString n]
  | .binding n => ["field" ++ toString n]

def fieldWriter (writer : FieldWriter String) (value : Source) : Source :=
  let call := ["encode"] ++ parenthesized (value ++ [", os"]) ++ ["? ;"]
  match writer with
  | .value _ => ["bstream :: Encoder ::"] ++ call
  | .fields _ =>
      ["bstream :: EncodeFields :: encode_fields"] ++ parenthesized (value ++ [", os"]) ++ ["? ;"]
  | .rule path _ => ofText path ++ ["::"] ++ call

def writeStep (step : WriteStep String) : Source :=
  let field := fieldWriter step.writer (access step.access)
  match step.key with
  | some key => ["os . write_str (", literal key, ") ? ;"] ++ field
  | none => field

def countTerm (trait : String) (fieldsOf : Option String) : Source :=
  match fieldsOf with
  | none => ["+ 1usize"]
  | some t => ["+ <"] ++ ofText t ++ ["as bstream ::", trait, "> :: FIELD_COUNT"]

def writeCount : CountTerm String → Source
  | .one => countTerm "EncodeFields" none
  | .fieldsOf t => countTerm "EncodeFields" (some t)

def fieldCount (terms : List Source) : Source :=
  ["const FIELD_COUNT : usize = 0usize"] ++ terms.flatten ++ [";"]

def writerSignature (name : String) : Source :=
  ["fn", name, "( & self , os : & mut bstream :: OutputStream ) -> bstream :: Result < ( ) >"]

def fieldListWriter (item : Item String) (list : FieldListWriter String) : Source :=
  implementation item "EncodeFields" "Encoder" <|
    fieldCount (list.counts.map writeCount) ++ ["# [ allow ( unused_variables ) ]"] ++
      writerSignature "encode_fields" ++
      braced ((list.steps.map writeStep).flatten ++ ["Ok ( ( ) )"])

def variantPath (item : Item String) (variant : Ident) : Source :=
  [item.name.text, "::", variant.text]

def pattern : Pattern → Source
  | .named names =>
      braced (commas (names.zipIdx.map fun (name, n) => [name.text, ":", "field" ++ toString n]))
  | .positional n =>
      parenthesized (commas ((List.range n).map fun i => ["field" ++ toString i]))
  | .unit => []

def writeArm (item : Item String) (arm : WriteArm String) : Source :=
  variantPath item arm.variant ++ pattern arm.pattern ++ ["=>"] ++
    braced (["os . write_array_header (", count arm.header, ") ? ;",
      "os . write_uint (", place arm.index, "as u64 ) ? ;"] ++ (arm.steps.map writeStep).flatten)

def writerBody (item : Item String) : WriterBody String → Source
  | .fieldArray =>
      ["os . write_object_header ( < Self as bstream :: EncodeFields > :: FIELD_COUNT ) ? ;",
        "bstream :: EncodeFields :: encode_fields ( self , os )"]
  | .fieldMap n entries =>
      ["os . write_map_header (", count n, ") ? ;"] ++ (entries.map writeStep).flatten ++
        ["Ok ( ( ) )"]
  | .discriminant variants =>
      ["let value : i64 = match * self"] ++
        braced (variants.map fun v =>
          variantPath item v ++ ["=>"] ++ variantPath item v ++ ["as i64 ,"]).flatten ++
        ["; os . write_int ( value ) ? ; Ok ( ( ) )"]
  | .variantArray arms =>
      ["match self"] ++ braced (arms.map (writeArm item)).flatten ++ ["Ok ( ( ) )"]

def writer (item : Item String) (code : WriterCode String) : Source :=
  (code.fieldList.map (fieldListWriter item)).getD [] ++
    implementation item "Encoder" "Encoder"
      (writerSignature "encode" ++ braced (writerBody item code.body))

/-! ## Readers -/

def readCount : ReadCount String → Source
  | .one => countTerm "DecodeFields" none
  | .fieldsOf t => countTerm "DecodeFields" (some t)

def fieldReader : FieldReader String → Source
  | .value t => ["<"] ++ ofText t ++ ["as bstream :: Decoder > :: decode ( is ) ?"]
  | .fields t => ["<"] ++ ofText t ++ ["as bstream :: DecodeFields > :: decode_fields ( is ) ?"]
  | .rule path _ => ofText path ++ [":: decode ( is ) ?"]

/-- A value put together behind the path of its struct or variant. -/
def construction {ε : Type} (path : Source) (part : ε → Source) : Construction ε → Source
  | .named parts =>
      path ++ braced (commas (parts.map fun (name, e) => [name.text, ":"] ++ part e))
  | .positional parts => path ++ parenthesized (commas (parts.map part))
  | .unit => path

def readerSignature (name : String) : Source :=
  ["fn", name, "( is : & mut bstream :: InputStream ) -> bstream :: Result < Self >"]

def fieldListReader (item : Item String) (list : FieldListReader String) : Source :=
  implementation item "DecodeFields" "Decoder" <|
    fieldCount (list.counts.map readCount) ++ ["# [ allow ( unused_variables ) ]"] ++
      readerSignature "decode_fields" ++
      braced (["Ok"] ++ parenthesized (construction [item.name.text] fieldReader list.result))

/-- The return of an error of a struct or an enum. -/
def failure (error : String) (details : List Source) : Source :=
  ["return Err"] ++
    parenthesized (["bstream ::", error] ++ braced (details.flatMap (· ++ [","])) ++
      [". into ( )"]) ++ [";"]

def declaration (h : Holder String) : Source :=
  ["let mut", h.slot, ": Option <"] ++ ofText h.type ++ ["> = None ;"]

def entryArm (h : Holder String) : Source :=
  [literal h.key, "=>", h.slot, "= Some"] ++ parenthesized (fieldReader h.reader) ++ [","]

def held (struct : String) (h : Held) : Source :=
  [h.slot, ". ok_or"] ++ parenthesized
    (["bstream :: StructDecodeError :: MissingRequiredField"] ++
      braced ["field :", literal h.key, ", struct_name :", literal struct, ","]) ++ ["?"]

def readArm (item : Item String) (enum : String) (arm : ReadArm String) : Source :=
  [place arm.index, "=>"] ++ braced
    (["if len - 1 !=", count arm.count] ++
      braced (failure "EnumDecodeError :: FieldCountMismatch"
        [["enum_name :", literal enum], ["variant_name :", literal arm.variantName],
          ["expected :", count arm.count], ["actual : len - 1"]]) ++
      ["Ok"] ++ parenthesized
        (construction (variantPath item arm.variant) fieldReader arm.result))

def readerBody (item : Item String) : ReaderBody String → Source
  | .fieldArray struct =>
      ["let count = is . read_array_header ( ) ? ;",
        "let expected = < Self as bstream :: DecodeFields > :: FIELD_COUNT ;",
        "if count != expected"] ++
        braced (failure "StructDecodeError :: FieldCountMismatch"
          [["struct_name :", literal struct], ["expected"], ["actual : count"]]) ++
        ["< Self as bstream :: DecodeFields > :: decode_fields ( is )"]
  | .fieldMap struct n holders result =>
      ["let count = is . read_map_header ( ) ? ;", "if count !=", count n] ++
        braced (failure "StructDecodeError :: FieldCountMismatch"
          [["struct_name :", literal struct], ["expected :", count n], ["actual : count"]]) ++
        (holders.map declaration).flatten ++ ["for _ in 0 .. count"] ++
        braced (["let key = is . read_str ( ) ? ; match key . as_str ( )"] ++
          braced ((holders.map entryArm).flatten ++ ["other =>"] ++
            braced (failure "StructDecodeError :: UnknownField"
              [["field : other . to_string ( )"], ["struct_name :", literal struct]]))) ++
        ["Ok"] ++ parenthesized (construction [item.name.text] (held struct) result)
  | .discriminant enum variants =>
      ["let value = < i64 as bstream :: Decoder > :: decode ( is ) ? ;"] ++
        (variants.map fun v =>
          ["if value =="] ++ variantPath item v ++ ["as i64"] ++
            braced (["return Ok"] ++ parenthesized (variantPath item v) ++ [";"])).flatten ++
        ["Err"] ++ parenthesized (["bstream :: EnumDecodeError :: UnknownDiscriminant"] ++
          braced ["value , enum_name :", literal enum, ","] ++ [". into ( )"])
  | .variantArray enum arms =>
      ["let len = is . read_array_header ( ) ? ;", "if len == 0"] ++
        braced (["return Err ( bstream :: EncoderError :: Type ( format ! (",
          literal "Empty variant array for enum \x7b\x7d", ",", literal enum, ") ) ) ;"]) ++
        ["let index = < u32 as bstream :: Decoder > :: decode ( is ) ? ;", "match index"] ++
        braced ((arms.map (readArm item enum)).flatten ++ ["_ => Err"] ++
          parenthesized (["bstream :: EnumDecodeError :: UnknownVariant"] ++
            braced ["index , enum_name :", literal enum, ","] ++ [". into ( )"]) ++ [","])

def reader (item : Item String) (code : ReaderCode String) : Source :=
  (code.fieldList.map (fieldListReader item)).getD [] ++
    implementation item "Decoder" "Decoder"
      (readerSignature "decode" ++ braced (readerBody item code.body))

end Source

namespace Item

/-- The text of the generated writer of an item. -/
def writerSource (item : Item String) : Except CompileError String :=
  item.writerCode.map fun code => (Source.writer item code).text

def readerSource (item : Item String) : Except CompileError String :=
  item.readerCode.map fun code => (Source.reader item code).text

end Item

end ObjectStream
