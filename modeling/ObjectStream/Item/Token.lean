/-!
# Tokens

Splitting a piece of source text into tokens. Names, numbers, lifetimes and
quoted texts are one token each, and so are the operators of several characters,
of which the longest that fits is taken; every other character is a token of its
own. Where types are read, the characters of `loose` stand apart all the same,
so that angle brackets pair up.
-/

namespace ObjectStream

namespace Token

/-- The operators of several characters. One that starts with another stands before it. -/
def operators : List (List Char) :=
  ["...", "..=", "<<=", ">>=", "::", "->", "=>", "==", "!=", "<=", ">=", "&&", "||", "<<", ">>",
    "..", "+=", "-=", "*=", "/=", "%=", "^=", "&=", "|="].map (·.toList)

def symbols : List Char := "~!@#$%^&*-=+|;:,<.>/?()[]\x7b\x7d".toList

def isNameStart (c : Char) : Bool := c.isAlpha || c == '_' || c.toNat ≥ 0x80

def isNamePart (c : Char) : Bool := isNameStart c || c.isDigit

/-- The characters of a quoted text up to and with the closing quote, and those behind it. A
backslash takes the next character with it. -/
def quoted (quote : Char) : List Char → List Char × List Char
  | [] => ([], [])
  | '\\' :: c :: cs => let (inner, rest) := quoted quote cs; ('\\' :: c :: inner, rest)
  | c :: cs =>
      if c = quote then ([c], cs)
      else let (inner, rest) := quoted quote cs; (c :: inner, rest)

/-- A quoted text behind what opens it, and what is behind the text. -/
def quotedFrom (opening : List Char) (quote : Char) (cs : List Char) : List Char × List Char :=
  let (inner, rest) := quoted quote cs
  (opening ++ inner, rest)

/-- The longest name or whole number at the start, and what is behind it. -/
def word (cs : List Char) : List Char × List Char :=
  (cs.takeWhile isNamePart, cs.dropWhile isNamePart)

def number (cs : List Char) : List Char × List Char :=
  match word cs with
  | (whole, '.' :: d :: rest) =>
      if d.isDigit then
        let (fraction, rest) := word (d :: rest)
        (whole ++ '.' :: fraction, rest)
      else (whole, '.' :: d :: rest)
  | (whole, rest) => (whole, rest)

/-- The first token of a text that starts with none of the blanks, and what is behind it. -/
def next : List Char → List Char × List Char
  | [] => ([], [])
  | '\'' :: '\\' :: cs => quotedFrom ['\''] '\'' ('\\' :: cs)
  | '\'' :: c :: '\'' :: cs => (['\'', c, '\''], cs)
  | '\'' :: cs => let (name, rest) := word cs; ('\'' :: name, rest)
  | '"' :: cs => quotedFrom ['"'] '"' cs
  | 'b' :: '\'' :: cs => quotedFrom ['b', '\''] '\'' cs
  | 'b' :: '"' :: cs => quotedFrom ['b', '"'] '"' cs
  | 'r' :: '#' :: c :: cs =>
      if isNameStart c then let (name, rest) := word (c :: cs); ('r' :: '#' :: name, rest)
      else (['r'], '#' :: c :: cs)
  | c :: cs =>
      if c.isDigit then number (c :: cs)
      else if isNameStart c then word (c :: cs)
      else match operators.find? (·.isPrefixOf (c :: cs)) with
        | some operator => (operator, (c :: cs).drop operator.length)
        | none => ([c], cs)

def splitChars : Nat → List Char → List String
  | 0, _ => []
  | _ + 1, [] => []
  | fuel + 1, c :: cs =>
      if c.isWhitespace then splitChars fuel cs
      else
        let (token, rest) := next (c :: cs)
        String.ofList token :: splitChars fuel rest

def split (text : String) : List String := splitChars (text.length + 1) text.toList

/-- The characters that open and close lists of types, mark references and bars: no two of them
belong together where types are read. -/
def loose : List Char := ['<', '>', '&', '|']

/-- The tokens of which a token consists where types are read. -/
def apart (token : String) : List String :=
  match token.toList with
  | c :: cs => if loose.contains c then (c :: cs).map (String.ofList [·]) else [token]
  | [] => [token]

/-! ## Kinds of tokens -/

def isName (token : String) : Bool :=
  match token.toList with
  | 'r' :: '#' :: cs => !cs.isEmpty
  | c :: cs => isNameStart c && cs.all isNamePart
  | [] => false

def isNumber (token : String) : Bool := token.toList.head?.any (·.isDigit)

def isQuoted (token : String) : Bool := token.toList.getLast?.any fun c => c == '"' || c == '\''

def isLifetime (token : String) : Bool := token.toList.head? == some '\'' && !isQuoted token

def keywords : List String := [
  "_", "abstract", "as", "async", "await", "become", "box", "break", "const", "continue", "crate",
  "do", "dyn", "else", "enum", "extern", "false", "final", "fn", "for", "if", "impl", "in", "let",
  "loop", "macro", "match", "mod", "move", "mut", "override", "priv", "pub", "ref", "return",
  "Self", "self", "static", "struct", "super", "trait", "true", "try", "type", "typeof", "unsafe",
  "unsized", "use", "virtual", "where", "while", "yield"]

/-- The keywords that can stand in a path, where they take no arguments. -/
def pathKeywords : List String := ["super", "self", "crate", "try"]

/-! ## Brackets -/

def closing : String → Option String
  | "(" => some ")"
  | "[" => some "]"
  | "\x7b" => some "\x7d"
  | _ => none

def isClosing (token : String) : Bool := [")", "]", "\x7d"].contains token

/-- Whether the brackets of a sequence of tokens pair up, behind open ones that want the closing
brackets given, innermost first. -/
def balanced : List String → List String → Bool
  | wanted, [] => wanted.isEmpty
  | wanted, token :: tokens =>
      match closing token, wanted with
      | some c, _ => balanced (c :: wanted) tokens
      | none, c :: wanted =>
          if isClosing token then token == c && balanced wanted tokens
          else balanced (c :: wanted) tokens
      | none, [] => !isClosing token && balanced [] tokens

/-- Whether a token is complete: a quoted text has its closing quote, a lifetime its name, and any
other character is one of a name or one of the symbols. -/
def isComplete (token : String) : Bool :=
  match token.toList with
  | '"' :: cs => cs.getLast? == some '"'
  | '\'' :: cs => !cs.isEmpty && (cs.all isNamePart || cs.getLast? == some '\'')
  | c :: _ => isNamePart c || symbols.contains c
  | [] => false

def isTokenText (text : String) : Bool :=
  (split text).all isComplete && balanced [] (split text)

end Token

end ObjectStream
