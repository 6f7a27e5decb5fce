import ObjectStream.Item.Token

/-!
# Lists in angle brackets

The order in which generated code has the entries of a list in angle brackets,
be it the parameters of an item or the arguments of a path. Lifetimes come first,
whatever their place in the item, and an entry takes the comma behind it along, so
that one can be left at the end of the list. A lifetime that had been the last entry
is given a comma if others follow it now.

In a text of an item the lists are found by going through its tokens once, with a
level for every bracket that is open.
-/

namespace ObjectStream

namespace Angles

/-- An entry of a list, and whether a comma stands behind it. -/
structure Entry where
  isLifetime : Bool
  tokens : List String
  comma : Bool

namespace Entry

def withComma (e : Entry) : List String := if e.comma then e.tokens ++ [","] else e.tokens

def ofTokens (tokens : List String) (comma : Bool) : Entry :=
  ⟨match tokens with
    | [token] => Token.isLifetime token
    | _ => false, tokens, comma⟩

def separated : List (Bool × List String) → List Entry
  | [] => []
  | [(isLifetime, tokens)] => [⟨isLifetime, tokens, false⟩]
  | (isLifetime, tokens) :: more => ⟨isLifetime, tokens, true⟩ :: separated more

end Entry

/-- The entries of a list, lifetimes first. -/
def arranged (entries : List Entry) : List String :=
  let lifetimes := entries.filter (·.isLifetime)
  let others := entries.filter (!·.isLifetime)
  let gap := if lifetimes.getLast?.any (!·.comma) && !others.isEmpty then [","] else []
  lifetimes.flatMap (·.withComma) ++ gap ++ others.flatMap (·.withComma)

/-! ## Texts -/

/-- How the tokens between two brackets are read: as types, as the entries of a list of
arguments, or as a value, where an angle bracket can be a comparison. -/
inductive Reading
  | types
  | entries
  | value
  deriving DecidableEq, Repr

/-- What has been read behind an open bracket: for a list of arguments the entries that are
complete, and the tokens since. Outside all brackets, the bracket is the empty text. -/
structure Level where
  opening : String
  reading : Reading
  entries : List Entry
  tokens : List String

namespace Level

def outermost : Level := ⟨"", .types, [], []⟩

def opened (opening : String) (reading : Reading) : Level := ⟨opening, reading, [], []⟩

def put (l : Level) (tokens : List String) : Level := { l with tokens := l.tokens ++ tokens }

/-- Takes a token that neither opens nor closes the brackets. A comma completes an entry, a number
takes the sign in front of it, and behind the semicolon of an array there is a value. -/
def take (l : Level) (token : String) : Level :=
  match l.reading with
  | .entries =>
      if token = "," then
        { l with entries := l.entries ++ [.ofTokens l.tokens true], tokens := [] }
      else if Token.isNumber token && l.tokens.getLast? == some "-" then
        { l with tokens := l.tokens.dropLast ++ ["-" ++ token] }
      else l.put [token]
  | .types =>
      if token = ";" then { l.put [token] with reading := .value } else l.put [token]
  | .value => l.put [token]

/-- Whether an operand ends with the tokens that have been read, so that an angle bracket behind
them compares it. -/
def endsOperand (l : Level) : Bool :=
  l.tokens.getLast?.any fun token =>
    Token.isClosing token || Token.isQuoted token || Token.isNumber token ||
      ["?", ">"].contains token || (Token.isName token && token ≠ "as")

/-- How the inside of the brackets that a token opens is read, if it opens any. The lifetimes
behind `for` are a list of their own kind, which keeps its order. -/
def inside (l : Level) (token : String) : Option Reading :=
  if token = "<" then
    if l.tokens.getLast? = some "for" then some .types
    else if l.reading = .value && l.endsOperand then none
    else some .entries
  else if token = "\x7b" then some .value
  else if (Token.closing token).isSome then
    some (if l.reading = .value || l.tokens.getLast? = some "!" then .value else .types)
  else none

def isClosedBy (l : Level) (token : String) : Bool :=
  if l.opening = "<" then token = ">" else Token.closing l.opening = some token

def text (l : Level) : List String :=
  let entries := if l.tokens.isEmpty then l.entries else l.entries ++ [.ofTokens l.tokens false]
  l.opening :: if l.reading = .entries then arranged entries else l.tokens

end Level

/-- Takes a token, given the innermost level and the ones around it. -/
def step (levels : Level × List Level) (token : String) : Level × List Level :=
  match levels.1.inside token, levels with
  | some reading, (l, outer) => (.opened token reading, l :: outer)
  | none, (l, []) => (l.take token, [])
  | none, (l, around :: outer) =>
      if l.isClosedBy token then (around.put (l.text ++ [token]), outer)
      else (l.take token, around :: outer)

def take (levels : Level × List Level) (token : String) : Level × List Level :=
  if levels.1.reading = .value then step levels token
  else (Token.apart token).foldl step levels

/-- The tokens of a text with its lists in order. Brackets that are left open change nothing. -/
def arrange (tokens : List String) : List String :=
  let (inner, outer) := tokens.foldl take (Level.outermost, [])
  (outer.foldl (fun l around => around.put l.text) inner).tokens

end Angles

end ObjectStream
