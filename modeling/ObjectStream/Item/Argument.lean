import ObjectStream.Item.Basic

/-!
# Arguments of attributes

How the generators read what stands in the parentheses of an attribute: a path, what
the argument of that path takes, and a comma before the next one. The first fault in
source order is the one that is reported.
-/

namespace ObjectStream

/-- A token of an argument list, or a quoted text, which is kept as what it says. -/
inductive Lexeme
  | token (text : String)
  | quoted (text : String)
  deriving DecidableEq, Repr

namespace Lexeme

def ofToken (token : String) : Lexeme :=
  match token.toList with
  | '"' :: cs => .quoted (String.ofList cs.dropLast)
  | _ => .token token

/-- The names of a path behind its first one, each behind a double colon, and what is behind the
path. Keywords count as names. -/
def moreNames : List Lexeme → Except CompileError (List String × List Lexeme)
  | .token "::" :: .token name :: rest =>
      if Token.isName name then (moreNames rest).map fun (names, rest) => (name :: names, rest)
      else .error .expectedWord
  | .token "::" :: .quoted _ :: _ => .error .expectedWord
  | [.token "::"] => .error .endOfWord
  | rest => .ok ([], rest)

def someNames : List Lexeme → Except CompileError (List String × List Lexeme)
  | [] => .error .endOfArguments
  | .quoted _ :: _ => .error .literalArgument
  | .token name :: rest =>
      if Token.isName name then (moreNames rest).map fun (names, rest) => (name :: names, rest)
      else if Token.isNumber name || Token.isQuoted name then .error .literalArgument
      else .error .symbolArgument

/-- The names of the path of an argument, and what is behind the path. A double colon in front
counts as one more name, the empty one. -/
def pathNames : List Lexeme → Except CompileError (List String × List Lexeme)
  | .token "::" :: rest => (someNames rest).map fun (names, rest) => ("" :: names, rest)
  | lexemes => someNames lexemes

def assigned : List Lexeme → Except CompileError (String × List Lexeme)
  | .token "=" :: .quoted text :: rest => .ok (text, rest)
  | .token "=" :: .token _ :: _ => .error .expectedText
  | [.token "="] => .error .endOfText
  | _ => .error .expectedEquals

/-- Goes through the arguments. Each is taken by its path and what is behind that, and leaves what
is not its own. The fuel is a bound on their number. -/
def foldArguments {μ : Type}
    (take : μ → List String → List Lexeme → Except CompileError (μ × List Lexeme)) :
    Nat → μ → List Lexeme → Except CompileError μ
  | 0, known, _ | _ + 1, known, [] => .ok known
  | fuel + 1, known, lexeme :: lexemes => do
      let (names, rest) ← pathNames (lexeme :: lexemes)
      let (known, rest) ← take known names rest
      match rest with
      | [] => pure known
      | .token "," :: rest => foldArguments take fuel known rest
      | _ => throw .expectedComma

end Lexeme

def Argument.lexemes : Argument → List Lexeme
  | .word text => (Token.split text).map .ofToken
  | .assign path value => (Token.split path).map .ofToken ++ [.token "=", .quoted value]

/-- The lexemes of an attribute's arguments, which have to stand in parentheses. -/
def AttributeBody.lexemes : AttributeBody → Except CompileError (List Lexeme)
  | .bare => .error .noArguments
  | .value _ => .error .notAList
  | .list arguments => .ok ([.token ","].intercalate (arguments.map (·.lexemes)))

end ObjectStream
