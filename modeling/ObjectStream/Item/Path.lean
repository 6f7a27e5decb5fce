import ObjectStream.Item.Token

/-!
# Paths in attributes

The faults for which an item is rejected, and the texts that are paths. Whether a
text is a path is for the compiler to say, so an item carries the check along. The
check that stands here goes by the names and the double colons between them; in
angle brackets it only looks for the one that closes them.
-/

namespace ObjectStream

inductive CompileError
  | unknownContainerAttribute
  | unknownFieldAttribute
  | baseWithRule
  | mapNeedsNames
  | baseInMap
  | baseInVariant
  | union
  | noArguments
  | notAList
  | endOfArguments
  | literalArgument
  | symbolArgument
  | endOfWord
  | expectedWord
  | expectedComma
  | expectedEquals
  | endOfText
  | expectedText
  | notTokens
  | endOfPath
  | expectedName
  | keyword (word : String)
  | unexpectedToken
  deriving DecidableEq, Repr

namespace CompileError

def message : CompileError → String
  | .unknownContainerAttribute => "unknown bstream container attribute"
  | .unknownFieldAttribute => "unknown bstream field attribute"
  | .baseWithRule => "`base` and `with` cannot be combined"
  | .mapNeedsNames => "`#[bstream(as_map)]` requires named fields"
  | .baseInMap => "`#[bstream(base)]` is not supported in `as_map` structs"
  | .baseInVariant => "`#[bstream(base)]` is not supported in enum variants"
  | .union => "Unions are not supported"
  | .noArguments => "expected attribute arguments in parentheses: #[bstream(...)]"
  | .notAList => "expected parentheses: #[bstream(...)]"
  | .endOfArguments => "unexpected end of input, expected nested attribute"
  | .literalArgument => "unexpected literal in nested attribute, expected ident"
  | .symbolArgument => "unexpected token in nested attribute, expected ident"
  | .endOfWord => "unexpected end of input, expected ident"
  | .expectedWord => "expected ident"
  | .expectedComma => "expected `,`"
  | .expectedEquals => "expected `=`"
  | .endOfText => "unexpected end of input, expected string literal"
  | .expectedText => "expected string literal"
  | .notTokens => "cannot parse string into token stream"
  | .endOfPath => "unexpected end of input, expected identifier"
  | .expectedName => "expected identifier"
  | .keyword word => s!"expected identifier, found keyword `{word}`"
  | .unexpectedToken => "unexpected token"

end CompileError

/-- The check of a text that is to be a path. -/
abbrev PathCheck := String → Except CompileError Unit

/-! ## Texts that are paths -/

namespace Path

/-- What is behind the closing bracket of angle brackets, `depth` of which are open. -/
def closeAngles : Nat → List String → Option (List String)
  | 0, tokens => some tokens
  | _ + 1, [] => none
  | depth + 1, ">" :: tokens => closeAngles depth tokens
  | depth + 1, "<" :: tokens => closeAngles (depth + 2) tokens
  | depth + 1, _ :: tokens => closeAngles (depth + 1) tokens

/-- What a path may go on with: a part is wanted, or one has been read that can have arguments, or
one that has them or takes none. -/
inductive Place
  | part
  | afterPart
  | afterArguments

/-- Checks the tokens of a path from a place on. The fuel is a bound on the number of parts. -/
def check : Nat → Place → List String → Except CompileError Unit
  | 0, _, _ => .error .unexpectedToken
  | _ + 1, .part, [] => .error .endOfPath
  | fuel + 1, .part, token :: tokens =>
      if !Token.isName token then .error .expectedName
      else if Token.pathKeywords.contains token then check fuel .afterArguments tokens
      else if Token.keywords.contains token && token ≠ "Self" then .error (.keyword token)
      else check fuel .afterPart tokens
  | _ + 1, .afterPart, [] | _ + 1, .afterArguments, [] => .ok ()
  | fuel + 1, .afterPart, "<" :: tokens | fuel + 1, .afterPart, "::" :: "<" :: tokens =>
      match closeAngles 1 tokens with
      | some rest => check fuel .afterArguments rest
      | none => .error .expectedComma
  | _ + 1, .afterPart, "::" :: "(" :: _ | _ + 1, .afterArguments, "::" :: "(" :: _ =>
      .error .unexpectedToken
  | fuel + 1, .afterPart, "::" :: tokens | fuel + 1, .afterArguments, "::" :: tokens =>
      check fuel .part tokens
  | _ + 1, .afterPart, _ :: _ | _ + 1, .afterArguments, _ :: _ => .error .unexpectedToken

/-- Checks that a text is a path: names apart from each other by double colons, with arguments in
angle brackets if there are any. -/
def validate (text : String) : Except CompileError Unit :=
  if !Token.isTokenText text then .error .notTokens
  else match (Token.split text).flatMap Token.apart with
    | "::" :: tokens => check (2 * text.length + 2) .part tokens
    | tokens => check (2 * text.length + 2) .part tokens

end Path

end ObjectStream
