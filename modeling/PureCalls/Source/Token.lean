import PureCalls.Source.Fault
import PureCalls.Tree

/-! Tokens of source text. -/
namespace PureCalls.Source

@[match_pattern] def openBrace : String := "\x7b"
@[match_pattern] def closeBrace : String := "\x7d"
def dollarBrace : String := "$\x7b"

inductive Token where
  | eof
  /-- Punctuation and operators. -/
  | sign (text : String)
  /-- A name or keyword. `escaped` tells whether it was spelled with an escape. -/
  | word (name : String) (escaped : Bool)
  | number (raw : String)
  | bigInt (raw : String)
  | string (raw : String)
  | regExp (pattern flags : String)
  | hashbang (text : String)
  /-- The text between two tags. -/
  | elementText (raw : String)
  /-- Text that is no token. -/
  | bad (fault : Fault)
  deriving DecidableEq, Repr, Inhabited

namespace Token

/-- The words that cannot name anything in any code. -/
def reserved : List String :=
  ["break", "case", "catch", "class", "const", "continue", "debugger", "default", "delete", "do", "else", "export",
   "extends", "false", "finally", "for", "function", "if", "import", "in", "instanceof", "new", "null",
   "return", "super", "switch", "this", "throw", "true", "try", "typeof", "var", "void", "while", "with"]

/-- The words that cannot name anything in strict code either. -/
def reservedInStrict : List String :=
  ["implements", "interface", "let", "package", "private", "protected", "public", "static", "yield"]

def isReserved (name : String) : Bool :=
  reserved.contains name

/-- The words that are tokens of their own, and that a message shows as they are. -/
def ownWords : List String :=
  reserved ++ ["let", "yield", "await", "static", "enum", "of", "async", "as", "from", "get", "set", "type", "declare",
    "abstract", "namespace", "global", "is", "keyof", "infer", "readonly", "unique", "asserts", "assert", "any",
    "boolean", "bigint", "constructor", "never", "number", "object", "string", "symbol", "undefined", "unknown",
    "intrinsic", "accessor", "satisfies", "override", "public", "private", "protected", "implements", "interface",
    "package", "require", "out", "target", "meta", "module", "using"]

/-- How a message names the token. -/
def shown : Token → String
  | .eof => "<eof>"
  | .sign text => text
  | .word name _ => if ownWords.contains name then name else "ident"
  | .number _ => "numeric literal"
  | .bigInt _ => "bigint literal"
  | .string _ => "string literal"
  | .regExp _ _ => "regexp literal"
  | .hashbang _ => "#!"
  | .elementText _ => "jsx text"
  | .bad _ => "<lexing error>"

private def operators : List String :=
  ["+", "-", "*", "/", "%", "**", "<<", ">>", ">>>", "<", ">", "<=", ">=", "==", "!=", "===", "!==", "&", "|", "^",
   "&&", "||", "??"]

/-- Whether a comment up to the end of the line may belong to the token in front of it. -/
def canEndLine : Token → Bool
  | .sign text => !operators.contains text
  | _ => true

/-- Whether a comment in the same line may belong to the token in front of it. -/
def canKeepComment : Token → Bool
  | .sign text => text = ";" || text = openBrace || text = closeBrace || text = dollarBrace
  | .word name _ => !isReserved name && !(["let", "yield", "await", "static", "enum"].contains name)
  | .number _ | .bigInt _ | .string _ | .regExp _ _ | .elementText _ => true
  | _ => false

end Token

/-- A token and its place. -/
structure Lexeme where
  token : Token
  span : Span
  /-- Whether a line ended between the token before and this one. -/
  afterBreak : Bool
  /-- The source text from the start of the token on. -/
  source : List Char
  deriving Inhabited

end PureCalls.Source
