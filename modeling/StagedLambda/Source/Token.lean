import StagedLambda.Wording

/-!
# Tokens

The words, marks and literals that programs are made of. Every token has a spelling, which is
its text in a program, and a description, which is how a message refers to it.
-/

namespace StagedLambda

inductive Token
  | fnWord
  | fixWord
  | letWord
  | inWord
  | ifWord
  | thenWord
  | elseWord
  | notWord
  | boolean (value : Bool)
  | arrow
  | assign
  | leftParen
  | rightParen
  /-- A quote always opens a brace. -/
  | quoteOpen
  | tilde
  | leftBrace
  | rightBrace
  | plus
  | minus
  | star
  | slash
  | percent
  | equal
  | notEqual
  | less
  | lessEqual
  | greater
  | greaterEqual
  | andAnd
  | orOr
  | underscore
  | identifier (name : String)
  | integer (value : Int64)
deriving DecidableEq

namespace Token

def spelling : Token → String
  | .fnWord => "fn"
  | .fixWord => "fix"
  | .letWord => "let"
  | .inWord => "in"
  | .ifWord => "if"
  | .thenWord => "then"
  | .elseWord => "else"
  | .notWord => "not"
  | .boolean true => "true"
  | .boolean false => "false"
  | .arrow => "->"
  | .assign => "="
  | .leftParen => "("
  | .rightParen => ")"
  | .quoteOpen => "\x60\x7b"
  | .tilde => "~"
  | .leftBrace => "\x7b"
  | .rightBrace => "\x7d"
  | .plus => "+"
  | .minus => "-"
  | .star => "*"
  | .slash => "/"
  | .percent => "%"
  | .equal => "=="
  | .notEqual => "!="
  | .less => "<"
  | .lessEqual => "<="
  | .greater => ">"
  | .greaterEqual => ">="
  | .andAnd => "&&"
  | .orOr => "||"
  | .underscore => "_"
  | .identifier name => name
  | .integer n => Decimal.ofInt n.toInt

/-- How a message names the token: its spelling in backquotes, after its class if it has one. -/
def describe (t : Token) : String :=
  let quoted := backquoted t.spelling
  match t with
  | .identifier _ => "identifier " ++ quoted
  | .integer _ => "integer " ++ quoted
  | _ => quoted

/-- Whether the token can begin the argument of an application. -/
def startsAtom : Token → Bool
  | .integer _ | .boolean _ | .identifier _ | .leftParen | .quoteOpen | .tilde => true
  | _ => false

/-- The class of the token, with its content, as a listing of tokens shows it. -/
def label : Token → String
  | .fnWord => "Fn"
  | .fixWord => "Fix"
  | .letWord => "Let"
  | .inWord => "In"
  | .ifWord => "If"
  | .thenWord => "Then"
  | .elseWord => "Else"
  | .notWord => "Not"
  | .boolean true => "Boolean(true)"
  | .boolean false => "Boolean(false)"
  | .arrow => "Arrow"
  | .assign => "Assign"
  | .leftParen => "LParen"
  | .rightParen => "RParen"
  | .quoteOpen => "QuoteOpen"
  | .tilde => "Tilde"
  | .leftBrace => "LBrace"
  | .rightBrace => "RBrace"
  | .plus => "Plus"
  | .minus => "Minus"
  | .star => "Star"
  | .slash => "Slash"
  | .percent => "Percent"
  | .equal => "EqEq"
  | .notEqual => "NotEq"
  | .less => "Less"
  | .lessEqual => "LessEq"
  | .greater => "Greater"
  | .greaterEqual => "GreaterEq"
  | .andAnd => "AndAnd"
  | .orOr => "OrOr"
  | .underscore => "Underscore"
  | .identifier name => "Identifier(\"" ++ name ++ "\")"
  | .integer n => "Integer(" ++ Decimal.ofInt n.toInt ++ ")"

end Token

end StagedLambda
