import StagedLambda.Source.Grammar
import StagedLambda.Source.Lexeme

/-!
# Programs in source form

Reading a program is scanning it and then reading its tokens. A lexical fault wins over every
other error, the first one over the later ones. An error carries the place it points at: the
offending lexeme, or the end of the source.
-/

namespace StagedLambda

structure SyntaxError where
  message : String
  span : Span
  start : Position
  stop : Position
deriving DecidableEq

namespace SyntaxError

def locate (source : List Char) (span : Span) (message : String) : SyntaxError :=
  ⟨message, span, .ofOffset source span.start, .ofOffset source span.stop⟩

/-- The message behind its row and column, which readers count from one. -/
def text (e : SyntaxError) : String :=
  Decimal.ofNat (e.start.row + 1) ++ ":" ++ Decimal.ofNat (e.start.column + 1) ++ ": " ++ e.message

end SyntaxError

namespace Program

/-- The tokens of the lexemes with their spans, or the first lexical fault. -/
def tokens : List Lexeme → Except (Span × LexicalFault) (List (Token × Span))
  | [] => .ok []
  | ⟨span, .error fault⟩ :: _ => .error (span, fault)
  | ⟨span, .ok token⟩ :: rest => (tokens rest).map ((token, span) :: ·)

/-- Where a refusal points: the first token that was left, or the end of the source. -/
def refusalSpan (source : List Char) (tokens : List (Token × Span)) (r : Refusal) : Span :=
  match tokens[tokens.length - r.rest.length]? with
  | some (_, span) => span
  | none => ⟨byteWidth source, byteWidth source⟩

def readChars (source : List Char) : Except SyntaxError Term :=
  match tokens (Lexeme.scan source) with
  | .error (span, fault) => .error (.locate source span fault.message)
  | .ok tokens =>
    match Grammar.program (tokens.map (·.1)) with
    | .error refusal => .error (.locate source (refusalSpan source tokens refusal) refusal.message)
    | .ok term => .ok term

/-- Reads a whole program. -/
def read (source : String) : Except SyntaxError Term := readChars source.toList

end Program

end StagedLambda
