import StagedLambda.Machine.Run
import StagedLambda.Shell.SourceBlock
import StagedLambda.Source.Program
import StagedLambda.Typing.Infer

/-!
# Reports

What the command line and the prompt print about a program: its value or why there is none, its
tokens, its type.
-/

namespace StagedLambda

/-- How programs are evaluated and what is said about them. -/
structure Options where
  /-- The transitions allowed to one evaluation. -/
  fuel? : Option UInt64 := none
  /-- Also report the type of a program that has one. -/
  types : Bool := false

namespace Report

def heading (style : Style) (title text : String) : String :=
  style.paint title ++ " " ++ text ++ "\n"

/-- A label needs a character under it, so an empty range at the end points at the last one. -/
def widen? (source : List Char) (span : Span) : Option Span :=
  if !span.isEmpty then some span
  else
    let before := charsBefore source span.start
    -- Inside of a character and past the end there is nothing to point at.
    if byteWidth before ≠ span.start then none
    else
      match source.drop before.length with
      | c :: _ => some ⟨span.start, span.start + c.utf8Size⟩
      | [] => before.getLast?.map fun c => ⟨span.start - c.utf8Size, span.start⟩

def syntaxError (name : String) (source : List Char) (e : SyntaxError) : String :=
  heading .boldRed "syntax error:" e.text ++
    match widen? source e.span with
    | some span => SourceBlock.render name source [⟨span, Style.red.paint e.message, .red⟩]
    | none => ""

/-- What evaluating a program printed, and whether it gave a value. -/
structure Evaluation where
  text : String
  succeeded : Bool

/-- The type, on request and only if there is one. -/
def typeLine (options : Options) (term : Term) : String :=
  if options.types then
    match term.typeOf with
    | .ok ty => heading .dim "type:" ty.text
    | .error _ => ""
  else ""

/-- A trap would stop the program before this; no run from a program is long enough to get to one. -/
def outcome (run : Run Fuel) : Evaluation :=
  match run.outcome with
  | .finished v => ⟨v.text ++ "\n", true⟩
  | .suspended s =>
    ⟨heading .boldYellow "note:" ("out of fuel after " ++ Decimal.ofNat run.machine.steps
      ++ " steps, stopped at level " ++ Decimal.ofNat s.level.toNat ++ " with "
      ++ Decimal.ofNat s.depth ++ " frames pending"), false⟩
  | .failed fault => ⟨heading .boldRed "error:" fault.message, false⟩

/-- Reads and runs a program on a machine of its own. -/
def evaluate (options : Options) (name : String) (source : List Char) : Evaluation :=
  match Program.readChars source with
  | .error e => ⟨syntaxError name source e, false⟩
  | .ok term =>
    let fuel : Fuel := match options.fuel? with
      | some amount => ⟨amount, false⟩
      | none => .unbounded
    let result := outcome (({} : Machine).runWithFuel (.initial term) fuel)
    ⟨typeLine options term ++ result.text, result.succeeded⟩

/-- The color of a token in a listing. -/
def tokenStyle : Token → Style
  | .identifier _ => .blue
  | .integer _ | .boolean _ => .yellow
  | .quoteOpen | .tilde => .magenta
  | _ => .plain

def tokenLabel (l : Lexeme) : Label :=
  match l.reading with
  | .ok token => ⟨l.span, Style.green.paint token.label, tokenStyle token⟩
  | .error fault => ⟨l.span, Style.red.paint fault.message, .red⟩

/-- A listing of the tokens of one line. -/
def tokens (source : List Char) : String :=
  match Lexeme.scan source with
  | [] => Style.dim.paint "no tokens" ++ "\n"
  | lexemes => SourceBlock.render "input" source (lexemes.map tokenLabel)

def typeOf (source : List Char) : String :=
  match Program.readChars source with
  | .error e => syntaxError "input" source e
  | .ok term =>
    match term.typeOf with
    | .ok ty => ty.text ++ "\n"
    | .error e => heading .boldRed "type error:" e.message

end Report

end StagedLambda
