import StagedLambda.Shell.Report
import StagedLambda.Text.Blank

/-!
# The command line and the prompt

With a file the program in it is evaluated once, and the exit code says whether it gave a value.
Without one, lines are read and answered in turn: a line is a command if it starts with a colon,
and else a program.
-/

namespace StagedLambda

/-- What a run of the tool leaves behind. -/
structure Output where
  text : String
  exitCode : UInt32
deriving DecidableEq

namespace Prompt

def help : String :=
  ":tokens <expr>  show how the input is tokenized\n" ++
  ":type <expr>    show the static type of an unstaged expression\n" ++
  ":help           show this message\n" ++
  ":quit           leave\n"

/-- What remains of `cs` behind the word, if it starts with it. -/
def behind? : List Char → List Char → Option (List Char)
  | [], cs => some cs
  | w :: ws, c :: cs => if w = c then behind? ws cs else none
  | _ :: _, [] => none

/-- The answer to a line, or `none` if the line ends the session. Blanks around a line and around
the operand of a command do not count; a command's word may run into its operand. -/
def answer (options : Options) (line : List Char) : Option String :=
  let input := Blank.trim line
  if input = [] then some ""
  else if input = ":quit".toList ∨ input = ":q".toList then none
  else if input = ":help".toList then some help
  else
    match behind? ":tokens".toList input with
    | some rest => some (Report.tokens (Blank.trim rest))
    | none =>
      match behind? ":type".toList input with
      | some rest => some (Report.typeOf (Blank.trim rest))
      | none =>
        if input.head? = some ':' then some "unknown command, try :help\n"
        else some (Report.evaluate options "input" input).text

/-- The answers to all lines up to the one that ends the session. -/
def answers (options : Options) : List (List Char) → String
  | [] => ""
  | line :: lines =>
    match answer options line with
    | some text => text ++ answers options lines
    | none => ""

/-- A session at the prompt, fed with the given text. -/
def converse (options : Options) (input : List Char) : Output :=
  ⟨answers options ((Line.list input).map (·.chars)), 0⟩

/-- Evaluates the content of a file, or fails if it cannot be read. -/
def evaluateFile (options : Options) (name : String) (content? : Option String) : Output :=
  match content? with
  | some source =>
    let result := Report.evaluate options name source.toList
    ⟨result.text, if result.succeeded then 0 else 1⟩
  | none => ⟨"", 1⟩

end Prompt

end StagedLambda
