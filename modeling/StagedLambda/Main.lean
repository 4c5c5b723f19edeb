import StagedLambda.Shell.Prompt

/-!
# The program

Reads the command line and the file or the standard input, and prints what the library answers.
-/

namespace StagedLambda

/-- The command line: the options and the file to evaluate, if there is one. -/
structure Invocation where
  options : Options := {}
  file? : Option String := none

namespace Invocation

def usage : String := "usage: staged [--fuel N] [--types] [--trace] [FILE]"

/-- A whole number of machine steps. -/
def amount? (s : String) : Option UInt64 :=
  if s.isEmpty ∨ !s.all Char.isDigit then none
  else
    let n := Decimal.value s.toList
    if n < UInt64.size then some (.ofNat n) else none

def read (seen : Invocation) : List String → Except String Invocation
  | [] => .ok seen
  | "--fuel" :: n :: rest =>
    match amount? n with
    | some amount => { seen with options := { seen.options with fuel? := some amount } }.read rest
    | none => .error usage
  | "--types" :: rest => { seen with options := { seen.options with types := true } }.read rest
  -- A log of the steps would go to the error stream, and there is none.
  | "--trace" :: rest => seen.read rest
  | arg :: rest =>
    if arg.startsWith "-" ∨ seen.file?.isSome then .error usage
    else { seen with file? := some arg }.read rest

end Invocation

/-- Answers the lines of the standard input one by one. -/
partial def converse (options : Options) (input output : IO.FS.Stream) : IO UInt32 := do
  let line ← input.getLine
  if line.isEmpty then return 0
  match Prompt.answer options line.toList with
  | some text =>
    output.putStr text
    output.flush
    converse options input output
  | none => return 0

def Invocation.perform (i : Invocation) : IO UInt32 := do
  match i.file? with
  | none => converse i.options (← IO.getStdin) (← IO.getStdout)
  | some name =>
    let content? ← try some <$> IO.FS.readFile name catch _ => pure none
    let output := Prompt.evaluateFile i.options name content?
    IO.print output.text
    if content?.isNone then
      IO.eprintln ("could not read " ++ name)
    else if output.exitCode ≠ 0 then
      IO.eprintln ("evaluating " ++ name ++ " failed")
    return output.exitCode

end StagedLambda

def main (args : List String) : IO UInt32 := do
  match StagedLambda.Invocation.read {} args with
  | .ok invocation => invocation.perform
  | .error message =>
    IO.eprintln message
    return 2
