/-!
# Terminal colors

Text between the escape sequence that switches a style on and the one that switches all styles
off. An empty text gets both sequences too.
-/

namespace StagedLambda

inductive Style
  | plain
  | red
  | green
  | yellow
  | blue
  | magenta
  | dim
  | boldRed
  | boldYellow
deriving DecidableEq

namespace Style

/-- The parameters of the escape sequence, if the style needs one. -/
def code? : Style → Option String
  | .plain => none
  | .red => some "31"
  | .green => some "32"
  | .yellow => some "33"
  | .blue => some "34"
  | .magenta => some "35"
  | .dim => some "2"
  | .boldRed => some "1;31"
  | .boldYellow => some "1;33"

def paint (style : Style) (s : String) : String :=
  match style.code? with
  | some code => "\x1b[" ++ code ++ "m" ++ s ++ "\x1b[0m"
  | none => s

end Style

end StagedLambda
