import StagedLambda.Source.Span
import StagedLambda.Source.Token

/-!
# Lexemes

A source text is cut into lexemes from left to right, each as long as some token allows. White
space and comments between lexemes are skipped. Where no token starts, one character is reported
as invalid and the scan goes on after it, so that every source has a list of lexemes.
-/

namespace StagedLambda

inductive LexicalFault
  | invalid
  /-- A numeral above the largest integer. -/
  | tooBig (digits : String)
deriving DecidableEq

def LexicalFault.message : LexicalFault → String
  | .invalid => "invalid token encountered"
  | .tooBig digits => "integer literal too big: " ++ digits

/-- A piece of the source and what it reads as. -/
structure Lexeme where
  span : Span
  reading : Except LexicalFault Token

namespace Lexeme

/-! ### Character classes -/

def isSpace (c : Char) : Bool :=
  c = ' ' || c = '\t' || c = '\r' || c = '\n' || c = '\x0c'

/-- The characters that begin a word; words are made of ASCII characters only. -/
def isWordStart (c : Char) : Bool := c.isAlpha || c = '_'

def isWordPart (c : Char) : Bool := c.isAlphanum || c = '_' || c = '\x27'

/-! ### Reading one lexeme -/

/-- What a whole word reads as: a keyword, the wildcard, or else a name. -/
def word (text : String) : Token :=
  if text = "fn" then .fnWord
  else if text = "fix" then .fixWord
  else if text = "let" then .letWord
  else if text = "in" then .inWord
  else if text = "if" then .ifWord
  else if text = "then" then .thenWord
  else if text = "else" then .elseWord
  else if text = "not" then .notWord
  else if text = "true" then .boolean true
  else if text = "false" then .boolean false
  else if text = "_" then .underscore
  else .identifier text

/-- What a run of digits reads as; the bound is one above the largest 64-bit integer. -/
def numeral (digits : List Char) : Except LexicalFault Token :=
  if Decimal.value digits < 0x8000000000000000 then .ok (.integer (.ofNat (Decimal.value digits)))
  else .error (.tooBig (String.ofList digits))

/-- The marks of two characters. -/
def pair? : Char → Char → Option Token
  | '-', '>' => some .arrow
  | '=', '=' => some .equal
  | '!', '=' => some .notEqual
  | '<', '=' => some .lessEqual
  | '>', '=' => some .greaterEqual
  | '&', '&' => some .andAnd
  | '|', '|' => some .orOr
  | '\x60', '\x7b' => some .quoteOpen
  | _, _ => none

/-- The marks of one character. -/
def single? : Char → Option Token
  | '=' => some .assign
  | '(' => some .leftParen
  | ')' => some .rightParen
  | '~' => some .tilde
  | '\x7b' => some .leftBrace
  | '\x7d' => some .rightBrace
  | '+' => some .plus
  | '-' => some .minus
  | '*' => some .star
  | '/' => some .slash
  | '%' => some .percent
  | '<' => some .less
  | '>' => some .greater
  | _ => none

/-- Reads the lexeme that starts with `c`: how many of the characters after `c` belong to it, and
what it reads as. -/
def munch (c : Char) (cs : List Char) : Nat × Except LexicalFault Token :=
  if isWordStart c then
    let tail := cs.takeWhile isWordPart
    (tail.length, .ok (word (String.ofList (c :: tail))))
  else if c.isDigit then
    let tail := cs.takeWhile Char.isDigit
    (tail.length, numeral (c :: tail))
  else
    match cs.head?.bind (pair? c) with
    | some token => (1, .ok token)
    | none =>
      match single? c with
      | some token => (0, .ok token)
      | none => (0, .error .invalid)

/-! ### The scan -/

/-- The lexemes of the characters from byte `offset` on. -/
def scanFrom (offset : Nat) : List Char → List Lexeme
  | [] => []
  | c :: cs =>
    if isSpace c then
      scanFrom (offset + c.utf8Size) cs
    else if c = '#' then
      scanFrom (offset + byteWidth (c :: cs.takeWhile (· ≠ '\n'))) (cs.dropWhile (· ≠ '\n'))
    else
      let (extra, reading) := munch c cs
      let stop := offset + byteWidth (c :: cs.take extra)
      ⟨⟨offset, stop⟩, reading⟩ :: scanFrom stop (cs.drop extra)
termination_by cs => cs.length
decreasing_by
  · exact Nat.lt_succ_self _
  · exact Nat.lt_succ_of_le (List.dropWhile_sublist _).length_le
  · simp only [List.length_drop, List.length_cons]
    omega

theorem scanFrom_nil (offset : Nat) : scanFrom offset [] = [] := by
  rw [scanFrom]

theorem scanFrom_space {c : Char} (h : isSpace c = true) (offset : Nat) (cs : List Char) :
    scanFrom offset (c :: cs) = scanFrom (offset + c.utf8Size) cs := by
  rw [scanFrom, if_pos h]

theorem scanFrom_comment (offset : Nat) (cs : List Char) :
    scanFrom offset ('#' :: cs) =
      scanFrom (offset + byteWidth ('#' :: cs.takeWhile (· ≠ '\n')))
        (cs.dropWhile (· ≠ '\n')) := by
  rw [scanFrom, if_neg (by decide), if_pos rfl]

theorem scanFrom_lexeme {c : Char} (hSpace : isSpace c = false) (hHash : c ≠ '#') (offset : Nat)
    (cs : List Char) :
    scanFrom offset (c :: cs) =
      ⟨⟨offset, offset + byteWidth (c :: cs.take (munch c cs).1)⟩, (munch c cs).2⟩ ::
        scanFrom (offset + byteWidth (c :: cs.take (munch c cs).1))
          (cs.drop (munch c cs).1) := by
  rw [scanFrom, if_neg (by simp [hSpace]), if_neg hHash]

/-- The lexemes of a whole source. -/
def scan (source : List Char) : List Lexeme := scanFrom 0 source

end Lexeme

end StagedLambda
