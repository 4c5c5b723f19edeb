import StagedLambda.Text.Decimal

/-!
# Identifiers and colors

A name as written, a binder without a spelling, or a binder after renaming. Renaming gives a
binder a *color*: its base name together with a tag that no other binder of the run has. The
tags come from a `Palette`, which counts those it has issued; `Palette.color` always issues the
next one.
-/

namespace StagedLambda

inductive Ident
  /-- A name as written in a program. -/
  | raw (name : String)
  /-- A binder with no spelling of its own. -/
  | generated (tag : Nat)
  /-- A renamed binder. -/
  | colored (name : String) (tag : Nat)
deriving DecidableEq

namespace Ident

/-- The spelling that an identifier descends from; a generated one has none. -/
def base : Ident → String
  | .raw name | .colored name _ => name
  | .generated _ => ""

def tag? : Ident → Option Nat
  | .raw _ => none
  | .generated tag | .colored _ tag => some tag

def isRaw : Ident → Bool
  | .raw _ => true
  | .generated _ | .colored _ _ => false

def isColored : Ident → Bool
  | .colored _ _ => true
  | .raw _ | .generated _ => false

/-- An unnamed color is written with an underscore in place of its name. -/
def text : Ident → String
  | .raw name => name
  | .generated tag => "_g" ++ Decimal.ofNat tag
  | .colored name tag => (if name = "" then "_" else name) ++ "@" ++ Decimal.ofNat tag

end Ident

/-- The supply of colors of one machine. -/
structure Palette where
  /-- How many tags have been issued; also the next tag. -/
  issued : Nat := 0
deriving DecidableEq

namespace Palette

/-- The color that a binder gets next: its base name with the first unissued tag. -/
def tint (p : Palette) (id : Ident) : Ident := .colored id.base p.issued

def advance (p : Palette) : Palette := ⟨p.issued + 1⟩

/-- Colors a binder and takes its tag out of the supply. -/
def color (p : Palette) (id : Ident) : Ident × Palette := (p.tint id, p.advance)

@[simp] theorem issued_advance (p : Palette) : p.advance.issued = p.issued + 1 := rfl

@[simp] theorem base_tint (p : Palette) (id : Ident) : (p.tint id).base = id.base := rfl

@[simp] theorem tag?_tint (p : Palette) (id : Ident) : (p.tint id).tag? = some p.issued := rfl

end Palette

end StagedLambda
