import Mathlib.Data.List.Forall2
import StagedLambda.Proofs.Source.Reading
import StagedLambda.Proofs.Source.Spelling

/-!
# Texts of all terms

The texts of most terms cannot be read: code has colors for its binders, which are no names, the
least integer is no numeral behind a minus sign, and a primitive with a wrong number of operands
has no form in the grammar.  Here any text of a term is cut more coarsely, at its spaces, brackets
and commas; what stands between two of these is one word, whatever it is made of, and almost every
word counts as a name.  The grammar derives something from such tokens as well, not the term itself
but another one that names its numbers, its splice marks and the heads of its calls.

* `Gloss.tokens`: the tokens of a text that has been cut in this way.
* `Gloss.Derives`: what the grammar makes of them.
* `Gloss.Derives.call`: a call that has no form in the grammar stands for a function.
-/

namespace StagedLambda

open Grammar (Leads)

namespace Gloss

/-! ### Words -/

/-- The characters that words are made of. -/
def isPlain : Char → Bool
  | ' ' | '(' | ')' | ',' | '\x7b' | '\x7d' => false
  | _ => true

/-- The tokens that are words with a meaning of their own. -/
def fixed : List Token := Token.fixed.filter fun t => t.spelling.toList.all isPlain

/-- What the characters between two marks stand for. -/
def word (w : List Char) : List Token :=
  if w = [] then []
  else [(fixed.find? (·.spelling.toList = w)).getD (.identifier (String.ofList w))]

/-- The name of the function that a word in front of a parenthesis stands for. -/
def callee (w : List Char) : String := String.ofList (w ++ ['('])

/-! ### Marks -/

/-- The tokens of a word and the mark behind it, in front of the character `next?`.  All parentheses
are doubled, so that those of a call can be told from those around an operand: a call
`name(a, b)` becomes the function `(fn name( -> 0 (a) (b))`. -/
def cut? (w : List Char) (next? : Option Char) : Char → Option (List Token)
  | ' ' => some (word w)
  | ')' => some (word w ++ [.rightParen, .rightParen])
  | ',' => some (word w ++ [.rightParen, .leftParen])
  | '\x7d' => some (word w ++ [.rightBrace])
  | '\x7b' =>
    if w = ['\x60'] then some [.quoteOpen]
    else some [.tilde, .leftBrace, .fnWord, .identifier (String.ofList w), .arrow]
  | '(' =>
    if w = [] then some [.leftParen, .leftParen]
    else
      let body := if next? = some ')' then [.leftParen, .integer 0] else [.integer 0, .leftParen]
      some ([.leftParen, .fnWord, .identifier (callee w), .arrow] ++ body)
  | _ => none

/-- The tokens of a text; the word `w` has been read off it already. -/
def tokens (w : List Char) : List Char → List Token
  | [] => word w
  | c :: cs =>
    match cut? w cs.head? c with
    | some ts => ts ++ tokens [] cs
    | none => tokens (w ++ [c]) cs

theorem cut?_of_isPlain {c : Char} (h : isPlain c = true) (w : List Char) (next? : Option Char) :
    cut? w next? c = none := by
  unfold cut?
  split <;> first | rfl | exact absurd h (by decide)

theorem tokens_of_cut {w cs : List Char} {c : Char} {ts : List Token}
    (h : cut? w cs.head? c = some ts) : tokens w (c :: cs) = ts ++ tokens [] cs := by
  rw [tokens, h]

/-- Characters of a word are read one by one. -/
theorem tokens_plain {x : List Char} (h : ∀ c ∈ x, isPlain c = true) (w rest : List Char) :
    tokens w (x ++ rest) = tokens (w ++ x) rest := by
  induction x generalizing w with
  | nil => rw [List.append_nil, List.nil_append]
  | cons c cs ih =>
    rw [List.forall_mem_cons] at h
    rw [List.cons_append, tokens, cut?_of_isPlain h.1]
    show tokens (w ++ [c]) (cs ++ rest) = _
    rw [ih h.2, List.append_assoc, List.singleton_append]

/-- What can stand behind a construct. -/
def Ends (rest : List Char) : Prop := ∀ c ∈ rest.head?, c = ' ' ∨ c = ')' ∨ c = ','

theorem ends_nil : Ends [] := nofun

theorem ends_cons {c : Char} {cs : List Char} (h : c = ' ' ∨ c = ')' ∨ c = ',') :
    Ends (c :: cs) := by
  rintro d ⟨⟩
  exact h

theorem tokens_of_ends {rest : List Char} (h : Ends rest) (w : List Char) :
    tokens w rest = word w ++ tokens [] rest := by
  cases rest with
  | nil => exact (List.append_nil _).symm
  | cons c cs =>
    rcases h c rfl with rfl | rfl | rfl <;> simp [tokens, cut?, word]

/-! ### Pieces of text -/

/-- The text has the tokens wherever a construct can end behind it. -/
def Glossed (x : String) (ts : List Token) : Prop :=
  ∀ rest, Ends rest → tokens [] (x.toList ++ rest) = ts ++ tokens [] rest

/-- A word that is a name here. -/
structure Names (x : String) : Prop where
  plain : ∀ c ∈ x.toList, isPlain c = true
  nonempty : x.toList ≠ []
  unfixed : ∀ t ∈ fixed, t.spelling ≠ x

theorem word_fixed : ∀ t ∈ fixed, word t.spelling.toList = [t] := by decide

theorem plain_fixed : ∀ t ∈ fixed, ∀ c ∈ t.spelling.toList, isPlain c = true := fun _ ht =>
  List.all_eq_true.mp (List.mem_filter.mp ht).2

theorem Names.word {x : String} (h : Names x) : word x.toList = [.identifier x] := by
  have hNone : fixed.find? (fun t => t.spelling.toList = x.toList) = none := by
    rw [List.find?_eq_none]
    intro t ht
    simpa [String.toList_inj] using h.unfixed t ht
  rw [Gloss.word, if_neg h.nonempty, hNone, String.ofList_toList]
  rfl

namespace Glossed

variable {x y : String} {ts ts' : List Token}

theorem of_plain (h : ∀ c ∈ x.toList, isPlain c = true) : Glossed x (word x.toList) := by
  intro rest hEnds
  rw [tokens_plain h, List.nil_append, tokens_of_ends hEnds]

theorem name (h : Names x) : Glossed x [.identifier x] := h.word ▸ of_plain h.plain

theorem token {k : Token} (h : k ∈ fixed) : Glossed k.spelling [k] :=
  word_fixed k h ▸ of_plain (plain_fixed k h)

/-- Two pieces with a mark between them. -/
theorem marked {c : Char} {ks : List Token} {z : List Char} (h : Glossed x ts)
    (h' : ∀ rest, Ends rest → tokens [] (z ++ rest) = ts' ++ tokens [] rest)
    (hc : c = ' ' ∨ c = ')' ∨ c = ',') (hCut : ∀ next?, cut? [] next? c = some ks)
    {rest : List Char} (hEnds : Ends rest) :
    tokens [] (x.toList ++ c :: (z ++ rest)) = ts ++ (ks ++ ts') ++ tokens [] rest := by
  rw [h _ (ends_cons hc), tokens_of_cut (hCut _), h' rest hEnds, List.append_assoc,
    List.append_assoc]

theorem spaced (h : Glossed x ts) (h' : Glossed y ts') : Glossed (x ++ " " ++ y) (ts ++ ts') := by
  intro rest hEnds
  have hText : (x ++ " " ++ y).toList ++ rest = x.toList ++ ' ' :: (y.toList ++ rest) := by simp
  rw [hText, h.marked h' (.inl rfl) (fun _ => rfl) hEnds]
  rfl

/-- A word and a space in front. -/
theorem opened (k : Token) (hk : k ∈ fixed) (h : Glossed x ts) :
    Glossed (k.spelling ++ " " ++ x) (k :: ts) := (token hk).spaced h

/-- A token between two pieces, with a space on either side. -/
theorem joined (k : Token) (hk : k ∈ fixed) (h : Glossed x ts) (h' : Glossed y ts') :
    Glossed (x ++ (" " ++ k.spelling ++ " ") ++ y) (ts ++ k :: ts') := by
  have hSpaced := h.spaced (h'.opened k hk)
  simp only [String.append_assoc] at hSpaced ⊢
  exact hSpaced

/-- A comma and a space between two pieces. -/
theorem listed (h : Glossed x ts) (h' : Glossed y ts') :
    Glossed (x ++ ", " ++ y) (ts ++ .rightParen :: .leftParen :: ts') := by
  intro rest hEnds
  have hText : (x ++ ", " ++ y).toList ++ rest =
      x.toList ++ ',' :: ((" " ++ y).toList ++ rest) := by simp
  have hRight : ∀ rest, Ends rest →
      tokens [] ((" " ++ y).toList ++ rest) = ts' ++ tokens [] rest := by
    intro rest hEnds
    have hSpace : (" " ++ y).toList ++ rest = ' ' :: (y.toList ++ rest) := by simp
    rw [hSpace, tokens_of_cut rfl, h' rest hEnds]
    rfl
  rw [hText, h.marked hRight (.inr (.inr rfl)) (fun _ => rfl) hEnds]
  rfl

/-- Parentheses around a piece. -/
theorem enclosed (h : Glossed x ts) : Glossed ("(" ++ x ++ ")")
    (.leftParen :: .leftParen :: (ts ++ [.rightParen, .rightParen])) := by
  intro rest hEnds
  have hText : ("(" ++ x ++ ")").toList ++ rest = '(' :: (x.toList ++ ')' :: rest) := by simp
  rw [hText, tokens_of_cut rfl, h _ (ends_cons (.inr (.inl rfl))), tokens_of_cut rfl]
  simp [word]

/-- Braces around a piece, behind an opening mark. -/
theorem braced {opening : String} (hOpening : ∀ c ∈ opening.toList, isPlain c = true)
    {ks : List Token} (hCut : ∀ next?, cut? opening.toList next? '\x7b' = some ks)
    (h : Glossed x ts) :
    Glossed (opening ++ "\x7b " ++ x ++ " \x7d") (ks ++ (ts ++ [.rightBrace])) := by
  intro rest _
  have hText : (opening ++ "\x7b " ++ x ++ " \x7d").toList ++ rest =
      opening.toList ++ '\x7b' :: ' ' :: (x.toList ++ ' ' :: '\x7d' :: rest) := by simp
  rw [hText, tokens_plain hOpening, List.nil_append, tokens_of_cut (hCut _), tokens_of_cut rfl,
    h _ (ends_cons (.inl rfl)), tokens_of_cut rfl, tokens_of_cut rfl]
  simp [word]

/-- A construct does not begin with a closing parenthesis. -/
theorem exists_head {τ : Tier} (h : Glossed x ts) (hLeads : Leads τ ts) :
    ∃ c cs, x.toList = c :: cs ∧ c ≠ ')' := by
  obtain ⟨k, ts', σ, rfl, hk, -⟩ := hLeads
  have hTokens := h [] ends_nil
  cases hText : x.toList with
  | nil =>
    rw [hText] at hTokens
    cases hTokens
  | cons c cs =>
    refine ⟨c, cs, rfl, ?_⟩
    rintro rfl
    rw [hText, List.append_nil, tokens_of_cut rfl] at hTokens
    have hFirst : Token.rightParen = k := (List.cons.inj hTokens).1
    subst hFirst
    cases hk

end Glossed

/-! ### Texts as terms -/

/-- At the tier the tokens of the text derive the term, whatever wildcards come before. -/
def Derives (τ : Tier) (x : String) (t : Term) : Prop :=
  ∃ ts, Glossed x ts ∧ ∀ w, Grammar.Derives τ w ts t w

namespace Derives

variable {σ τ : Tier} {x y z : String} {s t u : Term}

theorem loosen (h : Derives σ x t) (hRank : τ.rank ≤ σ.rank) : Derives τ x t := by
  obtain ⟨ts, hText, hDerives⟩ := h
  exact ⟨ts, hText, fun w => (hDerives w).loosen hRank⟩

theorem within {p : Phrase} (h : Derives p.tier p.text t) (τ : Tier) :
    Derives τ (p.within τ) t := by
  by_cases hLoose : p.tier.rank < τ.rank
  · obtain ⟨ts, hText, hDerives⟩ := h
    have hWithin : p.within τ = "(" ++ p.text ++ ")" := if_pos hLoose
    refine ⟨_, hWithin ▸ hText.enclosed, fun w => ?_⟩
    have hInner := Grammar.Derives.enclosed ((hDerives w).loosen (τ := .expression) (Nat.zero_le _))
    have hOuter := Grammar.Derives.enclosed (hInner.loosen (τ := .expression) (Nat.zero_le _))
    simpa only [List.cons_append, List.nil_append, List.append_assoc] using
      hOuter.loosen τ.rank_le_atom
  · have hWithin : p.within τ = p.text := if_neg hLoose
    rw [hWithin]
    exact h.loosen (Nat.not_lt.mp hLoose)

theorem whole {p : Phrase} (h : Derives p.tier p.text t) :
    Derives .expression (p.within .expression) t := h.within .expression

theorem var (h : Names x) : Derives .atom x (.var (.raw x)) := ⟨_, .name h, fun w => .var w x⟩

theorem bool (b : Bool) : Derives .atom (Token.boolean b).spelling (.bool b) :=
  ⟨_, .token (by cases b <;> decide), fun w => .bool w b⟩

theorem lam (h : Names x) (hBody : Derives .expression y t) :
    Derives .expression ("fn " ++ x ++ " -> " ++ y) (.lam (.raw x) t) := by
  obtain ⟨ts, hText, hDerives⟩ := hBody
  exact ⟨_, ((Glossed.name h).opened .fnWord (by decide)).joined .arrow (by decide) hText,
    fun w => .lam (.name w x) (hDerives w)⟩

theorem fix (h : Names x) (hBody : Derives .expression y t) :
    Derives .expression ("fix " ++ x ++ " -> " ++ y) (.fix (.raw x) t) := by
  obtain ⟨ts, hText, hDerives⟩ := hBody
  exact ⟨_, ((Glossed.name h).opened .fixWord (by decide)).joined .arrow (by decide) hText,
    fun w => .fix (hDerives w)⟩

theorem letIn (h : Names x) (hBound : Derives .expression y s) (hBody : Derives .expression z t) :
    Derives .expression ("let " ++ x ++ " = " ++ y ++ " in " ++ z) (.letIn (.raw x) s t) := by
  obtain ⟨ts, hText, hDerives⟩ := hBound
  obtain ⟨ts', hText', hDerives'⟩ := hBody
  have hWhole := (((Glossed.name h).opened .letWord (by decide)).joined .assign (by decide)
    hText).joined .inWord (by decide) hText'
  exact ⟨_, hWhole, fun w => .letIn (.name w x) (hDerives w) (hDerives' w)⟩

theorem ite (hCond : Derives .expression x s) (hYes : Derives .expression y t)
    (hNo : Derives .expression z u) :
    Derives .expression ("if " ++ x ++ " then " ++ y ++ " else " ++ z) (.ite s t u) := by
  obtain ⟨ts, hText, hDerives⟩ := hCond
  obtain ⟨ts', hText', hDerives'⟩ := hYes
  obtain ⟨ts'', hText'', hDerives''⟩ := hNo
  have hWhole := ((hText.opened .ifWord (by decide)).joined .thenWord (by decide)
    hText').joined .elseWord (by decide) hText''
  simp only [List.cons_append, List.append_assoc] at hWhole
  exact ⟨_, hWhole, fun w => .ite (hDerives w) (hDerives' w) (hDerives'' w)⟩

theorem app (hFn : Derives .application x s) (hArg : Derives .atom y t) :
    Derives .application (x ++ " " ++ y) (.app s t) := by
  obtain ⟨ts, hText, hDerives⟩ := hFn
  obtain ⟨ts', hText', hDerives'⟩ := hArg
  exact ⟨_, hText.spaced hText', fun w => .app (hDerives w) (hDerives' w)⟩

/-- Operands around an operator. -/
theorem binary {p q : Phrase} {k : Token} {f : Term → Term → Term} {left right : Tier}
    (hk : k ∈ fixed)
    (hRule : ∀ {w ts ts'}, Grammar.Derives left w ts s w → Grammar.Derives right w ts' t w →
      Grammar.Derives τ w (ts ++ k :: ts') (f s t) w)
    (hLeft : Derives p.tier p.text s) (hRight : Derives q.tier q.text t) :
    Derives τ (Phrase.binary τ left right k.spelling p q).text (f s t) := by
  obtain ⟨ts, hText, hDerives⟩ := hLeft.within left
  obtain ⟨ts', hText', hDerives'⟩ := hRight.within right
  have hWhole := hText.joined k hk hText'
  simp only [← String.append_assoc] at hWhole
  exact ⟨_, hWhole, fun w => hRule (hDerives w) (hDerives' w)⟩

theorem negate (h : Derives .unary x t) : Derives .unary ("not " ++ x) (.prim .negate [t]) := by
  obtain ⟨ts, hText, hDerives⟩ := h
  exact ⟨_, hText.opened .notWord (by decide), fun w => .negate (hDerives w)⟩

theorem quote (h : Derives .expression x t) :
    Derives .atom ("`" ++ "\x7b " ++ x ++ " \x7d") (.quote t) := by
  obtain ⟨ts, hText, hDerives⟩ := h
  have hCut : ∀ next?, cut? "`".toList next? '\x7b' = some [.quoteOpen] := fun _ => by
    simp [cut?]
  have hPlain := List.all_eq_true.mp (show "`".toList.all isPlain = true by decide)
  exact ⟨_, hText.braced hPlain hCut, fun w => .quote (hDerives w)⟩

/-- A splice mark is the name of a parameter here. -/
theorem splice {mark : String} (hMark : ∀ c ∈ mark.toList, isPlain c = true)
    (hOther : mark.toList ≠ ['\x60']) (h : Derives .expression x t) :
    Derives .atom (mark ++ "\x7b " ++ x ++ " \x7d") (.splice 1 (.lam (.raw mark) t)) := by
  obtain ⟨ts, hText, hDerives⟩ := h
  have hCut : ∀ next?, cut? mark.toList next? '\x7b' =
      some [.tilde, .leftBrace, .fnWord, .identifier mark, .arrow] := fun _ => by
    simp [cut?, hOther]
  refine ⟨_, hText.braced hMark hCut, fun w => ?_⟩
  exact .splice .one (.lam (.name w mark) (hDerives w))

/-! ### Calls -/

/-- A list of operands, each in parentheses, is applied to one by one. -/
theorem listed {ps : List Phrase} {args : List Term}
    (h : List.Forall₂ (fun p t => Derives p.tier p.text t) ps args) (hSome : ps ≠ []) :
    ∃ ts, Glossed (Phrase.listed ps) ts ∧ Leads .expression ts ∧
      ∀ {w hs f}, Grammar.Derives .application w hs f w →
        Grammar.Derives .application w (hs ++ .leftParen :: (ts ++ [.rightParen]))
          (args.foldl .app f) w := by
  induction h with
  | nil => exact absurd rfl hSome
  | @cons p t ps args hFirst hRest ih =>
    obtain ⟨ts, hText, hDerives⟩ := hFirst.whole
    have hLeads : Leads .expression ts := (hDerives 0).leads
    have hApply : ∀ {w hs f}, Grammar.Derives .application w hs f w →
        Grammar.Derives .application w (hs ++ .leftParen :: (ts ++ [.rightParen])) (.app f t) w :=
      fun hHead => .app hHead (.enclosed (hDerives _))
    cases ps with
    | nil =>
      cases hRest
      exact ⟨ts, hText, hLeads, hApply⟩
    | cons q ps =>
      obtain ⟨ts', hText', -, hOthers⟩ := ih nofun
      refine ⟨_, hText.listed hText', hLeads.append (Nat.le_refl _) _, fun hHead => ?_⟩
      have hAll := hOthers (hApply hHead)
      simp only [List.append_assoc, List.cons_append, List.nil_append] at hAll ⊢
      exact hAll

/-- A word and a parenthesis, and the function that they open. -/
theorem opening {name : String} (hName : ∀ c ∈ name.toList, isPlain c = true)
    (hSome : name.toList ≠ []) (cs : List Char) :
    tokens [] (name.toList ++ '(' :: cs) =
      .leftParen :: .fnWord :: .identifier (name ++ "(") :: .arrow ::
        ((if cs.head? = some ')' then [.leftParen, .integer 0] else [.integer 0, .leftParen]) ++
          tokens [] cs) := by
  have hCallee : callee name.toList = name ++ "(" := by
    rw [callee, ← String.toList_inj]
    simp
  rw [tokens_plain hName, List.nil_append, tokens, cut?, if_neg hSome, hCallee]
  rfl

/-- **A call stands for a function** of its own name. -/
theorem call {name : String} {ps : List Phrase} {args : List Term}
    (hName : ∀ c ∈ name.toList, isPlain c = true) (hSome : name.toList ≠ [])
    (h : List.Forall₂ (fun p t => Derives p.tier p.text t) ps args) :
    Derives .atom (name ++ "(" ++ Phrase.listed ps ++ ")")
      (.lam (.raw (name ++ "(")) (args.foldl .app (.int 0))) := by
  have hText : ∀ rest, (name ++ "(" ++ Phrase.listed ps ++ ")").toList ++ rest =
      name.toList ++ '(' :: ((Phrase.listed ps).toList ++ ')' :: rest) := by simp
  have hWhole : ∀ {w ts t}, Grammar.Derives .expression w ts t w →
      Grammar.Derives .atom w (.leftParen :: .fnWord :: .identifier (name ++ "(") :: .arrow ::
        (ts ++ [.rightParen])) (.lam (.raw (name ++ "(")) t) w :=
    fun hBody => .enclosed (.lam (.name _ _) hBody)
  have hZero : ∀ w, Grammar.Derives .application w [.integer 0] (.int 0) w := fun w =>
    (Grammar.Derives.int w 0).loosen (by decide)
  cases ps with
  | nil =>
    cases h
    refine ⟨_, fun rest _ => ?_, fun w => hWhole
      ((Grammar.Derives.enclosed ((hZero w).loosen (by decide))).loosen (by decide))⟩
    rw [hText, opening hName hSome]
    rfl
  | cons p ps =>
    obtain ⟨ts, hListed, hLeads, hApply⟩ := listed h nofun
    refine ⟨_, fun rest _ => ?_, fun w => hWhole ((hApply (hZero w)).loosen (by decide))⟩
    obtain ⟨c, cs, hFirst, hc⟩ := hListed.exists_head hLeads
    have hHead : ((Phrase.listed (p :: ps)).toList ++ ')' :: rest).head? ≠ some ')' := by
      rw [hFirst]
      simpa using hc
    rw [hText, opening hName hSome, if_neg hHead, hListed _ (ends_cons (.inr (.inl rfl))),
      tokens_of_cut rfl]
    simp [word]

end Derives

end Gloss

end StagedLambda
