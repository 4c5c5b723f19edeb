import StagedLambda.Proofs.Machine.Moves
import StagedLambda.Proofs.Term.Alpha

/-!
# Two states that differ only in names

Two runs give different colors to their binders.  A relation `R` says which colors of the one run
correspond to which of the other, and two states *mirror* each other when they are the same up to
this correspondence and up to the names of binders in the terms that are still waiting.  Such
terms stand under renamings, so what counts for their free identifiers are the colors that these
are renamed to (`Refer`).

* `Waiting.enter`: two binders that get corresponding colors.
* `EvalStack.Mirrors.lookup`: corresponding colors are found with values that mirror each other.
* `Synced.grow`: fresh colors of both runs can be made to correspond.
-/

namespace StagedLambda

/-! ### Waiting terms -/

/-- Occurrences that are renamed to corresponding colors, or to nothing on both sides. -/
def Refer (R : Ident → Ident → Prop) (env env' : Renaming) (x y : Ident) : Prop :=
  Option.Rel R (env.resolve x) (env'.resolve y)

/-- Waiting terms that differ only in names. -/
def Waiting (R : Ident → Ident → Prop) (p q : Renaming × Term) : Prop :=
  p.2.Alpha (Refer R p.1 q.1) q.2

section

variable {R S : Ident → Ident → Prop} {env env' : Renaming}

theorem optionRel_mono (hRS : ∀ a b, R a b → S a b) :
    ∀ {x y : Option Ident}, Option.Rel R x y → Option.Rel S x y
  | _, _, .some h => .some (hRS _ _ h)
  | _, _, .none => .none

theorem Refer.mono {x y : Ident} (hRS : ∀ a b, R a b → S a b) (h : Refer R env env' x y) :
    Refer S env env' x y := optionRel_mono hRS h

theorem Refer.resolve_some {x y c : Ident} (h : Refer R env env' x y)
    (hName : env.resolve x = some c) : ∃ d, env'.resolve y = some d ∧ R c d := by
  rw [Refer, hName] at h
  generalize hName' : env'.resolve y = target at h
  cases h with
  | some hColor => exact ⟨_, rfl, hColor⟩

theorem Refer.resolve_none {x y : Ident} (h : Refer R env env' x y)
    (hName : env.resolve x = none) : env'.resolve y = none := by
  rw [Refer, hName] at h
  generalize env'.resolve y = target at h ⊢
  cases h
  rfl

theorem Waiting.mono {p q : Renaming × Term} (hRS : ∀ a b, R a b → S a b) (h : Waiting R p q) :
    Waiting S p q := Term.Alpha.mono h fun _ _ => Refer.mono hRS

/-- Alpha-equivalent bodies under binders that have got corresponding colors. -/
theorem Waiting.of_under {x y c d : Ident} {s t : Term} (hRS : ∀ a b, R a b → S a b)
    (hcd : S c d) (h : s.Alpha (Under (Refer R env env') x y) t) :
    Waiting S (env.bind x c, s) (env'.bind y d, t) := by
  refine h.mono ?_
  rintro a b (⟨rfl, rfl⟩ | ⟨ha, hb, hRefer⟩)
  · rw [Refer, Renaming.resolve_bind, Renaming.resolve_bind, if_pos rfl, if_pos rfl]
    exact .some hcd
  · rw [Refer, Renaming.resolve_bind, Renaming.resolve_bind, if_neg ha, if_neg hb]
    exact hRefer.mono hRS

/-- **Entering two binders** that get corresponding colors. -/
theorem Waiting.enter {x y c d : Ident} {s t : Term} (hRS : ∀ a b, R a b → S a b) (hcd : S c d)
    (h : Waiting R (env, .lam x s) (env', .lam y t)) :
    Waiting S (env.bind x c, s) (env'.bind y d, t) := by
  cases h with
  | lam h => exact .of_under hRS hcd h

end

/-! ### Values, frames and stacks -/

/-- Functions have the same bindings, in the same order, up to the correspondence. -/
inductive Value.Mirrors (R : Ident → Ident → Prop) : Value → Value → Prop
  | int (n : Int64) : Mirrors R (.int n) (.int n)
  | bool (b : Bool) : Mirrors R (.bool b) (.bool b)
  | code {c d : Term} (h : c.Recolors R d) : Mirrors R (.code c) (.code d)
  | closure {fn gn : Abstraction} (hSelf : Option.Rel R fn.self? gn.self?)
      (hBody : Waiting R (fn.env, .lam fn.param fn.body) (gn.env, .lam gn.param gn.body)) :
      Mirrors R (.closure fn []) (.closure gn [])
  | captured {c d : Ident} {v w : Value} {fn gn : Abstraction} {vs ws : List (Ident × Value)}
      (hColor : R c d) (hBound : Mirrors R v w)
      (hRest : Mirrors R (.closure fn vs) (.closure gn ws)) :
      Mirrors R (.closure fn ((c, v) :: vs)) (.closure gn ((d, w) :: ws))

inductive EvalFrame.Mirrors (R : Ident → Ident → Prop) : EvalFrame → EvalFrame → Prop
  | applyTo {a b : Term} {env env' : Renaming} (h : Waiting R (env, a) (env', b)) :
      Mirrors R (.applyTo a env) (.applyTo b env')
  | applied {v w : Value} (h : v.Mirrors R w) : Mirrors R (.applied v) (.applied w)
  | bind {c d : Ident} {v w : Value} (hColor : R c d) (h : v.Mirrors R w) :
      Mirrors R (.bind c v) (.bind d w)
  | prim {op : PrimOp} {vs ws : List Value} {as bs : List Term} {env env' : Renaming}
      (hDone : List.Forall₂ (Value.Mirrors R) vs ws)
      (hArgs : List.Forall₂ (fun a b => Waiting R (env, a) (env', b)) as bs) :
      Mirrors R (.prim op vs as env) (.prim op ws bs env')
  | branch {a b c d : Term} {env env' : Renaming} (hYes : Waiting R (env, a) (env', c))
      (hNo : Waiting R (env, b) (env', d)) : Mirrors R (.branch a b env) (.branch c d env')
  | logicLeft {op : LogicOp} {a b : Term} {env env' : Renaming}
      (h : Waiting R (env, a) (env', b)) : Mirrors R (.logicLeft op a env) (.logicLeft op b env')
  | logicRight (op : LogicOp) : Mirrors R (.logicRight op) (.logicRight op)
  | letBody {x y : Ident} {s t : Term} {env env' : Renaming}
      (h : Waiting R (env, .lam x s) (env', .lam y t)) :
      Mirrors R (.letBody x s env) (.letBody y t env')
  | run : Mirrors R .run .run

inductive BuildFrame.Mirrors (R : Ident → Ident → Prop) : BuildFrame → BuildFrame → Prop
  | lam {x y : Ident} (h : R x y) : Mirrors R (.lam x) (.lam y)
  | fix {x y : Ident} (h : R x y) : Mirrors R (.fix x) (.fix y)
  | applyTo {a b : Term} {env env' : Renaming} (h : Waiting R (env, a) (env', b)) :
      Mirrors R (.applyTo a env) (.applyTo b env')
  | applied {c d : Term} (h : c.Recolors R d) : Mirrors R (.applied c) (.applied d)
  | prim {op : PrimOp} {cs ds as bs : List Term} {env env' : Renaming}
      (hDone : List.Forall₂ (Term.Recolors R) cs ds)
      (hArgs : List.Forall₂ (fun a b => Waiting R (env, a) (env', b)) as bs) :
      Mirrors R (.prim op cs as env) (.prim op ds bs env')
  | iteCond {a b c d : Term} {env env' : Renaming} (hYes : Waiting R (env, a) (env', c))
      (hNo : Waiting R (env, b) (env', d)) : Mirrors R (.iteCond a b env) (.iteCond c d env')
  | iteYes {a b c d : Term} {env env' : Renaming} (hCond : a.Recolors R c)
      (hNo : Waiting R (env, b) (env', d)) : Mirrors R (.iteYes a b env) (.iteYes c d env')
  | iteNo {a b c d : Term} (hCond : a.Recolors R c) (hYes : b.Recolors R d) :
      Mirrors R (.iteNo a b) (.iteNo c d)
  | logicLeft {op : LogicOp} {a b : Term} {env env' : Renaming}
      (h : Waiting R (env, a) (env', b)) : Mirrors R (.logicLeft op a env) (.logicLeft op b env')
  | logicRight {op : LogicOp} {c d : Term} (h : c.Recolors R d) :
      Mirrors R (.logicRight op c) (.logicRight op d)
  | letBound {x y : Ident} {s t : Term} {env env' : Renaming}
      (h : Waiting R (env, .lam x s) (env', .lam y t)) :
      Mirrors R (.letBound x s env) (.letBound y t env')
  | letBody {x y : Ident} {c d : Term} (hBinder : R x y) (h : c.Recolors R d) :
      Mirrors R (.letBody x c) (.letBody y d)
  | quote : Mirrors R .quote .quote
  | splice (shift : UInt64) : Mirrors R (.splice shift) (.splice shift)

mutual

inductive EvalStack.Mirrors (R : Ident → Ident → Prop) : EvalStack → EvalStack → Prop
  | halt : EvalStack.Mirrors R .halt .halt
  | escape {k l : BuildStack} (shift : UInt64) (h : BuildStack.Mirrors R k l) :
      EvalStack.Mirrors R (.escape shift k) (.escape shift l)
  | push {f g : EvalFrame} {k l : EvalStack} (hFrame : f.Mirrors R g)
      (h : EvalStack.Mirrors R k l) : EvalStack.Mirrors R (.push f k) (.push g l)

inductive BuildStack.Mirrors (R : Ident → Ident → Prop) : BuildStack → BuildStack → Prop
  | close {k l : EvalStack} (h : EvalStack.Mirrors R k l) :
      BuildStack.Mirrors R (.close k) (.close l)
  | push {f g : BuildFrame} {k l : BuildStack} (hFrame : f.Mirrors R g)
      (h : BuildStack.Mirrors R k l) : BuildStack.Mirrors R (.push f k) (.push g l)

end

inductive State.Mirrors (R : Ident → Ident → Prop) : State → State → Prop
  | eval {env env' : Renaming} {s t : Term} {k l : EvalStack}
      (hTerm : Waiting R (env, s) (env', t)) (hStack : k.Mirrors R l) :
      Mirrors R (.eval env s k) (.eval env' t l)
  | build {level : UInt64} {env env' : Renaming} {s t : Term} {k l : BuildStack}
      (hTerm : Waiting R (env, s) (env', t)) (hStack : k.Mirrors R l) :
      Mirrors R (.build level env s k) (.build level env' t l)
  | deliver {v w : Value} {k l : EvalStack} (hValue : v.Mirrors R w) (hStack : k.Mirrors R l) :
      Mirrors R (.deliver v k) (.deliver w l)
  | emit {level : UInt64} {c d : Term} {k l : BuildStack} (hCode : c.Recolors R d)
      (hStack : k.Mirrors R l) : Mirrors R (.emit level c k) (.emit level d l)

/-! ### More colors correspond -/

section

variable {R S : Ident → Ident → Prop} (hRS : ∀ a b, R a b → S a b)
include hRS

theorem Value.Mirrors.mono {v w : Value} (h : v.Mirrors R w) : v.Mirrors S w := by
  induction h with
  | int n => exact .int n
  | bool b => exact .bool b
  | code h => exact .code (h.mono hRS)
  | closure hSelf hBody => exact .closure (optionRel_mono hRS hSelf) (hBody.mono hRS)
  | captured hColor _ _ ihBound ihRest => exact .captured (hRS _ _ hColor) ihBound ihRest

theorem EvalFrame.Mirrors.mono {f g : EvalFrame} (h : f.Mirrors R g) : f.Mirrors S g := by
  cases h with
  | applyTo h => exact .applyTo (h.mono hRS)
  | applied h => exact .applied (h.mono hRS)
  | bind hColor h => exact .bind (hRS _ _ hColor) (h.mono hRS)
  | prim hDone hArgs =>
    exact .prim (hDone.imp fun _ _ h => h.mono hRS) (hArgs.imp fun _ _ h => h.mono hRS)
  | branch hYes hNo => exact .branch (hYes.mono hRS) (hNo.mono hRS)
  | logicLeft h => exact .logicLeft (h.mono hRS)
  | logicRight op => exact .logicRight op
  | letBody h => exact .letBody (h.mono hRS)
  | run => exact .run

theorem BuildFrame.Mirrors.mono {f g : BuildFrame} (h : f.Mirrors R g) : f.Mirrors S g := by
  cases h with
  | lam h => exact .lam (hRS _ _ h)
  | fix h => exact .fix (hRS _ _ h)
  | applyTo h => exact .applyTo (h.mono hRS)
  | applied h => exact .applied (h.mono hRS)
  | prim hDone hArgs =>
    exact .prim (hDone.imp fun _ _ h => h.mono hRS) (hArgs.imp fun _ _ h => h.mono hRS)
  | iteCond hYes hNo => exact .iteCond (hYes.mono hRS) (hNo.mono hRS)
  | iteYes hCond hNo => exact .iteYes (hCond.mono hRS) (hNo.mono hRS)
  | iteNo hCond hYes => exact .iteNo (hCond.mono hRS) (hYes.mono hRS)
  | logicLeft h => exact .logicLeft (h.mono hRS)
  | logicRight h => exact .logicRight (h.mono hRS)
  | letBound h => exact .letBound (h.mono hRS)
  | letBody hBinder h => exact .letBody (hRS _ _ hBinder) (h.mono hRS)
  | quote => exact .quote
  | splice shift => exact .splice shift

mutual

theorem EvalStack.Mirrors.mono : ∀ {k l : EvalStack}, k.Mirrors R l → k.Mirrors S l
  | _, _, .halt => .halt
  | _, _, .escape shift h => .escape shift (BuildStack.Mirrors.mono h)
  | _, _, .push hFrame h => .push (hFrame.mono hRS) (EvalStack.Mirrors.mono h)

theorem BuildStack.Mirrors.mono : ∀ {k l : BuildStack}, k.Mirrors R l → k.Mirrors S l
  | _, _, .close h => .close (EvalStack.Mirrors.mono h)
  | _, _, .push hFrame h => .push (hFrame.mono hRS) (BuildStack.Mirrors.mono h)

end

end

/-! ### What can be told of mirroring states -/

section

variable {R : Ident → Ident → Prop}

theorem Value.Mirrors.kind_eq {v w : Value} (h : v.Mirrors R w) : v.kind = w.kind := by
  cases h <;> rfl

mutual

theorem EvalStack.Mirrors.depth_eq : ∀ {k l : EvalStack}, k.Mirrors R l → k.depth = l.depth
  | _, _, .halt => rfl
  | _, _, .escape _ h => BuildStack.Mirrors.depth_eq h
  | _, _, .push _ h => congrArg (· + 1) (EvalStack.Mirrors.depth_eq h)

theorem BuildStack.Mirrors.depth_eq : ∀ {k l : BuildStack}, k.Mirrors R l → k.depth = l.depth
  | _, _, .close h => congrArg (· + 1) (EvalStack.Mirrors.depth_eq h)
  | _, _, .push _ h => congrArg (· + 1) (BuildStack.Mirrors.depth_eq h)

end

inductive Lookup.Mirrors (R : Ident → Ident → Prop) : Lookup → Lookup → Prop
  | found {v w : Value} (h : v.Mirrors R w) : Mirrors R (.found v) (.found w)
  | future : Mirrors R .future .future
  | absent : Mirrors R .absent .absent

theorem Lookup.Mirrors.eq_found {r : Lookup} {v : Value} (h : (Lookup.found v).Mirrors R r) :
    ∃ w, r = .found w ∧ v.Mirrors R w := by
  cases h with
  | found hValue => exact ⟨_, rfl, hValue⟩

theorem Lookup.Mirrors.eq_future {r : Lookup} (h : Lookup.future.Mirrors R r) : r = .future := by
  cases h
  rfl

theorem Lookup.Mirrors.eq_absent {r : Lookup} (h : Lookup.absent.Mirrors R r) : r = .absent := by
  cases h
  rfl

theorem BuildFrame.Mirrors.binder?_iff (hR : Relator.BiUnique R) {f g : BuildFrame}
    (h : f.Mirrors R g) {c d : Ident} (hcd : R c d) : f.binder? = some c ↔ g.binder? = some d := by
  have hIff : ∀ {x y : Ident}, R x y → (some x = some c ↔ some y = some d) := by
    intro x y hxy
    rw [Option.some_inj, Option.some_inj]
    exact ⟨fun hx => hR.2 (hx ▸ hxy) hcd, fun hy => hR.1 (hy ▸ hxy) hcd⟩
  cases h with
  | lam h | fix h => exact hIff h
  | letBody hBinder _ => exact hIff hBinder
  | _ => exact ⟨nofun, nofun⟩

mutual

/-- **Corresponding colors are found alike.** -/
theorem EvalStack.Mirrors.lookup (hR : Relator.BiUnique R) {c d : Ident} (hcd : R c d) :
    ∀ {k l : EvalStack}, k.Mirrors R l → (k.lookup c).Mirrors R (l.lookup d)
  | _, _, .halt => .absent
  | _, _, .escape _ h => BuildStack.Mirrors.lookup hR hcd h
  | .push f k, .push g l, .push hFrame h => by
    have hBelow := EvalStack.Mirrors.lookup hR hcd h
    cases hFrame with
    | @bind x y v w hColor hValue =>
      by_cases hx : x = c
      · have hy : y = d := hR.2 (hx ▸ hColor) hcd
        rw [EvalStack.lookup, EvalStack.lookup, if_pos hx, if_pos hy]
        exact .found hValue
      · have hy : y ≠ d := fun hy => hx (hR.1 (hy ▸ hColor) hcd)
        rw [EvalStack.lookup, EvalStack.lookup, if_neg hx, if_neg hy]
        exact hBelow
    | _ => exact hBelow

theorem BuildStack.Mirrors.lookup (hR : Relator.BiUnique R) {c d : Ident} (hcd : R c d) :
    ∀ {k l : BuildStack}, k.Mirrors R l → (k.lookup c).Mirrors R (l.lookup d)
  | _, _, .close h => EvalStack.Mirrors.lookup hR hcd h
  | .push f k, .push g l, .push hFrame h => by
    have hBelow := BuildStack.Mirrors.lookup hR hcd h
    have hBinder := hFrame.binder?_iff hR hcd
    rw [BuildStack.lookup, BuildStack.lookup]
    by_cases hf : f.binder? = some c
    · rw [if_pos hf, if_pos (hBinder.mp hf)]
      exact .future
    · rw [if_neg hf, if_neg fun hg => hf (hBinder.mpr hg)]
      exact hBelow

end

/-- Functions that mirror each other put mirroring bindings on the stack. -/
theorem EvalStack.Mirrors.bindAll {fn gn : Abstraction} {vs ws : List (Ident × Value)}
    {k l : EvalStack} (hStack : k.Mirrors R l)
    (h : (Value.closure fn vs).Mirrors R (.closure gn ws)) :
    (k.bindAll vs).Mirrors R (l.bindAll ws) ∧
      (Value.closure fn []).Mirrors R (.closure gn []) := by
  induction vs generalizing k l ws with
  | nil =>
    cases h with
    | closure hSelf hBody => exact ⟨hStack, .closure hSelf hBody⟩
  | cons b rest ih =>
    cases h with
    | captured hColor hBound hRest =>
      rw [EvalStack.bindAll_cons, EvalStack.bindAll_cons]
      exact ih (.push (.bind hColor hBound) hStack) hRest

theorem EvalStack.Mirrors.enter {fn gn : Abstraction} {vs ws : List (Ident × Value)}
    {k l : EvalStack} (hStack : k.Mirrors R l)
    (h : (Value.closure fn vs).Mirrors R (.closure gn ws)) :
    (k.enter fn vs).Mirrors R (l.enter gn ws) ∧
      Waiting R (fn.env, .lam fn.param fn.body) (gn.env, .lam gn.param gn.body) := by
  obtain ⟨hAll, hBare⟩ := hStack.bindAll h
  cases hBare with
  | closure hSelf hBody =>
    refine ⟨?_, hBody⟩
    rw [EvalStack.enter, EvalStack.enter]
    generalize fn.self? = self at hSelf
    generalize gn.self? = self' at hSelf
    cases hSelf with
    | some hColor => exact .push (.bind hColor h) hAll
    | none => exact hAll

end

/-! ### The correspondence of colors -/

/-- One more pair of colors corresponds. -/
def Joined (R : Ident → Ident → Prop) (c d a b : Ident) : Prop := a = c ∧ b = d ∨ R a b

/-- The correspondence is one-to-one, between colors that the two palettes have issued. -/
structure Synced (p q : Palette) (R : Ident → Ident → Prop) : Prop where
  biUnique : Relator.BiUnique R
  left : ∀ {a b}, R a b → ∃ name, ∃ n < p.issued, a = .colored name n
  right : ∀ {a b}, R a b → ∃ name, ∃ n < q.issued, b = .colored name n

/-- How the correspondence goes on: each time both runs color a binder, the new colors
correspond. -/
inductive Grows (p q : Palette) (R : Ident → Ident → Prop) :
    Palette → Palette → (Ident → Ident → Prop) → Prop
  | same : Grows p q R p q R
  | color {p' q' : Palette} {R' : Ident → Ident → Prop} (prior : Grows p q R p' q' R')
      (x y : Ident) : Grows p q R p'.advance q'.advance (Joined R' (p'.tint x) (q'.tint y))

section

variable {R R' R'' : Ident → Ident → Prop} {p q p' q' p'' q'' : Palette}

theorem Grows.trans (h : Grows p q R p' q' R') (h' : Grows p' q' R' p'' q'' R'') :
    Grows p q R p'' q'' R'' := by
  induction h' with
  | same => exact h
  | color _ x y ih => exact .color ih x y

/-- **Fresh colors of both runs can be made to correspond.** -/
theorem Synced.color (hSync : Synced p q R) (x y : Ident) :
    Synced p.advance q.advance (Joined R (p.tint x) (q.tint y)) := by
  have hLeft : ∀ {b}, ¬R (p.tint x) b := by
    intro b hab
    obtain ⟨name, n, hn, hTint⟩ := hSync.left hab
    cases hTint
    omega
  have hRight : ∀ {a}, ¬R a (q.tint y) := by
    intro a hab
    obtain ⟨name, n, hn, hTint⟩ := hSync.right hab
    cases hTint
    omega
  refine ⟨⟨?_, ?_⟩, ?_, ?_⟩
  · rintro a b c (⟨rfl, hb⟩ | hab) (⟨rfl, hb'⟩ | hcb)
    · rfl
    · exact absurd (hb ▸ hcb) hRight
    · exact absurd (hb' ▸ hab) hRight
    · exact hSync.biUnique.1 hab hcb
  · rintro a b c (⟨ha, rfl⟩ | hab) (⟨ha', rfl⟩ | hac)
    · rfl
    · exact absurd (ha ▸ hac) hLeft
    · exact absurd (ha' ▸ hab) hLeft
    · exact hSync.biUnique.2 hab hac
  · rintro a b (⟨rfl, -⟩ | hab)
    · exact ⟨x.base, p.issued, Nat.lt_succ_self _, rfl⟩
    · obtain ⟨name, n, hn, ha⟩ := hSync.left hab
      exact ⟨name, n, Nat.lt_succ_of_lt hn, ha⟩
  · rintro a b (⟨-, rfl⟩ | hab)
    · exact ⟨y.base, q.issued, Nat.lt_succ_self _, rfl⟩
    · obtain ⟨name, n, hn, hb⟩ := hSync.right hab
      exact ⟨name, n, Nat.lt_succ_of_lt hn, hb⟩

theorem Synced.grow (hSync : Synced p q R) (h : Grows p q R p' q' R') : Synced p' q' R' := by
  induction h with
  | same => exact hSync
  | color _ x y ih => exact ih.color x y

/-- **Code that two runs have built waits alike**: its colors stand for themselves. -/
theorem Synced.waiting (hSync : Synced p q R) {c d : Term} (h : c.Recolors R d) :
    Waiting R (.empty, c) (.empty, d) := by
  refine (h.alpha hSync.biUnique).mono ?_
  intro a b hab
  obtain ⟨name, n, -, rfl⟩ := hSync.left hab
  obtain ⟨name', n', -, rfl⟩ := hSync.right hab
  exact .some hab

end

end StagedLambda
