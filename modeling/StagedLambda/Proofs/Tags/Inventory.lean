import StagedLambda.Proofs.Tags.Isolation

/-!
# The identifiers of a state

`State.idents` lists every identifier that a state mentions: in terms and code, on either side of
renamings, and in functions with all that they have brought along.  Recoloring a state recolors the
list.  So the tags in a state are known from what renaming them does to it: a run from a program
does not notice which tags the palette has not issued yet, and thus it has none of them.

* `Machine.Reaches.tag_lt_issued`: all tags of a run have been issued.
-/

namespace StagedLambda

/-! ### Inventories -/

def Term.idents (t : Term) : List Ident := t.vars ++ t.binders

def Term.identsAll (ts : List Term) : List Ident := ts.flatMap Term.idents

def Renaming.idents (env : Renaming) : List Ident := env.entries.flatMap fun q => [q.1, q.2]

def Abstraction.idents (fn : Abstraction) : List Ident :=
  fn.self?.toList ++ fn.param :: (fn.body.idents ++ fn.env.idents)

mutual

def Value.idents : Value → List Ident
  | .int _ | .bool _ => []
  | .closure fn captured => fn.idents ++ Value.identsOfBindings captured
  | .code c => c.idents

def Value.identsOfBindings : List (Ident × Value) → List Ident
  | [] => []
  | (c, v) :: rest => c :: (v.idents ++ Value.identsOfBindings rest)

end

def EvalFrame.idents : EvalFrame → List Ident
  | .applyTo arg env => arg.idents ++ env.idents
  | .applied fn => fn.idents
  | .bind id v => id :: v.idents
  | .prim _ done args env =>
    done.flatMap Value.idents ++ Term.identsAll args ++ env.idents
  | .branch yes no env => yes.idents ++ no.idents ++ env.idents
  | .logicLeft _ right env => right.idents ++ env.idents
  | .logicRight _ | .run => []
  | .letBody id body env => id :: (body.idents ++ env.idents)

def BuildFrame.idents : BuildFrame → List Ident
  | .lam id | .fix id => [id]
  | .applyTo arg env => arg.idents ++ env.idents
  | .applied fn => fn.idents
  | .prim _ done args env => Term.identsAll done ++ Term.identsAll args ++ env.idents
  | .iteCond yes no env => yes.idents ++ no.idents ++ env.idents
  | .iteYes cond no env => cond.idents ++ no.idents ++ env.idents
  | .iteNo cond yes => cond.idents ++ yes.idents
  | .logicLeft _ right env => right.idents ++ env.idents
  | .logicRight _ left => left.idents
  | .letBound id body env => id :: (body.idents ++ env.idents)
  | .letBody id bound => id :: bound.idents
  | .quote | .splice _ => []

mutual

def EvalStack.idents : EvalStack → List Ident
  | .halt => []
  | .escape _ outer => outer.idents
  | .push frame rest => frame.idents ++ rest.idents

def BuildStack.idents : BuildStack → List Ident
  | .close outer => outer.idents
  | .push frame rest => frame.idents ++ rest.idents

end

/-- All identifiers in a state. -/
def State.idents : State → List Ident
  | .eval env t k => env.idents ++ t.idents ++ k.idents
  | .build _ env t k => env.idents ++ t.idents ++ k.idents
  | .deliver v k => v.idents ++ k.idents
  | .emit _ c k => c.idents ++ k.idents

/-! ### Recolored inventories -/

section

variable (g : Ident → Ident)

theorem Term.vars_recolor (t : Term) : (t.recolor g).vars = t.vars.map g := by
  induction t with
  | var | int | bool => rfl
  | lam _ _ ih | fix _ _ ih | quote _ ih | splice _ _ ih => exact ih
  | app _ _ ih₁ ih₂ | logic _ _ _ ih₁ ih₂ | letIn _ _ _ ih₁ ih₂ =>
    simp only [recolor, vars, ih₁, ih₂, List.map_append]
  | ite _ _ _ ih₁ ih₂ ih₃ => simp only [recolor, vars, ih₁, ih₂, ih₃, List.map_append]
  | prim op args ih =>
    rw [recolor, vars, vars, recolorAll_eq_map, varsAll_eq_flatMap, varsAll_eq_flatMap,
      List.flatMap_map, List.map_flatMap]
    exact List.flatMap_congr ih

theorem Term.binders_recolor (t : Term) : (t.recolor g).binders = t.binders.map g := by
  induction t with
  | var | int | bool => rfl
  | lam _ _ ih | fix _ _ ih => simp only [recolor, binders, ih, List.map_cons]
  | quote _ ih | splice _ _ ih => exact ih
  | app _ _ ih₁ ih₂ | logic _ _ _ ih₁ ih₂ =>
    simp only [recolor, binders, ih₁, ih₂, List.map_append]
  | letIn _ _ _ ih₁ ih₂ =>
    simp only [recolor, binders, ih₁, ih₂, List.map_append, List.map_cons]
  | ite _ _ _ ih₁ ih₂ ih₃ => simp only [recolor, binders, ih₁, ih₂, ih₃, List.map_append]
  | prim op args ih =>
    rw [recolor, binders, binders, recolorAll_eq_map, bindersAll_eq_flatMap,
      bindersAll_eq_flatMap, List.flatMap_map, List.map_flatMap]
    exact List.flatMap_congr ih

theorem Term.idents_recolor (t : Term) : (t.recolor g).idents = t.idents.map g := by
  rw [idents, idents, vars_recolor, binders_recolor, List.map_append]

theorem Term.identsAll_recolor (ts : List Term) :
    identsAll (recolorAll g ts) = (identsAll ts).map g := by
  rw [identsAll, identsAll, recolorAll_eq_map, List.flatMap_map, List.map_flatMap]
  exact List.flatMap_congr fun t _ => t.idents_recolor g

theorem Renaming.idents_recolor (env : Renaming) : (env.recolor g).idents = env.idents.map g := by
  simp only [idents, recolor, List.flatMap_map, List.map_flatMap, Prod.map_fst, Prod.map_snd,
    List.map_cons, List.map_nil]

theorem Abstraction.idents_recolor (fn : Abstraction) :
    (fn.recolor g).idents = fn.idents.map g := by
  obtain ⟨self?, param, body, env⟩ := fn
  cases self? <;>
    simp [idents, recolor, Term.idents_recolor, Renaming.idents_recolor]

mutual

theorem Value.idents_recolor : ∀ v : Value, (v.recolor g).idents = v.idents.map g
  | .int _ | .bool _ => rfl
  | .closure fn captured => by
    rw [recolor, idents, idents, fn.idents_recolor, Value.identsOfBindings_recolor captured,
      List.map_append]
  | .code c => c.idents_recolor g

theorem Value.identsOfBindings_recolor : ∀ bindings : List (Ident × Value),
    identsOfBindings (recolorBindings g bindings) = (identsOfBindings bindings).map g
  | [] => rfl
  | (c, v) :: rest => by
    rw [recolorBindings, identsOfBindings, identsOfBindings, Value.idents_recolor v,
      Value.identsOfBindings_recolor rest, List.map_cons, List.map_append]

end

theorem Value.identsAll_recolor (vs : List Value) :
    (vs.map (recolor g)).flatMap idents = (vs.flatMap idents).map g := by
  rw [List.flatMap_map, List.map_flatMap]
  exact List.flatMap_congr fun v _ => v.idents_recolor g

theorem EvalFrame.idents_recolor (frame : EvalFrame) :
    (frame.recolor g).idents = frame.idents.map g := by
  cases frame <;>
    simp only [recolor, idents, Value.idents_recolor, Value.identsAll_recolor,
      Term.idents_recolor, Term.identsAll_recolor, Renaming.idents_recolor, List.map_append,
      List.map_cons, List.map_nil]

theorem BuildFrame.idents_recolor (frame : BuildFrame) :
    (frame.recolor g).idents = frame.idents.map g := by
  cases frame <;>
    simp only [recolor, idents, Term.idents_recolor, Term.identsAll_recolor,
      Renaming.idents_recolor, List.map_append, List.map_cons, List.map_nil]

mutual

theorem EvalStack.idents_recolor : ∀ k : EvalStack, (k.recolor g).idents = k.idents.map g
  | .halt => rfl
  | .escape _ outer => BuildStack.idents_recolor outer
  | .push frame rest => by
    rw [EvalStack.recolor, EvalStack.idents, EvalStack.idents, frame.idents_recolor,
      EvalStack.idents_recolor rest, List.map_append]

theorem BuildStack.idents_recolor : ∀ k : BuildStack, (k.recolor g).idents = k.idents.map g
  | .close outer => EvalStack.idents_recolor outer
  | .push frame rest => by
    rw [BuildStack.recolor, BuildStack.idents, BuildStack.idents, frame.idents_recolor,
      BuildStack.idents_recolor rest, List.map_append]

end

/-- **Recoloring a state recolors its identifiers**, and nothing else. -/
theorem State.idents_recolor (s : State) : (s.recolor g).idents = s.idents.map g := by
  cases s <;>
    simp only [recolor, idents, Term.idents_recolor, Renaming.idents_recolor,
      Value.idents_recolor, EvalStack.idents_recolor, BuildStack.idents_recolor, List.map_append]

end

/-- Recolorings that do the same to a state do the same to each of its identifiers. -/
theorem State.eq_on_of_recolor_eq {g g' : Ident → Ident} {s : State}
    (h : s.recolor g = s.recolor g') : ∀ id ∈ s.idents, g id = g' id := by
  have hList : s.idents.map g = s.idents.map g' := by
    rw [← s.idents_recolor g, ← s.idents_recolor g', h]
  exact List.map_inj_left.mp hList

/-! ### Runs -/

namespace Machine

theorem Reaches.exists_after {m m' : Machine} {s s' : State} (h : m.Reaches s m' s') :
    ∃ n, m.after s n = (.ok s', m') := by
  induction h with
  | refl => exact ⟨0, rfl⟩
  | tail _ hStep ih =>
    obtain ⟨n, hAfter⟩ := ih
    exact ⟨n + 1, (after_succ hAfter).trans hStep⟩

/-- **All tags of a run have been issued.**  Moving up the tags from the next one on makes no
difference to a run, so it has none of them. -/
theorem Reaches.tag_lt_issued {m₀ m : Machine} {e : Term} {s : State} (hWritten : e.Written)
    (h : m₀.Reaches (.initial e) m s) {name : String} {tag : Nat}
    (hMem : .colored name tag ∈ s.idents) : tag < m.palette.issued := by
  obtain ⟨n, hAfter⟩ := h.exists_after
  let issued := m.palette.issued
  have hInjective : Function.Injective (graft id issued (issued + 1)) :=
    (strictMono_graft strictMono_id fun t ht => Nat.lt_succ_of_lt ht).injective
  have hAgree : ∀ t < (m₀.after (.initial e) n).2.palette.issued,
      graft id issued (issued + 1) t = id t := by
    rw [hAfter]
    exact fun t ht => graft_of_lt ht
  have hSame := retag_after_congr hInjective Function.injective_id hWritten.retag_initial n hAgree
  rw [hAfter] at hSame
  have hTag : graft id issued (issued + 1) tag = tag :=
    (Ident.colored.inj (State.eq_on_of_recolor_eq (Except.ok.inj hSame) _ hMem)).2
  by_contra hLate
  rw [graft, if_neg hLate] at hTag
  omega

end Machine

end StagedLambda
