import StagedLambda.Proofs.Tags.Inventory

/-!
# Identifiers keep their bases

A run makes up tags and no names: every identifier that a transition brings up was there before, or
is the color of one that was.  So all identifiers of a run have the base of one in the program.

* `State.Moves.idents`: where the identifiers of the next state are from.
* `Machine.Reaches.exists_base`: the bases of a run are those of the program.
-/

namespace StagedLambda

/-! ### The identifiers of compound terms -/

namespace Term

variable {x id : Ident} {a b c : Term}

@[simp] theorem mem_idents_var : x ∈ (var id).idents ↔ x = id := by
  simp [idents, vars, binders]

@[simp] theorem not_mem_idents_int {n : Int64} : x ∉ (int n).idents := nofun

@[simp] theorem not_mem_idents_bool {v : Bool} : x ∉ (bool v).idents := nofun

@[simp] theorem mem_idents_lam : x ∈ (lam id a).idents ↔ x = id ∨ x ∈ a.idents := by
  simp only [idents, vars, binders, List.mem_append, List.mem_cons]
  tauto

@[simp] theorem mem_idents_fix : x ∈ (fix id a).idents ↔ x = id ∨ x ∈ a.idents := by
  simp only [idents, vars, binders, List.mem_append, List.mem_cons]
  tauto

@[simp] theorem mem_idents_quote : x ∈ (quote a).idents ↔ x ∈ a.idents := Iff.rfl

@[simp] theorem mem_idents_splice {n : Int64} : x ∈ (splice n a).idents ↔ x ∈ a.idents := Iff.rfl

@[simp] theorem mem_idents_app : x ∈ (app a b).idents ↔ x ∈ a.idents ∨ x ∈ b.idents := by
  simp only [idents, vars, binders, List.mem_append]
  tauto

@[simp] theorem mem_idents_logic {op : LogicOp} :
    x ∈ (logic op a b).idents ↔ x ∈ a.idents ∨ x ∈ b.idents := by
  simp only [idents, vars, binders, List.mem_append]
  tauto

@[simp] theorem mem_idents_letIn :
    x ∈ (letIn id a b).idents ↔ x = id ∨ x ∈ a.idents ∨ x ∈ b.idents := by
  simp only [idents, vars, binders, List.mem_append, List.mem_cons]
  tauto

@[simp] theorem mem_idents_ite :
    x ∈ (ite a b c).idents ↔ x ∈ a.idents ∨ x ∈ b.idents ∨ x ∈ c.idents := by
  simp only [idents, vars, binders, List.mem_append]
  tauto

@[simp] theorem mem_identsAll {ts : List Term} : x ∈ identsAll ts ↔ ∃ t ∈ ts, x ∈ t.idents :=
  List.mem_flatMap

@[simp] theorem mem_idents_prim {op : PrimOp} {args : List Term} :
    x ∈ (prim op args).idents ↔ ∃ t ∈ args, x ∈ t.idents := by
  simp only [idents, vars, binders, varsAll_eq_flatMap, bindersAll_eq_flatMap, List.mem_append,
    List.mem_flatMap]
  constructor
  · rintro (⟨t, ht, hx⟩ | ⟨t, ht, hx⟩)
    · exact ⟨t, ht, .inl hx⟩
    · exact ⟨t, ht, .inr hx⟩
  · rintro ⟨t, ht, hx | hx⟩
    · exact .inl ⟨t, ht, hx⟩
    · exact .inr ⟨t, ht, hx⟩

end Term

theorem Renaming.mem_idents_bind {env : Renaming} {x source target : Ident} :
    x ∈ (env.bind source target).idents ↔ x = source ∨ x = target ∨ x ∈ env.idents := by
  simp [idents, bind]

@[simp] theorem Renaming.not_mem_idents_empty {x : Ident} : x ∉ empty.idents := nofun

/-! ### Where identifiers are found -/

theorem Renaming.mem_idents_of_resolve {env : Renaming} {id color : Ident}
    (h : env.resolve id = some color) : color = id ∨ color ∈ env.idents := by
  rw [resolve] at h
  split at h
  next target hLookup =>
    cases h
    obtain ⟨before, after, hEntries, -⟩ := List.lookup_eq_some_iff.mp hLookup
    exact .inr (List.mem_flatMap.mpr ⟨(id, color), by simp [hEntries], by simp⟩)
  next =>
    split at h <;> cases h
    exact .inl rfl

mutual

theorem EvalStack.idents_of_found {c : Ident} {v : Value} :
    ∀ {k : EvalStack}, k.lookup c = .found v → v.idents ⊆ k.idents
  | .halt, hFound => by cases hFound
  | .escape _ _, hFound => BuildStack.idents_of_found hFound
  | .push frame rest, hFound => by
    have hBelow : rest.lookup c = .found v → v.idents ⊆ (EvalStack.push frame rest).idents :=
      fun hRest _ hid => List.mem_append_right _ (EvalStack.idents_of_found hRest hid)
    cases frame with
    | bind x w =>
      rw [EvalStack.lookup] at hFound
      split at hFound
      · cases hFound
        exact fun _ hid => List.mem_append_left _ (List.mem_cons_of_mem _ hid)
      · exact hBelow hFound
    | _ => exact hBelow hFound

theorem BuildStack.idents_of_found {c : Ident} {v : Value} :
    ∀ {k : BuildStack}, k.lookup c = .found v → v.idents ⊆ k.idents
  | .close _, hFound => EvalStack.idents_of_found hFound
  | .push frame rest, hFound => by
    rw [BuildStack.lookup] at hFound
    split at hFound
    · cases hFound
    · exact fun id hid => List.mem_append_right _ (BuildStack.idents_of_found hFound hid)

end

theorem EvalStack.idents_bindAll (k : EvalStack) (bindings : List (Ident × Value)) :
    (k.bindAll bindings).idents ⊆ Value.identsOfBindings bindings ++ k.idents := by
  induction bindings generalizing k with
  | nil => exact fun id hid => hid
  | cons b rest ih =>
    intro id hid
    have hPushed := ih (.push (.bind b.1 b.2) k) hid
    simp only [EvalStack.idents, EvalFrame.idents, Value.identsOfBindings, List.mem_append,
      List.mem_cons] at hPushed ⊢
    tauto

theorem EvalStack.idents_enter (k : EvalStack) (fn : Abstraction)
    (captured : List (Ident × Value)) :
    (k.enter fn captured).idents ⊆ (Value.closure fn captured).idents ++ k.idents := by
  intro id hid
  have hAll := @k.idents_bindAll captured id
  rw [enter] at hid
  cases hSelf : fn.self? with
  | none =>
    rw [hSelf] at hid
    have hBound := hAll hid
    simp only [Value.idents, List.mem_append] at hBound ⊢
    tauto
  | some self =>
    rw [hSelf] at hid
    simp only [EvalStack.idents, EvalFrame.idents, Value.idents, Abstraction.idents, hSelf,
      Option.toList_some, List.mem_append, List.mem_cons, List.not_mem_nil, or_false] at hid hAll ⊢
    tauto

theorem Step.idents_of_leave {id : Ident} {bound v v' : Value} (h : leave id bound v = .ok v') :
    v'.idents ⊆ id :: bound.idents ++ v.idents := by
  intro x hx
  rcases leave_eq_ok h with
    ⟨fn, captured, rfl, rfl⟩ | ⟨c, rfl, rfl, -⟩ | ⟨n, rfl, rfl⟩ | ⟨b, rfl, rfl⟩
  · simp only [Value.idents, Value.identsOfBindings, List.mem_append, List.mem_cons] at hx ⊢
    tauto
  all_goals exact List.mem_append_right _ hx

theorem Arithmetic.idents_of_apply {op : PrimOp} {args : List Value} {v : Value}
    (h : apply op args = .ok v) : v.idents = [] := by
  rcases apply_eq_ok h with ⟨n, rfl⟩ | ⟨b, rfl⟩ <;> rfl

/-! ### Transitions -/

/-- **Transitions bring up no new bases.** -/
theorem State.Moves.bases {p p' : Palette} {s s' : State} (h : s.Moves p s' p')
    {P : String → Prop} (hs : ∀ id ∈ s.idents, P id.base) : ∀ id ∈ s'.idents, P id.base := by
  cases h with
  | evalVar _ hFound =>
    simp only [State.idents, List.forall_mem_append] at hs ⊢
    exact ⟨fun id hid => hs.2 id (EvalStack.idents_of_found hFound hid), hs.2⟩
  | buildVar hName =>
    simp only [State.idents, List.forall_mem_append, Term.mem_idents_var, forall_eq] at hs ⊢
    obtain ⟨⟨hEnv, hId⟩, hStack⟩ := hs
    refine ⟨?_, hStack⟩
    rcases Renaming.mem_idents_of_resolve hName with rfl | hColor
    · exact hId
    · exact hEnv _ hColor
  | evalPrim hFirst | buildPrim hFirst =>
    obtain ⟨-, rest, rfl⟩ := Step.firstOperand_eq_ok hFirst
    simp only [State.idents, EvalStack.idents, BuildStack.idents, EvalFrame.idents,
      BuildFrame.idents, Term.mem_idents_prim, Term.mem_identsAll, List.flatMap_nil,
      List.nil_append, List.mem_append, List.mem_cons, exists_eq_or_imp, or_imp, forall_and] at hs ⊢
    tauto
  | deliverCall fn captured arg k =>
    have hEnter : ∀ id ∈ (k.enter fn captured).idents, P id.base := by
      intro id hid
      have hWhere := k.idents_enter fn captured hid
      simp only [State.idents, EvalStack.idents, EvalFrame.idents, List.mem_append] at hs hWhere
      exact hs id (.inr hWhere)
    simp only [State.idents, EvalStack.idents, EvalFrame.idents, Value.idents, Abstraction.idents,
      Renaming.mem_idents_bind, List.cons_append, List.mem_append, List.mem_cons, or_imp,
      forall_and, forall_eq, Palette.base_tint] at hs hEnter ⊢
    tauto
  | deliverBind hLeave =>
    simp only [State.idents, EvalStack.idents, EvalFrame.idents, List.cons_append,
      List.forall_mem_append, List.forall_mem_cons] at hs ⊢
    obtain ⟨hValue, hId, hBound, hStack⟩ := hs
    refine ⟨fun id hid => ?_, hStack⟩
    have hWhere := Step.idents_of_leave hLeave hid
    simp only [List.cons_append, List.mem_cons, List.mem_append] at hWhere
    rcases hWhere with rfl | hWhere | hWhere
    · exact hId
    · exact hBound id hWhere
    · exact hValue id hWhere
  | deliverPrimNext hNext =>
    have hMem := List.mem_of_getElem? hNext
    simp only [State.idents, EvalStack.idents, EvalFrame.idents, List.flatMap_append,
      List.flatMap_cons, List.flatMap_nil, List.append_nil, List.forall_mem_append] at hs ⊢
    obtain ⟨hValue, ⟨⟨hDone, hArgs⟩, hEnv⟩, hStack⟩ := hs
    have hNextArg := fun id hid => hArgs id (Term.mem_identsAll.mpr ⟨_, hMem, hid⟩)
    exact ⟨⟨hEnv, hNextArg⟩, ⟨⟨⟨hDone, hValue⟩, hArgs⟩, hEnv⟩, hStack⟩
  | emitPrimNext hNext =>
    have hMem := List.mem_of_getElem? hNext
    simp only [State.idents, BuildStack.idents, BuildFrame.idents, List.forall_mem_append] at hs ⊢
    obtain ⟨hCode, ⟨⟨hDone, hArgs⟩, hEnv⟩, hStack⟩ := hs
    have hNextArg := fun id hid => hArgs id (Term.mem_identsAll.mpr ⟨_, hMem, hid⟩)
    refine ⟨⟨hEnv, hNextArg⟩, ⟨⟨fun id hid => ?_, hArgs⟩, hEnv⟩, hStack⟩
    obtain ⟨t, ht, hid⟩ := Term.mem_identsAll.mp hid
    rcases List.mem_append.mp ht with ht | ht
    · exact hDone id (Term.mem_identsAll.mpr ⟨t, ht, hid⟩)
    · exact hCode id (List.mem_singleton.mp ht ▸ hid)
  | deliverPrimLast hLast hApply =>
    simp only [State.idents, EvalStack.idents, List.forall_mem_append,
      Arithmetic.idents_of_apply hApply] at hs ⊢
    exact ⟨List.forall_mem_nil _, hs.2.2⟩
  | emitPrimLast =>
    simp only [State.idents, BuildStack.idents, BuildFrame.idents, Term.mem_idents_prim,
      Term.mem_identsAll, List.mem_append, List.mem_cons, List.not_mem_nil, or_false, or_and_right,
      exists_or, exists_eq_left, or_imp, forall_and] at hs ⊢
    tauto
  | deliverBranch b =>
    simp only [State.idents, EvalStack.idents, EvalFrame.idents, List.forall_mem_append] at hs ⊢
    obtain ⟨-, ⟨⟨hYes, hNo⟩, hEnv⟩, hStack⟩ := hs
    refine ⟨⟨hEnv, ?_⟩, hStack⟩
    cases b
    · exact hNo
    · exact hYes
  | _ =>
    -- Nothing is looked up, so the parts of the state are only moved about.
    simp only [State.idents, EvalStack.idents, BuildStack.idents, EvalFrame.idents,
      BuildFrame.idents, Value.idents, Value.identsOfBindings, Abstraction.idents, Option.toList,
      Renaming.mem_idents_bind, Renaming.not_mem_idents_empty, Term.mem_idents_lam,
      Term.mem_idents_fix, Term.mem_idents_quote, Term.mem_idents_splice, Term.mem_idents_app,
      Term.mem_idents_logic, Term.mem_idents_letIn, Term.mem_idents_ite, Term.not_mem_idents_int,
      Term.not_mem_idents_bool, List.nil_append, List.mem_append, List.mem_cons, List.not_mem_nil,
      or_imp, forall_and, forall_eq, false_or, or_false, Palette.base_tint] at hs ⊢
    tauto

/-! ### Runs -/

/-- **All identifiers of a run have bases from the program.** -/
theorem Machine.Reaches.exists_base {m m' : Machine} {e : Term} {s : State}
    (hReach : m.Reaches (.initial e) m' s) {id : Ident} (hid : id ∈ s.idents) :
    ∃ id₀ ∈ e.idents, id.base = id₀.base := by
  have hStart : ∀ id ∈ (State.initial e).idents, ∃ id₀ ∈ e.idents, id.base = id₀.base := by
    intro id hid
    simp only [State.initial, State.idents, EvalStack.idents, List.append_nil, List.mem_append,
      Renaming.not_mem_idents_empty, false_or] at hid
    exact ⟨id, hid, rfl⟩
  exact hReach.preserves (I := fun _ s => ∀ id ∈ s.idents, ∃ id₀ ∈ e.idents, id.base = id₀.base)
    (fun hs hStep => (Machine.step_eq_ok_iff.mp hStep).1.bases
      (P := fun b => ∃ id₀ ∈ e.idents, b = id₀.base) hs) hStart id hid

end StagedLambda
