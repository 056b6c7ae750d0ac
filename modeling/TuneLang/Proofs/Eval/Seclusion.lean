import TuneLang.Proofs.Eval.Depth
import TuneLang.Proofs.Eval.Worlds
import TuneLang.Proofs.Store.Lasting

/-!
# Only exchanges touch the world

An expression is inward when it neither shows nor reads nor writes nor plays anything, and neither do the functions in its literals.
That is not enough for its evaluation to stay out of the world: the bodies of the functions that it applies come from the store. So
it is asked that the functions are inward that can be come to from the environment and the literals (`Store.Opens`). Then everything
that is evaluated is inward, as every function that is bound, assigned, passed or returned on the way is (`Seclusion.lawful`). Such an
evaluation leaves the world as it was, and ends alike in any two worlds (`Expr.seclusion`).
-/

namespace TuneLang

mutual

/-- Whether a value is no function, or one with an inward body. -/
def Value.Inward : Value → Prop
  | .closure _ body _ => body.Inward
  | _ => True

/-- Whether nothing in an expression shows, reads, writes or plays anything, in the functions of its literals neither. A value that
stands for an expression is not looked into, as it is never evaluated. -/
def Expr.Inward : Expr → Prop
  | .lit v => v.Inward
  | .binary _ left right => left.Inward ∧ right.Inward
  | .logic _ left right => left.Inward ∧ right.Inward
  | .unary _ operand => operand.Inward
  | .slice tune start stop => tune.Inward ∧ start.Inward ∧ stop.Inward
  | .cond test yes no => test.Inward ∧ yes.Inward ∧ no.Inward
  | .letIn _ definition body => definition.Inward ∧ body.Inward
  | .letFun _ _ body scope => body.Inward ∧ scope.Inward
  | .app function argument => function.Inward ∧ argument.Inward
  | .assign _ value => value.Inward
  | .seq first second => first.Inward ∧ second.Inward
  | .note _ _ => True
  | .name _ => True
  | .stray _ => True
  | .display _ => False
  | .read => False
  | .write _ _ => False
  | .run _ => False

end

/-- The locations that an evaluation can come to from given ones: through the functions that are held on the way, and the literals in
their bodies. -/
inductive Store.Opens (s : Store) (roots : List Loc) : Loc → Prop where
  | root {l : Loc} : l ∈ roots → s.Opens roots l
  | held {k l : Loc} {v : Value} : s.Opens roots k → s.get? k = some v → l ∈ v.mentions → s.Opens roots l

/-- The operands of an inward expression are inward. -/
theorem Expr.Inward.operand {e a : Expr} (h : e.Inward) (ha : a ∈ e.operands) : a.Inward := by
  cases e with
  | lit | note | name | letFun | read | run | stray => simp [Expr.operands] at ha
  | display | write => simp [Expr.Inward] at h
  | unary | assign =>
    simp only [Expr.operands, List.mem_singleton] at ha
    simpa [Expr.Inward, ha] using h
  | letIn =>
    simp only [Expr.operands, List.mem_singleton] at ha
    rw [Expr.Inward] at h
    exact ha ▸ h.1
  | binary | logic | app | seq =>
    simp only [Expr.operands, List.mem_cons, List.not_mem_nil, or_false] at ha
    rw [Expr.Inward] at h
    rcases ha with rfl | rfl
    · exact h.1
    · exact h.2
  | slice | cond =>
    simp only [Expr.operands, List.mem_cons, List.not_mem_nil, or_false] at ha
    rw [Expr.Inward] at h
    rcases ha with rfl | rfl | rfl
    · exact h.1
    · exact h.2.1
    · exact h.2.2

/-- An inward expression has no exchange of its own. -/
theorem Expr.Inward.carries {e : Expr} (h : e.Inward) (f : World → World) (m : Machine) : e.Carries f m := by
  cases e with
  | display | read | write | run => simp [Expr.Inward] at h
  | _ => trivial

/-! ## The discipline -/

section

variable (start : Store) (roots : List Loc)

/-- The locations that a secluded evaluation uses: those that can be come to at the beginning, and those made since. -/
def Store.Used (l : Loc) : Prop := start.Opens roots l ∨ start.next ≤ l

/-- Whether a value is inward and leads to used locations only. -/
def Value.Secluded (v : Value) : Prop := v.Inward ∧ ∀ k ∈ v.mentions, Store.Used start roots k

/-- What holds of the stores that a secluded evaluation comes to. -/
structure Store.Secluded (s : Store) : Prop where
  grown : start.next ≤ s.next
  held : ∀ l v, Store.Used start roots l → s.get? l = some v → Value.Secluded start roots v

/-- Secluded evaluations come to inward functions and used locations only. -/
def Seclusion.discipline : StoreDiscipline where
  Sound s := Store.Secluded start roots s
  Leads _ _ := True
  Proper _ v := Value.Secluded start roots v
  Ready _ env e := e.Inward ∧ (∀ k ∈ env.locs, Store.Used start roots k) ∧ ∀ k ∈ e.mentions, Store.Used start roots k
  Allowed _ := True

end

variable {start : Store} {roots : List Loc}

theorem Value.secluded_of_data {v : Value} (h : v.isClosure = false) : Value.Secluded start roots v := by
  cases v with
  | closure p b env => cases h
  | _ => simp [Value.Secluded, Value.Inward, Value.mentions]

theorem Store.Secluded.push {s : Store} {v : Value} (hs : Store.Secluded start roots s) (hv : Value.Secluded start roots v) :
    Store.Secluded start roots (s.push v) where
  grown := Nat.le_trans hs.grown (Nat.le_of_lt (s.next_lt_push v))
  held := by
    intro l u hl hu
    rcases Store.held_push hu with ⟨_, rfl⟩ | ⟨_, hu⟩
    · exact hv
    · exact hs.held l u hl hu

theorem Store.Secluded.set {s : Store} {l : Loc} {v : Value} (hs : Store.Secluded start roots s)
    (hv : Value.Secluded start roots v) : Store.Secluded start roots (s.set l v) where
  grown := by
    rw [Store.next_set]
    exact hs.grown
  held := by
    intro k u hk hu
    rcases Store.held_set hu with ⟨_, rfl⟩ | ⟨_, hu⟩
    · exact hv
    · exact hs.held k u hk hu

/-- An environment of used locations stays one with a name for the new location. -/
theorem Store.Secluded.bind {s : Store} {env : Env} {x : String} (hs : Store.Secluded start roots s)
    (henv : ∀ k ∈ env.locs, Store.Used start roots k) : ∀ k ∈ Env.locs ((x, s.next) :: env), Store.Used start roots k :=
  List.forall_mem_cons.mpr ⟨Or.inr hs.grown, henv⟩

/-- Every construct of an inward expression keeps an evaluation secluded. -/
theorem Seclusion.lawful : (Seclusion.discipline start roots).Lawful where
  refl := trivial
  trans _ _ := trivial
  proper_later _ hv := hv
  ready_later _ hr := hr
  operand hr ha := ⟨hr.1.operand ha, hr.2.1, fun k hk => hr.2.2 k (Expr.mentions_operand ha k hk)⟩
  allowed _ := trivial
  data := Value.secluded_of_data
  lit := by
    intro s env v hr
    simpa [Seclusion.discipline, Value.Secluded, Expr.Inward, Expr.mentions] using And.intro hr.1 hr.2.2
  name hs hr hx hl := hs.held _ _ (hr.2.1 _ (Env.mem_locs_of_find? hx)) hl
  unbound _ _ _ := trivial
  push hs hv := ⟨trivial, hs.push hv⟩
  letIn := by
    intro s env x d b v hs hr _
    obtain ⟨hinward, henv, hmentions⟩ := hr
    rw [Expr.Inward] at hinward
    exact ⟨hinward.2, hs.bind henv, fun k hk => hmentions k (by simp [Expr.mentions, hk])⟩
  letFun := by
    intro s env f p b i hs hr
    obtain ⟨hinward, henv, hmentions⟩ := hr
    rw [Expr.Inward] at hinward
    rw [Expr.mentions, List.forall_mem_append] at hmentions
    have hown := hs.bind (x := f) henv
    have hfunction : Value.Secluded start roots (.closure p b ((f, s.next) :: env)) := by
      refine ⟨by rw [Value.Inward]; exact hinward.1, ?_⟩
      rw [Value.mentions, List.forall_mem_append]
      exact ⟨hown, hmentions.1⟩
    exact ⟨trivial, hs.push hfunction, hinward.2, hown, hmentions.2⟩
  app := by
    intro s p b captured v hs hc _
    obtain ⟨hinward, hmentions⟩ := hc
    rw [Value.Inward] at hinward
    rw [Value.mentions, List.forall_mem_append] at hmentions
    exact ⟨hinward, hs.bind hmentions.1, hmentions.2⟩
  assign _ _ _ _ _ hs hv := ⟨trivial, hs.set hv, hv⟩

/-! ## Secluded evaluations -/

/-- An inward expression, among inward functions, carries every change of the world along. -/
theorem Expr.Inward.eval_follows {env : Env} {e : Expr} {m : Machine} (he : e.Inward)
    (hfunctions : ∀ l v, m.store.Opens (env.locs ++ e.mentions) l → m.store.get? l = some v → v.Inward) (f : World → World)
    (n : Nat) : EvalM.Follows f (e.eval n env) m := by
  have hsound : Store.Secluded m.store (env.locs ++ e.mentions) m.store := by
    refine ⟨Nat.le_refl _, fun l v hl hv => ?_⟩
    rcases hl with hopened | hnew
    · exact ⟨hfunctions l v hopened hv, fun k hk => Or.inl (hopened.held hv hk)⟩
    · exact absurd (Store.lt_next_of_get? hv) (Nat.not_lt.mpr hnew)
  have hready : (Seclusion.discipline m.store (env.locs ++ e.mentions)).toDiscipline.Ready m env e :=
    ⟨he, fun k hk => Or.inl (.root (List.mem_append_left _ hk)), fun k hk => Or.inl (.root (List.mem_append_right _ hk))⟩
  refine Expr.eval_follows n env e m (fun env₁ e₁ m₁ hmoment => ?_)
  exact (Seclusion.lawful.toDiscipline.history_begins n env e m hsound hready env₁ e₁ m₁ hmoment).2.1.carries f m₁

/-- Seclusion. An expression that is inward, in an environment and a store where only inward functions can be come to, leaves the world
exactly as it was, however deep its evaluation goes and however it ends. In any two worlds it runs for ever, or ends with the same
value, or ends with the same fault, and then leaves the same store. -/
theorem Expr.seclusion {env : Env} {e : Expr} {s : Store} (he : e.Inward)
    (hfunctions : ∀ l v, s.Opens (env.locs ++ e.mentions) l → s.get? l = some v → v.Inward) :
    (∀ n w, (EvalM.left (e.eval n env ⟨s, w⟩)).world = w) ∧
    ∀ w w', (e.RunsForever env ⟨s, w⟩ ∧ e.RunsForever env ⟨s, w'⟩) ∨
      (∃ v s', e.EndsWith env ⟨s, w⟩ (.ok v ⟨s', w⟩) ∧ e.EndsWith env ⟨s, w'⟩ (.ok v ⟨s', w'⟩)) ∨
      ∃ f s', e.EndsWith env ⟨s, w⟩ (.error f ⟨s', w⟩) ∧ e.EndsWith env ⟨s, w'⟩ (.error f ⟨s', w'⟩) := by
  -- The evaluation in the second world, told from the one in the first.
  have hmoved : ∀ n w w', e.eval n env ⟨s, w'⟩ = EvalM.moved (fun _ => w') (e.eval n env ⟨s, w⟩) := fun n w w' =>
    he.eval_follows (m := ⟨s, w⟩) hfunctions (fun _ => w') n
  have hworld : ∀ n w, (EvalM.left (e.eval n env ⟨s, w⟩)).world = w := by
    intro n w
    rw [hmoved n w w]
    cases e.eval n env ⟨s, w⟩ <;> rfl
  refine ⟨hworld, fun w w' => ?_⟩
  by_cases hforever : e.RunsForever env ⟨s, w⟩
  · refine Or.inl ⟨hforever, fun n => ?_⟩
    have hup := hforever n
    rw [hmoved n w w']
    cases hend : e.eval n env ⟨s, w⟩ with
    | ok v m =>
      rw [hend] at hup
      exact hup
    | error f m =>
      rw [hend, EvalM.givenUp_error] at hup
      exact EvalM.givenUp_error.mpr hup
  · obtain ⟨n, hup⟩ := Classical.not_forall.mp hforever
    have hleft := hworld n w
    have hother := hmoved n w w'
    cases hend : e.eval n env ⟨s, w⟩ with
    | ok v m =>
      rw [hend] at hup hleft hother
      obtain ⟨s', w₁⟩ := m
      obtain rfl : w₁ = w := hleft
      exact Or.inr (Or.inl ⟨v, s', Expr.endsWith_of_not_givenUp hend hup, Expr.endsWith_of_not_givenUp hother not_false⟩)
    | error f m =>
      rw [hend] at hup hleft hother
      obtain ⟨s', w₁⟩ := m
      obtain rfl : w₁ = w := hleft
      have hup' : ¬ EvalM.GivenUp (.error f ⟨s', w'⟩ : EStateM.Result Fault Machine Value) := by
        rw [EvalM.givenUp_error] at hup ⊢
        exact hup
      exact Or.inr (Or.inr ⟨f, s', Expr.endsWith_of_not_givenUp hend hup, Expr.endsWith_of_not_givenUp hother hup'⟩)

/-- A store with a number, a function that adds to it, and a function that shows its argument. -/
def Store.workshop : Store :=
  ((Store.empty.push (.int 1)).push (.closure "y" (.assign "x" (.binary .add (.name "x") (.name "y"))) [("f", 1), ("x", 0)])).push
    (.closure "z" (.display (.name "z")) [("g", 2)])

/-- The first function applied, and then the number. -/
def Expr.tally : Expr := .seq (.app (.name "f") (.lit (.int 5))) (.name "x")

/-- From the first function's name the second function cannot be come to, and applying the first one stays out of the world. -/
theorem Expr.seclusion_tally :
    Expr.tally.Inward ∧ (∃ v, Store.workshop.get? 2 = some v ∧ ¬ v.Inward) ∧
      (∀ l v, Store.workshop.Opens (Env.locs [("f", 1), ("x", 0)] ++ Expr.tally.mentions) l → Store.workshop.get? l = some v →
        v.Inward) ∧
      (∃ m, Expr.tally.eval 5 [("f", 1), ("x", 0)] ⟨.workshop, {}⟩ = .ok (.int 6) m) ∧
      (∀ n w, (EvalM.left (Expr.tally.eval n [("f", 1), ("x", 0)] ⟨.workshop, w⟩)).world = w) ∧
      ∀ w w', (Expr.tally.RunsForever [("f", 1), ("x", 0)] ⟨.workshop, w⟩ ∧
          Expr.tally.RunsForever [("f", 1), ("x", 0)] ⟨.workshop, w'⟩) ∨
        (∃ v s', Expr.tally.EndsWith [("f", 1), ("x", 0)] ⟨.workshop, w⟩ (.ok v ⟨s', w⟩) ∧
          Expr.tally.EndsWith [("f", 1), ("x", 0)] ⟨.workshop, w'⟩ (.ok v ⟨s', w'⟩)) ∨
        ∃ f s', Expr.tally.EndsWith [("f", 1), ("x", 0)] ⟨.workshop, w⟩ (.error f ⟨s', w⟩) ∧
          Expr.tally.EndsWith [("f", 1), ("x", 0)] ⟨.workshop, w'⟩ (.error f ⟨s', w'⟩) := by
  have hnumber : Store.workshop.get? 0 = some (.int 1) := rfl
  have hadding : Store.workshop.get? 1 =
      some (.closure "y" (.assign "x" (.binary .add (.name "x") (.name "y"))) [("f", 1), ("x", 0)]) := rfl
  have hshowing : Store.workshop.get? 2 = some (.closure "z" (.display (.name "z")) [("g", 2)]) := rfl
  have hinward : Expr.tally.Inward := by simp [Expr.tally, Expr.Inward, Value.Inward]
  have hopened : ∀ l, Store.workshop.Opens (Env.locs [("f", 1), ("x", 0)] ++ Expr.tally.mentions) l → l = 1 ∨ l = 0 := by
    intro l hl
    induction hl with
    | root hl => simpa [Env.locs, Expr.tally, Expr.mentions, Value.mentions] using hl
    | held _ hv hl ih =>
      rcases ih with rfl | rfl
      · rw [hadding] at hv
        cases hv
        simpa [Value.mentions, Expr.mentions, Env.locs] using hl
      · rw [hnumber] at hv
        cases hv
        simp [Value.mentions] at hl
  have hfunctions : ∀ l v, Store.workshop.Opens (Env.locs [("f", 1), ("x", 0)] ++ Expr.tally.mentions) l →
      Store.workshop.get? l = some v → v.Inward := by
    intro l v hl hv
    rcases hopened l hl with rfl | rfl
    · rw [hadding] at hv
      cases hv
      simp [Value.Inward, Expr.Inward]
    · rw [hnumber] at hv
      cases hv
      simp [Value.Inward]
  obtain ⟨hworld, htwo⟩ := Expr.seclusion hinward hfunctions
  exact ⟨hinward, ⟨_, hshowing, by simp [Value.Inward, Expr.Inward]⟩, hfunctions, ⟨_, rfl⟩, hworld, htwo⟩

end TuneLang
