import TuneLang.Proofs.Eval.Discipline

/-!
# Scope

An expression is scoped in a list of names when every name that it reads or assigns to is one of these or bound around it. A
function is scoped when its body is, in the names of its environment and its parameter. Evaluating a scoped expression never comes
to a name without a binding, and every function that it stores or returns is scoped again (`Expr.scope_safety`): function bodies
run later and elsewhere, but in the environment they were scoped in.
-/

namespace TuneLang

/-- The names of an environment. -/
def Env.names (env : Env) : List String := env.map Prod.fst

mutual

/-- Whether the functions in a value are scoped. -/
def Value.Scoped : Value → Prop
  | .closure param body env => body.Scoped (param :: env.names)
  | _ => True

/-- Whether every name that an expression reads or assigns to is in a list or bound around it. -/
def Expr.Scoped : Expr → List String → Prop
  | .lit v, _ => v.Scoped
  | .note _ _, _ => True
  | .binary _ left right, names => left.Scoped names ∧ right.Scoped names
  | .logic _ left right, names => left.Scoped names ∧ right.Scoped names
  | .unary _ operand, names => operand.Scoped names
  | .slice tune start stop, names => tune.Scoped names ∧ start.Scoped names ∧ stop.Scoped names
  | .cond test yes no, names => test.Scoped names ∧ yes.Scoped names ∧ no.Scoped names
  | .name x, names => x ∈ names
  | .letIn x definition body, names => definition.Scoped names ∧ body.Scoped (x :: names)
  | .letFun f param body scope, names => body.Scoped (param :: f :: names) ∧ scope.Scoped (f :: names)
  | .app function argument, names => function.Scoped names ∧ argument.Scoped names
  | .assign x value, names => x ∈ names ∧ value.Scoped names
  | .seq first second, names => first.Scoped names ∧ second.Scoped names
  | .display shown, names => shown.Scoped names
  | .read, _ => True
  | .write tune _, names => tune.Scoped names
  | .run _, _ => True
  | .stray _, _ => True

end

/-- Whether the functions in a store are scoped. -/
def Store.Scoped (s : Store) : Prop := s.All Value.Scoped

/-- Only a function can fail to be scoped. -/
theorem Value.scoped_of_data {v : Value} (h : v.isClosure = false) : v.Scoped := by
  cases v with
  | closure p b env => cases h
  | _ => simp [Value.Scoped]

/-- The operands of a scoped expression are scoped in the same names. -/
theorem Expr.Scoped.operand {e a : Expr} {names : List String} (h : e.Scoped names) (ha : a ∈ e.operands) :
    a.Scoped names := by
  cases e with
  | lit | note | name | letFun | read | run | stray => simp [Expr.operands] at ha
  | unary | display | write =>
    simp only [Expr.operands, List.mem_singleton] at ha
    simp only [Expr.Scoped] at h
    exact ha ▸ h
  | letIn =>
    simp only [Expr.operands, List.mem_singleton] at ha
    simp only [Expr.Scoped] at h
    exact ha ▸ h.1
  | assign =>
    simp only [Expr.operands, List.mem_singleton] at ha
    simp only [Expr.Scoped] at h
    exact ha ▸ h.2
  | binary | logic | app | seq =>
    simp only [Expr.operands, List.mem_cons, List.not_mem_nil, or_false] at ha
    simp only [Expr.Scoped] at h
    rcases ha with rfl | rfl
    · exact h.1
    · exact h.2
  | slice | cond =>
    simp only [Expr.operands, List.mem_cons, List.not_mem_nil, or_false] at ha
    simp only [Expr.Scoped] at h
    rcases ha with rfl | rfl | rfl
    · exact h.1
    · exact h.2.1
    · exact h.2.2

/-- A name of an environment has a binding in it. -/
theorem Env.find?_ne_none {env : Env} {x : String} (h : x ∈ env.names) : env.find? x ≠ none := by
  intro hnone
  obtain ⟨b, hb, rfl⟩ := List.mem_map.mp h
  have := List.lookup_eq_none_iff.mp hnone b hb
  simp at this

/-- Everything is scoped, and no name is without a binding. -/
def Scope.discipline : StoreDiscipline where
  Sound s := s.Scoped
  Leads _ _ := True
  Proper _ v := v.Scoped
  Ready _ env e := e.Scoped env.names
  Allowed f := ∀ x, f ≠ .unbound x

/-- Scopes are kept by every construct. -/
theorem Scope.lawful : Scope.discipline.Lawful where
  refl := trivial
  trans _ _ := trivial
  proper_later _ hv := hv
  ready_later _ hr := hr
  operand := Expr.Scoped.operand
  allowed h := h
  data := Value.scoped_of_data
  lit := by
    intro s env v hr
    simpa [Scope.discipline, Expr.Scoped] using hr
  name hs _ _ hl := hs _ _ hl
  unbound := by
    intro s env x e he hr hx
    have hmem : x ∈ env.names := by
      rcases he with rfl | ⟨a, rfl⟩
      · simpa [Scope.discipline, Expr.Scoped] using hr
      · exact (by simpa [Scope.discipline, Expr.Scoped] using hr : x ∈ env.names ∧ a.Scoped env.names).1
    exact absurd hx (Env.find?_ne_none hmem)
  push hs hv := ⟨trivial, Store.All.push hs hv⟩
  letIn := by
    intro s env x d b v _ hr _
    simp only [Scope.discipline, Expr.Scoped] at hr
    exact hr.2
  letFun := by
    intro s env f p b i hs hr
    simp only [Scope.discipline, Expr.Scoped] at hr
    refine ⟨trivial, Store.All.push hs ?_, hr.2⟩
    simp only [Value.Scoped]
    exact hr.1
  app := by
    intro s p b captured v _ hc _
    simp only [Scope.discipline, Value.Scoped] at hc
    exact hc
  assign _ _ _ _ _ hs hv := ⟨trivial, Store.All.set hs hv, hv⟩

/-- Scope safety. A scoped expression, evaluated in an environment with these names and a store of scoped functions, never comes to
a name without a binding; the store that it leaves holds scoped functions again, and so does the value it ends with. In
particular an expression that is scoped without any names never comes to such a name, in whatever world it is evaluated. -/
theorem Expr.scope_safety :
    (∀ (e : Expr), e.Scoped [] → ∀ (n : Nat) (w : World) (x : String) (m : Machine),
      e.evalClosed n w ≠ .error (.unbound x) m) ∧
    (∀ (env : Env) (e : Expr) (m : Machine), m.store.Scoped → e.Scoped env.names → ∀ n : Nat,
      (∀ x m', e.eval n env m ≠ .error (.unbound x) m') ∧
      (EvalM.left (e.eval n env m)).store.Scoped ∧
      ∀ v m', e.eval n env m = .ok v m' → v.Scoped) := by
  have general : ∀ (env : Env) (e : Expr) (m : Machine), m.store.Scoped → e.Scoped env.names → ∀ n : Nat,
      Scope.discipline.toDiscipline.Ends m Scope.discipline.toDiscipline.Proper (e.eval n env m) :=
    fun env e m hs he n => Scope.lawful.toDiscipline.eval n env e m hs he
  refine ⟨?_, ?_⟩
  · intro e he n w x m hend
    have h := general [] e ⟨.empty, w⟩ (Store.all_empty _) he n
    rw [Expr.evalClosed] at hend
    rw [hend] at h
    exact h.2.2 x rfl
  · intro env e m hs he n
    have h := general env e m hs he n
    refine ⟨?_, h.left.2, ?_⟩
    · intro x m' hend
      rw [hend] at h
      exact h.2.2 x rfl
    · intro v m' hend
      rw [hend] at h
      exact h.2.2

/-- A program with a function that changes a name from around it, and that is applied twice. -/
def Expr.counter : Expr :=
  .letIn "x" (.lit (.int 0)) (.letFun "f" "y" (.assign "x" (.binary .add (.name "x") (.name "y")))
    (.seq (.app (.name "f") (.lit (.int 2))) (.app (.name "f") (.lit (.int 3)))))

/-- A store with one function, which returns itself. -/
def Store.selfish : Store := Store.empty.push (.closure "y" (.name "f") [("f", 0)])

/-- The program is scoped without names, and an application of the function is scoped in its name. -/
theorem Expr.scope_safety_counter :
    Expr.counter.Scoped [] ∧ Store.selfish.Scoped ∧ (Expr.app (.name "f") (.name "f")).Scoped (Env.names [("f", 0)]) ∧
      (∀ n w x m, Expr.counter.evalClosed n w ≠ .error (.unbound x) m) ∧
      ∀ n w, (EvalM.left ((Expr.app (.name "f") (.name "f")).eval n [("f", 0)] ⟨Store.selfish, w⟩)).store.Scoped := by
  have hcounter : Expr.counter.Scoped [] := by simp [Expr.counter, Expr.Scoped, Value.Scoped]
  have hstore : Store.selfish.Scoped :=
    (Store.all_empty _).push (by simp [Value.Scoped, Expr.Scoped, Env.names])
  have happ : (Expr.app (.name "f") (.name "f")).Scoped (Env.names [("f", 0)]) := by simp [Expr.Scoped, Env.names]
  exact ⟨hcounter, hstore, happ, Expr.scope_safety.1 _ hcounter,
    fun n w => (Expr.scope_safety.2 _ _ ⟨Store.selfish, w⟩ hstore happ n).2.1⟩

end TuneLang
