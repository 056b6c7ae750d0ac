import TuneLang.Proofs.Eval.Discipline

/-!
# The course of a run

An evaluation consists of further evaluations, its tasks, which come one after another: each begins in the machine that the one
before it has left, or in that machine with one more location (`Discipline.Lawful.course`). After the last of them the store stays
as it is, except that an assignment then changes the location of its name. Taken together, the beginnings and ends of all
evaluations within one another are the moments that a run goes through (`Expr.history`), and whatever is kept by all constructs
holds at each of them (`Discipline.Lawful.history`).
-/

namespace TuneLang

/-- An evaluation that is due: an expression with its environment, and the machine that it begins in. -/
structure Task where
  env : Env
  expr : Expr
  machine : Machine

/-- The machine that a task leaves, at most `n` expressions deep. -/
def Task.left (n : Nat) (t : Task) : Machine := EvalM.left (t.expr.eval n t.env t.machine)

/-- The tasks that come after an evaluation, if that ends with a value. -/
def Task.after : EStateM.Result Fault Machine Value → (Value → Machine → List Task) → List Task
  | .ok v m, next => next v m
  | .error _ _, _ => []

/-- The tasks of an expression in their order, each at most `n` expressions deep. -/
def Expr.tasks (n : Nat) (env : Env) (m : Machine) : Expr → List Task
  | .binary _ left right => ⟨env, left, m⟩ :: Task.after (left.eval n env m) fun _ m₁ => [⟨env, right, m₁⟩]
  | .logic op left right => ⟨env, left, m⟩ :: Task.after (left.eval n env m) fun v m₁ =>
      if v = .bool (!op.settling) then [⟨env, right, m₁⟩] else []
  | .unary _ operand => [⟨env, operand, m⟩]
  | .slice tune start stop => ⟨env, tune, m⟩ :: Task.after (tune.eval n env m) fun _ m₁ =>
      ⟨env, start, m₁⟩ :: Task.after (start.eval n env m₁) fun _ m₂ => [⟨env, stop, m₂⟩]
  | .cond test yes no => ⟨env, test, m⟩ :: Task.after (test.eval n env m) fun v m₁ =>
      if v = .bool true then [⟨env, yes, m₁⟩] else if v = .bool false then [⟨env, no, m₁⟩] else []
  | .letIn x definition body => ⟨env, definition, m⟩ :: Task.after (definition.eval n env m) fun v m₁ =>
      [⟨(x, m₁.store.next) :: env, body, m₁.push v⟩]
  | .letFun f param body scope =>
    [⟨(f, m.store.next) :: env, scope, m.push (.closure param body ((f, m.store.next) :: env))⟩]
  | .app function argument => ⟨env, function, m⟩ :: Task.after (function.eval n env m) fun c m₁ =>
      match c with
      | .closure param body captured => ⟨env, argument, m₁⟩ :: Task.after (argument.eval n env m₁) fun v m₂ =>
          [⟨(param, m₂.store.next) :: captured, body, m₂.push v⟩]
      | _ => []
  | .assign x value =>
    match env.find? x with
    | some l => if (m.store.get l).isClosure then [] else [⟨env, value, m⟩]
    | none => []
  | .seq first second => ⟨env, first, m⟩ :: Task.after (first.eval n env m) fun _ m₁ => [⟨env, second, m₁⟩]
  | .display shown => [⟨env, shown, m⟩]
  | .write tune _ => [⟨env, tune, m⟩]
  | .lit _ | .note _ _ | .name _ | .read | .run _ | .stray _ => []

/-- A moment of a run: an evaluation begins in a machine, or ends in one. -/
inductive Moment where
  | begins (env : Env) (e : Expr) (m : Machine)
  | ends (m : Machine)

/-- The machine of a moment. -/
def Moment.machine : Moment → Machine
  | .begins _ _ m => m
  | .ends m => m

/-- The moments that an evaluation goes through, at most `n` expressions deep. One that may not go any deeper is given up before it
begins. -/
def Expr.history : Nat → Env → Expr → Machine → List Moment
  | 0, _, _, m => [.ends m]
  | n + 1, env, e, m =>
    .begins env e m :: ((e.tasks n env m).flatMap fun t => Expr.history n t.env t.expr t.machine) ++
      [.ends (EvalM.left (e.eval (n + 1) env m))]

/-- What the store comes to after the last task has left the machine `m₁`. -/
def Expr.Settles (n : Nat) (env : Env) (e : Expr) (m m₁ : Machine) : Prop :=
  (EvalM.left (e.eval (n + 1) env m)).store = m₁.store ∨
    ∃ x a l v, e = .assign x a ∧ env.find? x = some l ∧ (EvalM.left (e.eval (n + 1) env m)).store = m₁.store.set l v

/-- Tasks that come one after another from a machine on: each is ready when it begins, and the machine after the last one has the
property `R`. -/
inductive Discipline.Course (D : Discipline) (n : Nat) (R : Machine → Prop) : Machine → List Task → Prop where
  | done {m : Machine} : R m → D.Course n R m []
  | step {m : Machine} {t : Task} {ts : List Task} : D.Leads m t.machine → D.Sound t.machine →
      D.Ready t.machine t.env t.expr → D.Course n R (t.left n) ts → D.Course n R m (t :: ts)

/-- An evaluation begins with its first moment. -/
theorem Expr.begins_mem_history (n : Nat) (env : Env) (e : Expr) (m : Machine) :
    Moment.begins env e m ∈ e.history (n + 1) env m := by
  simp [Expr.history]

/-- A run ends with its last moment. -/
theorem Expr.history_last (n : Nat) (env : Env) (e : Expr) (m : Machine) :
    ∃ earlier, e.history n env m = earlier ++ [.ends (EvalM.left (e.eval n env m))] := by
  cases n with
  | zero => exact ⟨[], rfl⟩
  | succ n => exact ⟨_, rfl⟩

theorem Expr.ends_mem_history (n : Nat) (env : Env) (e : Expr) (m : Machine) :
    Moment.ends (EvalM.left (e.eval n env m)) ∈ e.history n env m := by
  obtain ⟨earlier, heq⟩ := Expr.history_last n env e m
  rw [heq]
  exact List.mem_append_right earlier (List.mem_singleton.mpr rfl)

/-- The moments of a task are moments of the evaluation. -/
theorem Expr.mem_history_of_task {n : Nat} {env : Env} {e : Expr} {m : Machine} {t : Task} {x : Moment}
    (ht : t ∈ e.tasks n env m) (hx : x ∈ t.expr.history n t.env t.machine) : x ∈ e.history (n + 1) env m := by
  simp only [Expr.history, List.mem_cons, List.mem_append, List.mem_flatMap]
  exact Or.inl (Or.inr ⟨t, ht, hx⟩)

/-- A step leaves the store as its first part does, when the rest leaves the store as it is. -/
theorem EvalM.store_bind {α β : Type} {x : EvalM α} {f : α → EvalM β} (m : Machine)
    (hf : ∀ a m', (EvalM.left (f a m')).store = m'.store) :
    (EvalM.left ((x >>= f) m)).store = (EvalM.left (x m)).store := by
  cases hx : x m with
  | error e m' => rw [EvalM.bind_error hx, EvalM.left, EvalM.left]
  | ok a m' =>
    rw [EvalM.bind_ok hx, hf]
    rfl

theorem EvalM.store_ofExcept (r : Except Fault Value) (m : Machine) :
    (EvalM.left (EvalM.ofExcept r m)).store = m.store := by
  cases r <;> rfl

/-- When the first part of an evaluation ends with a fault, the store stays as that has left it. -/
theorem Expr.settles_of_error {n : Nat} {env : Env} {e : Expr} {m m₁ : Machine} {x : EvalM Value} {k : Value → EvalM Value}
    {f : Fault} (he : e.eval (n + 1) env = x >>= k) (hx : x m = .error f m₁) : e.Settles n env m m₁ := by
  refine Or.inl ?_
  rw [he, EvalM.bind_error hx]
  rfl

/-- When the first part of an evaluation ends with a value, the store is left by the rest. -/
theorem Expr.settles_of_ok {n : Nat} {env : Env} {e : Expr} {m m₁ m₂ : Machine} {x : EvalM Value} {k : Value → EvalM Value}
    {v : Value} (he : e.eval (n + 1) env = x >>= k) (hx : x m = .ok v m₁) (hk : (EvalM.left (k v m₁)).store = m₂.store) :
    e.Settles n env m m₂ := by
  refine Or.inl ?_
  rw [he, EvalM.bind_ok hx, hk]

/-- An assignment to a location that holds data evaluates its right side and puts the value there. -/
theorem Expr.eval_assign {n : Nat} {env : Env} {x : String} {a : Expr} {l : Loc} {m : Machine} (hx : env.find? x = some l)
    (hdata : (m.store.get l).isClosure = false) :
    (Expr.assign x a).eval (n + 1) env m = (a.eval n env >>= fun v => EvalM.update l v >>= fun _ => pure v) m := by
  simp only [Expr.eval, EvalM.locate, hx]
  rw [EvalM.bind_ok (rfl : (pure l : EvalM Loc) m = .ok l m), EvalM.bind_ok (rfl : EvalM.fetch l m = .ok (m.store.get l) m)]
  cases hg : m.store.get l with
  | closure p b captured =>
    rw [hg] at hdata
    cases hdata
  | _ => rfl

/-- An assignment to a location that holds a function ends with a fault at once. -/
theorem Expr.eval_assign_function {n : Nat} {env : Env} {x : String} {a : Expr} {l : Loc} {m : Machine}
    (hx : env.find? x = some l) (hfunction : (m.store.get l).isClosure = true) :
    (Expr.assign x a).eval (n + 1) env m = .error (.misuse .assignment) m := by
  simp only [Expr.eval, EvalM.locate, hx]
  rw [EvalM.bind_ok (rfl : (pure l : EvalM Loc) m = .ok l m), EvalM.bind_ok (rfl : EvalM.fetch l m = .ok (m.store.get l) m)]
  cases hg : m.store.get l with
  | closure p b captured => rfl
  | _ =>
    rw [hg] at hfunction
    cases hfunction

namespace Discipline

variable {D : Discipline} {n : Nat} {R : Machine → Prop}

/-- The last task of a course. -/
theorem Course.last {m₀ m : Machine} {env : Env} {a : Expr} (hl : D.Leads m₀ m) (hs : D.Sound m) (hr : D.Ready m env a)
    (hend : R (EvalM.left (a.eval n env m))) : D.Course n R m₀ [⟨env, a, m⟩] :=
  .step hl hs hr (.done hend)

/-- A task of a course whose value decides how the course goes on. -/
theorem Lawful.courseFrom (h : D.Lawful) {m₀ m : Machine} {env : Env} {a : Expr} {next : Value → Machine → List Task}
    (hl : D.Leads m₀ m) (hs : D.Sound m) (hr : D.Ready m env a)
    (herror : ∀ f m₁, a.eval n env m = .error f m₁ → R m₁)
    (hok : ∀ v m₁, a.eval n env m = .ok v m₁ → D.Leads m m₁ → D.Sound m₁ → D.Proper m₁ v → D.Course n R m₁ (next v m₁)) :
    D.Course n R m₀ (⟨env, a, m⟩ :: Task.after (a.eval n env m) next) := by
  refine .step hl hs hr ?_
  have heval := h.eval n env a m hs hr
  show D.Course n R (EvalM.left (a.eval n env m)) _
  cases hend : a.eval n env m with
  | error f m₁ => exact .done (herror f m₁ hend)
  | ok v m₁ =>
    rw [hend] at heval
    exact hok v m₁ hend heval.1 heval.2.1 heval.2.2

/-- The tasks of an expression that is ready come one after another, and the store settles after the last of them. -/
theorem Lawful.course (h : D.Lawful) {env : Env} {e : Expr} {m : Machine} (hs : D.Sound m) (hr : D.Ready m env e) :
    D.Course n (e.Settles n env m) m (e.tasks n env m) := by
  have operand : ∀ a ∈ e.operands, ∀ {m'}, D.Leads m m' → D.Ready m' env a :=
    fun a ha _ hl => h.operand (h.ready_later hl hr) ha
  cases e with
  | lit | note => exact .done (Or.inl rfl)
  | name x =>
    refine .done (Or.inl ?_)
    simp only [Expr.eval, EvalM.locate]
    split <;> rfl
  | binary op l r =>
    refine h.courseFrom h.refl hs (operand l (by simp [Expr.operands]) h.refl) (fun _ _ => Expr.settles_of_error rfl) ?_
    intro v m₁ hv hl₁ hs₁ _
    refine .last h.refl hs₁ (operand r (by simp [Expr.operands]) hl₁) (Expr.settles_of_ok rfl hv ?_)
    exact EvalM.store_bind m₁ (fun w m' => EvalM.store_ofExcept _ m')
  | logic op l r =>
    refine h.courseFrom h.refl hs (operand l (by simp [Expr.operands]) h.refl) (fun _ _ => Expr.settles_of_error rfl) ?_
    intro v m₁ hv hl₁ hs₁ _
    by_cases hright : v = .bool (!op.settling)
    · subst hright
      rw [if_pos rfl]
      refine .last h.refl hs₁ (operand r (by simp [Expr.operands]) hl₁) (Expr.settles_of_ok rfl hv ?_)
      dsimp only
      rw [if_neg (by simp)]
      refine EvalM.store_bind m₁ (fun w m' => ?_)
      split <;> rfl
    · rw [if_neg hright]
      refine .done (Expr.settles_of_ok rfl hv ?_)
      cases v with
      | bool b =>
        have hb : b = op.settling := by
          cases b <;> cases hop : op.settling <;> simp_all
        dsimp only
        rw [if_pos hb]
        rfl
      | _ => rfl
  | unary op a =>
    refine .last h.refl hs (operand a (by simp [Expr.operands]) h.refl) (Or.inl ?_)
    exact EvalM.store_bind m (fun v m' => EvalM.store_ofExcept _ m')
  | slice t i j =>
    refine h.courseFrom h.refl hs (operand t (by simp [Expr.operands]) h.refl) (fun _ _ => Expr.settles_of_error rfl) ?_
    intro u m₁ hu hl₁ hs₁ _
    refine h.courseFrom h.refl hs₁ (operand i (by simp [Expr.operands]) hl₁) ?_ ?_
    · intro f m₂ hi
      refine Expr.settles_of_ok rfl hu ?_
      rw [EvalM.bind_error hi]
      rfl
    · intro v m₂ hv hl₂ hs₂ _
      refine .last h.refl hs₂ (operand j (by simp [Expr.operands]) (h.trans hl₁ hl₂)) (Expr.settles_of_ok rfl hu ?_)
      rw [EvalM.bind_ok hv]
      exact EvalM.store_bind m₂ (fun w m' => EvalM.store_ofExcept _ m')
  | cond c t e =>
    refine h.courseFrom h.refl hs (operand c (by simp [Expr.operands]) h.refl) (fun _ _ => Expr.settles_of_error rfl) ?_
    intro v m₁ hv hl₁ hs₁ _
    by_cases hyes : v = .bool true
    · subst hyes
      rw [if_pos rfl]
      exact .last h.refl hs₁ (operand t (by simp [Expr.operands]) hl₁) (Expr.settles_of_ok rfl hv rfl)
    · rw [if_neg hyes]
      by_cases hno : v = .bool false
      · subst hno
        rw [if_pos rfl]
        exact .last h.refl hs₁ (operand e (by simp [Expr.operands]) hl₁) (Expr.settles_of_ok rfl hv rfl)
      · rw [if_neg hno]
        refine .done (Expr.settles_of_ok rfl hv ?_)
        cases v with
        | bool b => cases b <;> contradiction
        | _ => rfl
  | letIn x d b =>
    refine h.courseFrom h.refl hs (operand d (by simp [Expr.operands]) h.refl) (fun _ _ => Expr.settles_of_error rfl) ?_
    intro v m₁ hv hl₁ hs₁ hproper
    obtain ⟨hl₂, hs₂, hr₂⟩ := h.letIn hs₁ (h.ready_later hl₁ hr) hproper
    exact .last hl₂ hs₂ hr₂ (Expr.settles_of_ok rfl hv rfl)
  | letFun f p b i =>
    obtain ⟨hl₁, hs₁, hr₁⟩ := h.letFun hs hr
    exact .last hl₁ hs₁ hr₁ (Or.inl rfl)
  | app f a =>
    refine h.courseFrom h.refl hs (operand f (by simp [Expr.operands]) h.refl) (fun _ _ => Expr.settles_of_error rfl) ?_
    intro c m₁ hc hl₁ hs₁ hfunction
    cases c with
    | closure p b captured =>
      refine h.courseFrom h.refl hs₁ (operand a (by simp [Expr.operands]) hl₁) ?_ ?_
      · intro e m₂ ha
        refine Expr.settles_of_ok rfl hc ?_
        dsimp only
        rw [EvalM.bind_error ha]
        rfl
      · intro v m₂ hv hl₂ hs₂ hproper
        obtain ⟨hl₃, hs₃, hr₃⟩ := h.app hs₂ (h.proper_later hl₂ hfunction) hproper
        refine .last hl₃ hs₃ hr₃ (Expr.settles_of_ok rfl hc ?_)
        dsimp only
        rw [EvalM.bind_ok hv]
        rfl
    | _ => exact .done (Expr.settles_of_ok rfl hc rfl)
  | assign x a =>
    cases hx : env.find? x with
    | none =>
      have htasks : (Expr.assign x a).tasks n env m = [] := by simp only [Expr.tasks, hx]
      rw [htasks]
      refine .done (Or.inl ?_)
      simp only [Expr.eval, EvalM.locate, hx]
      rfl
    | some l =>
      by_cases hdata : (m.store.get l).isClosure = false
      · have htasks : (Expr.assign x a).tasks n env m = [⟨env, a, m⟩] := by simp [Expr.tasks, hx, hdata]
        rw [htasks]
        refine .last h.refl hs (operand a (by simp [Expr.operands]) h.refl) ?_
        unfold Expr.Settles
        rw [Expr.eval_assign hx hdata]
        cases ha : a.eval n env m with
        | error f m₁ =>
          rw [EvalM.bind_error ha]
          exact Or.inl rfl
        | ok v m₁ =>
          rw [EvalM.bind_ok ha]
          exact Or.inr ⟨x, a, l, v, rfl, hx, rfl⟩
      · have htasks : (Expr.assign x a).tasks n env m = [] := by simp [Expr.tasks, hx, hdata]
        rw [htasks]
        refine .done (Or.inl ?_)
        rw [Expr.eval_assign_function hx (by simpa using hdata)]
        rfl
  | seq a b =>
    refine h.courseFrom h.refl hs (operand a (by simp [Expr.operands]) h.refl) (fun _ _ => Expr.settles_of_error rfl) ?_
    intro v m₁ hv hl₁ hs₁ _
    exact .last h.refl hs₁ (operand b (by simp [Expr.operands]) hl₁) (Expr.settles_of_ok rfl hv rfl)
  | display a =>
    refine .last h.refl hs (operand a (by simp [Expr.operands]) h.refl) (Or.inl ?_)
    refine EvalM.store_bind m (fun v m' => ?_)
    rw [EvalM.store_bind m' (fun _ _ => rfl)]
    exact (EvalM.outward_display v).store_left m'
  | read => exact .done (Or.inl (EvalM.outward_readInteger.store_left m))
  | write a path =>
    refine .last h.refl hs (operand a (by simp [Expr.operands]) h.refl) (Or.inl ?_)
    exact EvalM.store_bind m (fun v m' => (EvalM.outward_write v path).store_left m')
  | run path => exact .done (Or.inl ((EvalM.outward_run path).store_left m))
  | stray v =>
    refine .done (Or.inl ?_)
    refine (EvalM.store_bind m (fun _ _ => rfl)).trans ?_
    exact (EvalM.outward_written _).store_left m

/-- A task leads from the machine that it begins in to the one that it leaves. -/
theorem Lawful.leads_left (h : D.Lawful) {t : Task} (hs : D.Sound t.machine) (hr : D.Ready t.machine t.env t.expr) :
    D.Leads t.machine (t.left n) := (h.eval n t.env t.expr t.machine hs hr).left.1

/-- Each task of a course begins later than the course, and is ready then. -/
theorem Lawful.course_task (h : D.Lawful) {m : Machine} {ts : List Task} (hc : D.Course n R m ts) :
    ∀ t ∈ ts, D.Leads m t.machine ∧ D.Sound t.machine ∧ D.Ready t.machine t.env t.expr := by
  induction hc with
  | done _ => simp
  | @step m t ts hl hs hr _ ih =>
    intro u hu
    rcases List.mem_cons.mp hu with rfl | hu
    · exact ⟨hl, hs, hr⟩
    · obtain ⟨hlater, hready⟩ := ih u hu
      exact ⟨h.trans hl (h.trans (h.leads_left hs hr) hlater), hready⟩

/-- Each task of a course begins after those before it have ended. -/
theorem Lawful.course_pairwise (h : D.Lawful) {m : Machine} {ts : List Task} (hc : D.Course n R m ts) :
    ts.Pairwise (fun t u => D.Leads (t.left n) u.machine) := by
  induction hc with
  | done _ => exact .nil
  | step _ _ _ hrest ih => exact .cons (fun u hu => (h.course_task hrest u hu).1) ih

/-- A course ends after each of its tasks. -/
theorem Lawful.course_end (h : D.Lawful) {m : Machine} {ts : List Task} (hc : D.Course n R m ts) :
    ∀ t ∈ ts, ∃ m₁, D.Leads (t.left n) m₁ ∧ R m₁ := by
  -- Also from where the course begins, for the tasks that are still to come.
  have general : (∃ m₁, D.Leads m m₁ ∧ R m₁) ∧ ∀ t ∈ ts, ∃ m₁, D.Leads (t.left n) m₁ ∧ R m₁ := by
    induction hc with
    | @done m hR => exact ⟨⟨m, h.refl, hR⟩, by simp⟩
    | @step m t ts hl hs hr _ ih =>
      obtain ⟨⟨m₁, hlater, hR⟩, ih⟩ := ih
      refine ⟨⟨m₁, h.trans hl (h.trans (h.leads_left hs hr) hlater), hR⟩, ?_⟩
      intro u hu
      rcases List.mem_cons.mp hu with rfl | hu
      · exact ⟨m₁, hlater, hR⟩
      · exact ih u hu
  exact general.2

/-- What every construct keeps holds at every moment of a run. -/
theorem Lawful.history (h : D.Lawful) (n : Nat) : ∀ (env : Env) (e : Expr) (m : Machine), D.Sound m → D.Ready m env e →
    ∀ x ∈ e.history n env m, D.Leads m x.machine ∧ D.Sound x.machine := by
  induction n with
  | zero =>
    intro env e m hs _ x hx
    rw [Expr.history, List.mem_singleton] at hx
    subst hx
    exact ⟨h.refl, hs⟩
  | succ n ih =>
    intro env e m hs hr x hx
    simp only [Expr.history, List.mem_cons, List.mem_append, List.mem_flatMap, List.not_mem_nil, or_false] at hx
    rcases hx with (rfl | ⟨t, ht, hx⟩) | rfl
    · exact ⟨h.refl, hs⟩
    · obtain ⟨hl, hs', hr'⟩ := h.course_task (h.course hs hr) t ht
      obtain ⟨hlater, hsound⟩ := ih t.env t.expr t.machine hs' hr' x hx
      exact ⟨h.trans hl hlater, hsound⟩
    · exact (h.eval (n + 1) env e m hs hr).left

/-- Every evaluation of a run is ready when it begins. -/
theorem Lawful.history_begins (h : D.Lawful) (n : Nat) : ∀ (env : Env) (e : Expr) (m : Machine), D.Sound m → D.Ready m env e →
    ∀ env₁ e₁ m₁, Moment.begins env₁ e₁ m₁ ∈ e.history n env m → D.Sound m₁ ∧ D.Ready m₁ env₁ e₁ := by
  induction n with
  | zero =>
    intro env e m _ _ env₁ e₁ m₁ hx
    simp [Expr.history] at hx
  | succ n ih =>
    intro env e m hs hr env₁ e₁ m₁ hx
    simp only [Expr.history, List.mem_cons, List.mem_append, List.mem_flatMap, List.not_mem_nil, or_false] at hx
    rcases hx with (hfirst | ⟨t, ht, hx⟩) | hlast
    · cases hfirst
      exact ⟨hs, hr⟩
    · obtain ⟨_, hs', hr'⟩ := h.course_task (h.course hs hr) t ht
      exact ih t.env t.expr t.machine hs' hr' env₁ e₁ m₁ hx
    · cases hlast

end Discipline

end TuneLang
