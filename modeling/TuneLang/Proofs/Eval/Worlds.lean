import TuneLang.Proofs.Eval.Chain

/-!
# Evaluations and the world

An evaluation meets the world in its exchanges only. So how it leaves the world follows from how each exchange does
(`Expr.world_left`). And when the world is changed beforehand, in a way that every exchange of the evaluation carries along, the
evaluation does what it would have done otherwise, and leaves the world that it would have left, changed in the same way
(`Expr.eval_follows`).
-/

namespace TuneLang

/-- What every exchange does to the world, an evaluation does, however it ends. -/
theorem Expr.world_left {R : World → World → Prop} (hrefl : ∀ w, R w w) (htrans : ∀ {w w' w''}, R w w' → R w' w'' → R w w'')
    (hexchange : ∀ (e : Expr) (v : Value) (m : Machine), R m.world (EvalM.left (e.exchange v m)).world) (n : Nat) :
    ∀ (env : Env) (e : Expr) (m : Machine), R m.world (EvalM.left (e.eval n env m)).world := by
  induction n with
  | zero =>
    intro env e m
    exact hrefl m.world
  | succ n ih =>
    intro env e m
    obtain ⟨_, r, hconcludes, hlast⟩ := (e.chain n env m).carry (I := fun r => R m.world (EvalM.left r).world) (hrefl m.world) (by
      intro t _ v m₁ hbefore hstart
      have htask : R t.machine.world (EvalM.left (t.result n)).world := ih t.env t.expr t.machine
      have hworld : t.machine.world = m₁.world := by
        rcases hstart with hsame | hpush
        · rw [hsame]
        · rw [hpush, Machine.push]
      rw [hworld] at htask
      exact htrans hbefore htask)
    cases r with
    | error f m₁ =>
      rw [show e.eval (n + 1) env m = .error f m₁ from hconcludes]
      exact hlast
    | ok v m₁ =>
      rw [hconcludes.world]
      exact htrans hlast (hexchange e v m₁)

/-! ## Changes of the world -/

/-- A machine with its world changed. -/
def Machine.moved (f : World → World) (m : Machine) : Machine := { m with world := f m.world }

/-- What a step ends with, with the world changed. -/
def EvalM.moved {α : Type} (f : World → World) : EStateM.Result Fault Machine α → EStateM.Result Fault Machine α
  | .ok a m => .ok a (m.moved f)
  | .error e m => .error e (m.moved f)

/-- Whether a step carries a change of the world along: from the changed machine it ends as it does from the machine itself, with the
world changed. -/
def EvalM.Follows {α : Type} (f : World → World) (x : EvalM α) (m : Machine) : Prop := x (m.moved f) = EvalM.moved f (x m)

/-- Whether an expression that is evaluated from `m` carries a change of the world along in what it exchanges itself. Where its last
task ends is left open, but a question is asked where it begins. -/
def Expr.Carries (f : World → World) (m : Machine) : Expr → Prop
  | .display _ => ∀ v m₁, EvalM.Follows f (EvalM.display v) m₁
  | .read => EvalM.Follows f EvalM.readInteger m
  | .write _ path => ∀ v m₁, EvalM.Follows f (EvalM.write v path) m₁
  | .run path => EvalM.Follows f (EvalM.run path) m
  | _ => True

namespace EvalM

variable {α β : Type} {f : World → World}

/-- Steps one after the other carry a change along when each of them does. -/
theorem Follows.bind {x : EvalM α} {k : α → EvalM β} {m : Machine} (hx : Follows f x m)
    (hk : ∀ a m₁, x m = .ok a m₁ → Follows f (k a) m₁) : Follows f (x >>= k) m := by
  unfold Follows at hx ⊢
  cases h : x m with
  | error e m₁ =>
    rw [h] at hx
    rw [EvalM.bind_error h, EvalM.bind_error hx]
    rfl
  | ok a m₁ =>
    rw [h] at hx
    rw [EvalM.bind_ok h, EvalM.bind_ok hx]
    exact hk a m₁ h

/-- A step that leaves the machine as it is, whatever the machine, carries every change along. -/
theorem follows_ofExcept (r : Except Fault α) (m : Machine) : Follows f (EvalM.ofExcept r) m := by
  cases r <;> rfl

/-- A change of the world carries along what commutes with it. -/
theorem follows_onWorld {change : World → α × World} {m : Machine}
    (h : change (f m.world) = ((change m.world).1, f (change m.world).2)) : Follows f (EvalM.onWorld change) m := by
  show EvalM.onWorld change (m.moved f) = _
  rw [EvalM.onWorld_eq h]
  rfl

theorem follows_written (text : Option String) (m : Machine) : Follows f (EvalM.written text) m := by
  cases text <;> rfl

end EvalM

open EvalM in
/-- An evaluation carries a change of the world along when everything that is evaluated on the way does. -/
theorem Expr.eval_follows {f : World → World} (n : Nat) : ∀ (env : Env) (e : Expr) (m : Machine),
    (∀ env₁ e₁ m₁, Moment.begins env₁ e₁ m₁ ∈ e.history n env m → e₁.Carries f m₁) → Follows f (e.eval n env) m := by
  induction n with
  | zero =>
    intro env e m _
    rfl
  | succ n ih =>
    intro env e m h
    have hself : e.Carries f m := h env e m (e.begins_mem_history n env m)
    have task : ∀ {env' a m₁}, ⟨env', a, m₁⟩ ∈ e.tasks n env m → Follows f (a.eval n env') m₁ :=
      fun ht => ih _ _ _ (fun env₁ e₁ m₁ hx => h env₁ e₁ m₁ (Expr.mem_history_of_task ht hx))
    cases e with
    | lit | note => rfl
    | binary op l r =>
      refine (task (by simp [Expr.tasks])).bind ?_
      intro v m₁ hv
      refine (task (by simp [Expr.tasks, Task.after, hv])).bind ?_
      intro w m₂ _
      exact follows_ofExcept (op.apply n m₂.store v w) m₂
    | logic op l r =>
      refine (task (by simp [Expr.tasks])).bind ?_
      intro v m₁ hv
      cases v with
      | bool b =>
        by_cases hb : b = op.settling
        · simp only [if_pos hb]
          rfl
        · have hright : (Value.bool b) = .bool (!op.settling) := by
            cases b <;> cases hop : op.settling <;> simp_all
          simp only [if_neg hb]
          refine (task (by simp [Expr.tasks, Task.after, hv, hright])).bind ?_
          intro w m₂ _
          cases w <;> rfl
      | _ => rfl
    | unary op a =>
      refine (task (by simp [Expr.tasks])).bind ?_
      intro v m₁ _
      exact follows_ofExcept (op.apply v) m₁
    | slice t i j =>
      refine (task (by simp [Expr.tasks])).bind ?_
      intro u m₁ hu
      refine (task (by simp [Expr.tasks, Task.after, hu])).bind ?_
      intro v m₂ hv
      refine (task (by simp [Expr.tasks, Task.after, hu, hv])).bind ?_
      intro w m₃ _
      exact follows_ofExcept (u.slice v w) m₃
    | cond c t e =>
      refine (task (by simp [Expr.tasks])).bind ?_
      intro v m₁ hv
      cases v with
      | bool b =>
        cases b with
        | true => exact task (by simp [Expr.tasks, Task.after, hv])
        | false => exact task (by simp [Expr.tasks, Task.after, hv])
      | _ => rfl
    | name x =>
      simp only [Expr.eval, EvalM.locate]
      cases env.find? x <;> rfl
    | letIn x d b =>
      refine (task (by simp [Expr.tasks])).bind ?_
      intro v m₁ hv
      have hbody : Follows f (b.eval n ((x, m₁.store.next) :: env)) (m₁.push v) := task (by simp [Expr.tasks, Task.after, hv])
      exact hbody
    | letFun g p b i =>
      have hscope : Follows f (i.eval n ((g, m.store.next) :: env)) (m.push (.closure p b ((g, m.store.next) :: env))) :=
        task (by simp [Expr.tasks])
      exact hscope
    | app g a =>
      refine (task (by simp [Expr.tasks])).bind ?_
      intro c m₁ hc
      cases c with
      | closure p b captured =>
        refine (task (by simp [Expr.tasks, Task.after, hc])).bind ?_
        intro v m₂ hv
        have hbody : Follows f (b.eval n ((p, m₂.store.next) :: captured)) (m₂.push v) :=
          task (by simp [Expr.tasks, Task.after, hc, hv])
        exact hbody
      | _ => rfl
    | assign x a =>
      cases hx : env.find? x with
      | none =>
        simp only [Expr.eval, EvalM.locate, hx]
        rfl
      | some l =>
        unfold Follows
        by_cases hdata : (m.store.get l).isClosure = false
        · rw [Expr.eval_assign hx hdata, Expr.eval_assign (m := m.moved f) hx hdata]
          exact (task (by simp [Expr.tasks, hx, hdata])).bind (fun v m₁ _ => rfl)
        · have hfunction : (m.store.get l).isClosure = true := by simpa using hdata
          rw [Expr.eval_assign_function hx hfunction, Expr.eval_assign_function (m := m.moved f) hx hfunction]
          rfl
    | seq a b =>
      refine (task (by simp [Expr.tasks])).bind ?_
      intro v m₁ hv
      exact task (by simp [Expr.tasks, Task.after, hv])
    | display a =>
      refine (task (by simp [Expr.tasks])).bind ?_
      intro v m₁ _
      exact (hself v m₁).bind (fun _ _ _ => rfl)
    | read => exact hself
    | write a path =>
      refine (task (by simp [Expr.tasks])).bind ?_
      intro v m₁ _
      exact hself v m₁
    | run path => exact hself
    | stray v => exact (follows_written v.text? m).bind (fun _ _ _ => rfl)

end TuneLang
