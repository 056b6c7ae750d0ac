import TuneLang.Proofs.Eval.Discipline

/-!
# Depth

The depth of an evaluation bounds it without taking part in it: an evaluation that is not given up at some depth ends in the same
way at every greater one (`Expr.eval_of_le`). So an evaluation either runs for ever, being given up at every depth, or has one
outcome, which all depths from some depth on agree on.
-/

namespace TuneLang

/-- Whether a step was given up because it went deeper than it may. -/
def EvalM.GivenUp {α : Type} : EStateM.Result Fault Machine α → Prop
  | .error .endless _ => True
  | _ => False

/-- A fault other than `endless` is an end. -/
theorem EvalM.givenUp_error {α : Type} {f : Fault} {m : Machine} :
    EvalM.GivenUp (.error f m : EStateM.Result Fault Machine α) ↔ f = .endless := by
  cases f <;> simp [EvalM.GivenUp]

/-- Whether the second step ends as the first one does, wherever that is not given up. -/
def EvalM.Steady {α : Type} (x y : EvalM α) : Prop := ∀ m, ¬ EvalM.GivenUp (x m) → y m = x m

namespace EvalM

variable {α β : Type}

theorem Steady.refl (x : EvalM α) : Steady x x := fun _ _ => rfl

/-- Steps one after the other are steady when each of them is. -/
theorem Steady.bind {x y : EvalM α} {f g : α → EvalM β} (hx : Steady x y) (hf : ∀ a, Steady (f a) (g a)) :
    Steady (x >>= f) (y >>= g) := by
  intro m hup
  cases h : x m with
  | error e m' =>
    rw [EvalM.bind_error h] at hup ⊢
    have hx' : ¬ GivenUp (x m) := by
      rw [givenUp_error] at hup
      rwa [h, givenUp_error]
    exact EvalM.bind_error ((hx m hx').trans h)
  | ok a m' =>
    rw [EvalM.bind_ok h] at hup ⊢
    rw [EvalM.bind_ok ((hx m (h ▸ not_false)).trans h)]
    exact hf a m' hup

/-- An operation on values is steady when its outcome stays the same unless it is given up. -/
theorem Steady.ofExcept {r r' : Except Fault α} (h : r ≠ .error .endless → r' = r) :
    Steady (EvalM.ofExcept r) (EvalM.ofExcept r') := by
  intro m hup
  rw [h]
  rintro rfl
  exact hup trivial

end EvalM

/-! ## Operators -/

/-- A value without the environment of a function. -/
def Value.bare : Value → Value
  | .closure p b _ => .closure p b []
  | v => v

/-- Whether values can be compared does not depend on the environments of functions. -/
theorem Value.comparable_bare (v w : Value) : v.comparable w = v.bare.comparable w.bare := by
  cases v <;> cases w <;> rfl

theorem UnaryOp.apply_bare (op : UnaryOp) (v : Value) : op.apply v = op.apply v.bare := by
  cases op <;> cases v <;> rfl

theorem Value.slice_bare (t i j : Value) : t.slice i j = t.bare.slice i.bare j.bare := by
  cases t <;> cases i <;> cases j <;> rfl

/-- The operators other than the two comparisons for equality look at neither the store nor the environments of functions. -/
theorem BinaryOp.apply_bare {op : BinaryOp} (heq : op ≠ .eq) (hne : op ≠ .ne) (n : Nat) (s : Store) (v w : Value) :
    op.apply n s v w = op.apply 0 .empty v.bare w.bare := by
  cases op with
  | eq => exact absurd rfl heq
  | ne => exact absurd rfl hne
  | _ => cases v <;> cases w <;> rfl

/-- Environments that agree or disagree do so when what they hold is compared further. -/
theorem Env.agree?_deeper {same same' : Value → Value → Option Bool} {s : Store}
    (h : ∀ v w answer, same v w = some answer → same' v w = some answer) (env env' : Env) {answer : Bool}
    (ha : Env.agree? same s env env' = some answer) : Env.agree? same' s env env' = some answer := by
  fun_induction Env.agree? same s env env' with
  | case1 => exact ha
  | case2 x l env env' ih =>
    rw [Env.agree?, if_pos rfl, if_pos rfl]
    exact ih ha
  | case3 x l env l' env' hl heq ih =>
    rw [Env.agree?, if_pos rfl, if_neg hl, h _ _ _ heq]
    exact ih ha
  | case4 x l env l' env' hl hne =>
    rw [Env.agree?, if_pos rfl, if_neg hl, h _ _ _ ha]
    cases answer with
    | true => exact absurd ha hne
    | false => rfl
  | case5 x l env x' l' env' hx =>
    rw [Env.agree?, if_neg hx]
    exact ha
  | case6 env env' hnil hcons =>
    rw [Env.agree?]
    · exact ha
    · exact hnil
    · exact hcons

/-- A comparison that has an answer has it at the next depth. -/
theorem Value.same?_deeper (s : Store) (n : Nat) : ∀ v w answer,
    Value.same? s n v w = some answer → Value.same? s (n + 1) v w = some answer := by
  induction n with
  | zero =>
    intro v w answer h
    cases h
  | succ n ih =>
    intro v w answer h
    cases v with
    | closure p b env =>
      cases w with
      | closure p' b' env' =>
        rw [Value.same?] at h ⊢
        split at h
        · rename_i hpb
          rw [if_pos hpb]
          exact Env.agree?_deeper ih env env' h
        · rename_i hpb
          rw [if_neg hpb]
          exact h
      | _ => exact h
    | _ => exact h

theorem Operator.compare_deeper (n : Nat) (s : Store) (v w : Value) (wanted : Bool)
    (h : Operator.compare n s v w wanted ≠ .error .endless) :
    Operator.compare (n + 1) s v w wanted = Operator.compare n s v w wanted := by
  unfold Operator.compare at h ⊢
  split
  · rename_i hc
    rw [if_pos hc] at h
    cases hs : Value.same? s n v w with
    | none =>
      rw [hs] at h
      exact absurd rfl h
    | some answer => rw [Value.same?_deeper s n v w answer hs]
  · rfl

/-- An operator that is not given up has the same outcome at the next depth. -/
theorem BinaryOp.apply_deeper (op : BinaryOp) (n : Nat) (s : Store) (v w : Value) (h : op.apply n s v w ≠ .error .endless) :
    op.apply (n + 1) s v w = op.apply n s v w := by
  cases op with
  | eq => exact Operator.compare_deeper n s v w true h
  | ne => exact Operator.compare_deeper n s v w false h
  | _ => exact (BinaryOp.apply_bare (by simp) (by simp) _ s v w).trans (BinaryOp.apply_bare (by simp) (by simp) n s v w).symm

/-! ## Evaluations -/

open EvalM in
/-- An evaluation that is not given up ends alike at the next depth. -/
theorem Expr.eval_steady (n : Nat) : ∀ (env : Env) (e : Expr), Steady (e.eval n env) (e.eval (n + 1) env) := by
  induction n with
  | zero =>
    intro env e m hup
    exact absurd trivial hup
  | succ n ih =>
    intro env e
    cases e with
    | binary op l r =>
      simp only [Expr.eval]
      refine (ih env l).bind (fun v => (ih env r).bind (fun w => (Steady.refl get).bind (fun m => ?_)))
      exact Steady.ofExcept (op.apply_deeper n m.store v w)
    | logic op l r =>
      simp only [Expr.eval]
      refine (ih env l).bind (fun v => ?_)
      cases v with
      | bool b =>
        by_cases hb : b = op.settling
        · simp only [if_pos hb]
          exact Steady.refl _
        · simp only [if_neg hb]
          exact (ih env r).bind (fun w => Steady.refl _)
      | _ => exact Steady.refl _
    | unary op a =>
      simp only [Expr.eval]
      exact (ih env a).bind (fun v => Steady.refl _)
    | slice t i j =>
      simp only [Expr.eval]
      exact (ih env t).bind (fun u => (ih env i).bind (fun v => (ih env j).bind (fun w => Steady.refl _)))
    | cond c t e =>
      simp only [Expr.eval]
      refine (ih env c).bind (fun v => ?_)
      split
      · exact ih env t
      · exact ih env e
      · exact Steady.refl _
    | letIn x d b =>
      simp only [Expr.eval]
      exact (ih env d).bind (fun v => (Steady.refl _).bind (fun l => ih _ b))
    | letFun f p b i =>
      simp only [Expr.eval]
      exact (Steady.refl get).bind (fun m => (Steady.refl _).bind (fun _ => ih _ i))
    | app f a =>
      simp only [Expr.eval]
      refine (ih env f).bind (fun v => ?_)
      cases v with
      | closure p b captured => exact (ih env a).bind (fun w => (Steady.refl _).bind (fun l => ih _ b))
      | _ => exact Steady.refl _
    | assign x a =>
      simp only [Expr.eval]
      refine (Steady.refl _).bind (fun l => (Steady.refl _).bind (fun v => ?_))
      cases v with
      | closure p b captured => exact Steady.refl _
      | _ => exact (ih env a).bind (fun w => Steady.refl _)
    | seq a b =>
      simp only [Expr.eval]
      exact (ih env a).bind (fun _ => ih env b)
    | display a =>
      simp only [Expr.eval]
      exact (ih env a).bind (fun v => Steady.refl _)
    | write a path =>
      simp only [Expr.eval]
      exact (ih env a).bind (fun v => Steady.refl _)
    | _ => exact Steady.refl _

/-- An evaluation that is not given up at some depth ends alike at every greater depth. -/
theorem Expr.eval_of_le {e : Expr} {env : Env} {m : Machine} {k n : Nat} (hup : ¬ EvalM.GivenUp (e.eval k env m)) (hk : k ≤ n) :
    e.eval n env m = e.eval k env m := by
  induction hk with
  | refl => rfl
  | step _ ih => rw [Expr.eval_steady _ env e m (ih ▸ hup), ih]

/-- Whether an evaluation is given up at every depth. -/
def Expr.RunsForever (e : Expr) (env : Env) (m : Machine) : Prop := ∀ n, EvalM.GivenUp (e.eval n env m)

/-- Whether an evaluation ends with an outcome, which is the same at every depth that is great enough. -/
def Expr.EndsWith (e : Expr) (env : Env) (m : Machine) (r : EStateM.Result Fault Machine Value) : Prop :=
  ¬ EvalM.GivenUp r ∧ ∃ k, ∀ n, k ≤ n → e.eval n env m = r

/-- An evaluation that is not given up at some depth ends with what it comes to there. -/
theorem Expr.endsWith_of_not_givenUp {e : Expr} {env : Env} {m : Machine} {r : EStateM.Result Fault Machine Value} {k : Nat}
    (hr : e.eval k env m = r) (hup : ¬ EvalM.GivenUp r) : e.EndsWith env m r := by
  subst hr
  exact ⟨hup, k, fun n hk => Expr.eval_of_le hup hk⟩

end TuneLang
