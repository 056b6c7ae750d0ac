import TuneLang.Proofs.Eval.Comparison

/-!
# Formulas

Expressions that apply the operators on tunes to literals. What such an expression comes to depends neither on the names in scope nor on
the store or the world, and its evaluation changes nothing (`Expr.Yields`, or `Expr.Refused` where an operator does not take its
operands). There is one rule for each operator, which says what the operator makes of a tune. Two formulas are laws of tunes when both
come to one tune (`Expr.Agree`).
-/

namespace TuneLang

/-- A tune as an expression. -/
abbrev Expr.tune (t : Tune) : Expr := .lit (.tune t)

/-- A number as an expression. -/
abbrev Expr.int (n : Int) : Expr := .lit (.int n)

/-- Whether an expression comes to a value in every environment and on every machine, without a change of the machine, when it may be
evaluated so many expressions deep. -/
def Expr.Yields (depth : Nat) (e : Expr) (v : Value) : Prop :=
  ∀ n, depth ≤ n → ∀ (env : Env) (m : Machine), e.eval n env m = .ok v m

/-- Whether an expression ends with a fault in every environment and on every machine, without a change of the machine, when it may be
evaluated so many expressions deep. -/
def Expr.Refused (depth : Nat) (e : Expr) (f : Fault) : Prop :=
  ∀ n, depth ≤ n → ∀ (env : Env) (m : Machine), e.eval n env m = .error f m

/-- Whether two expressions both come to one and the same tune. -/
def Expr.Agree (depth : Nat) (e e' : Expr) : Prop := ∃ t : Tune, e.Yields depth (.tune t) ∧ e'.Yields depth (.tune t)

theorem Expr.yields_lit (d : Nat) (v : Value) : (Expr.lit v).Yields (d + 1) v := by
  intro n hn env m
  obtain ⟨k, rfl⟩ := Nat.exists_eq_add_of_le' hn
  rfl

namespace Expr.Yields

variable {d : Nat} {e e' : Expr} {v w u : Value} {t t' : Tune}

/-- What an operator comes to on two values, whatever the store holds. -/
theorem applied {op : BinaryOp} {r : Except Fault Value} (h : e.Yields d v) (h' : e'.Yields d w)
    (happly : ∀ n s, op.apply n s v w = r) {n : Nat} (hn : d + 1 ≤ n) (env : Env) (m : Machine) :
    (Expr.binary op e e').eval n env m = EvalM.ofExcept r m := by
  obtain ⟨k, rfl⟩ := Nat.exists_eq_add_of_le' hn
  have hk : d ≤ k + d := Nat.le_add_left d k
  have heval := Expr.eval_binary op (h _ hk env m) (h' _ hk env m)
  rw [happly] at heval
  exact heval

theorem binary {op : BinaryOp} (h : e.Yields d v) (h' : e'.Yields d w) (happly : ∀ n s, op.apply n s v w = .ok u) :
    (Expr.binary op e e').Yields (d + 1) u :=
  fun _ hn env m => h.applied h' happly hn env m

theorem refused {op : BinaryOp} {f : Fault} (h : e.Yields d v) (h' : e'.Yields d w)
    (happly : ∀ n s, op.apply n s v w = .error f) : (Expr.binary op e e').Refused (d + 1) f :=
  fun _ hn env m => h.applied h' happly hn env m

theorem unary {op : UnaryOp} (h : e.Yields d v) (happly : op.apply v = .ok u) : (Expr.unary op e).Yields (d + 1) u := by
  intro n hn env m
  obtain ⟨k, rfl⟩ := Nat.exists_eq_add_of_le' hn
  have heval : (Expr.unary op e).eval (k + d + 1) env m = EvalM.ofExcept (op.apply v) m :=
    EvalM.bind_ok (h (k + d) (Nat.le_add_left d k) env m)
  rw [happly] at heval
  exact heval

/-! ## The operators on tunes -/

theorem added (h : e.Yields (d + 1) (.tune t)) (a : Int) : (Expr.binary .add e (.int a)).Yields (d + 2) (.tune (t.transpose a)) :=
  h.binary (yields_lit d _) fun _ _ => rfl

theorem subtracted (h : e.Yields (d + 1) (.tune t)) (a : Int) :
    (Expr.binary .sub e (.int a)).Yields (d + 2) (.tune (t.transpose (-a))) :=
  h.binary (yields_lit d _) fun _ _ => rfl

theorem multiplied (h : e.Yields (d + 1) (.tune t)) {a : Int} (ha : 0 < a) :
    (Expr.binary .mul e (.int a)).Yields (d + 2) (.tune (t.stretch a)) :=
  h.binary (yields_lit d _) fun _ _ => if_neg (Int.not_le.mpr ha)

theorem divided (h : e.Yields (d + 1) (.tune t)) {a : Int} (ha : 0 < a) :
    (Expr.binary .div e (.int a)).Yields (d + 2) (.tune (t.shrink a)) :=
  h.binary (yields_lit d _) fun _ _ => if_neg (Int.not_le.mpr ha)

theorem joined (h : e.Yields d (.tune t)) (h' : e'.Yields d (.tune t')) :
    (Expr.binary .join e e').Yields (d + 1) (.tune (t ++ t')) :=
  h.binary h' fun _ _ => rfl

theorem repeated (h : e.Yields (d + 1) (.tune t)) {k : Int} (hk : Operator.isCount k = true) :
    (Expr.binary .times (.int k) e).Yields (d + 2) (.tune (t.times k.toNat)) :=
  (yields_lit d _).binary h fun _ _ => if_pos hk

theorem reversed (h : e.Yields d (.tune t)) : (Expr.unary .reverse e).Yields (d + 1) (.tune t.reverse) := h.unary rfl

theorem sliced (h : e.Yields (d + 1) (.tune t)) (i j : Int) :
    (Expr.slice e (.int i) (.int j)).Yields (d + 2) (.tune (t.slice i j)) := by
  intro n hn env m
  obtain ⟨k, rfl⟩ := Nat.exists_eq_add_of_le' hn
  have hk : d + 1 ≤ k + (d + 1) := Nat.le_add_left _ k
  exact (EvalM.bind_ok (h _ hk env m)).trans ((EvalM.bind_ok (yields_lit d _ _ hk env m)).trans
    (EvalM.bind_ok (yields_lit d _ _ hk env m)))

end Expr.Yields

end TuneLang
