import TuneLang.Proofs.Eval.Discipline

/-!
# Equality of numbers, truth values and tunes

Two numbers, two truth values or two tunes are equal when they are the same, which for tunes is to have the same notes in the same
order. One comparison asks whether they are and the other whether they are not, and one would have the answer that the other has not.
It is so for numbers, for truth values and for tunes of one length. But both comparisons are false of what cannot be compared, and
tunes of different lengths are taken for that: they are neither equal nor unequal (`Expr.equality`).
-/

namespace TuneLang

/-- Whether two values are two numbers, two truth values or two tunes. -/
inductive Value.Paired : Value → Value → Prop where
  | ints (a b : Int) : Value.Paired (.int a) (.int b)
  | bools (a b : Bool) : Value.Paired (.bool a) (.bool b)
  | tunes (t u : Tune) : Value.Paired (.tune t) (.tune u)

/-- Whether tunes have equally many notes, and notes of the same pitch and the same duration wherever both have one. -/
def Tune.Equal (t u : Tune) : Prop :=
  t.length = u.length ∧ ∀ (i : Nat) (a b : Note), t[i]? = some a → u[i]? = some b → a.pitch = b.pitch ∧ a.duration = b.duration

/-- Whether two values are equal as numbers, as truth values or as tunes. -/
def Value.Equal : Value → Value → Prop
  | .int a, .int b => a = b
  | .bool a, .bool b => a = b
  | .tune t, .tune u => t.Equal u
  | _, _ => False

/-- Whether two values are tunes of different lengths. -/
def Value.Uneven : Value → Value → Prop
  | .tune t, .tune u => t.length ≠ u.length
  | _, _ => False

/-! ## What is compared -/

/-- Notes of the same pitch and the same duration are the same. -/
theorem Note.eq_of_parts {a b : Note} (hpitch : a.pitch = b.pitch) (hduration : a.duration = b.duration) : a = b := by
  cases a
  cases b
  cases hpitch
  cases hduration
  rfl

/-- Tunes that agree note by note are the same. -/
theorem Tune.equal_iff (t u : Tune) : t.Equal u ↔ t = u := by
  constructor
  · rintro ⟨hlength, hnotes⟩
    refine List.ext_getElem hlength (fun i ht hu => ?_)
    obtain ⟨hpitch, hduration⟩ := hnotes i t[i] u[i] (List.getElem?_eq_getElem ht) (List.getElem?_eq_getElem hu)
    exact Note.eq_of_parts hpitch hduration
  · rintro rfl
    refine ⟨rfl, fun i a b ha hb => ?_⟩
    obtain rfl : a = b := Option.some.inj (ha.symm.trans hb)
    exact ⟨rfl, rfl⟩

/-- The values of a pair are equal when they are alike. -/
theorem Value.Paired.equal_iff {v w : Value} (h : v.Paired w) : v.Equal w ↔ v.alike w = true := by
  cases h with
  | ints a b => exact beq_iff_eq.symm
  | bools a b => exact beq_iff_eq.symm
  | tunes t u => exact (Tune.equal_iff t u).trans beq_iff_eq.symm

/-- The values of a pair can be compared unless they are tunes of different lengths. -/
theorem Value.Paired.comparable_iff {v w : Value} (h : v.Paired w) : v.comparable w = true ↔ ¬ v.Uneven w := by
  cases h with
  | ints a b => exact iff_of_true rfl id
  | bools a b => exact iff_of_true rfl id
  | tunes t u => exact beq_iff_eq.trans Classical.not_not.symm

/-- Values that are equal can be compared. -/
theorem Value.Paired.comparable_of_equal {v w : Value} (h : v.Paired w) (heq : v.Equal w) : v.comparable w = true := by
  refine h.comparable_iff.mpr (fun huneven => ?_)
  cases h with
  | ints a b => exact huneven
  | bools a b => exact huneven
  | tunes t u => exact huneven heq.1

/-- The answer of either comparison on a pair: the wanted one, if they can be compared. -/
theorem Value.Paired.compare {v w : Value} (h : v.Paired w) (n : Nat) (s : Store) (wanted : Bool) :
    Operator.compare (n + 1) s v w wanted = .ok (.bool (v.comparable w && (v.alike w == wanted))) := by
  have hsame : Value.same? s (n + 1) v w = some (v.alike w) := by
    cases h <;> rfl
  rw [Operator.compare, hsame]
  cases v.comparable w <;> rfl

/-- An operator is applied to what its operands come to. -/
theorem Expr.eval_binary {l r : Expr} {v w : Value} {env : Env} {n : Nat} {m m₁ m₂ : Machine} (op : BinaryOp)
    (hl : l.eval n env m = .ok v m₁) (hr : r.eval n env m₁ = .ok w m₂) :
    (Expr.binary op l r).eval (n + 1) env m = EvalM.ofExcept (op.apply n m₂.store v w) m₂ :=
  (EvalM.bind_ok hl).trans (EvalM.bind_ok hr)

/-- Equality and inequality. Two operands come to two numbers, two truth values or two tunes, one after the other. Then both comparisons
have an answer and change nothing. That of equality is whether the values are equal; that of inequality is its negation exactly when
they are not tunes of different lengths. -/
theorem Expr.equality {l r : Expr} {v w : Value} {env : Env} {n : Nat} {m m₁ m₂ : Machine} (hl : l.eval n env m = .ok v m₁)
    (hr : r.eval n env m₁ = .ok w m₂) (h : v.Paired w) :
    ∃ equal unequal : Bool, (Expr.binary .eq l r).eval (n + 1) env m = .ok (.bool equal) m₂ ∧
      (Expr.binary .ne l r).eval (n + 1) env m = .ok (.bool unequal) m₂ ∧
      (equal = true ↔ v.Equal w) ∧ ((unequal = !equal) ↔ ¬ v.Uneven w) := by
  cases n with
  | zero => cases hl
  | succ n =>
    have hcompared (wanted : Bool) := h.compare n m₂.store wanted
    refine ⟨v.comparable w && (v.alike w == true), v.comparable w && (v.alike w == false), ?_, ?_, ?_, ?_⟩
    · rw [Expr.eval_binary .eq hl hr, BinaryOp.apply, hcompared]
      rfl
    · rw [Expr.eval_binary .ne hl hr, BinaryOp.apply, hcompared]
      rfl
    · rw [beq_true, Bool.and_eq_true, ← h.equal_iff]
      exact ⟨fun hboth => hboth.2, fun heq => ⟨h.comparable_of_equal heq, heq⟩⟩
    · rw [← h.comparable_iff]
      cases v.comparable w <;> cases v.alike w <;> decide

/-- A tune and the same tune with one more note are neither equal nor unequal. -/
theorem Expr.equality_prolonged :
    Value.Paired (.tune [⟨"A", 1⟩]) (.tune [⟨"A", 1⟩, ⟨"B", 2⟩]) ∧
      ∃ equal unequal : Bool,
        (Expr.binary .eq (.lit (.tune [⟨"A", 1⟩])) (.lit (.tune [⟨"A", 1⟩, ⟨"B", 2⟩]))).eval 2 [] ⟨.empty, {}⟩ =
          .ok (.bool equal) ⟨.empty, {}⟩ ∧
        (Expr.binary .ne (.lit (.tune [⟨"A", 1⟩])) (.lit (.tune [⟨"A", 1⟩, ⟨"B", 2⟩]))).eval 2 [] ⟨.empty, {}⟩ =
          .ok (.bool unequal) ⟨.empty, {}⟩ ∧
        equal = false ∧ unequal = false := by
  have hpaired : Value.Paired (.tune [⟨"A", 1⟩]) (.tune [⟨"A", 1⟩, ⟨"B", 2⟩]) := .tunes _ _
  have huneven : Value.Uneven (.tune [⟨"A", 1⟩]) (.tune [⟨"A", 1⟩, ⟨"B", 2⟩]) := by
    show 1 ≠ 2
    decide
  obtain ⟨equal, unequal, heq, hne, hequal, hnegation⟩ := @Expr.equality (.lit (.tune [⟨"A", 1⟩]))
    (.lit (.tune [⟨"A", 1⟩, ⟨"B", 2⟩])) _ _ [] 1 ⟨.empty, {}⟩ _ _ rfl rfl hpaired
  have hfalse : equal = false := by
    rw [← Bool.not_eq_true, hequal]
    exact fun h => huneven h.1
  refine ⟨hpaired, equal, unequal, heq, hne, hfalse, ?_⟩
  subst hfalse
  rw [← Bool.not_eq_true]
  exact fun htrue => hnegation.mp htrue huneven

end TuneLang
