import TuneLang.Proofs.Eval.Kinds

/-!
# How programs end

A program that was read from a source ends with an integer, a truth value, a tune or a function, or with a fault that the program and
its run explain (`Expr.outcomes`): a name without a binding stands in the program, a failed exchange belongs to a construct of the
program, and the two limits on numbers are met only by numbers beyond them.

A fault has a cause among the moments of its run (`Expr.exists_cause`), and what begins at a moment is a part of the program. What is
left to see is that nothing is too long to be shown but an integer or the duration of a note: the body of a function was read, so
its numerals are short.
-/

namespace TuneLang

/-- Whether a value is an integer with too many digits to be written, or a tune with such a duration in it. -/
def Value.TooLong : Value → Prop
  | .int k => Numeral.bound ≤ k.natAbs
  | .tune t => ∃ n ∈ t, Numeral.bound ≤ n.duration.natAbs
  | _ => False

/-- Whether a program and the moments of its run explain a fault. A misuse is that of an operator. A name without a binding is used
or assigned to in the program. An exchange that fails, and an interruption, belong to a construct of the program. A count of
repetitions that is refused was evaluated at a moment of the run and lies outside the signed integers of 64 bits; a value that cannot
be shown was evaluated at a moment of the run and is too long. -/
def Expr.Explains (e : Expr) (moments : List Moment) : Fault → Prop
  | .misuse (.notExpression _) => False
  | .misuse _ => True
  | .unbound x => .name x ∈ e.parts ∨ ∃ a, .assign x a ∈ e.parts
  | .exchange .integerExpected | .interrupted => .read ∈ e.parts
  | .exchange .tuneExpected | .exchange (.notWritten _) => ∃ a path, .write a path ∈ e.parts
  | .exchange (.notPlayed _) => ∃ path, .run path ∈ e.parts
  | .countTooLarge => ∃ a b env m, .binary .times a b ∈ e.parts ∧ .begins env (.binary .times a b) m ∈ moments ∧
      ∃ n k m₁, a.eval n env m = .ok (.int k) m₁ ∧ (k < -9223372036854775808 ∨ 9223372036854775807 < k)
  | .numeralTooLong => ∃ a env m, .display a ∈ e.parts ∧ .begins env (.display a) m ∈ moments ∧
      ∃ n v m₁, a.eval n env m = .ok v m₁ ∧ v.TooLong
  | .endless => False

/-! ## Values that cannot be shown -/

/-- An integer that cannot be written is too long. -/
theorem Numeral.bound_le_of_write? {n : Int} (h : Numeral.write? n = none) : Numeral.bound ≤ n.natAbs := by
  refine Nat.le_of_not_lt (fun hlt => ?_)
  obtain ⟨s, hs⟩ := Numeral.exists_write? hlt
  rw [h] at hs
  cases hs

/-- A tune that cannot be listed has a duration that is too long. -/
theorem Tune.tooLong_of_listing? {t : Tune} (h : Tune.listing? t = none) : (Value.tune t).TooLong := by
  have hnotes : t.mapM Note.labelled? = none := by
    cases hlabels : t.mapM Note.labelled? with
    | none => rfl
    | some labels =>
      rw [Tune.listing?, hlabels] at h
      cases h
  clear h
  induction t with
  | nil => cases hnotes
  | cons n t ih =>
    cases hn : Numeral.write? n.duration with
    | none => exact ⟨n, List.mem_cons_self, Numeral.bound_le_of_write? hn⟩
    | some s =>
      have hrest : t.mapM Note.labelled? = none := by
        cases hlabels : t.mapM Note.labelled? with
        | none => rfl
        | some labels =>
          rw [List.mapM_cons, Note.labelled?, hn, hlabels] at hnotes
          cases hnotes
      obtain ⟨u, hu, hlong⟩ := ih hrest
      exact ⟨u, List.mem_cons_of_mem _ hu, hlong⟩

/-- A value of a legible program that cannot be shown is too long: functions can always be shown. -/
theorem Value.tooLong_of_shown? {program : Expr} {N : Note → Prop} {s : Store} {v : Value} (hprogram : program.Legible)
    (hv : v.Native program N s) (h : v.shown? = none) : v.TooLong := by
  cases v with
  | int k =>
    simp only [Value.shown?, Value.text?] at h
    exact Numeral.bound_le_of_write? h
  | tune t => exact Tune.tooLong_of_listing? h
  | bool b =>
    simp only [Value.shown?, Value.text?] at h
    cases h
  | closure p b env =>
    obtain ⟨text, htext⟩ := (hprogram.part hv.1).exists_text?
    simp only [Value.shown?, Value.text?, htext] at h
    cases h
  | nothing | text => exact hv.elim

/-- A number that cannot count lies outside the signed integers of 64 bits. -/
theorem Operator.outside_of_isCount {k : Int} (h : Operator.isCount k = false) :
    k < -9223372036854775808 ∨ 9223372036854775807 < k := by
  simp only [Operator.isCount, Bool.and_eq_false_iff, decide_eq_false_iff_not] at h
  omega

/-! ## Programs -/

/-- The cause of a fault explains it, when what begins at the moment of the cause is a part of the program. -/
theorem Expr.explains_of_causes {program e : Expr} {k : Nat} {env : Env} {m : Machine} {f : Fault} {moments : List Moment}
    (hprogram : program.Legible) (hmoment : Moment.begins env e m ∈ moments)
    (hs : (Native.discipline program fun _ => True).Sound m) (hr : (Native.discipline program fun _ => True).Ready m env e)
    (hend : f ≠ .endless) (h : e.Causes k env m f) : program.Explains moments f := by
  have hpart := hr.1
  cases f with
  | misuse u =>
    cases u with
    | notExpression =>
      obtain ⟨v, rfl⟩ := h
      exact hprogram _ hpart
    | _ => trivial
  | unbound x =>
    rcases h with rfl | ⟨a, rfl⟩
    · exact Or.inl hpart
    · exact Or.inr ⟨a, hpart⟩
  | exchange failure =>
    cases failure with
    | integerExpected =>
      cases h
      exact hpart
    | tuneExpected | notWritten =>
      obtain ⟨a, path, rfl⟩ := h
      exact ⟨a, path, hpart⟩
    | notPlayed =>
      obtain ⟨path, rfl⟩ := h
      exact ⟨path, hpart⟩
  | interrupted =>
    cases h
    exact hpart
  | numeralTooLong =>
    rcases h with ⟨v, rfl⟩ | ⟨a, v, m₁, rfl, hv, hshown⟩
    · exact (hprogram _ hpart).elim
    · have hlawful := Native.lawful hprogram (Note.kept_true program)
      have hends := hlawful.eval k env a m hs (hlawful.operand hr (by simp [Expr.operands]))
      rw [hv] at hends
      exact ⟨a, env, m, hpart, hmoment, k, v, m₁, hv, Value.tooLong_of_shown? hprogram hends.2.2 hshown⟩
  | countTooLarge =>
    obtain ⟨a, b, i, m₁, rfl, hi, hcount⟩ := h
    exact ⟨a, b, env, m, hpart, hmoment, k, i, m₁, hi, Operator.outside_of_isCount hcount⟩
  | endless => exact hend rfl

/-- Outcomes. However deep an evaluation may go, and whatever world it begins in: a value that a program from a source ends with is an
integer, a truth value, a tune, or a function whose body is a part of the program; and a fault that it ends with, other than being
given up, is explained by the program and by the moments of its run. -/
theorem Expr.outcomes {e : Expr} (he : e.Parsed) (n : Nat) (w : World) :
    (∀ v m, e.evalClosed n w = .ok v m →
      (∃ k, v = .int k) ∨ (∃ b, v = .bool b) ∨ (∃ t, v = .tune t) ∨ ∃ p b env, v = .closure p b env ∧ b ∈ e.parts) ∧
    ∀ f m, e.evalClosed n w = .error f m → f ≠ .endless → e.Explains (e.history n [] ⟨.empty, w⟩) f := by
  have hlawful := Native.lawful he.legible (Note.kept_true e)
  obtain ⟨hs, hr⟩ := Native.ready e (fun _ => True) w
  constructor
  · intro v m hend
    have hv := hlawful.eval n [] e ⟨.empty, w⟩ hs hr
    rw [show e.eval n [] ⟨.empty, w⟩ = .ok v m from hend] at hv
    have hnative := hv.2.2
    cases v with
    | int k => exact Or.inl ⟨k, rfl⟩
    | bool b => exact Or.inr (Or.inl ⟨b, rfl⟩)
    | tune t => exact Or.inr (Or.inr (Or.inl ⟨t, rfl⟩))
    | closure p b env => exact Or.inr (Or.inr (Or.inr ⟨p, b, env, rfl, hnative.1⟩))
    | nothing | text => exact hnative.elim
  · intro f m hfault hend
    obtain ⟨k, env₁, e₁, m₁, hmoment, hcause⟩ := Expr.exists_cause n [] e ⟨.empty, w⟩ f m hfault hend
    obtain ⟨hs₁, hr₁⟩ := hlawful.history_begins n [] e ⟨.empty, w⟩ hs hr env₁ e₁ m₁ hmoment
    exact Expr.explains_of_causes he.legible hmoment hs₁ hr₁ hend hcause

/-- A function that repeats a note, applied to the least number that is too large a count. -/
def Expr.excess : Expr :=
  .letFun "f" "n" (.binary .times (.name "n") (.note "A" 1)) (.app (.name "f") (.lit (.int 9223372036854775808)))

/-- The count is refused inside the function, and the run explains it. -/
theorem Expr.outcomes_excess :
    Expr.excess.Parsed ∧ (∃ m, Expr.excess.evalClosed 4 {} = .error .countTooLarge m) ∧
      Expr.excess.Explains (Expr.excess.history 4 [] ⟨.empty, {}⟩) .countTooLarge := by
  have hread : Expr.ofSource? "letfun f(n) = repeat n : (A, 1) in f(9223372036854775808) end" = some Expr.excess := by
    decide +kernel
  have hparsed := Expr.parsed_of_ofSource? hread
  have hend : Expr.excess.evalClosed 4 {} = .error .countTooLarge _ := rfl
  exact ⟨hparsed, ⟨_, hend⟩, (Expr.outcomes hparsed 4 {}).2 _ _ hend (by decide)⟩

end TuneLang
