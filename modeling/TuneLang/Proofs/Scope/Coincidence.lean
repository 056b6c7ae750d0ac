import TuneLang.Proofs.Scope.Twins

/-!
# Coincidence

Scope is static: how an evaluation ends depends on its environment only through the locations of the expression's free names
(`Expr.coincidence`). Where two environments differ otherwise, functions that are made keep the difference in their environments,
but nothing that is done with such functions shows it, not even comparing them.
-/

namespace TuneLang

/-- Whether two values coincide: data is the same, and functions have the same parameter and body and environments in which the free
names of the function have the same locations. -/
def Value.Coincides : Value → Value → Prop
  | .closure p b env, .closure p' b' env' => p' = p ∧ b' = b ∧ ∀ x ∈ b.free, x ≠ p → env'.find? x = env.find? x
  | v, v' => v' = v

/-- Whether two machines coincide: they have the same world and as many locations, which hold values that coincide. -/
structure Machine.Coincides (m m' : Machine) : Prop where
  world : m'.world = m.world
  next : m'.store.next = m.store.next
  held : ∀ l v, m.store.get? l = some v → ∃ v', m'.store.get? l = some v' ∧ v.Coincides v'

/-- A rooted value corresponds to itself. -/
theorem Value.Rooted.twin_self {s : Store} {v : Value} (h : v.Rooted s) : v.Twin .identity v := by
  cases v with
  | closure p b env =>
    obtain ⟨_, _, f, l, rest, rfl, _⟩ := h
    exact .closure (fun _ _ => Option.map_id_apply.symm)
  | _ => exact .data rfl

/-- A machine with a rooted store corresponds to itself. -/
theorem Store.Rooted.twin_self {m : Machine} (h : m.store.Rooted) : m.Twin .identity m where
  world := rfl
  base := Nat.zero_le _
  next := rfl
  held l v hv := ⟨v, hv, (h l v hv).twin_self⟩
  left := h
  right := h

/-- Values that correspond without a renaming coincide. -/
theorem Value.Twin.coincides {v v' : Value} (h : v.Twin .identity v') : v.Coincides v' := by
  cases h with
  | data hdata =>
    cases v with
    | closure => cases hdata
    | _ => rfl
  | closure hagrees =>
    refine ⟨rfl, rfl, fun x hx hne => ?_⟩
    rw [hagrees x (List.mem_filter.mpr ⟨hx, by simpa using hne⟩)]
    exact Option.map_id_apply

/-- Machines that correspond without a renaming coincide. -/
theorem Machine.Twin.coincides {m m' : Machine} (h : m.Twin .identity m') : m.Coincides m' where
  world := h.world
  next := h.next
  held l v hv := by
    obtain ⟨v', hv', htwin⟩ := h.held l v hv
    exact ⟨v', hv', htwin.coincides⟩

/-- At every depth, the evaluations of a plain expression in two environments that agree on its free names are both given up, or
both end, in coinciding ways. -/
theorem Expr.eval_coincides {e : Expr} {m : Machine} {env env' : Env} (he : e.Plain) (hs : m.store.Rooted)
    (henv : env.Within m.store) (henv' : env'.Within m.store) (hfree : ∀ x ∈ e.free, env'.find? x = env.find? x) (n : Nat) :
    (∃ f m₁ m₂, e.eval n env m = .error f m₁ ∧ e.eval n env' m = .error f m₂ ∧ m₁.Coincides m₂) ∨
      ∃ v₁ v₂ m₁ m₂, e.eval n env m = .ok v₁ m₁ ∧ e.eval n env' m = .ok v₂ m₂ ∧ v₁.Coincides v₂ ∧ m₁.Coincides m₂ := by
  have hagrees : Env.Agrees .identity e.free env env' := fun x hx => (hfree x hx).trans Option.map_id_apply.symm
  have htwins := Expr.eval_twins n env env' e m m hs.twin_self ⟨he, henv, henv', hagrees⟩
  cases h₁ : e.eval n env m with
  | ok v₁ m₁ =>
    cases h₂ : e.eval n env' m with
    | ok v₂ m₂ =>
      rw [h₁, h₂] at htwins
      exact Or.inr ⟨v₁, v₂, m₁, m₂, rfl, rfl, htwins.2.2.2.twin.coincides, htwins.1.coincides⟩
    | error f m₂ =>
      rw [h₁, h₂] at htwins
      exact htwins.elim
  | error f m₁ =>
    cases h₂ : e.eval n env' m with
    | ok v₂ m₂ =>
      rw [h₁, h₂] at htwins
      exact htwins.elim
    | error f' m₂ =>
      rw [h₁, h₂] at htwins
      obtain ⟨rfl, htwin⟩ := htwins
      exact Or.inl ⟨f', m₁, m₂, rfl, rfl, htwin.coincides⟩

/-- Static scope. An expression that was read from a source is evaluated, in any world and from any store that arises from
evaluations, in two environments of locations of that store in which its free names have the same locations. Then both evaluations
run for ever; or both end with the same fault; or both end with values that coincide. In the last two cases they leave machines that
coincide: the worlds are the same, and all locations hold values that coincide. -/
theorem Expr.coincidence {e : Expr} {s : Store} {env env' : Env} (w : World) (he : e.Parsed) (hs : s.Arises)
    (henv : env.Within s) (henv' : env'.Within s) (hfree : ∀ x ∈ e.free, env'.find? x = env.find? x) :
    (e.RunsForever env ⟨s, w⟩ ∧ e.RunsForever env' ⟨s, w⟩) ∨
      (∃ f m₁ m₂, e.EndsWith env ⟨s, w⟩ (.error f m₁) ∧ e.EndsWith env' ⟨s, w⟩ (.error f m₂) ∧ m₁.Coincides m₂) ∨
      ∃ v₁ v₂ m₁ m₂, e.EndsWith env ⟨s, w⟩ (.ok v₁ m₁) ∧ e.EndsWith env' ⟨s, w⟩ (.ok v₂ m₂) ∧ v₁.Coincides v₂ ∧
        m₁.Coincides m₂ := by
  have hstep := Expr.eval_coincides (m := ⟨s, w⟩) he.plain hs.rooted henv henv' hfree
  by_cases hend : ∃ n, ¬ EvalM.GivenUp (e.eval n env ⟨s, w⟩)
  · obtain ⟨n, hup⟩ := hend
    rcases hstep n with ⟨f, m₁, m₂, h₁, h₂, hm⟩ | ⟨v₁, v₂, m₁, m₂, h₁, h₂, hv, hm⟩
    · rw [h₁, EvalM.givenUp_error] at hup
      have hend₁ := Expr.endsWith_of_not_givenUp h₁ (fun h => hup (EvalM.givenUp_error.mp h))
      have hend₂ := Expr.endsWith_of_not_givenUp h₂ (fun h => hup (EvalM.givenUp_error.mp h))
      exact Or.inr (Or.inl ⟨f, m₁, m₂, hend₁, hend₂, hm⟩)
    · have hend₁ := Expr.endsWith_of_not_givenUp h₁ not_false
      have hend₂ := Expr.endsWith_of_not_givenUp h₂ not_false
      exact Or.inr (Or.inr ⟨v₁, v₂, m₁, m₂, hend₁, hend₂, hv, hm⟩)
  · have hever : e.RunsForever env ⟨s, w⟩ := fun n => Classical.not_not.mp (fun hup => hend ⟨n, hup⟩)
    refine Or.inl ⟨hever, fun n => ?_⟩
    have hup := hever n
    rcases hstep n with ⟨f, m₁, m₂, h₁, h₂, _⟩ | ⟨v₁, v₂, m₁, m₂, h₁, _⟩
    · rw [h₁, EvalM.givenUp_error] at hup
      rwa [h₂, EvalM.givenUp_error]
    · rw [h₁] at hup
      exact hup.elim

/-- A function that adds a number from outside. -/
def Expr.adder : Expr := .letFun "f" "n" (.binary .add (.name "n") (.name "x")) (.name "f")

/-- The store that two bindings of numbers leave. -/
def Store.numbers : Store := ⟨#[.int 1, .int 5]⟩

/-- The function is made once where only `x` has a meaning, and once where the name of its parameter has one as well. -/
theorem Expr.coincidence_adder :
    Expr.adder.Parsed ∧ Store.numbers.Arises ∧ Env.Within [("x", 0)] .numbers ∧ Env.Within [("n", 1), ("x", 0)] .numbers ∧
      (∀ x ∈ Expr.adder.free, Env.find? [("n", 1), ("x", 0)] x = Env.find? [("x", 0)] x) ∧
      ((Expr.adder.RunsForever [("x", 0)] ⟨.numbers, {}⟩ ∧ Expr.adder.RunsForever [("n", 1), ("x", 0)] ⟨.numbers, {}⟩) ∨
        (∃ f m₁ m₂, Expr.adder.EndsWith [("x", 0)] ⟨.numbers, {}⟩ (.error f m₁) ∧
          Expr.adder.EndsWith [("n", 1), ("x", 0)] ⟨.numbers, {}⟩ (.error f m₂) ∧ m₁.Coincides m₂) ∨
        ∃ v₁ v₂ m₁ m₂, Expr.adder.EndsWith [("x", 0)] ⟨.numbers, {}⟩ (.ok v₁ m₁) ∧
          Expr.adder.EndsWith [("n", 1), ("x", 0)] ⟨.numbers, {}⟩ (.ok v₂ m₂) ∧ v₁.Coincides v₂ ∧ m₁.Coincides m₂) := by
  have hread : Expr.ofSource? "letfun f(n) = n + x in f end" = some Expr.adder := by decide +kernel
  have hparsed := Expr.parsed_of_ofSource? hread
  have harises : Store.numbers.Arises :=
    @Store.Arises.run .empty [] (.letIn "x" (.lit (.int 1)) (.letIn "n" (.lit (.int 5)) (.name "n"))) 3 {} .empty
      ⟨rfl, rfl, trivial⟩ (by decide)
  have hin : Env.Within [("x", 0)] .numbers := by decide
  have hin' : Env.Within [("n", 1), ("x", 0)] .numbers := by decide
  have hfree : ∀ x ∈ Expr.adder.free, Env.find? [("n", 1), ("x", 0)] x = Env.find? [("x", 0)] x := by decide
  exact ⟨hparsed, harises, hin, hin', hfree, Expr.coincidence {} hparsed harises hin hin' hfree⟩

end TuneLang
