import TuneLang.Proofs.Scope.Twins

/-!
# Binding by application

To bind a name to a definition within a body comes to the same as making a function of the body, with that name as its parameter, and
applying the function to the definition (`Expr.binding_by_application`).

The two are not evaluated alike in all respects. The function takes up a location before the definition is evaluated, so that
everything that is made afterwards is found one location further on (`Renaming.skip`); and its own name stands in the environment of
the definition and of the body, and in that of every function which these make. Neither shows: the definition and the body do not have
the name free, and the evaluations are twins.
-/

namespace TuneLang

/-- Numbers that are different stay so when those from `base` on become one higher. -/
theorem Renaming.eq_of_skip_eq {base l k : Nat} (h : (if l < base then l else l + 1) = if k < base then k else k + 1) : l = k := by
  split at h <;> split at h <;> omega

/-- The numbers of locations when one location is left out: from `base` on, each is one higher. -/
def Renaming.skip (base : Loc) : Renaming where
  apply l := if l < base then l else l + 1
  base := base
  injective := Renaming.eq_of_skip_eq
  succ := by
    intro l hl
    rw [if_neg (Nat.not_lt.mpr hl), if_neg (Nat.not_lt.mpr (Nat.le_succ_of_le hl))]

/-- A location before the one that is left out keeps its number. -/
theorem Renaming.skip_of_lt {base l : Loc} (h : l < base) : Renaming.skip base l = l := if_pos h

theorem Renaming.skip_base (base : Loc) : Renaming.skip base base = base + 1 := if_neg (Nat.lt_irrefl base)

section

variable {s : Store}

/-- Locations that were made before keep their numbers, and so do those of an environment. -/
theorem Env.Within.find?_skip {env : Env} (h : env.Within s) (x : String) :
    (env.find? x).map (Renaming.skip s.next) = env.find? x := by
  cases hx : env.find? x with
  | none => rfl
  | some l => rw [Option.map_some, Renaming.skip_of_lt (h l (Env.mem_locs_of_find? hx))]

/-- An environment agrees with itself under one more name, on all names but that one. -/
theorem Env.Within.agrees_skip {env : Env} (h : env.Within s) {names : List String} {f : String} (hf : f ∉ names) (l : Loc) :
    Env.Agrees (.skip s.next) names env ((f, l) :: env) := by
  intro x hx
  have hne : x ≠ f := fun heq => hf (heq ▸ hx)
  rw [h.find?_skip, Env.find?, List.lookup_cons, beq_false_of_ne hne]
  rfl

/-- A value that was made before corresponds to itself. -/
theorem Value.Rooted.twin_skip {v : Value} (h : v.Rooted s) : v.Twin (.skip s.next) v := by
  cases v with
  | closure p b env =>
    obtain ⟨_, hin, f, l, rest, rfl, hheld⟩ := h
    have hown : Renaming.skip s.next l = l := Renaming.skip_of_lt (Store.lt_next_of_get? hheld)
    have htwin : Env.Agrees (.skip s.next) (b.free.filter (· ≠ p)) ((f, l) :: rest) ((f, Renaming.skip s.next l) :: rest) := by
      intro x _
      rw [hown, hin.find?_skip]
    have hclosure := Value.Twin.closure htwin
    rwa [hown] at hclosure
  | _ => exact .data rfl

end

/-- A machine corresponds to itself with one more location, which is left out. -/
theorem Store.Rooted.twin_push {m : Machine} (h : m.store.Rooted) {v : Value} (hv : v.Rooted (m.store.push v)) :
    m.Twin (.skip m.store.next) (m.push v) where
  world := rfl
  base := Nat.le_refl _
  next := by
    rw [Renaming.skip_base]
    exact Store.next_push m.store v
  held := by
    intro l u hu
    have hl := Store.lt_next_of_get? hu
    refine ⟨u, ?_, (h l u hu).twin_skip⟩
    rw [Renaming.skip_of_lt hl]
    exact (Store.get?_push m.store v l).trans ((if_neg (Nat.ne_of_lt hl)).trans hu)
  left := h
  right := h.push hv

/-! ## The two evaluations -/

/-- The application that stands for a binding: a function of the body is made under a name and applied to the definition. -/
def Expr.application (f x : String) (d b : Expr) : Expr := .letFun f x b (.app (.name f) d)

/-- The function that stands for the body of a binding, as it is made in an environment. -/
def Value.ofBody (f x : String) (b : Expr) (env : Env) (s : Store) : Value := .closure x b ((f, s.next) :: env)

/-- The application makes its function, and then evaluates the definition and the body as the binding does one level less deep. -/
theorem Expr.eval_application (n : Nat) (f x : String) (d b : Expr) (env : Env) (m : Machine) :
    (Expr.application f x d b).eval (n + 3) env m =
      (d.eval (n + 1) ((f, m.store.next) :: env) >>= fun v => EvalM.allocate v >>= fun l =>
        b.eval (n + 1) ((x, l) :: (f, m.store.next) :: env)) (m.push (Value.ofBody f x b env m.store)) := by
  have hmade : (Expr.application f x d b).eval (n + 3) env m =
      (Expr.app (.name f) d).eval (n + 2) ((f, m.store.next) :: env) (m.push (Value.ofBody f x b env m.store)) := rfl
  have hfetched : (Expr.name f).eval (n + 1) ((f, m.store.next) :: env) (m.push (Value.ofBody f x b env m.store)) =
      .ok (Value.ofBody f x b env m.store) (m.push (Value.ofBody f x b env m.store)) := by
    have hfound : Env.find? ((f, m.store.next) :: env) f = some m.store.next := by simp [Env.find?]
    have hheld : (m.push (Value.ofBody f x b env m.store)).store.get m.store.next = Value.ofBody f x b env m.store := by
      show (m.store.push _).get m.store.next = _
      rw [Store.get, Store.get?_push, if_pos rfl, Option.getD_some]
    rw [Expr.eval, EvalM.locate, hfound]
    exact congrArg (EStateM.Result.ok · _) hheld
  rw [hmade, Expr.eval, EvalM.bind_ok hfetched]
  rfl

/-- A binding and its application are twins, the function's location being left out. -/
theorem Expr.application_twins {f x : String} {d b : Expr} {env : Env} {m : Machine} (hd : d.Plain) (hb : b.Plain)
    (hs : m.store.Rooted) (henv : env.Within m.store) (hfd : f ∉ d.free) (hfb : f ∉ b.free) (n : Nat) :
    EvalM.Twins (.skip m.store.next) m (m.push (Value.ofBody f x b env m.store)) (Value.Pair (.skip m.store.next))
      ((Expr.letIn x d b).eval (n + 2) env m) ((Expr.application f x d b).eval (n + 3) env m) := by
  have hstart := hs.twin_push (Value.rooted_new f x hb henv)
  have hown : Env.Within ((f, m.store.next) :: env) (m.push (Value.ofBody f x b env m.store)).store := henv.push f _
  rw [Expr.eval_application]
  refine EvalM.Twins.bind (Expr.eval_twins (n + 1) _ _ d _ _ hstart ⟨hd, henv, hown, henv.agrees_skip hfd _⟩) ?_
  intro m₁ m₁' v v' h₁ hl hl' hv
  refine EvalM.Twins.later (Store.keeps_push _ v) (Store.keeps_push _ v') (Expr.eval_twins _ _ _ b _ _ (h₁.allocate hv) ?_)
  have hagrees : Env.Agrees (.skip m.store.next) (b.free.filter (· ≠ x)) env ((f, m.store.next) :: env) :=
    henv.agrees_skip (fun hmem => hfb (List.mem_filter.mp hmem).1) _
  exact h₁.posed hb (henv.later hl.grown) (hown.later hl'.grown) hagrees v v'

/-! ## How the two end -/

/-- An evaluation that is given up at all depths from some depth on runs for ever. -/
theorem Expr.runsForever_of_late {e : Expr} {env : Env} {m : Machine} {k : Nat}
    (h : ∀ n, EvalM.GivenUp (e.eval (n + k) env m)) : e.RunsForever env m := by
  intro n
  refine Classical.not_not.mp (fun hup => ?_)
  have hlater := h n
  rw [Expr.eval_of_le hup (Nat.le_add_right n k)] at hlater
  exact hup hlater

/-- Two evaluations that are twins at all depths, apart from a head start of each, both run for ever or both end, and end alike. -/
theorem Expr.ends_of_twins {ρ : Renaming} {e e' : Expr} {env env' : Env} {m m' m₀ m₀' : Machine}
    {R : Machine → Machine → Value → Value → Prop} {j k : Nat}
    (h : ∀ n, EvalM.Twins ρ m₀ m₀' R (e.eval (n + j) env m) (e'.eval (n + k) env' m')) :
    (e.RunsForever env m ∧ e'.RunsForever env' m') ∨
      (∃ f m₁ m₂, e.EndsWith env m (.error f m₁) ∧ e'.EndsWith env' m' (.error f m₂) ∧ m₁.Twin ρ m₂) ∨
      ∃ v₁ v₂ m₁ m₂, e.EndsWith env m (.ok v₁ m₁) ∧ e'.EndsWith env' m' (.ok v₂ m₂) ∧ R m₁ m₂ v₁ v₂ ∧ m₁.Twin ρ m₂ := by
  have hstep : ∀ n, (∃ f m₁ m₂, e.eval (n + j) env m = .error f m₁ ∧ e'.eval (n + k) env' m' = .error f m₂ ∧ m₁.Twin ρ m₂) ∨
      ∃ v₁ v₂ m₁ m₂, e.eval (n + j) env m = .ok v₁ m₁ ∧ e'.eval (n + k) env' m' = .ok v₂ m₂ ∧ R m₁ m₂ v₁ v₂ ∧ m₁.Twin ρ m₂ := by
    intro n
    have htwins := h n
    cases h₁ : e.eval (n + j) env m <;> cases h₂ : e'.eval (n + k) env' m' <;> rw [h₁, h₂] at htwins
    · exact Or.inr ⟨_, _, _, _, rfl, rfl, htwins.2.2.2, htwins.1⟩
    · exact htwins.elim
    · exact htwins.elim
    · obtain ⟨rfl, htwin⟩ := htwins
      exact Or.inl ⟨_, _, _, rfl, rfl, htwin⟩
  by_cases hend : ∃ n, ¬ EvalM.GivenUp (e.eval (n + j) env m)
  · right
    obtain ⟨n, hup⟩ := hend
    rcases hstep n with ⟨f, m₁, m₂, h₁, h₂, hm⟩ | ⟨v₁, v₂, m₁, m₂, h₁, h₂, hv, hm⟩
    · rw [h₁, EvalM.givenUp_error] at hup
      have hfault : ∀ m : Machine, ¬ EvalM.GivenUp (.error f m : EStateM.Result Fault Machine Value) :=
        fun _ hgiven => hup (EvalM.givenUp_error.mp hgiven)
      exact Or.inl ⟨f, m₁, m₂, Expr.endsWith_of_not_givenUp h₁ (hfault _), Expr.endsWith_of_not_givenUp h₂ (hfault _), hm⟩
    · exact Or.inr ⟨v₁, v₂, m₁, m₂, Expr.endsWith_of_not_givenUp h₁ not_false, Expr.endsWith_of_not_givenUp h₂ not_false, hv, hm⟩
  · left
    have hever : ∀ n, EvalM.GivenUp (e.eval (n + j) env m) := fun n => Classical.not_not.mp (fun hup => hend ⟨n, hup⟩)
    refine ⟨Expr.runsForever_of_late hever, Expr.runsForever_of_late (k := k) (fun n => ?_)⟩
    have hup := hever n
    rcases hstep n with ⟨f, m₁, m₂, h₁, h₂, _⟩ | ⟨v₁, v₂, m₁, m₂, h₁, _⟩
    · rw [h₁, EvalM.givenUp_error] at hup
      rw [h₂, EvalM.givenUp_error]
      exact hup
    · rw [h₁] at hup
      exact hup.elim

/-- Whether two machines look alike to who knows the locations of a store: they have the same world, and each of these locations holds
the same data in both, or functions with the same parameter and body. -/
structure Machine.LooksLike (s : Store) (m m' : Machine) : Prop where
  world : m'.world = m.world
  held : ∀ l < s.next, ∃ v v', m.store.get? l = some v ∧ m'.store.get? l = some v' ∧ v'.bare = v.bare

/-- Corresponding machines look alike up to the location that is left out. -/
theorem Machine.Twin.looksLike {s : Store} {m m' : Machine} (h : m.Twin (.skip s.next) m') : m.LooksLike s m' where
  world := h.world
  held := by
    intro l hl
    have hmade : l < m.store.next := Nat.lt_of_lt_of_le hl h.base
    obtain ⟨v', hv', htwin⟩ := h.held l _ (Store.get?_of_lt_next hmade)
    rw [Renaming.skip_of_lt hl] at hv'
    exact ⟨_, v', Store.get?_of_lt_next hmade, hv', htwin.bare⟩

/-- A binding agrees with an application. A name is bound to a definition within a body, both read from sources, in any world, from
any store that arises from evaluations, and in an environment of locations of that store; and in the same circumstances a function of
the body is made, under a name that is free in neither, and applied to the definition. Then both evaluations run for ever; or both end
with the same fault; or both end with the same data, or with functions that have the same parameter and body. In the last two cases
the worlds are the same, and every location that was there before holds the same data in both machines, or in both a function with the
same parameter and body. -/
theorem Expr.binding_by_application {d b : Expr} {f x : String} {s : Store} {env : Env} (w : World) (hd : d.Parsed) (hb : b.Parsed)
    (hs : s.Arises) (henv : env.Within s) (hfd : f ∉ d.free) (hfb : f ∉ b.free) :
    ((Expr.letIn x d b).RunsForever env ⟨s, w⟩ ∧ (Expr.letFun f x b (.app (.name f) d)).RunsForever env ⟨s, w⟩) ∨
      (∃ fault m₁ m₂, (Expr.letIn x d b).EndsWith env ⟨s, w⟩ (.error fault m₁) ∧
        (Expr.letFun f x b (.app (.name f) d)).EndsWith env ⟨s, w⟩ (.error fault m₂) ∧ m₁.LooksLike s m₂) ∨
      ∃ v₁ v₂ m₁ m₂, (Expr.letIn x d b).EndsWith env ⟨s, w⟩ (.ok v₁ m₁) ∧
        (Expr.letFun f x b (.app (.name f) d)).EndsWith env ⟨s, w⟩ (.ok v₂ m₂) ∧ v₂.bare = v₁.bare ∧ m₁.LooksLike s m₂ := by
  have htwins := Expr.application_twins (x := x) (m := ⟨s, w⟩) hd.plain hb.plain hs.rooted henv hfd hfb
  rcases Expr.ends_of_twins htwins with hever | ⟨fault, m₁, m₂, h₁, h₂, hm⟩ | ⟨v₁, v₂, m₁, m₂, h₁, h₂, hv, hm⟩
  · exact Or.inl hever
  · exact Or.inr (Or.inl ⟨fault, m₁, m₂, h₁, h₂, hm.looksLike⟩)
  · exact Or.inr (Or.inr ⟨v₁, v₂, m₁, m₂, h₁, h₂, hv.twin.bare, hm.looksLike⟩)

/-- A definition that makes a function, which adds a number from outside. -/
def Expr.raise : Expr := .letFun "g" "n" (.binary .add (.name "n") (.name "k")) (.name "g")

/-- A body that changes the number from outside, compares the function with itself and applies it. -/
def Expr.raised : Expr :=
  .seq (.assign "k" (.lit (.int 3)))
    (.cond (.binary .eq (.name "x") (.name "x")) (.app (.name "x") (.name "k")) (.lit (.int 0)))

/-- The store that the binding of one number leaves. -/
def Store.single : Store := ⟨#[.int 1]⟩

/-- The function that the definition makes has the name `h` in its environment only when `h` is applied to it, and is compared and
applied all the same. -/
theorem Expr.binding_by_application_raised :
    Expr.raise.Parsed ∧ Expr.raised.Parsed ∧ Store.single.Arises ∧ Env.Within [("k", 0)] .single ∧ "h" ∉ Expr.raise.free ∧
      "h" ∉ Expr.raised.free ∧
      (((Expr.letIn "x" .raise .raised).RunsForever [("k", 0)] ⟨.single, {}⟩ ∧
          (Expr.letFun "h" "x" .raised (.app (.name "h") .raise)).RunsForever [("k", 0)] ⟨.single, {}⟩) ∨
        (∃ fault m₁ m₂, (Expr.letIn "x" .raise .raised).EndsWith [("k", 0)] ⟨.single, {}⟩ (.error fault m₁) ∧
          (Expr.letFun "h" "x" .raised (.app (.name "h") .raise)).EndsWith [("k", 0)] ⟨.single, {}⟩ (.error fault m₂) ∧
          m₁.LooksLike .single m₂) ∨
        ∃ v₁ v₂ m₁ m₂, (Expr.letIn "x" .raise .raised).EndsWith [("k", 0)] ⟨.single, {}⟩ (.ok v₁ m₁) ∧
          (Expr.letFun "h" "x" .raised (.app (.name "h") .raise)).EndsWith [("k", 0)] ⟨.single, {}⟩ (.ok v₂ m₂) ∧
          v₂.bare = v₁.bare ∧ m₁.LooksLike .single m₂) := by
  have hread : Expr.ofSource? "letfun g(n) = n + k in g end" = some Expr.raise := by decide +kernel
  have hread' : Expr.ofSource? "k := 3 ; if x == x then x(k) else 0" = some Expr.raised := by decide +kernel
  have hd := Expr.parsed_of_ofSource? hread
  have hb := Expr.parsed_of_ofSource? hread'
  have harises : Store.single.Arises :=
    @Store.Arises.run .empty [] (.letIn "k" (.lit (.int 1)) (.name "k")) 2 {} .empty ⟨rfl, trivial⟩ (by decide)
  have hin : Env.Within [("k", 0)] .single := by decide
  have hfd : "h" ∉ Expr.raise.free := by decide
  have hfb : "h" ∉ Expr.raised.free := by decide
  exact ⟨hd, hb, harises, hin, hfd, hfb, Expr.binding_by_application {} hd hb harises hin hfd hfb⟩

end TuneLang
