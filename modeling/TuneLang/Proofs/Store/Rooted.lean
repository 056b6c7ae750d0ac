import TuneLang.Proofs.Store.Reach

/-!
# Functions know themselves

The environment of a function begins with the function's own name, bound to a location that holds the function. A location that
came about in this way, an own location, is never assigned to: an assignment looks at its location before the right side runs and
leaves a function alone, and what the right side makes is new (`Rooted.discipline`). So every function of a store that evaluations
have made is rooted: it finds itself at its own location (`Store.Arises.rooted`).

It follows what comparing two such functions comes to: they are equal when they have one own location, different when parameter,
body or own name differ, and otherwise the comparison goes on for ever (`Value.same?_rooted`).
-/

namespace TuneLang

/-- Whether the locations that an environment binds were made. -/
def Env.Within (env : Env) (s : Store) : Prop := ∀ l ∈ env.locs, l < s.next

instance (env : Env) (s : Store) : Decidable (env.Within s) := inferInstanceAs (Decidable (∀ l ∈ env.locs, l < s.next))

/-- Whether a location holds a function whose environment begins with that very location. -/
def Store.Own (s : Store) (l : Loc) : Prop := ∃ f p b env, s.get? l = some (.closure p b ((f, l) :: env))

/-- Whether a function is held at the location that its environment begins with. Its body is plain, and its environment binds
locations that were made. -/
def Value.Rooted (s : Store) : Value → Prop
  | .closure p b env => b.Plain ∧ env.Within s ∧ ∃ f l rest, env = (f, l) :: rest ∧ s.get? l = some (.closure p b env)
  | _ => True

/-- Whether the functions in a store are rooted. -/
def Store.Rooted (s : Store) : Prop := s.All (·.Rooted s)

/-- How a store is related to a later one: the own locations stay as they are, and no location that was there before becomes one. -/
structure Store.Keeps (s s' : Store) : Prop where
  grown : s.next ≤ s'.next
  own : ∀ l, s.Own l → s'.get? l = s.get? l
  new : ∀ l, l < s.next → s'.Own l → s.Own l

/-- Functions are rooted and stay so. -/
def Rooted.discipline : StoreDiscipline where
  Sound s := s.Rooted
  Leads s s' := s.Keeps s'
  Proper s v := v.Rooted s
  Ready s env e := e.Plain ∧ env.Within s
  Allowed _ := True

theorem Env.Within.later {env : Env} {s s' : Store} (hl : s.next ≤ s'.next) (h : env.Within s) : env.Within s' :=
  fun l hmem => Nat.lt_of_lt_of_le (h l hmem) hl

/-- One more name, bound to the new location. -/
theorem Env.Within.push {env : Env} {s : Store} (h : env.Within s) (x : String) (v : Value) :
    Env.Within ((x, s.next) :: env) (s.push v) := by
  intro l hl
  rcases List.mem_cons.mp hl with rfl | hl
  · exact s.next_lt_push v
  · exact Nat.lt_trans (h l hl) (s.next_lt_push v)

/-- Data is rooted. -/
theorem Value.rooted_of_data {s : Store} {v : Value} (h : v.isClosure = false) : v.Rooted s := by
  cases v with
  | closure p b env => cases h
  | _ => exact trivial

theorem Store.Keeps.refl (s : Store) : s.Keeps s := ⟨Nat.le_refl _, fun _ _ => rfl, fun _ _ h => h⟩

theorem Store.Keeps.trans {s s' s'' : Store} (h : s.Keeps s') (h' : s'.Keeps s'') : s.Keeps s'' where
  grown := Nat.le_trans h.grown h'.grown
  own := by
    intro l hl
    have hstill : s'.Own l := by
      obtain ⟨f, p, b, env, hv⟩ := hl
      exact ⟨f, p, b, env, (h.own l ⟨f, p, b, env, hv⟩).trans hv⟩
    rw [h'.own l hstill, h.own l hl]
  new l hl hown := h.new l hl (h'.new l (Nat.lt_of_lt_of_le hl h.grown) hown)

/-- A rooted function stays rooted. -/
theorem Value.Rooted.later {s s' : Store} {v : Value} (hl : s.Keeps s') (h : v.Rooted s) : v.Rooted s' := by
  cases v with
  | closure p b env =>
    obtain ⟨hb, hin, f, l, rest, rfl, hv⟩ := h
    exact ⟨hb, hin.later hl.grown, f, l, rest, rfl, (hl.own l ⟨f, p, b, rest, hv⟩).trans hv⟩
  | _ => exact trivial

/-- A new location leaves the own locations as they are. -/
theorem Store.keeps_push (s : Store) (v : Value) : s.Keeps (s.push v) where
  grown := Nat.le_of_lt (s.next_lt_push v)
  own := by
    rintro l ⟨f, p, b, env, hv⟩
    rw [Store.get?_push, if_neg (Nat.ne_of_lt (Store.lt_next_of_get? hv))]
  new := by
    rintro l hl ⟨f, p, b, env, hv⟩
    rw [Store.get?_push, if_neg (Nat.ne_of_lt hl)] at hv
    exact ⟨f, p, b, env, hv⟩

/-- A store stays rooted when a new location gets a value that is rooted then. -/
theorem Store.Rooted.push {s : Store} {v : Value} (hs : s.Rooted) (hv : v.Rooted (s.push v)) : (s.push v).Rooted := by
  have hlater : s.All (·.Rooted (s.push v)) := fun l u hu => (hs l u hu).later (s.keeps_push v)
  exact hlater.push hv

/-- A new function is rooted at the new location. -/
theorem Value.rooted_new {s : Store} {b : Expr} {env : Env} (f p : String) (hb : b.Plain) (henv : env.Within s) :
    (Value.closure p b ((f, s.next) :: env)).Rooted (s.push (.closure p b ((f, s.next) :: env))) := by
  refine ⟨hb, henv.push f _, f, s.next, env, rfl, ?_⟩
  rw [Store.get?_push, if_pos rfl]

/-- The location of a rooted function is an own location. -/
theorem Value.Rooted.own {s : Store} {p : String} {b : Expr} {env : Env} (h : (Value.closure p b env).Rooted s) :
    ∃ f l rest, env = (f, l) :: rest ∧ s.Own l := by
  obtain ⟨_, _, f, l, rest, rfl, hv⟩ := h
  exact ⟨f, l, rest, rfl, f, p, b, rest, hv⟩

/-- A rooted function stays rooted when a location other than an own one is changed. -/
theorem Value.Rooted.set {s : Store} {l : Loc} {u : Value} (v : Value) (hl : ¬ s.Own l) (h : u.Rooted s) :
    u.Rooted (s.set l v) := by
  cases u with
  | closure p b env =>
    obtain ⟨hb, hin, f, k, rest, rfl, hv⟩ := h
    have hne : l ≠ k := by
      rintro rfl
      exact hl ⟨f, p, b, rest, hv⟩
    refine ⟨hb, hin.later (Nat.le_of_eq (Store.next_set s l v).symm), f, k, rest, rfl, ?_⟩
    rw [Store.get?_set, if_neg hne]
    exact hv
  | _ => exact trivial

/-- What was assigned to before is no own location after the right side ran, and changing it keeps the store rooted. -/
theorem Rooted.assign {s s' : Store} {l : Loc} {v : Value} (hmade : l < s.next) (hdata : (s.get l).isClosure = false)
    (hl : s.Keeps s') (hs : s'.Rooted) (hv : v.Rooted s') :
    s.Keeps (s'.set l v) ∧ (s'.set l v).Rooted ∧ v.Rooted (s'.set l v) := by
  have hfirst : ¬ s.Own l := by
    rintro ⟨f, p, b, env, h⟩
    rw [Store.get, h] at hdata
    cases hdata
  have hthen : ¬ s'.Own l := fun h => hfirst (hl.new l hmade h)
  refine ⟨⟨?_, ?_, ?_⟩, ?_, hv.set v hthen⟩
  · rw [Store.next_set]
    exact hl.grown
  · intro k hk
    have hne : l ≠ k := by
      rintro rfl
      exact hfirst hk
    rw [Store.get?_set, if_neg hne]
    exact hl.own k hk
  · rintro k hk ⟨f, p, b, env, h⟩
    refine hl.new k hk ?_
    rcases Store.held_set h with ⟨rfl, rfl⟩ | ⟨_, h⟩
    · obtain ⟨f', j, rest, heq, hown⟩ := hv.own
      cases heq
      exact hown
    · exact ⟨f, p, b, env, h⟩
  · have hlater : s'.All (·.Rooted (s'.set l v)) := fun k u hu => (hs k u hu).set v hthen
    exact hlater.set (hv.set v hthen)

/-- Every construct keeps functions rooted. -/
theorem Rooted.lawful : Rooted.discipline.Lawful where
  refl := Store.Keeps.refl _
  trans := Store.Keeps.trans
  proper_later hl hv := hv.later hl
  ready_later hl hr := ⟨hr.1, hr.2.later hl.grown⟩
  operand hr ha := ⟨hr.1.operand ha, hr.2⟩
  allowed _ := trivial
  data := Value.rooted_of_data
  lit hr := Value.rooted_of_data hr.1
  name hs _ _ hl := hs _ _ hl
  unbound _ _ _ := trivial
  push hs hv := ⟨Store.keeps_push _ _, hs.push (hv.later (Store.keeps_push _ _))⟩
  letIn _ hr _ := ⟨hr.1.2, hr.2.push _ _⟩
  letFun hs hr := ⟨Store.keeps_push _ _, hs.push (Value.rooted_new _ _ hr.1.1 hr.2), hr.1.2, hr.2.push _ _⟩
  app _ hc _ := ⟨hc.1, hc.2.1.push _ _⟩
  assign _ hr hx hdata hl hs hv := Rooted.assign (hr.2 _ (Env.mem_locs_of_find? hx)) hdata hl hs hv

/-- The stores that arise from evaluations, one after the other or one within the other. Every expression of a parsed source is
plain, and an evaluation within another one begins with what the other has come to. -/
inductive Store.Arises : Store → Prop where
  | empty : Store.Arises .empty
  | run {s : Store} {env : Env} {e : Expr} (n : Nat) (w : World) : s.Arises → e.Plain → env.Within s →
    (EvalM.left (e.eval n env ⟨s, w⟩)).store.Arises

/-- The functions in a store that arises from evaluations are rooted. -/
theorem Store.Arises.rooted {s : Store} (h : s.Arises) : s.Rooted := by
  induction h with
  | empty => exact Store.all_empty _
  | @run s env e n w _ he henv ih => exact (Rooted.lawful.toDiscipline.eval n env e ⟨s, w⟩ ih ⟨he, henv⟩).left.2

/-! ## Comparing functions -/

/-- An environment agrees with itself, as no location is looked into. -/
theorem Env.agree?_self (same : Value → Value → Option Bool) (s : Store) (env : Env) :
    Env.agree? same s env env = some true := by
  induction env with
  | nil => rfl
  | cons b env ih => rw [Env.agree?, if_pos rfl, if_pos rfl, ih]

/-- Two rooted functions are compared by parameter, body and own name. Where these are alike, a function is equal to itself, and the
comparison of two functions with different own locations does not end. -/
theorem Value.same?_rooted {s : Store} {p p' f f' : String} {b b' : Expr} {l l' : Loc} {env env' : Env}
    (h : (Value.closure p b ((f, l) :: env)).Rooted s) (h' : (Value.closure p' b' ((f', l') :: env')).Rooted s) (n : Nat) :
    Value.same? s (n + 1) (.closure p b ((f, l) :: env)) (.closure p' b' ((f', l') :: env')) =
      if (p = p' && b.alike b') = true ∧ f = f' then if l = l' then some true else none else some false := by
  obtain ⟨_, _, _, _, _, heq, hv⟩ := h
  obtain ⟨_, _, _, _, _, heq', hv'⟩ := h'
  cases heq
  cases heq'
  by_cases hpb : (p = p' && b.alike b') = true
  · by_cases hf : f = f'
    · rw [if_pos ⟨hpb, hf⟩]
      by_cases hl : l = l'
      · -- One location holds one function.
        subst hl
        rw [hv] at hv'
        cases hv'
        rw [if_pos rfl, Value.same?, if_pos hpb, Env.agree?_self]
      · -- The first bindings differ in their locations, which hold the functions themselves.
        rw [if_neg hl]
        induction n with
        | zero => simp only [Value.same?, if_pos hpb, Env.agree?, if_pos hf, if_neg hl]
        | succ n ih =>
          rw [Value.same?, if_pos hpb, Env.agree?, if_pos hf, if_neg hl, Store.get, hv, Store.get, hv', Option.getD_some,
            Option.getD_some, ih]
    · rw [if_neg (fun hand => hf hand.2), Value.same?, if_pos hpb, Env.agree?, if_neg hf]
  · rw [if_neg (fun hand => hpb hand.1), Value.same?, if_neg hpb]

end TuneLang
