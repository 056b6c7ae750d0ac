import TuneLang.Proofs.Eval.History
import TuneLang.Proofs.Store.Rooted

/-!
# Functions stay where they are

A location that holds a function is never assigned to. An assignment looks at its location before its right side runs and puts the
value there only afterwards; in between the right side may have put a function there, but no location that held one at the
beginning is given another value, however the evaluation ends. And the location that a function gets under its own name is newer
than the location of any assignment that is still waiting for its right side, so that it holds the function at every later moment
of a run (`Expr.function_lasts`).
-/

namespace TuneLang

/-- How a store is related to a later one: no location was given up, and each that held a function holds it still. -/
structure Store.Lasts (s s' : Store) : Prop where
  grown : s.next ≤ s'.next
  kept : ∀ l v, v.isClosure = true → s.get? l = some v → s'.get? l = some v

theorem Store.Lasts.refl (s : Store) : s.Lasts s := ⟨Nat.le_refl _, fun _ _ _ h => h⟩

theorem Store.Lasts.trans {s s' s'' : Store} (h : s.Lasts s') (h' : s'.Lasts s'') : s.Lasts s'' where
  grown := Nat.le_trans h.grown h'.grown
  kept l v hv hl := h'.kept l v hv (h.kept l v hv hl)

/-- A new location leaves all others as they are. -/
theorem Store.lasts_push (s : Store) (v : Value) : s.Lasts (s.push v) where
  grown := Nat.le_of_lt (s.next_lt_push v)
  kept := by
    intro l u _ hl
    rw [Store.get?_push, if_neg (Nat.ne_of_lt (Store.lt_next_of_get? hl))]
    exact hl

/-- What a location is given after the right side ran does not matter to the functions held before, when it held none then. -/
theorem Store.Lasts.set {s s' : Store} {l : Loc} (v : Value) (hdata : (s.get l).isClosure = false) (h : s.Lasts s') :
    s.Lasts (s'.set l v) where
  grown := by
    rw [Store.next_set]
    exact h.grown
  kept := by
    intro k u hu hk
    have hne : l ≠ k := by
      rintro rfl
      rw [Store.get, hk, Option.getD_some, hu] at hdata
      cases hdata
    rw [Store.get?_set, if_neg hne]
    exact h.kept k u hu hk

/-- Functions stay where they are, whatever else the store, the environment and the expression may hold. -/
def Lasting.discipline : StoreDiscipline where
  Sound _ := True
  Leads s s' := s.Lasts s'
  Proper _ _ := True
  Ready _ _ _ := True
  Allowed _ := True

theorem Lasting.lawful : Lasting.discipline.Lawful where
  refl := Store.Lasts.refl _
  trans := Store.Lasts.trans
  proper_later _ _ := trivial
  ready_later _ _ := trivial
  operand _ _ := trivial
  allowed _ := trivial
  data _ := trivial
  lit _ := trivial
  name _ _ _ _ := trivial
  unbound _ _ _ := trivial
  push _ _ := ⟨Store.lasts_push _ _, trivial⟩
  letIn _ _ _ := trivial
  letFun _ _ := ⟨Store.lasts_push _ _, trivial, trivial⟩
  app _ _ _ := trivial
  assign _ _ _ hdata hl _ _ := ⟨hl.set _ hdata, trivial, trivial⟩

/-! ## Locations that were made -/

mutual

/-- The locations that occur in a value: those that a function's environment binds, and those in its body. -/
def Value.mentions : Value → List Loc
  | .closure _ body env => env.locs ++ body.mentions
  | _ => []

/-- The locations that occur in the literals of an expression. -/
def Expr.mentions : Expr → List Loc
  | .lit v => v.mentions
  | .binary _ left right => left.mentions ++ right.mentions
  | .logic _ left right => left.mentions ++ right.mentions
  | .unary _ operand => operand.mentions
  | .slice tune start stop => tune.mentions ++ start.mentions ++ stop.mentions
  | .cond test yes no => test.mentions ++ yes.mentions ++ no.mentions
  | .letIn _ definition body => definition.mentions ++ body.mentions
  | .letFun _ _ body scope => body.mentions ++ scope.mentions
  | .app function argument => function.mentions ++ argument.mentions
  | .assign _ value => value.mentions
  | .seq first second => first.mentions ++ second.mentions
  | .display shown => shown.mentions
  | .write tune _ => tune.mentions
  | .note _ _ => []
  | .name _ => []
  | .read => []
  | .run _ => []
  | .stray v => v.mentions

end

/-- The locations in an operand occur in the expression. -/
theorem Expr.mentions_operand {e a : Expr} (ha : a ∈ e.operands) : ∀ l ∈ a.mentions, l ∈ e.mentions := by
  intro l hl
  cases e with
  | lit | note | name | letFun | read | run | stray => simp [Expr.operands] at ha
  | unary | display | write | assign =>
    simp only [Expr.operands, List.mem_singleton] at ha
    subst ha
    simpa [Expr.mentions] using hl
  | letIn =>
    simp only [Expr.operands, List.mem_singleton] at ha
    subst ha
    simp [Expr.mentions, hl]
  | binary | logic | app | seq =>
    simp only [Expr.operands, List.mem_cons, List.not_mem_nil, or_false] at ha
    rcases ha with rfl | rfl <;> simp [Expr.mentions, hl]
  | slice | cond =>
    simp only [Expr.operands, List.mem_cons, List.not_mem_nil, or_false] at ha
    rcases ha with rfl | rfl | rfl <;> simp [Expr.mentions, hl]

/-- Whether all of some locations were made. -/
def Store.Makes (s : Store) (ls : List Loc) : Prop := ∀ l ∈ ls, l < s.next

theorem Store.Makes.later {s s' : Store} {ls : List Loc} (hl : s.next ≤ s'.next) (h : s.Makes ls) : s'.Makes ls :=
  fun l hmem => Nat.lt_of_lt_of_le (h l hmem) hl

/-- Whether a store holds values with locations of its own only. -/
def Store.Sealed (s : Store) : Prop := s.All (fun v => s.Makes v.mentions)

/-- A store stays sealed when a new location gets a value with locations that were made by then. -/
theorem Store.Sealed.push {s : Store} {v : Value} (hs : s.Sealed) (hv : (s.push v).Makes v.mentions) : (s.push v).Sealed := by
  have hlater : s.All (fun u => (s.push v).Makes u.mentions) :=
    fun l u hu => (hs l u hu).later (Nat.le_of_lt (s.next_lt_push v))
  exact hlater.push hv

/-- A store stays sealed when a location is given a value with locations that were made. -/
theorem Store.Sealed.set {s : Store} {l : Loc} {v : Value} (hs : s.Sealed) (hv : s.Makes v.mentions) : (s.set l v).Sealed := by
  have hnext : s.next ≤ (s.set l v).next := Nat.le_of_eq (Store.next_set s l v).symm
  have hlater : s.All (fun u => (s.set l v).Makes u.mentions) := fun k u hu => (hs k u hu).later hnext
  exact hlater.set (hv.later hnext)

/-- Functions stay where they are, and only locations that were made occur. -/
def Sealed.discipline : StoreDiscipline where
  Sound s := s.Sealed
  Leads s s' := s.Lasts s'
  Proper s v := s.Makes v.mentions
  Ready s env e := env.Within s ∧ s.Makes e.mentions
  Allowed _ := True

theorem Sealed.data {s : Store} {v : Value} (h : v.isClosure = false) : s.Makes v.mentions := by
  cases v with
  | closure p b env => cases h
  | _ => simp [Store.Makes, Value.mentions]

theorem Sealed.lawful : Sealed.discipline.Lawful where
  refl := Store.Lasts.refl _
  trans := Store.Lasts.trans
  proper_later hl hv := hv.later hl.grown
  ready_later hl hr := ⟨hr.1.later hl.grown, hr.2.later hl.grown⟩
  operand hr ha := ⟨hr.1, fun l hl => hr.2 l (Expr.mentions_operand ha l hl)⟩
  allowed _ := trivial
  data := Sealed.data
  lit := by
    intro s env v hr
    simpa [Sealed.discipline, Expr.mentions] using hr.2
  name hs _ _ hl := hs _ _ hl
  unbound _ _ _ := trivial
  push hs hv := ⟨Store.lasts_push _ _, hs.push (hv.later (Store.lasts_push _ _).grown)⟩
  letIn := by
    intro s env x d b v _ hr _
    refine ⟨hr.1.push x v, fun l hl => ?_⟩
    exact hr.2.later (s.lasts_push v).grown l (by simp [Expr.mentions, hl])
  letFun := by
    intro s env f p b i hs hr
    have hown := hr.1.push f (.closure p b ((f, s.next) :: env))
    have hlater := hr.2.later (s.lasts_push (.closure p b ((f, s.next) :: env))).grown
    refine ⟨s.lasts_push _, hs.push ?_, hown, fun l hl => hlater l (by simp [Expr.mentions, hl])⟩
    intro l hl
    rw [Value.mentions, List.mem_append] at hl
    rcases hl with hl | hl
    · exact hown l hl
    · exact hlater l (by simp [Expr.mentions, hl])
  app := by
    intro s p b captured v _ hc _
    simp only [Sealed.discipline, Store.Makes, Value.mentions, List.mem_append] at hc
    have hin : captured.Within s := fun l hl => hc l (Or.inl hl)
    exact ⟨hin.push p v, fun l hl => Nat.lt_of_lt_of_le (hc l (Or.inr hl)) (s.lasts_push v).grown⟩
  assign := by
    intro s s' env x e l v _ _ _ hdata hl hs' hv
    exact ⟨hl.set v hdata, hs'.set hv, hv.later (Nat.le_of_eq (Store.next_set s' l v).symm)⟩

/-! ## Later moments -/

/-- Whether a function that is made when the first moment begins is held, at the second one, at the location it was given. -/
def Moment.Lasts (x y : Moment) : Prop :=
  ∀ env f p b i m, x = .begins env (.letFun f p b i) m →
    y.machine.store.get? m.store.next = some (.closure p b ((f, m.store.next) :: env))

/-- A function that is made in a run is held when the run ends, if it is held at all later moments of the run. -/
theorem Moment.lasts_end {n : Nat} {env : Env} {e : Expr} {m : Machine} {x : Moment}
    (h : (e.history n env m).Pairwise Moment.Lasts) (hx : x ∈ e.history n env m) :
    x.Lasts (.ends (EvalM.left (e.eval n env m))) := by
  obtain ⟨earlier, heq⟩ := Expr.history_last n env e m
  rw [heq] at h hx
  rcases List.mem_append.mp hx with hx | hx
  · exact (List.pairwise_append.mp h).2.2 x hx _ List.mem_cons_self
  · rw [List.mem_singleton.mp hx]
    intro env' f p b i m' hbegins
    cases hbegins

/-- What is held at one moment is held in every store that comes later. -/
theorem Moment.Lasts.later {x y z : Moment} (h : x.Lasts y) (hl : y.machine.store.Lasts z.machine.store) : x.Lasts z :=
  fun env f p b i m hx => hl.kept _ _ rfl (h env f p b i m hx)

/-- A function is held at every moment after it was made. -/
theorem Expr.history_lasts (n : Nat) : ∀ (env : Env) (e : Expr) (m : Machine), m.store.Sealed → env.Within m.store →
    m.store.Makes e.mentions → (e.history n env m).Pairwise Moment.Lasts := by
  have hlaw := Sealed.lawful.toDiscipline
  induction n with
  | zero =>
    intro env e m _ _ _
    exact List.pairwise_singleton _ _
  | succ n ih =>
    intro env e m hs henv he
    have hcourse := hlaw.course (n := n) hs (⟨henv, he⟩ : Sealed.discipline.toDiscipline.Ready m env e)
    have htask := hlaw.course_task hcourse
    have hmoment : ∀ t ∈ e.tasks n env m, ∀ y ∈ t.expr.history n t.env t.machine,
        t.machine.store.Lasts y.machine.store := by
      intro t ht y hy
      obtain ⟨_, hs', hr'⟩ := htask t ht
      exact (hlaw.history n t.env t.expr t.machine hs' hr' y hy).1
    have hpair : ∀ t ∈ e.tasks n env m, (t.expr.history n t.env t.machine).Pairwise Moment.Lasts := by
      intro t ht
      obtain ⟨_, hs', henv', he'⟩ := htask t ht
      exact ih t.env t.expr t.machine hs' henv' he'
    rw [Expr.history, List.cons_append, List.pairwise_cons, List.pairwise_append, List.pairwise_flatMap]
    refine ⟨?_, ⟨hpair, ?_⟩, List.pairwise_singleton _ _, ?_⟩
    · -- The function that this evaluation makes, and its one task.
      rintro y hy env' f p b i m' ⟨⟩
      have hmade : (m.push (.closure p b ((f, m.store.next) :: env))).store.get? m.store.next =
          some (.closure p b ((f, m.store.next) :: env)) := by
        rw [Machine.push, Store.get?_push, if_pos rfl]
      simp only [Expr.tasks, List.flatMap_cons, List.flatMap_nil, List.append_nil, List.mem_append, List.mem_singleton] at hy
      obtain ⟨_, hs', hr'⟩ := htask _ List.mem_cons_self
      rcases hy with hy | rfl
      · exact (hmoment _ List.mem_cons_self y hy).kept _ _ rfl hmade
      · exact (hlaw.leads_left (n := n) hs' hr').kept _ _ rfl hmade
    · -- A function that one task makes, at the moments of a later task.
      refine (hlaw.course_pairwise hcourse).imp_of_mem ?_
      intro t u ht hu hl x hx y hy
      have hend : x.Lasts (.ends (t.left n)) := Moment.lasts_end (hpair t ht) hx
      exact hend.later (hl.trans (hmoment u hu y hy))
    · -- A function that a task makes, when the evaluation ends.
      intro x hx y hy
      obtain ⟨t, ht, hx⟩ := List.mem_flatMap.mp hx
      rw [List.mem_singleton.mp hy]
      obtain ⟨m₁, hl, hsettles⟩ := hlaw.course_end hcourse t ht
      have hlast : x.Lasts (.ends m₁) := (Moment.lasts_end (hpair t ht) hx).later hl
      intro env' f p b i m' hbegins
      have hheld := hlast env' f p b i m' hbegins
      rcases hsettles with hsame | ⟨z, a, l, v, _, hz, hset⟩
      · simp only [Moment.machine] at hheld ⊢
        rw [hsame]
        exact hheld
      · -- The assigned location was there before the task, and the function's location was not.
        have hgrown : m.store.next ≤ m'.store.next := by
          have hbefore := (htask t ht).1.grown
          have hduring := (hmoment t ht x hx).grown
          rw [hbegins] at hduring
          exact Nat.le_trans hbefore hduring
        have hne : l ≠ m'.store.next :=
          Nat.ne_of_lt (Nat.lt_of_lt_of_le (henv l (Env.mem_locs_of_find? hz)) hgrown)
        simp only [Moment.machine] at hheld ⊢
        rw [hset, Store.get?_set, if_neg hne]
        exact hheld

/-- Functions last. A location that holds a function when an evaluation begins holds the same function when the evaluation ends,
with a value or with any fault. And in a run that begins with locations that were made, the location that a function gets under its
own name holds that function at every later moment of the run. -/
theorem Expr.function_lasts :
    (∀ (n : Nat) (env : Env) (e : Expr) (m : Machine) (l : Loc) (p : String) (b : Expr) (captured : Env),
      m.store.get? l = some (.closure p b captured) →
        (EvalM.left (e.eval n env m)).store.get? l = some (.closure p b captured)) ∧
    (∀ (n : Nat) (env : Env) (e : Expr) (m : Machine), m.store.Sealed → env.Within m.store → m.store.Makes e.mentions →
      (e.history n env m).Pairwise Moment.Lasts) := by
  refine ⟨?_, Expr.history_lasts⟩
  intro n env e m l p b captured hl
  have hlasts := (Lasting.lawful.toDiscipline.eval n env e m trivial trivial).left.1
  exact hlasts.kept l _ rfl hl

/-- A store with a function and a number. -/
def Store.shelf : Store := (Store.empty.push (.closure "y" (.name "y") [("f", 0)])).push (.int 1)

/-- An assignment whose right side assigns a function to the same location, and then makes another function. -/
def Expr.overwriting : Expr :=
  .assign "x" (.seq (.assign "x" (.name "f")) (.letFun "g" "z" (.name "z") (.lit (.int 5))))

/-- The function that the right side assigns is overwritten, at the location of the number. The function in the store is not, and
neither is the one that the right side makes. -/
theorem Expr.function_lasts_overwriting :
    Store.shelf.get? 0 = some (.closure "y" (.name "y") [("f", 0)]) ∧ Store.shelf.Sealed ∧
      Env.Within [("x", 1), ("f", 0)] .shelf ∧ Store.shelf.Makes Expr.overwriting.mentions ∧
      (∀ n w, (EvalM.left (Expr.overwriting.eval n [("x", 1), ("f", 0)] ⟨.shelf, w⟩)).store.get? 0 =
        some (.closure "y" (.name "y") [("f", 0)])) ∧
      ∀ n w, (Expr.overwriting.history n [("x", 1), ("f", 0)] ⟨.shelf, w⟩).Pairwise Moment.Lasts := by
  have hheld : Store.shelf.get? 0 = some (.closure "y" (.name "y") [("f", 0)]) := rfl
  have hsealed : Store.shelf.Sealed := by
    have hempty : Store.empty.Sealed := Store.all_empty _
    have hone : (Store.empty.push (.closure "y" (.name "y") [("f", 0)])).Sealed := by
      refine hempty.push ?_
      intro l hl
      simp only [Value.mentions, Expr.mentions, Env.locs, List.map_cons, List.map_nil, List.append_nil, List.mem_singleton] at hl
      rw [hl, Store.next_push]
      exact Nat.succ_pos _
    exact hone.push (Sealed.data rfl)
  have hwithin : Env.Within [("x", 1), ("f", 0)] .shelf := by decide
  have hmakes : Store.shelf.Makes Expr.overwriting.mentions := by
    simp [Store.Makes, Expr.overwriting, Expr.mentions, Value.mentions]
  refine ⟨hheld, hsealed, hwithin, hmakes, fun n w => ?_, fun n w => ?_⟩
  · exact Expr.function_lasts.1 n _ Expr.overwriting ⟨.shelf, w⟩ 0 _ _ _ hheld
  · exact Expr.function_lasts.2 n _ Expr.overwriting ⟨.shelf, w⟩ hsealed hwithin hmakes

end TuneLang
