import TuneLang.Proofs.Eval.Chain
import TuneLang.Proofs.Expr.Parts
import TuneLang.Proofs.Store.Lasting

/-!
# Where functions come from

Every function that is held at its own location was made there: a definition began to be evaluated when that location was the next
one, and the function has the name, parameter and body of the definition, and its environment (`Expr.history_descends`). No two
definitions make the same location (`Expr.made_increasing`), so a function's own location tells it from every other one.
-/

namespace TuneLang

/-- Whether a location was made, at one of some moments, for the function of a definition. -/
def Moment.Makes (moments : List Moment) (l : Loc) (f p : String) (b : Expr) (env : Env) : Prop :=
  ∃ i m, .begins env (.letFun f p b i) m ∈ moments ∧ m.store.next = l

/-- The location that is made for a function at a moment, if one is. -/
def Moment.made? : Moment → Option Loc
  | .begins _ (.letFun _ _ _ _) m => some m.store.next
  | _ => none

/-- Whether each function at its own location in the second store is held in the first one, or was made at one of some moments. -/
def Store.Descends (s : Store) (moments : List Moment) (s' : Store) : Prop :=
  ∀ l f p b env, s'.get? l = some (.closure p b ((f, l) :: env)) →
    s.get? l = some (.closure p b ((f, l) :: env)) ∨ Moment.Makes moments l f p b env

theorem Store.Descends.refl (s : Store) (moments : List Moment) : s.Descends moments s := fun _ _ _ _ _ h => Or.inl h

/-- A function that was made during a part of a run was made during the run. -/
theorem Store.Descends.trans {s s' s'' : Store} {moments part : List Moment} (h : s.Descends moments s')
    (h' : s'.Descends part s'') (hpart : ∀ x ∈ part, x ∈ moments) : s.Descends moments s'' := by
  intro l f p b env hl
  rcases h' l f p b env hl with hl | ⟨i, m, hmoment, hnext⟩
  · exact h l f p b env hl
  · exact Or.inr ⟨i, m, hpart _ hmoment, hnext⟩

/-- A new location keeps the descent of functions, if a function that has it as its own location was made. -/
theorem Store.Descends.push {s s' : Store} {moments : List Moment} {v : Value} (h : s.Descends moments s')
    (hv : ∀ f p b env, v = .closure p b ((f, s'.next) :: env) → Moment.Makes moments s'.next f p b env) :
    s.Descends moments (s'.push v) := by
  intro l f p b env hl
  rcases Store.held_push hl with ⟨rfl, hlast⟩ | ⟨_, hl⟩
  · exact Or.inr (hv f p b env hlast.symm)
  · exact h l f p b env hl

/-- The own location of a rooted function was made. -/
theorem Value.Rooted.own_ne_next {s : Store} {f p : String} {b : Expr} {l : Loc} {env : Env}
    (h : (Value.closure p b ((f, l) :: env)).Rooted s) : l ≠ s.next :=
  Nat.ne_of_lt (h.2.1 l List.mem_cons_self)

/-- What an evaluation leaves descends from what it began with, if what its last task left does: an assignment puts a function only
where it is not at its own location. -/
theorem Expr.Settles.descends {n : Nat} {env : Env} {e : Expr} {m m₁ : Machine} {moments : List Moment}
    (h : e.Settles n env m m₁) (henv : env.Within m.store) (hkeeps : m.store.Keeps (EvalM.left (e.eval (n + 1) env m)).store)
    (hlast : m.store.Descends moments m₁.store) : m.store.Descends moments (EvalM.left (e.eval (n + 1) env m)).store := by
  rcases h with hsame | ⟨x, a, l, v, _, hx, hset⟩
  · rw [hsame]
    exact hlast
  · intro k f p b captured hk
    have hheld := hk
    rw [hset] at hheld
    rcases Store.held_set hheld with ⟨rfl, _⟩ | ⟨_, hheld⟩
    · have hown := hkeeps.new k (henv k (Env.mem_locs_of_find? hx)) ⟨f, p, b, captured, hk⟩
      rw [← hkeeps.own k hown]
      exact Or.inl hk
    · exact hlast k f p b captured hheld

/-- Whether what an outcome leaves descends from a store, also when its value gets one more location. -/
def Task.Descends (s : Store) (moments : List Moment) : EStateM.Result Fault Machine Value → Prop
  | .ok v m => s.Descends moments m.store ∧ s.Descends moments (m.push v).store
  | .error _ m => s.Descends moments m.store

/-- A function that an evaluation ends with is rooted, so it is not at its own location when it gets one more. -/
theorem Task.descends_of_left {s : Store} {moments : List Moment} {r : EStateM.Result Fault Machine Value}
    (hleft : s.Descends moments (EvalM.left r).store) (hvalue : ∀ v m, r = .ok v m → v.Rooted m.store) :
    Task.Descends s moments r := by
  cases r with
  | error f m => exact hleft
  | ok v m =>
    have hm : s.Descends moments m.store := hleft
    refine ⟨hm, hm.push ?_⟩
    rintro f p b env rfl
    exact absurd rfl (hvalue _ _ rfl).own_ne_next

/-- An evaluation that makes a function does so at its first moment. -/
theorem Expr.made_descends (n : Nat) (env : Env) (e : Expr) (m : Machine) :
    Task.Descends m.store (e.history (n + 1) env m) (.ok (e.made env m) m) := by
  have hrefl := Store.Descends.refl m.store (e.history (n + 1) env m)
  refine ⟨hrefl, hrefl.push ?_⟩
  intro f p b captured hmade
  cases e with
  | letFun f' p' b' i =>
    cases hmade
    exact ⟨i, m, Expr.begins_mem_history n env _ m, rfl⟩
  | _ => cases hmade

/-- Every function that is held at its own location, at a moment of a run, was held there when the run began or was made during the
run. -/
theorem Expr.history_descends (n : Nat) : ∀ (env : Env) (e : Expr) (m : Machine), m.store.Rooted → e.Plain → env.Within m.store →
    ∀ x ∈ e.history n env m, m.store.Descends (e.history n env m) x.machine.store := by
  have hlaw := Rooted.lawful.toDiscipline
  induction n with
  | zero =>
    intro env e m _ _ _ x hx
    rw [Expr.history, List.mem_singleton] at hx
    subst hx
    exact Store.Descends.refl _ _
  | succ n ih =>
    intro env e m hs he henv x hx
    have hready : Rooted.discipline.toDiscipline.Ready m env e := ⟨he, henv⟩
    have htask := hlaw.course_task (hlaw.course (n := n) hs hready)
    -- The moments of a task descend from where it begins.
    have within : ∀ t ∈ e.tasks n env m, m.store.Descends (e.history (n + 1) env m) t.machine.store →
        ∀ y ∈ t.expr.history n t.env t.machine, m.store.Descends (e.history (n + 1) env m) y.machine.store := by
      intro t ht hbegin y hy
      obtain ⟨_, hs', hr'⟩ := htask t ht
      exact hbegin.trans (ih t.env t.expr t.machine hs' hr'.1 hr'.2 y hy) (fun z hz => Expr.mem_history_of_task ht hz)
    have hbegins : ∀ {t : Task} {v m₀}, Task.Descends m.store (e.history (n + 1) env m) (.ok v m₀) →
        (t.machine = m₀ ∨ t.machine = m₀.push v) → m.store.Descends (e.history (n + 1) env m) t.machine.store := by
      rintro t v m₀ hdescends (hsame | hpush)
      · rw [hsame]
        exact hdescends.1
      · rw [hpush]
        exact hdescends.2
    obtain ⟨hstarts, r, hconcludes, hlast⟩ := (e.chain n env m).carry (I := Task.Descends m.store (e.history (n + 1) env m))
      (e.made_descends n env m) (by
        intro t ht v m₀ hdescends hstart
        obtain ⟨_, hs', hr'⟩ := htask t ht
        have hleft := within t ht (hbegins hdescends hstart) _ (Expr.ends_mem_history n t.env t.expr t.machine)
        refine Task.descends_of_left hleft ?_
        intro u m₁ hresult
        have hend := hlaw.eval n t.env t.expr t.machine hs' hr'
        rw [show t.expr.eval n t.env t.machine = .ok u m₁ from hresult] at hend
        exact hend.2.2)
    simp only [Expr.history, List.mem_cons, List.mem_append, List.mem_flatMap, List.not_mem_nil, or_false] at hx
    rcases hx with (rfl | ⟨t, ht, hx⟩) | rfl
    · exact Store.Descends.refl _ _
    · obtain ⟨v, m₀, hdescends, hstart⟩ := hstarts t ht
      exact within t ht (hbegins hdescends hstart) x hx
    · cases r with
      | error f m₁ =>
        rw [Moment.machine, show e.eval (n + 1) env m = .error f m₁ from hconcludes]
        exact hlast
      | ok v m₁ =>
        have hkeeps := (hlaw.eval (n + 1) env e m hs hready).left.1
        exact hconcludes.store.descends henv hkeeps hlast.1

/-! ## Own locations -/

/-- A legible expression has no locations in it. -/
theorem Expr.Legible.mentions_eq_nil {e : Expr} (h : e.Legible) : e.mentions = [] := by
  induction e with
  | lit v =>
    have hv := h _ (Expr.self_mem_parts _)
    cases v with
    | int | bool => simp only [Expr.mentions, Value.mentions]
    | _ => exact hv.elim
  | stray v => exact (h _ (Expr.self_mem_parts _)).elim
  | note | name | read | run => simp only [Expr.mentions]
  | unary _ _ ih | assign _ _ ih | display _ ih | write _ _ ih =>
    simp only [Expr.mentions]
    exact ih (List.forall_mem_cons.mp h).2
  | binary _ _ _ ihl ihr | logic _ _ _ ihl ihr | letIn _ _ _ ihl ihr | letFun _ _ _ _ ihl ihr | app _ _ ihl ihr | seq _ _ ihl ihr =>
    obtain ⟨hl, hr⟩ := List.forall_mem_append.mp (List.forall_mem_cons.mp h).2
    simp only [Expr.mentions, ihl hl, ihr hr, List.append_nil]
  | slice _ _ _ ih₁ ih₂ ih₃ | cond _ _ _ ih₁ ih₂ ih₃ =>
    obtain ⟨h₁₂, h₃⟩ := List.forall_mem_append.mp (List.forall_mem_cons.mp h).2
    obtain ⟨h₁, h₂⟩ := List.forall_mem_append.mp h₁₂
    simp only [Expr.mentions, ih₁ h₁, ih₂ h₂, ih₃ h₃, List.append_nil]

/-- A function is made by a definition, at the next location. -/
theorem Moment.exists_of_made? {x : Moment} {l : Loc} (h : x.made? = some l) :
    ∃ env f p b i m, x = .begins env (.letFun f p b i) m ∧ m.store.next = l := by
  unfold Moment.made? at h
  split at h
  · rename_i env f p b i m
    exact ⟨env, f, p, b, i, m, rfl, Option.some.inj h⟩
  · cases h

/-- Each definition in a run makes a location that is newer than those that were made for functions before. -/
theorem Expr.made_increasing {e : Expr} (he : e.Legible) (n : Nat) (w : World) :
    ((e.history n [] ⟨.empty, w⟩).filterMap Moment.made?).Pairwise (· < ·) := by
  have hlasts := Expr.history_lasts n [] e ⟨.empty, w⟩ (Store.all_empty _) (fun _ hl => nomatch hl)
    (by rw [he.mentions_eq_nil]; exact fun _ hl => nomatch hl)
  rw [List.pairwise_filterMap]
  refine hlasts.imp ?_
  intro x y hxy l hx k hy
  obtain ⟨env, f, p, b, i, m, rfl, rfl⟩ := Moment.exists_of_made? hx
  obtain ⟨env', f', p', b', i', m', rfl, rfl⟩ := Moment.exists_of_made? hy
  exact Store.lt_next_of_get? (hxy env f p b i m rfl)

end TuneLang
