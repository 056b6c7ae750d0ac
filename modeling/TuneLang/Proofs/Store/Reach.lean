import TuneLang.Proofs.Expr.Plain

/-!
# What an evaluation can reach

From an environment a location is reached that it binds, and from a location that holds a function those that the function's
environment binds. An evaluation stays within the locations reached from its environment and those that it makes itself, its
territory: it changes no other location, and neither what it returns nor what it leaves at a location of its territory leads out of
the territory (`Expr.encapsulation`). This holds however the evaluation ends, as assignments are kept when it ends with a fault.
-/

namespace TuneLang

/-- The locations that an environment binds. -/
def Env.locs (env : Env) : List Loc := env.map Prod.snd

/-- The locations that a function's environment binds. Data binds none. -/
def Value.locs : Value → List Loc
  | .closure _ _ env => env.locs
  | _ => []

/-- The locations that are reached from given ones, through the functions that are held on the way. -/
inductive Store.Reaches (s : Store) (roots : List Loc) : Loc → Prop where
  | root {l : Loc} : l ∈ roots → s.Reaches roots l
  | held {k l : Loc} {v : Value} : s.Reaches roots k → s.get? k = some v → l ∈ v.locs → s.Reaches roots l

/-- Whether the functions in a store have plain bodies. -/
def Store.Plain (s : Store) : Prop := s.All Value.Plain

/-- What is reached from locations inside a set stays inside, when the functions held there bind locations inside only. -/
theorem Store.Reaches.inside {s : Store} {roots : List Loc} {P : Loc → Prop} (hroots : ∀ l ∈ roots, P l)
    (hclosed : ∀ k v, P k → s.get? k = some v → ∀ l ∈ v.locs, P l) {l : Loc} (h : s.Reaches roots l) : P l := by
  induction h with
  | root hl => exact hroots _ hl
  | held _ hv hl ih => exact hclosed _ _ ih hv _ hl

/-- The location of a name is bound by its environment. -/
theorem Env.mem_locs_of_find? {env : Env} {x : String} {l : Loc} (h : env.find? x = some l) : l ∈ env.locs := by
  induction env with
  | nil => cases h
  | cons b env ih =>
    obtain ⟨y, k⟩ := b
    rw [Env.find?, List.lookup_cons] at h
    split at h
    · cases h
      exact List.mem_cons_self
    · exact List.mem_cons_of_mem _ (ih h)

/-! ## Territory -/

section

variable (start : Store) (home : Env)

/-- The territory of an evaluation that began with a store and an environment, once it has come to a store: the locations that were
reached at the beginning, and those made since. -/
def Store.Territory (s : Store) (l : Loc) : Prop := start.Reaches home.locs l ∨ (start.next ≤ l ∧ l < s.next)

/-- What holds of the stores that an evaluation comes to. -/
structure Store.Encapsulated (s : Store) : Prop where
  /-- No location was given up. -/
  grown : start.next ≤ s.next
  /-- What lies outside the territory is as it was. -/
  frame : ∀ l, l < start.next → ¬ start.Reaches home.locs l → s.get? l = start.get? l
  /-- Nothing leads out of the territory. -/
  closed : ∀ l v, Store.Territory start home s l → s.get? l = some v → ∀ k ∈ v.locs, Store.Territory start home s k
  plain : s.Plain

/-- Evaluations stay within their territory. -/
def Reach.discipline : StoreDiscipline where
  Sound s := Store.Encapsulated start home s
  Leads s s' := s.next ≤ s'.next
  Proper s v := v.Plain ∧ ∀ k ∈ v.locs, Store.Territory start home s k
  Ready s env e := e.Plain ∧ ∀ k ∈ env.locs, Store.Territory start home s k
  Allowed _ := True

end

variable {start : Store} {home : Env}

/-- A territory only grows. -/
theorem Store.Territory.later {s s' : Store} {l : Loc} (hl : s.next ≤ s'.next) (h : Store.Territory start home s l) :
    Store.Territory start home s' l := by
  rcases h with h | ⟨h, h'⟩
  · exact Or.inl h
  · exact Or.inr ⟨h, Nat.lt_of_lt_of_le h' hl⟩

/-- A new location belongs to the territory. -/
theorem Store.Territory.fresh {s : Store} (hs : start.next ≤ s.next) (v : Value) :
    Store.Territory start home (s.push v) s.next := Or.inr ⟨hs, s.next_lt_push v⟩

/-- A new location keeps a store encapsulated when its value leads to the territory, the new location included. -/
theorem Store.Encapsulated.push {s : Store} {v : Value} (hs : Store.Encapsulated start home s) (hv : v.Plain)
    (hk : ∀ k ∈ v.locs, Store.Territory start home (s.push v) k) : Store.Encapsulated start home (s.push v) where
  grown := Nat.le_trans hs.grown (Nat.le_of_lt (s.next_lt_push v))
  frame := by
    intro l hl hout
    rw [Store.get?_push, if_neg (Nat.ne_of_lt (Nat.lt_of_lt_of_le hl hs.grown))]
    exact hs.frame l hl hout
  closed := by
    intro l u hl hu
    rcases Store.held_push hu with ⟨_, rfl⟩ | ⟨hne, hu⟩
    · exact hk
    · have hold : Store.Territory start home s l := by
        rcases hl with hl | ⟨hl, hl'⟩
        · exact Or.inl hl
        · rw [Store.next_push] at hl'
          exact Or.inr ⟨hl, Nat.lt_of_le_of_ne (Nat.le_of_lt_succ hl') hne⟩
      intro k hk'
      exact (hs.closed l u hold hu k hk').later (Nat.le_of_lt (s.next_lt_push v))
  plain := Store.All.push hs.plain hv

/-- An assignment within the territory keeps a store encapsulated when its value leads to the territory. -/
theorem Store.Encapsulated.set {s : Store} {l : Loc} {v : Value} (hs : Store.Encapsulated start home s)
    (hl : Store.Territory start home s l) (hv : v.Plain) (hk : ∀ k ∈ v.locs, Store.Territory start home s k) :
    Store.Encapsulated start home (s.set l v) where
  grown := by
    rw [Store.next_set]
    exact hs.grown
  frame := by
    intro k hk' hout
    have hne : l ≠ k := by
      rintro rfl
      rcases hl with hl | ⟨hl, _⟩
      · exact hout hl
      · exact absurd hk' (Nat.not_lt.mpr hl)
    rw [Store.get?_set, if_neg hne]
    exact hs.frame k hk' hout
  closed := by
    intro k u hk' hu j hj
    have hsame : ∀ i, Store.Territory start home (s.set l v) i ↔ Store.Territory start home s i := by
      intro i
      simp only [Store.Territory, Store.next_set]
    rw [hsame] at hk' ⊢
    rcases Store.held_set hu with ⟨_, rfl⟩ | ⟨_, hu⟩
    · exact hk j hj
    · exact hs.closed k u hk' hu j hj
  plain := Store.All.set hs.plain hv

/-- An environment within the territory stays there with one more name, bound to the new location. -/
theorem Reach.bind {s : Store} {env : Env} {x : String} {v : Value} (hs : start.next ≤ s.next)
    (h : ∀ k ∈ env.locs, Store.Territory start home s k) :
    ∀ k ∈ Env.locs ((x, s.next) :: env), Store.Territory start home (s.push v) k := by
  intro k hk
  rcases List.mem_cons.mp hk with rfl | hk
  · exact Store.Territory.fresh hs v
  · exact (h k hk).later (Nat.le_of_lt (s.next_lt_push v))

/-- Data leads nowhere. -/
theorem Reach.data {s : Store} {v : Value} (h : v.isClosure = false) :
    v.Plain ∧ ∀ k ∈ v.locs, Store.Territory start home s k := by
  cases v with
  | closure p b env => cases h
  | _ => exact ⟨trivial, fun k hk => absurd hk List.not_mem_nil⟩

/-- Every construct stays within the territory. -/
theorem Reach.lawful : (Reach.discipline start home).Lawful where
  refl := Nat.le_refl _
  trans := Nat.le_trans
  proper_later hl hv := ⟨hv.1, fun k hk => (hv.2 k hk).later hl⟩
  ready_later hl hr := ⟨hr.1, fun k hk => (hr.2 k hk).later hl⟩
  operand hr ha := ⟨hr.1.operand ha, hr.2⟩
  allowed _ := trivial
  data := Reach.data
  lit hr := Reach.data hr.1
  name hs hr hx hl := ⟨hs.plain _ _ hl, hs.closed _ _ (hr.2 _ (Env.mem_locs_of_find? hx)) hl⟩
  unbound _ _ _ := trivial
  push := by
    intro s v hs hv
    have hnext : s.next ≤ (s.push v).next := Nat.le_of_lt (s.next_lt_push v)
    exact ⟨hnext, hs.push hv.1 (fun k hk => (hv.2 k hk).later hnext)⟩
  letIn hs hr _ := ⟨hr.1.2, Reach.bind hs.grown hr.2⟩
  letFun := by
    intro s env f p b i hs hr
    have hown : ∀ k ∈ Env.locs ((f, s.next) :: env),
        Store.Territory start home (s.push (.closure p b ((f, s.next) :: env))) k := Reach.bind hs.grown hr.2
    exact ⟨Nat.le_of_lt (s.next_lt_push _), hs.push hr.1.1 hown, hr.1.2, hown⟩
  app hs hc _ := ⟨hc.1, Reach.bind hs.grown hc.2⟩
  assign := by
    intro s s' env x e l v _ hr hx _ hl hs' hv
    have hnext : (s'.set l v).next = s'.next := Store.next_set s' l v
    have hplace := (hr.2 l (Env.mem_locs_of_find? hx)).later hl
    refine ⟨?_, hs'.set hplace hv.1 hv.2, hv.1, fun k hk => (hv.2 k hk).later (Nat.le_of_eq hnext.symm)⟩
    show s.next ≤ (s'.set l v).next
    rw [hnext]
    exact hl

/-- At the beginning the territory is what is reached. -/
theorem Store.encapsulated_start {s : Store} (home : Env) (hs : s.Plain) : Store.Encapsulated s home s where
  grown := Nat.le_refl _
  frame _ _ _ := rfl
  closed := by
    intro l v hl hv k hk
    rcases hl with hl | ⟨hl, hl'⟩
    · exact Or.inl (hl.held hv hk)
    · exact absurd hl' (Nat.not_lt.mpr hl)
  plain := hs

/-- Encapsulation. However the evaluation of a plain expression ends, among functions with plain bodies, every location that was
there before and is not reached from the environment holds what it held; and every location that is reached from the value, or
from a location that was reached before, was reached before or made by the evaluation. -/
theorem Expr.encapsulation (env : Env) (e : Expr) (m : Machine) (he : e.Plain) (hm : m.store.Plain) (n : Nat) :
    (∀ l, l < m.store.next → ¬ m.store.Reaches env.locs l →
      (EvalM.left (e.eval n env m)).store.get? l = m.store.get? l) ∧
    (∀ v m', e.eval n env m = .ok v m' → ∀ l, m'.store.Reaches v.locs l →
      m.store.Reaches env.locs l ∨ (m.store.next ≤ l ∧ l < m'.store.next)) ∧
    (∀ k l, m.store.Reaches env.locs k → (EvalM.left (e.eval n env m)).store.Reaches [k] l →
      m.store.Reaches env.locs l ∨ (m.store.next ≤ l ∧ l < (EvalM.left (e.eval n env m)).store.next)) := by
  have hready : (Reach.discipline m.store env).Ready m.store env e := ⟨he, fun k hk => Or.inl (.root hk)⟩
  have h := Reach.lawful.toDiscipline.eval n env e m (Store.encapsulated_start env hm) hready
  have hleft : Store.Encapsulated m.store env (EvalM.left (e.eval n env m)).store := h.left.2
  refine ⟨hleft.frame, ?_, ?_⟩
  · intro v m' hend l hl
    rw [hend] at h hleft
    exact hl.inside h.2.2.2 hleft.closed
  · intro k l hk hl
    refine hl.inside ?_ hleft.closed
    intro j hj
    rw [List.mem_singleton.mp hj]
    exact Or.inl hk

/-- A store with a number, another number, and a function that adds to the first one. -/
def Store.account : Store :=
  ((Store.empty.push (.int 1)).push (.int 2)).push
    (.closure "y" (.assign "x" (.binary .add (.name "x") (.name "y"))) [("f", 2), ("x", 0)])

/-- From the function's name the second number is not reached, and applying the function leaves it as it is. -/
theorem Expr.encapsulation_account :
    (Expr.app (.name "f") (.lit (.int 5))).Plain ∧ Store.account.Plain ∧ ¬ Store.account.Reaches (Env.locs [("f", 2)]) 1 ∧
      ∀ n w, (EvalM.left ((Expr.app (.name "f") (.lit (.int 5))).eval n [("f", 2)] ⟨Store.account, w⟩)).store.get? 1 =
        some (.int 2) := by
  have happ : (Expr.app (.name "f") (.lit (.int 5))).Plain := ⟨trivial, rfl⟩
  have hplain : Store.account.Plain := by
    intro l v hv
    rcases Store.held_push hv with ⟨_, rfl⟩ | ⟨_, hv⟩
    · exact ⟨trivial, trivial⟩
    · rcases Store.held_push hv with ⟨_, rfl⟩ | ⟨_, hv⟩
      · exact trivial
      · rcases Store.held_push hv with ⟨_, rfl⟩ | ⟨_, hv⟩
        · exact trivial
        · simp [Store.empty, Store.get?] at hv
  have hout : ¬ Store.account.Reaches (Env.locs [("f", 2)]) 1 := by
    intro h
    have hfirst : Store.account.get? 0 = some (.int 1) := rfl
    have hfunction : Store.account.get? 2 =
        some (.closure "y" (.assign "x" (.binary .add (.name "x") (.name "y"))) [("f", 2), ("x", 0)]) := rfl
    have hin : (1 : Loc) = 0 ∨ (1 : Loc) = 2 := by
      refine Store.Reaches.inside (P := fun l => l = 0 ∨ l = 2) ?_ ?_ h
      · intro l hl
        exact Or.inr (List.mem_singleton.mp hl)
      · rintro k v (rfl | rfl) hv l hl
        · rw [hfirst] at hv
          cases hv
          exact absurd hl List.not_mem_nil
        · rw [hfunction] at hv
          cases hv
          rcases List.mem_cons.mp hl with rfl | hl
          · exact Or.inr rfl
          · exact Or.inl (List.mem_singleton.mp hl)
    exact absurd hin (by decide)
  have hbefore : 1 < Store.account.next := by decide
  refine ⟨happ, hplain, hout, fun n w => ?_⟩
  exact (Expr.encapsulation _ _ ⟨Store.account, w⟩ happ hplain n).1 1 hbefore hout

end TuneLang
