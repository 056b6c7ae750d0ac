import TuneLang.Proofs.Eval.Depth
import TuneLang.Proofs.Store.Rooted

/-!
# Twin evaluations

One expression is evaluated twice, in two environments that agree on its free names. The two evaluations are twins: they go on in
step, end in the same way, and leave machines with the same world and with corresponding values at corresponding locations
(`Expr.eval_twins`). Corresponding values are the same, except for functions: these have the same parameter and body, but
environments that agree on the free names of the function only.

The locations of the second evaluation may have other numbers than those of the first one, as given by a renaming. Functions are
compared by looking into their environments, beyond their free names; that the comparison has the same outcome in both evaluations
rests on functions being rooted.
-/

namespace TuneLang

/-- The free names of an expression: those that it reads or assigns to without binding them. -/
def Expr.free : Expr → List String
  | .lit _ | .note _ _ | .read | .run _ | .stray _ => []
  | .binary _ left right | .logic _ left right => left.free ++ right.free
  | .unary _ operand => operand.free
  | .slice tune start stop => tune.free ++ start.free ++ stop.free
  | .cond test yes no => test.free ++ yes.free ++ no.free
  | .name x => [x]
  | .letIn x definition body => definition.free ++ body.free.filter (· ≠ x)
  | .letFun f param body scope => (body.free.filter (· ≠ param) ++ scope.free).filter (· ≠ f)
  | .app function argument => function.free ++ argument.free
  | .assign x value => x :: value.free
  | .seq first second => first.free ++ second.free
  | .display shown => shown.free
  | .write tune _ => tune.free

/-- The free names of an operand are free in the expression. -/
theorem Expr.free_operand {e a : Expr} (ha : a ∈ e.operands) {x : String} (hx : x ∈ a.free) : x ∈ e.free := by
  cases e with
  | lit | note | name | letFun | read | run | stray => simp [Expr.operands] at ha
  | unary | display | write | assign | letIn =>
    simp only [Expr.operands, List.mem_singleton] at ha
    subst ha
    simp [Expr.free, hx]
  | binary | logic | app | seq =>
    simp only [Expr.operands, List.mem_cons, List.not_mem_nil, or_false] at ha
    rcases ha with rfl | rfl <;> simp [Expr.free, hx]
  | slice | cond =>
    simp only [Expr.operands, List.mem_cons, List.not_mem_nil, or_false] at ha
    rcases ha with rfl | rfl | rfl <;> simp [Expr.free, hx]

/-- Other numbers for locations. Different locations get different numbers, and those that are made one after the other, from `base`
on, are numbered one after the other. -/
structure Renaming where
  apply : Loc → Loc
  base : Loc
  injective : ∀ {l k : Loc}, apply l = apply k → l = k
  succ : ∀ l, base ≤ l → apply (l + 1) = apply l + 1

instance : CoeFun Renaming (fun _ => Loc → Loc) := ⟨Renaming.apply⟩

theorem Renaming.eq_iff (ρ : Renaming) (l k : Loc) : ρ l = ρ k ↔ l = k := ⟨ρ.injective, congrArg ρ⟩

/-- Every location keeps its number. -/
def Renaming.identity : Renaming := ⟨id, 0, fun h => h, fun _ _ => rfl⟩

section

variable (ρ : Renaming)

/-- Whether two environments bind given names to corresponding locations, or both do not bind them. -/
def Env.Agrees (names : List String) (env env' : Env) : Prop := ∀ x ∈ names, env'.find? x = (env.find? x).map ρ

/-- Corresponding values. Data corresponds to itself; functions have the same parameter, body and own name, corresponding own
locations, and environments that agree on the free names of the function. -/
inductive Value.Twin : Value → Value → Prop where
  | data {v : Value} : v.isClosure = false → Value.Twin v v
  | closure {p f : String} {b : Expr} {l : Loc} {env env' : Env} :
    Env.Agrees ρ (b.free.filter (· ≠ p)) ((f, l) :: env) ((f, ρ l) :: env') →
      Value.Twin (.closure p b ((f, l) :: env)) (.closure p b ((f, ρ l) :: env'))

/-- Corresponding machines. -/
structure Machine.Twin (m m' : Machine) : Prop where
  world : m'.world = m.world
  base : ρ.base ≤ m.store.next
  next : m'.store.next = ρ m.store.next
  held : ∀ l v, m.store.get? l = some v → ∃ v', m'.store.get? (ρ l) = some v' ∧ v.Twin ρ v'
  left : m.store.Rooted
  right : m'.store.Rooted

/-- Corresponding values of two machines. -/
structure Value.Pair (m m' : Machine) (v v' : Value) : Prop where
  twin : v.Twin ρ v'
  left : v.Rooted m.store
  right : v'.Rooted m'.store

/-- An expression is to be evaluated in two environments that agree on its free names. -/
structure Expr.Posed (m m' : Machine) (env env' : Env) (e : Expr) : Prop where
  plain : e.Plain
  left : env.Within m.store
  right : env'.Within m'.store
  agrees : Env.Agrees ρ e.free env env'

/-- Two steps that began in `m` and `m'` have ended alike: with the same fault, or with results that `R` relates. -/
def EvalM.Twins {α : Type} (m m' : Machine) (R : Machine → Machine → α → α → Prop) :
    EStateM.Result Fault Machine α → EStateM.Result Fault Machine α → Prop
  | .ok a m₁, .ok a' m₁' => m₁.Twin ρ m₁' ∧ m.store.Keeps m₁.store ∧ m'.store.Keeps m₁'.store ∧ R m₁ m₁' a a'
  | .error f m₁, .error f' m₁' => f' = f ∧ m₁.Twin ρ m₁'
  | _, _ => False

end

variable {ρ : Renaming}

/-! ## Environments -/

theorem Env.Agrees.subset {names names' : List String} {env env' : Env} (h : Env.Agrees ρ names env env')
    (hsub : ∀ x ∈ names', x ∈ names) : Env.Agrees ρ names' env env' := fun x hx => h x (hsub x hx)

/-- Environments that agree on some names agree on one more when both bind it to corresponding locations. -/
theorem Env.Agrees.cons {names : List String} {env env' : Env} {x : String} (h : Env.Agrees ρ (names.filter (· ≠ x)) env env')
    (l : Loc) : Env.Agrees ρ names ((x, l) :: env) ((x, ρ l) :: env') := by
  intro y hy
  by_cases hxy : y = x
  · simp [Env.find?, hxy]
  · simp only [Env.find?, List.lookup_cons, beq_false_of_ne hxy]
    exact h y (List.mem_filter.mpr ⟨hy, by simpa using hxy⟩)

/-- What is posed stays posed as the machines go on. -/
theorem Expr.Posed.later {m m' m₁ m₁' : Machine} {env env' : Env} {e : Expr} (h : e.Posed ρ m m' env env')
    (hl : m.store.Keeps m₁.store) (hl' : m'.store.Keeps m₁'.store) : e.Posed ρ m₁ m₁' env env' :=
  ⟨h.plain, h.left.later hl.grown, h.right.later hl'.grown, h.agrees⟩

theorem Expr.Posed.operand {m m' : Machine} {env env' : Env} {e a : Expr} (h : e.Posed ρ m m' env env')
    (ha : a ∈ e.operands) : a.Posed ρ m m' env env' :=
  ⟨h.plain.operand ha, h.left, h.right, h.agrees.subset (fun _ => Expr.free_operand ha)⟩

theorem Value.Pair.later {m m' m₁ m₁' : Machine} {v v' : Value} (h : v.Pair ρ m m' v') (hl : m.store.Keeps m₁.store)
    (hl' : m'.store.Keeps m₁'.store) : v.Pair ρ m₁ m₁' v' := ⟨h.twin, h.left.later hl, h.right.later hl'⟩

/-- Data corresponds to itself in all machines. -/
theorem Value.Pair.data {m m' : Machine} {v : Value} (h : v.isClosure = false) : v.Pair ρ m m' v :=
  ⟨.data h, Value.rooted_of_data h, Value.rooted_of_data h⟩

/-! ## Machines -/

namespace Machine.Twin

variable {m m' : Machine}

/-- Corresponding locations hold corresponding values. -/
theorem get (h : m.Twin ρ m') {l : Loc} (hl : l < m.store.next) : (m.store.get l).Pair ρ m m' (m'.store.get (ρ l)) := by
  have hv := Store.get?_of_lt_next hl
  obtain ⟨v', hv', htwin⟩ := h.held l _ hv
  have hget : m'.store.get (ρ l) = v' := by rw [Store.get, hv', Option.getD_some]
  rw [hget]
  exact ⟨htwin, h.left l _ hv, h.right _ v' hv'⟩

/-- Machines correspond as long as their stores do and their worlds are the same. -/
theorem withWorld (h : m.Twin ρ m') {m₁ m₁' : Machine} (hs : m₁.store = m.store) (hs' : m₁'.store = m'.store)
    (hw : m₁'.world = m₁.world) : m₁.Twin ρ m₁' := by
  obtain ⟨_, base, next, held, left, right⟩ := h
  rw [← hs] at base next held left
  rw [← hs'] at next held right
  exact ⟨hw, base, next, held, left, right⟩

/-- Both machines get a new location, with corresponding values. -/
theorem push (h : m.Twin ρ m') {v v' : Value} (hv : v.Twin ρ v') (hr : v.Rooted (m.store.push v))
    (hr' : v'.Rooted (m'.store.push v')) : (m.push v).Twin ρ (m'.push v') where
  world := h.world
  base := Nat.le_trans h.base (Nat.le_of_lt (m.store.next_lt_push v))
  next := by
    show (m'.store.push v').next = ρ (m.store.push v).next
    rw [Store.next_push, Store.next_push, h.next, ρ.succ _ h.base]
  held := by
    intro l u hu
    show ∃ u', (m'.store.push v').get? (ρ l) = some u' ∧ u.Twin ρ u'
    rw [Store.get?_push, h.next]
    rcases Store.held_push hu with ⟨rfl, rfl⟩ | ⟨hne, hu⟩
    · rw [if_pos rfl]
      exact ⟨v', rfl, hv⟩
    · rw [if_neg (fun heq => hne (ρ.injective heq))]
      exact h.held l u hu
  left := h.left.push hr
  right := h.right.push hr'

/-- Both machines get another value at corresponding locations, with corresponding values. -/
theorem set (h : m.Twin ρ m') {l : Loc} {v v' : Value} (hv : v.Twin ρ v') (hr : (m.store.set l v).Rooted)
    (hr' : (m'.store.set (ρ l) v').Rooted) : (m.set l v).Twin ρ (m'.set (ρ l) v') where
  world := h.world
  base := by
    show ρ.base ≤ (m.store.set l v).next
    rw [Store.next_set]
    exact h.base
  next := by
    show (m'.store.set (ρ l) v').next = ρ (m.store.set l v).next
    rw [Store.next_set, Store.next_set]
    exact h.next
  held := by
    intro k u hu
    show ∃ u', (m'.store.set (ρ l) v').get? (ρ k) = some u' ∧ u.Twin ρ u'
    have hmade : k < m.store.next := by
      rw [← Store.next_set m.store l v]
      exact Store.lt_next_of_get? hu
    rcases Store.held_set hu with ⟨rfl, rfl⟩ | ⟨hne, hu⟩
    · obtain ⟨_, hw, _⟩ := h.held k _ (Store.get?_of_lt_next hmade)
      rw [Store.get?_set, if_pos rfl, if_pos (Store.lt_next_of_get? hw)]
      exact ⟨v', rfl, hv⟩
    · rw [Store.get?_set, if_neg (fun heq => hne (ρ.injective heq).symm)]
      exact h.held k u hu
  left := hr
  right := hr'

end Machine.Twin

/-! ## Operators -/

/-- Corresponding values differ in the environments of functions only. -/
theorem Value.Twin.bare {v v' : Value} (h : v.Twin ρ v') : v'.bare = v.bare := by
  cases h with
  | data => rfl
  | closure => rfl

/-- Corresponding values are equal, different, or not to be told apart, in both machines. -/
theorem Value.Pair.same? {m m' : Machine} {v v' w w' : Value} (hv : v.Pair ρ m m' v') (hw : w.Pair ρ m m' w') (n : Nat) :
    Value.same? m'.store n v' w' = Value.same? m.store n v w := by
  cases n with
  | zero => rfl
  | succ n =>
    obtain ⟨htv, hl, hr⟩ := hv
    obtain ⟨htw, hl', hr'⟩ := hw
    cases htv with
    | data hd =>
      cases v with
      | closure => cases hd
      | _ => cases htw <;> rfl
    | closure =>
      cases htw with
      | data hd =>
        cases w with
        | closure => cases hd
        | _ => rfl
      | closure => simp only [Value.same?_rooted hl hl', Value.same?_rooted hr hr', ρ.eq_iff]

theorem Value.Pair.compare {m m' : Machine} {v v' w w' : Value} (hv : v.Pair ρ m m' v') (hw : w.Pair ρ m m' w') (n : Nat)
    (wanted : Bool) : Operator.compare n m'.store v' w' wanted = Operator.compare n m.store v w wanted := by
  have hcomp : v'.comparable w' = v.comparable w := by
    rw [Value.comparable_bare v' w', Value.comparable_bare v w, hv.twin.bare, hw.twin.bare]
  rw [Operator.compare, Operator.compare, hv.same? hw, hcomp]

/-- An operator has the same outcome on corresponding values. -/
theorem Value.Pair.apply {m m' : Machine} {v v' w w' : Value} (hv : v.Pair ρ m m' v') (hw : w.Pair ρ m m' w') (n : Nat)
    (op : BinaryOp) : op.apply n m'.store v' w' = op.apply n m.store v w := by
  cases op with
  | eq => exact hv.compare hw n true
  | ne => exact hv.compare hw n false
  | _ =>
    rw [BinaryOp.apply_bare (by simp) (by simp) n m.store, BinaryOp.apply_bare (by simp) (by simp) n m'.store, hv.twin.bare,
      hw.twin.bare]

/-! ## Steps -/

namespace EvalM.Twins

variable {α β : Type} {m m' : Machine}

/-- Both steps end with a result, in the machines they began in. -/
theorem ok {R : Machine → Machine → α → α → Prop} {a a' : α} (h : m.Twin ρ m') (hR : R m m' a a') :
    EvalM.Twins ρ m m' R (.ok a m) (.ok a' m') := ⟨h, .refl _, .refl _, hR⟩

/-- What began later ends later. -/
theorem later {m₁ m₁' : Machine} {R : Machine → Machine → α → α → Prop} {r r' : EStateM.Result Fault Machine α}
    (hl : m.store.Keeps m₁.store) (hl' : m'.store.Keeps m₁'.store) (h : EvalM.Twins ρ m₁ m₁' R r r') :
    EvalM.Twins ρ m m' R r r' := by
  cases r with
  | ok a m₂ =>
    cases r' with
    | ok a' m₂' => exact ⟨h.1, hl.trans h.2.1, hl'.trans h.2.2.1, h.2.2.2⟩
    | error => exact h
  | error => cases r' <;> exact h

/-- Two steps end alike when their first parts do and the rest does after every end of these, seen from the beginning. -/
theorem bindFrom {x x' : EvalM α} {f f' : α → EvalM β} {R : Machine → Machine → α → α → Prop}
    {Q : Machine → Machine → β → β → Prop} (hx : EvalM.Twins ρ m m' R (x m) (x' m'))
    (hf : ∀ m₁ m₁' a a', m₁.Twin ρ m₁' → m.store.Keeps m₁.store → m'.store.Keeps m₁'.store → R m₁ m₁' a a' →
      EvalM.Twins ρ m m' Q (f a m₁) (f' a' m₁')) : EvalM.Twins ρ m m' Q ((x >>= f) m) ((x' >>= f') m') := by
  cases h : x m with
  | ok a m₁ =>
    cases h' : x' m' with
    | ok a' m₁' =>
      rw [h, h'] at hx
      obtain ⟨ht, hl, hl', hR⟩ := hx
      rw [EvalM.bind_ok h, EvalM.bind_ok h']
      exact hf m₁ m₁' a a' ht hl hl' hR
    | error f m₁' =>
      rw [h, h'] at hx
      exact hx.elim
  | error f m₁ =>
    cases h' : x' m' with
    | ok a' m₁' =>
      rw [h, h'] at hx
      exact hx.elim
    | error f' m₁' =>
      rw [h, h'] at hx
      rw [EvalM.bind_error h, EvalM.bind_error h']
      exact hx

/-- Two steps end alike when their first parts do and the rest does, seen from where these ended. -/
theorem bind {x x' : EvalM α} {f f' : α → EvalM β} {R : Machine → Machine → α → α → Prop}
    {Q : Machine → Machine → β → β → Prop} (hx : EvalM.Twins ρ m m' R (x m) (x' m'))
    (hf : ∀ m₁ m₁' a a', m₁.Twin ρ m₁' → m.store.Keeps m₁.store → m'.store.Keeps m₁'.store → R m₁ m₁' a a' →
      EvalM.Twins ρ m₁ m₁' Q (f a m₁) (f' a' m₁')) : EvalM.Twins ρ m m' Q ((x >>= f) m) ((x' >>= f') m') :=
  hx.bindFrom (fun m₁ m₁' a a' ht hl hl' hR => later hl hl' (hf m₁ m₁' a a' ht hl hl' hR))

/-- The same outcome without a function. -/
theorem ofExcept {r r' : Except Fault Value} (h : m.Twin ρ m') (heq : r' = r) (hr : Operator.isPlain r = true) :
    EvalM.Twins ρ m m' (Value.Pair ρ) (EvalM.ofExcept r m) (EvalM.ofExcept r' m') := by
  subst heq
  cases r' with
  | ok v => exact ok h (.data (by simpa [Operator.isPlain] using hr))
  | error f => exact ⟨rfl, h⟩

/-- A step outside the store. -/
theorem outward {x : EvalM α} {P : α → Prop} {R : Machine → Machine → α → α → Prop} (h : m.Twin ρ m') (hx : EvalM.Outward x P)
    (hR : ∀ m₁ m₁' a, P a → R m₁ m₁' a a) : EvalM.Twins ρ m m' R (x m) (x m') := by
  have hblind : x m' = EvalM.withStore m'.store (x m) := by
    rw [← hx.blind, ← h.world]
  have hstore := hx.store_left m
  have hends := hx.ends m
  rw [hblind]
  cases hxm : x m with
  | ok a m₁ =>
    rw [hxm] at hstore hends
    exact ⟨h.withWorld hstore rfl rfl, hstore ▸ .refl _, .refl _, hR _ _ a hends⟩
  | error f m₁ =>
    rw [hxm] at hstore
    exact ⟨rfl, h.withWorld hstore rfl rfl⟩

end EvalM.Twins

/-- Corresponding values are shown alike. -/
theorem Value.Twin.display_eq {v v' : Value} (h : v.Twin ρ v') : EvalM.display v' = EvalM.display v := by
  cases h <;> rfl

/-- Corresponding values are recorded alike. -/
theorem Value.Twin.write_eq {v v' : Value} (h : v.Twin ρ v') (path : String) : EvalM.write v' path = EvalM.write v path := by
  cases h <;> rfl

/-- One more name is bound to the new locations of both machines. -/
theorem Machine.Twin.posed {m m' : Machine} (h : m.Twin ρ m') {env env' : Env} {b : Expr} {x : String} (hb : b.Plain)
    (hl : env.Within m.store) (hr : env'.Within m'.store) (ha : Env.Agrees ρ (b.free.filter (· ≠ x)) env env') (v v' : Value) :
    b.Posed ρ (m.push v) (m'.push v') ((x, m.store.next) :: env) ((x, m'.store.next) :: env') :=
  ⟨hb, hl.push x v, hr.push x v', h.next ▸ ha.cons m.store.next⟩

/-- Both machines get a new location with corresponding values, and the evaluations go on there. -/
theorem Machine.Twin.allocate {m m' : Machine} (h : m.Twin ρ m') {v v' : Value} (hv : v.Pair ρ m m' v') :
    (m.push v).Twin ρ (m'.push v') :=
  h.push hv.twin (hv.left.later (Store.keeps_push _ v)) (hv.right.later (Store.keeps_push _ v'))

/-- Both machines get a new function, made in environments that agree on its free names. -/
theorem Machine.Twin.function {m m' : Machine} (h : m.Twin ρ m') {env env' : Env} {f p : String} {b i : Expr}
    (hp : (Expr.letFun f p b i).Posed ρ m m' env env') :
    (m.push (.closure p b ((f, m.store.next) :: env))).Twin ρ (m'.push (.closure p b ((f, m'.store.next) :: env'))) := by
  refine h.push ?_ (Value.rooted_new f p hp.plain.1 hp.left) (Value.rooted_new f p hp.plain.1 hp.right)
  rw [h.next]
  refine .closure (Env.Agrees.cons (hp.agrees.subset ?_) _)
  intro x hx
  rw [List.mem_filter] at hx
  exact List.mem_filter.mpr ⟨List.mem_append_left _ hx.1, hx.2⟩

/-- Both machines get another value at the location of a name that was looked at before. -/
theorem EvalM.Twins.assign {m m' m₁ m₁' : Machine} {env env' : Env} {x : String} {a : Expr} {l : Loc} {v v' : Value}
    (hp : (Expr.assign x a).Posed ρ m m' env env') (hx : env.find? x = some l) (hx' : env'.find? x = some (ρ l))
    (hdata : (m.store.get l).isClosure = false) (hdata' : (m'.store.get (ρ l)).isClosure = false) (h₁ : m₁.Twin ρ m₁')
    (hl : m.store.Keeps m₁.store) (hl' : m'.store.Keeps m₁'.store) (hv : v.Pair ρ m₁ m₁' v') :
    EvalM.Twins ρ m m' (Value.Pair ρ) (.ok v (m₁.set l v)) (.ok v' (m₁'.set (ρ l) v')) := by
  obtain ⟨hk, hs, hr⟩ := Rooted.assign (hp.left _ (Env.mem_locs_of_find? hx)) hdata hl h₁.left hv.left
  obtain ⟨hk', hs', hr'⟩ := Rooted.assign (hp.right _ (Env.mem_locs_of_find? hx')) hdata' hl' h₁.right hv.right
  exact ⟨h₁.set hv.twin hs hs', hk, hk', hv.twin, hr, hr'⟩

/-! ## Evaluations -/

open EvalM in
/-- Two evaluations of an expression, in corresponding machines and in environments that agree on its free names, end alike. -/
theorem Expr.eval_twins (n : Nat) : ∀ (env env' : Env) (e : Expr) (m m' : Machine), m.Twin ρ m' → e.Posed ρ m m' env env' →
    EvalM.Twins ρ m m' (Value.Pair ρ) (e.eval n env m) (e.eval n env' m') := by
  induction n with
  | zero =>
    intro env env' e m m' h _
    exact ⟨rfl, h⟩
  | succ n ih =>
    intro env env' e m m' h hp
    -- An operand is evaluated in machines that come later, where it is still posed.
    have operand : ∀ a ∈ e.operands, ∀ m₁ m₁', m₁.Twin ρ m₁' → m.store.Keeps m₁.store → m'.store.Keeps m₁'.store →
        EvalM.Twins ρ m₁ m₁' (Value.Pair ρ) (a.eval n env m₁) (a.eval n env' m₁') :=
      fun a ha m₁ m₁' h₁ hl hl' => ih env env' a m₁ m₁' h₁ ((hp.operand ha).later hl hl')
    have first : ∀ a ∈ e.operands, EvalM.Twins ρ m m' (Value.Pair ρ) (a.eval n env m) (a.eval n env' m') :=
      fun a ha => operand a ha m m' h (.refl _) (.refl _)
    cases e with
    | lit v => exact Twins.ok h (.data hp.plain)
    | note p d => exact Twins.ok h (.data rfl)
    | binary op l r =>
      simp only [Expr.eval]
      refine (first l (by simp [Expr.operands])).bind ?_
      intro m₁ m₁' v v' h₁ hl₁ hl₁' hv
      refine (operand r (by simp [Expr.operands]) m₁ m₁' h₁ hl₁ hl₁').bind ?_
      intro m₂ m₂' w w' h₂ hl₂ hl₂' hw
      exact Twins.ofExcept h₂ ((hv.later hl₂ hl₂').apply hw n op) (op.isPlain_apply n _ v w)
    | logic op l r =>
      simp only [Expr.eval]
      refine (first l (by simp [Expr.operands])).bind ?_
      intro m₁ m₁' v v' h₁ hl₁ hl₁' hv
      cases hv.twin with
      | closure => exact ⟨rfl, h₁⟩
      | data =>
        cases v with
        | bool b =>
          by_cases hb : b = op.settling
          · simp only [if_pos hb]
            exact Twins.ok h₁ hv
          · simp only [if_neg hb]
            refine (operand r (by simp [Expr.operands]) m₁ m₁' h₁ hl₁ hl₁').bind ?_
            intro m₂ m₂' w w' h₂ hl₂ hl₂' hw
            cases hw.twin with
            | closure => exact ⟨rfl, h₂⟩
            | data =>
              cases w with
              | bool c => exact Twins.ok h₂ hw
              | _ => exact ⟨rfl, h₂⟩
        | _ => exact ⟨rfl, h₁⟩
    | unary op a =>
      simp only [Expr.eval]
      refine (first a (by simp [Expr.operands])).bind ?_
      intro m₁ m₁' v v' h₁ hl₁ hl₁' hv
      refine Twins.ofExcept h₁ ?_ (op.isPlain_apply v)
      rw [UnaryOp.apply_bare op v', UnaryOp.apply_bare op v, hv.twin.bare]
    | slice t i j =>
      simp only [Expr.eval]
      refine (first t (by simp [Expr.operands])).bind ?_
      intro m₁ m₁' u u' h₁ hl₁ hl₁' hu
      refine (operand i (by simp [Expr.operands]) m₁ m₁' h₁ hl₁ hl₁').bind ?_
      intro m₂ m₂' v v' h₂ hl₂ hl₂' hv
      refine (operand j (by simp [Expr.operands]) m₂ m₂' h₂ (hl₁.trans hl₂) (hl₁'.trans hl₂')).bind ?_
      intro m₃ m₃' w w' h₃ hl₃ hl₃' hw
      refine Twins.ofExcept h₃ ?_ (Value.isPlain_slice u v w)
      rw [Value.slice_bare u' v' w', Value.slice_bare u v w, hu.twin.bare, hv.twin.bare, hw.twin.bare]
    | cond c t e =>
      simp only [Expr.eval]
      refine (first c (by simp [Expr.operands])).bind ?_
      intro m₁ m₁' v v' h₁ hl₁ hl₁' hv
      cases hv.twin with
      | closure => exact ⟨rfl, h₁⟩
      | data =>
        cases v with
        | bool b =>
          cases b with
          | true => exact operand t (by simp [Expr.operands]) m₁ m₁' h₁ hl₁ hl₁'
          | false => exact operand e (by simp [Expr.operands]) m₁ m₁' h₁ hl₁ hl₁'
        | _ => exact ⟨rfl, h₁⟩
    | name x =>
      have hx := hp.agrees x (by simp [Expr.free])
      simp only [Expr.eval, EvalM.locate]
      rw [hx]
      cases hl : env.find? x with
      | none => exact ⟨rfl, h⟩
      | some l => exact Twins.ok h (h.get (hp.left l (Env.mem_locs_of_find? hl)))
    | letIn x d b =>
      simp only [Expr.eval]
      refine (first d (by simp [Expr.operands])).bind ?_
      intro m₁ m₁' v v' h₁ hl₁ hl₁' hv
      have hp₁ := hp.later hl₁ hl₁'
      refine Twins.later (Store.keeps_push _ v) (Store.keeps_push _ v') (ih _ _ b _ _ (h₁.allocate hv) ?_)
      exact h₁.posed hp.plain.2 hp₁.left hp₁.right (hp.agrees.subset (fun _ => List.mem_append_right _)) v v'
    | letFun f p b i =>
      simp only [Expr.eval]
      refine Twins.later (Store.keeps_push _ _) (Store.keeps_push _ _) (ih _ _ i _ _ (h.function hp) ?_)
      refine h.posed hp.plain.2 hp.left hp.right (hp.agrees.subset (fun y hy => ?_)) _ _
      rw [List.mem_filter] at hy
      exact List.mem_filter.mpr ⟨List.mem_append_right _ hy.1, hy.2⟩
    | app f a =>
      simp only [Expr.eval]
      refine (first f (by simp [Expr.operands])).bind ?_
      intro m₁ m₁' v v' h₁ hl₁ hl₁' hv
      cases hv.twin with
      | data =>
        cases v with
        | closure => contradiction
        | _ => exact ⟨rfl, h₁⟩
      | closure hagrees =>
        refine (operand a (by simp [Expr.operands]) m₁ m₁' h₁ hl₁ hl₁').bind ?_
        intro m₂ m₂' w w' h₂ hl₂ hl₂' hw
        have hv₂ := hv.later hl₂ hl₂'
        refine Twins.later (Store.keeps_push _ w) (Store.keeps_push _ w') (ih _ _ _ _ _ (h₂.allocate hw) ?_)
        exact h₂.posed hv₂.left.1 hv₂.left.2.1 hv₂.right.2.1 hagrees w w'
    | assign x a =>
      have hx' := hp.agrees x (by simp [Expr.free])
      simp only [Expr.eval, EvalM.locate]
      rw [hx']
      cases hx : env.find? x with
      | none => exact ⟨rfl, h⟩
      | some l =>
        rw [hx] at hx'
        have hget := h.get (hp.left l (Env.mem_locs_of_find? hx))
        rw [Option.map_some, EvalM.bind_ok (rfl : (pure l : EvalM Loc) m = .ok l m),
          EvalM.bind_ok (rfl : (pure (ρ l) : EvalM Loc) m' = .ok (ρ l) m'),
          EvalM.bind_ok (rfl : EvalM.fetch l m = .ok (m.store.get l) m),
          EvalM.bind_ok (rfl : EvalM.fetch (ρ l) m' = .ok (m'.store.get (ρ l)) m')]
        -- The locations were looked at before the right sides run, so the machines before and after these are related.
        have assigned : (m.store.get l).isClosure = false → (m'.store.get (ρ l)).isClosure = false →
            EvalM.Twins ρ m m' (Value.Pair ρ) ((a.eval n env >>= fun v => EvalM.update l v >>= fun _ => pure v) m)
              ((a.eval n env' >>= fun v => EvalM.update (ρ l) v >>= fun _ => pure v) m') := by
          intro hdata hdata'
          refine (first a (by simp [Expr.operands])).bindFrom ?_
          intro m₁ m₁' v v' h₁ hl hl' hv
          exact Twins.assign hp hx hx' hdata hdata' h₁ hl hl' hv
        generalize m.store.get l = u at hget assigned
        generalize m'.store.get (ρ l) = u' at hget assigned
        cases hget.twin with
        | closure => exact ⟨rfl, h⟩
        | data hdata =>
          cases u with
          | closure => cases hdata
          | _ => exact assigned rfl rfl
    | seq a b =>
      simp only [Expr.eval]
      refine (first a (by simp [Expr.operands])).bind ?_
      intro m₁ m₁' _ _ h₁ hl₁ hl₁' _
      exact operand b (by simp [Expr.operands]) m₁ m₁' h₁ hl₁ hl₁'
    | display a =>
      simp only [Expr.eval]
      refine (first a (by simp [Expr.operands])).bind ?_
      intro m₁ m₁' v v' h₁ hl₁ hl₁' hv
      rw [hv.twin.display_eq]
      refine (Twins.outward h₁ (EvalM.outward_display v) (R := fun _ _ _ _ => True) (fun _ _ _ _ => trivial)).bind ?_
      intro m₂ m₂' _ _ h₂ hl₂ hl₂' _
      exact Twins.ok h₂ (hv.later hl₂ hl₂')
    | read => exact Twins.outward h EvalM.outward_readInteger (fun _ _ _ => .data)
    | write a path =>
      simp only [Expr.eval]
      refine (first a (by simp [Expr.operands])).bind ?_
      intro m₁ m₁' v v' h₁ hl₁ hl₁' hv
      rw [hv.twin.write_eq]
      exact Twins.outward h₁ (EvalM.outward_write v path) (fun _ _ _ => .data)
    | run path => exact Twins.outward h (EvalM.outward_run path) (fun _ _ _ => .data)
    | stray v =>
      simp only [Expr.eval]
      refine (Twins.outward h (EvalM.outward_written v.text?) (R := fun _ _ s s' => s' = s) (fun _ _ _ _ => rfl)).bind ?_
      intro m₁ m₁' s s' h₁ _ _ hs
      exact ⟨by rw [hs], h₁⟩

end TuneLang
