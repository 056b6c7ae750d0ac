import TuneLang.Eval

/-!
# Disciplines

What an evaluation keeps is proved by one induction, that of `Discipline.Lawful.eval`. A discipline names what is kept: what holds
of every machine (`Sound`), how a later machine is related to an earlier one (`Leads`), what holds of the values (`Proper`), when an
expression may be evaluated in an environment (`Ready`), and which faults can end the evaluation (`Allowed`). It is lawful when
every construct, taken by itself, keeps these: there is one law for each construct, about what is left to do once its operands are
evaluated. A fault keeps the machine sound as well: what was done before it stays.

Most disciplines are about the store alone. Such a `StoreDiscipline` has fewer laws, as the world does not matter to it and every
value but a function is proper.
-/

namespace TuneLang

/-- The parts of an expression that are evaluated in the environment of the expression itself. -/
def Expr.operands : Expr → List Expr
  | .binary _ left right | .logic _ left right => [left, right]
  | .unary _ operand => [operand]
  | .slice tune start stop => [tune, start, stop]
  | .cond test yes no => [test, yes, no]
  | .letIn _ definition _ => [definition]
  | .app function argument => [function, argument]
  | .assign _ value => [value]
  | .seq first second => [first, second]
  | .display shown => [shown]
  | .write tune _ => [tune]
  | _ => []

/-- The machine with one more location that holds a value. -/
def Machine.push (m : Machine) (v : Value) : Machine := { m with store := m.store.push v }

/-- The machine with another value at a location. -/
def Machine.set (m : Machine) (l : Loc) (v : Value) : Machine := { m with store := m.store.set l v }

/-- The machine that a step leaves, whether it ends with a value or with a fault. -/
def EvalM.left {α : Type} : EStateM.Result Fault Machine α → Machine
  | .ok _ m => m
  | .error _ m => m

/-- A step whose first part ends with a value goes on from there. -/
theorem EvalM.bind_ok {α β : Type} {x : EvalM α} {f : α → EvalM β} {m m' : Machine} {a : α} (h : x m = .ok a m') :
    (x >>= f) m = f a m' := by
  show EStateM.bind x f m = f a m'
  rw [EStateM.bind, h]

/-- A step whose first part ends with a fault ends with it. -/
theorem EvalM.bind_error {α β : Type} {x : EvalM α} {f : α → EvalM β} {m m' : Machine} {e : Fault}
    (h : x m = .error e m') : (x >>= f) m = .error e m' := by
  show EStateM.bind x f m = .error e m'
  rw [EStateM.bind, h]

/-- What an evaluation is to keep. -/
structure Discipline where
  /-- What holds of every machine. -/
  Sound : Machine → Prop
  /-- How a machine is related to one that comes later. -/
  Leads : Machine → Machine → Prop
  /-- What holds of every value, in the machine it is used in. -/
  Proper : Machine → Value → Prop
  /-- When an expression may be evaluated. -/
  Ready : Machine → Env → Expr → Prop
  /-- The faults that can end an evaluation. -/
  Allowed : Fault → Prop

/-- A step that began in `m` has ended as the discipline asks, and its result has the property `P`. -/
def Discipline.Ends (D : Discipline) {α : Type} (m : Machine) (P : Machine → α → Prop) :
    EStateM.Result Fault Machine α → Prop
  | .ok a m' => D.Leads m m' ∧ D.Sound m' ∧ P m' a
  | .error f m' => D.Leads m m' ∧ D.Sound m' ∧ D.Allowed f

/-- An operation on values has a proper value or an allowed fault. -/
def Discipline.Yields (D : Discipline) (m : Machine) : Except Fault Value → Prop
  | .ok v => D.Proper m v
  | .error f => D.Allowed f

/-- Every construct keeps what the discipline asks. -/
structure Discipline.Lawful (D : Discipline) : Prop where
  refl {m : Machine} : D.Leads m m
  trans {m m' m'' : Machine} : D.Leads m m' → D.Leads m' m'' → D.Leads m m''
  proper_later {m m' : Machine} {v : Value} : D.Leads m m' → D.Proper m v → D.Proper m' v
  ready_later {m m' : Machine} {env : Env} {e : Expr} : D.Leads m m' → D.Ready m env e → D.Ready m' env e
  operand {m : Machine} {env : Env} {e a : Expr} : D.Ready m env e → a ∈ e.operands → D.Ready m env a
  endless : D.Allowed .endless
  lit {m : Machine} {env : Env} {v : Value} : D.Ready m env (.lit v) → D.Proper m v
  note {m : Machine} {env : Env} {p : Pitch} {d : Int} : D.Ready m env (.note p d) → D.Proper m (.tune [⟨p, d⟩])
  binary {m : Machine} {env : Env} {op : BinaryOp} {l r : Expr} {v w : Value} (n : Nat) :
    D.Sound m → D.Ready m env (.binary op l r) → D.Proper m v → D.Proper m w → D.Yields m (op.apply n m.store v w)
  logic {m : Machine} {env : Env} {op : Connective} {l r : Expr} : D.Ready m env (.logic op l r) →
    D.Allowed (.misuse .leftOperand) ∧ D.Allowed (.misuse .rightOperand)
  unary {m : Machine} {env : Env} {op : UnaryOp} {e : Expr} {v : Value} :
    D.Ready m env (.unary op e) → D.Proper m v → D.Yields m (op.apply v)
  slice {m : Machine} {env : Env} {t i j : Expr} {u v w : Value} :
    D.Ready m env (.slice t i j) → D.Proper m u → D.Proper m v → D.Proper m w → D.Yields m (u.slice v w)
  cond {m : Machine} {env : Env} {c t e : Expr} : D.Ready m env (.cond c t e) → D.Allowed (.misuse .condition)
  name {m : Machine} {env : Env} {x : String} {l : Loc} :
    D.Sound m → D.Ready m env (.name x) → env.find? x = some l → D.Proper m (m.store.get l)
  unbound {m : Machine} {env : Env} {x : String} : D.Ready m env (.name x) → env.find? x = none → D.Allowed (.unbound x)
  letIn {m : Machine} {env : Env} {x : String} {d b : Expr} {v : Value} :
    D.Sound m → D.Ready m env (.letIn x d b) → D.Proper m v →
      D.Leads m (m.push v) ∧ D.Sound (m.push v) ∧ D.Ready (m.push v) ((x, m.store.next) :: env) b
  letFun {m : Machine} {env : Env} {f p : String} {b i : Expr} : D.Sound m → D.Ready m env (.letFun f p b i) →
    D.Leads m (m.push (.closure p b ((f, m.store.next) :: env))) ∧
      D.Sound (m.push (.closure p b ((f, m.store.next) :: env))) ∧
      D.Ready (m.push (.closure p b ((f, m.store.next) :: env))) ((f, m.store.next) :: env) i
  app {m : Machine} {p : String} {b : Expr} {captured : Env} {v : Value} :
    D.Sound m → D.Proper m (.closure p b captured) → D.Proper m v →
      D.Leads m (m.push v) ∧ D.Sound (m.push v) ∧ D.Ready (m.push v) ((p, m.store.next) :: captured) b
  notFunction {m : Machine} {env : Env} {f a : Expr} : D.Ready m env (.app f a) → D.Allowed (.misuse .application)
  assign {m m' : Machine} {env : Env} {x : String} {e : Expr} {l : Loc} {v : Value} :
    D.Sound m → D.Ready m env (.assign x e) → env.find? x = some l → (m.store.get l).isClosure = false →
      D.Leads m m' → D.Sound m' → D.Proper m' v → D.Leads m (m'.set l v) ∧ D.Sound (m'.set l v) ∧ D.Proper (m'.set l v) v
  notAssigned {m : Machine} {env : Env} {x : String} {e : Expr} : D.Ready m env (.assign x e) →
    D.Allowed (.misuse .assignment) ∧ (env.find? x = none → D.Allowed (.unbound x))
  display {m : Machine} {env : Env} {e : Expr} {v : Value} :
    D.Sound m → D.Ready m env (.display e) → D.Proper m v → D.Ends m (fun _ _ => True) (EvalM.display v m)
  read {m : Machine} {env : Env} : D.Sound m → D.Ready m env .read → D.Ends m D.Proper (EvalM.readInteger m)
  write {m : Machine} {env : Env} {e : Expr} {path : String} {v : Value} :
    D.Sound m → D.Ready m env (.write e path) → D.Proper m v → D.Ends m D.Proper (EvalM.write v path m)
  run {m : Machine} {env : Env} {path : String} :
    D.Sound m → D.Ready m env (.run path) → D.Ends m D.Proper (EvalM.run path m)
  stray {m : Machine} {env : Env} {v : Value} : D.Ready m env (.stray v) →
    D.Allowed .numeralTooLong ∧ ∀ text, D.Allowed (.misuse (.notExpression text))

namespace Discipline

variable {D : Discipline} {α β : Type}

/-- A step leaves a sound machine that comes later. -/
theorem Ends.left {m : Machine} {P : Machine → α → Prop} {r : EStateM.Result Fault Machine α} (h : D.Ends m P r) :
    D.Leads m (EvalM.left r) ∧ D.Sound (EvalM.left r) := by
  cases r with
  | ok a m' => exact ⟨h.1, h.2.1⟩
  | error f m' => exact ⟨h.1, h.2.1⟩

/-- What began later ends later. -/
theorem Lawful.later (h : D.Lawful) {m m' : Machine} {P : Machine → α → Prop} {r : EStateM.Result Fault Machine α}
    (hl : D.Leads m m') (hr : D.Ends m' P r) : D.Ends m P r := by
  cases r with
  | ok a m'' => exact ⟨h.trans hl hr.1, hr.2⟩
  | error f m'' => exact ⟨h.trans hl hr.1, hr.2⟩

/-- A step keeps what the discipline asks when its first part does and the rest does after every end of the first part, seen from
the beginning. -/
theorem Ends.bindFrom {x : EvalM α} {f : α → EvalM β} {m : Machine} {P : Machine → α → Prop} {Q : Machine → β → Prop}
    (hx : D.Ends m P (x m)) (hf : ∀ m' a, D.Leads m m' → D.Sound m' → P m' a → D.Ends m Q (f a m')) :
    D.Ends m Q ((x >>= f) m) := by
  cases hxm : x m with
  | error e m' =>
    rw [hxm] at hx
    rw [EvalM.bind_error hxm]
    exact hx
  | ok a m' =>
    rw [hxm] at hx
    rw [EvalM.bind_ok hxm]
    exact hf m' a hx.1 hx.2.1 hx.2.2

/-- A step keeps what the discipline asks when its first part does and the rest does, seen from where the first part ended. -/
theorem Lawful.bind (h : D.Lawful) {x : EvalM α} {f : α → EvalM β} {m : Machine} {P : Machine → α → Prop}
    {Q : Machine → β → Prop} (hx : D.Ends m P (x m))
    (hf : ∀ m' a, D.Leads m m' → D.Sound m' → P m' a → D.Ends m' Q (f a m')) : D.Ends m Q ((x >>= f) m) :=
  hx.bindFrom (fun m' a hl hs ha => h.later hl (hf m' a hl hs ha))

/-- An operation on values leaves the machine as it is. -/
theorem Lawful.ofExcept (h : D.Lawful) {m : Machine} {r : Except Fault Value} (hs : D.Sound m) (hr : D.Yields m r) :
    D.Ends m D.Proper (EvalM.ofExcept r m) := by
  cases r with
  | ok v => exact ⟨h.refl, hs, hr⟩
  | error f => exact ⟨h.refl, hs, hr⟩

/-- An evaluation of an expression that is ready, from a sound machine, keeps what a lawful discipline asks, however deep it may
go. -/
theorem Lawful.eval (h : D.Lawful) (n : Nat) : ∀ (env : Env) (e : Expr) (m : Machine), D.Sound m → D.Ready m env e →
    D.Ends m D.Proper (e.eval n env m) := by
  induction n with
  | zero =>
    intro env e m hs _
    exact ⟨h.refl, hs, h.endless⟩
  | succ n ih =>
    intro env e m hs hr
    -- An operand is evaluated in a machine that comes later, where the expression is still ready.
    have operand : ∀ a ∈ e.operands, ∀ m', D.Leads m m' → D.Sound m' → D.Ends m' D.Proper (a.eval n env m') :=
      fun a ha m' hl hs' => ih env a m' hs' (h.operand (h.ready_later hl hr) ha)
    cases e with
    | lit v => exact ⟨h.refl, hs, h.lit hr⟩
    | note p d => exact ⟨h.refl, hs, h.note hr⟩
    | binary op l r =>
      simp only [Expr.eval]
      refine h.bind (operand l (by simp [Expr.operands]) m h.refl hs) ?_
      intro m₁ v hl₁ hs₁ hv
      refine h.bind (operand r (by simp [Expr.operands]) m₁ hl₁ hs₁) ?_
      intro m₂ w hl₂ hs₂ hw
      exact h.ofExcept hs₂ (h.binary n hs₂ (h.ready_later (h.trans hl₁ hl₂) hr) (h.proper_later hl₂ hv) hw)
    | logic op l r =>
      simp only [Expr.eval]
      refine h.bind (operand l (by simp [Expr.operands]) m h.refl hs) ?_
      intro m₁ v hl₁ hs₁ hv
      split
      · split
        · exact ⟨h.refl, hs₁, hv⟩
        · refine h.bind (operand r (by simp [Expr.operands]) m₁ hl₁ hs₁) ?_
          intro m₂ w hl₂ hs₂ hw
          split
          · exact ⟨h.refl, hs₂, hw⟩
          · exact ⟨h.refl, hs₂, (h.logic hr).2⟩
      · exact ⟨h.refl, hs₁, (h.logic hr).1⟩
    | unary op a =>
      simp only [Expr.eval]
      refine h.bind (operand a (by simp [Expr.operands]) m h.refl hs) ?_
      intro m₁ v hl₁ hs₁ hv
      exact h.ofExcept hs₁ (h.unary (h.ready_later hl₁ hr) hv)
    | slice t i j =>
      simp only [Expr.eval]
      refine h.bind (operand t (by simp [Expr.operands]) m h.refl hs) ?_
      intro m₁ u hl₁ hs₁ hu
      refine h.bind (operand i (by simp [Expr.operands]) m₁ hl₁ hs₁) ?_
      intro m₂ v hl₂ hs₂ hv
      refine h.bind (operand j (by simp [Expr.operands]) m₂ (h.trans hl₁ hl₂) hs₂) ?_
      intro m₃ w hl₃ hs₃ hw
      have hready := h.ready_later (h.trans hl₁ (h.trans hl₂ hl₃)) hr
      exact h.ofExcept hs₃ (h.slice hready (h.proper_later (h.trans hl₂ hl₃) hu) (h.proper_later hl₃ hv) hw)
    | cond c t e =>
      simp only [Expr.eval]
      refine h.bind (operand c (by simp [Expr.operands]) m h.refl hs) ?_
      intro m₁ v hl₁ hs₁ _
      split
      · exact operand t (by simp [Expr.operands]) m₁ hl₁ hs₁
      · exact operand e (by simp [Expr.operands]) m₁ hl₁ hs₁
      · exact ⟨h.refl, hs₁, h.cond hr⟩
    | name x =>
      simp only [Expr.eval, EvalM.locate]
      split
      · rename_i l hx
        exact ⟨h.refl, hs, h.name hs hr hx⟩
      · rename_i hx
        exact ⟨h.refl, hs, h.unbound hr hx⟩
    | letIn x d b =>
      simp only [Expr.eval]
      refine h.bind (operand d (by simp [Expr.operands]) m h.refl hs) ?_
      intro m₁ v hl₁ hs₁ hv
      obtain ⟨hl₂, hs₂, hr₂⟩ := h.letIn hs₁ (h.ready_later hl₁ hr) hv
      exact h.later hl₂ (ih _ b _ hs₂ hr₂)
    | letFun f p b i =>
      simp only [Expr.eval]
      obtain ⟨hl₁, hs₁, hr₁⟩ := h.letFun hs hr
      exact h.later hl₁ (ih _ i _ hs₁ hr₁)
    | app f a =>
      simp only [Expr.eval]
      refine h.bind (operand f (by simp [Expr.operands]) m h.refl hs) ?_
      intro m₁ v hl₁ hs₁ hv
      split
      · refine h.bind (operand a (by simp [Expr.operands]) m₁ hl₁ hs₁) ?_
        intro m₂ w hl₂ hs₂ hw
        obtain ⟨hl₃, hs₃, hr₃⟩ := h.app hs₂ (h.proper_later hl₂ hv) hw
        exact h.later hl₃ (ih _ _ _ hs₃ hr₃)
      · exact ⟨h.refl, hs₁, h.notFunction hr⟩
    | assign x a =>
      simp only [Expr.eval, EvalM.locate]
      split
      · rename_i l hx
        rw [EvalM.bind_ok (rfl : (pure l : EvalM Loc) m = .ok l m), EvalM.bind_ok (rfl : EvalM.fetch l m = .ok (m.store.get l) m)]
        -- The location was looked at before the right side runs, so the law relates the machines before and after both.
        have assigned : (m.store.get l).isClosure = false →
            D.Ends m D.Proper ((a.eval n env >>= fun v => EvalM.update l v >>= fun _ => pure v) m) := by
          intro hdata
          refine (operand a (by simp [Expr.operands]) m h.refl hs).bindFrom ?_
          intro m' v hl hs' hv
          exact h.assign hs hr hx hdata hl hs' hv
        cases hg : m.store.get l with
        | closure p b env' => exact ⟨h.refl, hs, (h.notAssigned hr).1⟩
        | _ =>
          rw [hg] at assigned
          exact assigned rfl
      · rename_i hx
        exact ⟨h.refl, hs, (h.notAssigned hr).2 hx⟩
    | seq a b =>
      simp only [Expr.eval]
      refine h.bind (operand a (by simp [Expr.operands]) m h.refl hs) ?_
      intro m₁ _ hl₁ hs₁ _
      exact operand b (by simp [Expr.operands]) m₁ hl₁ hs₁
    | display a =>
      simp only [Expr.eval]
      refine h.bind (operand a (by simp [Expr.operands]) m h.refl hs) ?_
      intro m₁ v hl₁ hs₁ hv
      refine h.bind (h.display hs₁ (h.ready_later hl₁ hr) hv) ?_
      intro m₂ _ hl₂ hs₂ _
      exact ⟨h.refl, hs₂, h.proper_later hl₂ hv⟩
    | read => exact h.read hs hr
    | write a path =>
      simp only [Expr.eval]
      refine h.bind (operand a (by simp [Expr.operands]) m h.refl hs) ?_
      intro m₁ v hl₁ hs₁ hv
      exact h.write hs₁ (h.ready_later hl₁ hr) hv
    | run path => exact h.run hs hr
    | stray v =>
      simp only [Expr.eval, EvalM.written]
      split
      · exact ⟨h.refl, hs, (h.stray hr).2 _⟩
      · exact ⟨h.refl, hs, (h.stray hr).1⟩

end Discipline

/-! ## Disciplines of the store -/

/-- Whether an outcome is data, or a fault other than that of a name without a binding. -/
def Operator.isPlain : Except Fault Value → Bool
  | .ok v => !v.isClosure
  | .error (.unbound _) => false
  | .error _ => true

theorem Operator.isPlain_compare (n : Nat) (s : Store) (v w : Value) (wanted : Bool) :
    Operator.isPlain (Operator.compare n s v w wanted) = true := by
  unfold Operator.compare
  split
  · split <;> rfl
  · rfl

/-- No operator makes a function. -/
theorem BinaryOp.isPlain_apply (op : BinaryOp) (n : Nat) (s : Store) (v w : Value) :
    Operator.isPlain (op.apply n s v w) = true := by
  fun_cases BinaryOp.apply n s op v w with
  | case16 => exact Operator.isPlain_compare n s v w true
  | case17 => exact Operator.isPlain_compare n s v w false
  | _ => rfl

theorem UnaryOp.isPlain_apply (op : UnaryOp) (v : Value) : Operator.isPlain (op.apply v) = true := by
  fun_cases UnaryOp.apply op v <;> rfl

theorem Value.isPlain_slice (t i j : Value) : Operator.isPlain (t.slice i j) = true := by
  fun_cases Value.slice t i j <;> rfl

/-- What a step ends with, with another store. -/
def EvalM.withStore {α : Type} (s : Store) : EStateM.Result Fault Machine α → EStateM.Result Fault Machine α
  | .ok a m => .ok a { m with store := s }
  | .error f m => .error f { m with store := s }

/-- A step outside the store: it neither looks at the store nor changes it, and ends with a result that has the property `P`, or
with a fault other than that of a name without a binding. -/
structure EvalM.Outward {α : Type} (x : EvalM α) (P : α → Prop) : Prop where
  blind : ∀ (s : Store) (m : Machine), x { m with store := s } = EvalM.withStore s (x m)
  ends : ∀ m, match x m with
    | .ok a _ => P a
    | .error f _ => ∀ y, f ≠ .unbound y

namespace EvalM

variable {α β : Type}

/-- A step outside the store leaves it as it is. -/
theorem Outward.store_left {x : EvalM α} {P : α → Prop} (hx : Outward x P) (m : Machine) : (left (x m)).store = m.store := by
  have hm : x m = withStore m.store (x m) := hx.blind m.store m
  rw [hm]
  cases x m <;> rfl

theorem outward_pure {a : α} {P : α → Prop} (h : P a) : Outward (pure a) P := ⟨fun _ _ => rfl, fun _ => h⟩

theorem outward_throw {f : Fault} {P : α → Prop} (h : ∀ y, f ≠ .unbound y) : Outward (throw f : EvalM α) P :=
  ⟨fun _ _ => rfl, fun _ => h⟩

theorem outward_onWorld (change : World → α × World) : Outward (EvalM.onWorld change) (fun _ => True) :=
  ⟨fun _ _ => rfl, fun _ => trivial⟩

/-- Steps outside the store follow one another. -/
theorem Outward.bind {x : EvalM α} {f : α → EvalM β} {P : α → Prop} {Q : β → Prop} (hx : Outward x P)
    (hf : ∀ a, P a → Outward (f a) Q) : Outward (x >>= f) Q := by
  constructor
  · intro s m
    have hblind := hx.blind s m
    have hends := hx.ends m
    cases h : x m with
    | error e m' =>
      rw [h] at hblind
      rw [EvalM.bind_error h, EvalM.bind_error hblind]
      rfl
    | ok a m' =>
      rw [h] at hblind hends
      rw [EvalM.bind_ok h, EvalM.bind_ok hblind]
      exact (hf a hends).blind s m'
  · intro m
    have hends := hx.ends m
    cases h : x m with
    | error e m' =>
      rw [h] at hends
      rw [EvalM.bind_error h]
      exact hends
    | ok a m' =>
      rw [h] at hends
      rw [EvalM.bind_ok h]
      exact (hf a hends).ends m'

theorem outward_written (text : Option String) : Outward (EvalM.written text) (fun _ => True) := by
  cases text with
  | some s => exact outward_pure trivial
  | none => exact outward_throw (by simp)

theorem outward_printLine (s : String) : Outward (EvalM.printLine s) (fun _ => True) := outward_onWorld _

theorem outward_display (v : Value) : Outward (EvalM.display v) (fun _ => True) := by
  unfold EvalM.display
  split
  · refine (outward_written _).bind (fun listing _ => (outward_printLine listing).bind (fun _ _ => ?_))
    refine (outward_onWorld _).bind (fun failure _ => ?_)
    cases failure with
    | none => exact outward_pure trivial
    | some reason => exact outward_printLine _
  · exact (outward_written _).bind (fun text _ => outward_printLine text)

theorem outward_readInteger : Outward EvalM.readInteger (fun v => v.isClosure = false) := by
  refine (outward_onWorld _).bind (fun answer _ => ?_)
  split
  · exact outward_throw (by simp)
  · exact outward_throw (by simp)
  · split
    · exact outward_pure rfl
    · exact outward_throw (by simp)

theorem outward_write (v : Value) (path : String) : Outward (EvalM.write v path) (fun v => v.isClosure = false) := by
  unfold EvalM.write
  split
  · refine (outward_onWorld _).bind (fun failure _ => ?_)
    split
    · exact outward_pure rfl
    · exact outward_throw (by simp)
  · exact outward_throw (by simp)

theorem outward_run (path : String) : Outward (EvalM.run path) (fun v => v.isClosure = false) := by
  refine (outward_onWorld _).bind (fun failure _ => ?_)
  split
  · exact outward_pure rfl
  · exact outward_throw (by simp)

end EvalM

/-- What an evaluation is to keep of the store. -/
structure StoreDiscipline where
  Sound : Store → Prop
  Leads : Store → Store → Prop
  Proper : Store → Value → Prop
  Ready : Store → Env → Expr → Prop
  Allowed : Fault → Prop

/-- The constructs that read, bind and change locations keep what the discipline asks; all others make data. -/
structure StoreDiscipline.Lawful (D : StoreDiscipline) : Prop where
  refl {s : Store} : D.Leads s s
  trans {s s' s'' : Store} : D.Leads s s' → D.Leads s' s'' → D.Leads s s''
  proper_later {s s' : Store} {v : Value} : D.Leads s s' → D.Proper s v → D.Proper s' v
  ready_later {s s' : Store} {env : Env} {e : Expr} : D.Leads s s' → D.Ready s env e → D.Ready s' env e
  operand {s : Store} {env : Env} {e a : Expr} : D.Ready s env e → a ∈ e.operands → D.Ready s env a
  allowed {f : Fault} : (∀ x, f ≠ .unbound x) → D.Allowed f
  data {s : Store} {v : Value} : v.isClosure = false → D.Proper s v
  lit {s : Store} {env : Env} {v : Value} : D.Ready s env (.lit v) → D.Proper s v
  name {s : Store} {env : Env} {x : String} {l : Loc} {v : Value} :
    D.Sound s → D.Ready s env (.name x) → env.find? x = some l → s.get? l = some v → D.Proper s v
  unbound {s : Store} {env : Env} {x : String} {e : Expr} (he : e = .name x ∨ ∃ a, e = .assign x a) :
    D.Ready s env e → env.find? x = none → D.Allowed (.unbound x)
  push {s : Store} {v : Value} : D.Sound s → D.Proper s v → D.Leads s (s.push v) ∧ D.Sound (s.push v)
  letIn {s : Store} {env : Env} {x : String} {d b : Expr} {v : Value} :
    D.Sound s → D.Ready s env (.letIn x d b) → D.Proper s v → D.Ready (s.push v) ((x, s.next) :: env) b
  letFun {s : Store} {env : Env} {f p : String} {b i : Expr} : D.Sound s → D.Ready s env (.letFun f p b i) →
    D.Leads s (s.push (.closure p b ((f, s.next) :: env))) ∧ D.Sound (s.push (.closure p b ((f, s.next) :: env))) ∧
      D.Ready (s.push (.closure p b ((f, s.next) :: env))) ((f, s.next) :: env) i
  app {s : Store} {p : String} {b : Expr} {captured : Env} {v : Value} :
    D.Sound s → D.Proper s (.closure p b captured) → D.Proper s v → D.Ready (s.push v) ((p, s.next) :: captured) b
  assign {s s' : Store} {env : Env} {x : String} {e : Expr} {l : Loc} {v : Value} :
    D.Sound s → D.Ready s env (.assign x e) → env.find? x = some l → (s.get l).isClosure = false →
      D.Leads s s' → D.Sound s' → D.Proper s' v → D.Leads s (s'.set l v) ∧ D.Sound (s'.set l v) ∧ D.Proper (s'.set l v) v

namespace StoreDiscipline

variable {D : StoreDiscipline}

/-- A discipline of the store as one of the machine. -/
def toDiscipline (D : StoreDiscipline) : Discipline where
  Sound m := D.Sound m.store
  Leads m m' := D.Leads m.store m'.store
  Proper m v := D.Proper m.store v
  Ready m env e := D.Ready m.store env e
  Allowed := D.Allowed

/-- A plain outcome is as the discipline asks. -/
theorem Lawful.yields (h : D.Lawful) (m : Machine) {r : Except Fault Value} (hr : Operator.isPlain r = true) :
    D.toDiscipline.Yields m r := by
  cases r with
  | ok v => exact h.data (by simpa [Operator.isPlain] using hr)
  | error f =>
    refine h.allowed ?_
    rintro x rfl
    simp [Operator.isPlain] at hr

/-- A step outside the store is as the discipline asks. -/
theorem Lawful.outward (h : D.Lawful) {α : Type} {x : EvalM α} {P : α → Prop} {Q : Machine → α → Prop} {m : Machine}
    (hx : EvalM.Outward x P) (hs : D.Sound m.store) (hQ : ∀ m' a, P a → Q m' a) : D.toDiscipline.Ends m Q (x m) := by
  have hstore := hx.store_left m
  have hends := hx.ends m
  have hleads : D.Leads m.store (EvalM.left (x m)).store := by
    rw [hstore]
    exact h.refl
  have hsound : D.Sound (EvalM.left (x m)).store := by
    rw [hstore]
    exact hs
  cases hxm : x m with
  | ok a m' =>
    rw [hxm] at hends hleads hsound
    exact ⟨hleads, hsound, hQ m' a hends⟩
  | error f m' =>
    rw [hxm] at hends hleads hsound
    exact ⟨hleads, hsound, h.allowed hends⟩

/-- A lawful discipline of the store is a lawful discipline of the machine. -/
theorem Lawful.toDiscipline (h : D.Lawful) : D.toDiscipline.Lawful where
  refl := h.refl
  trans := h.trans
  proper_later := h.proper_later
  ready_later := h.ready_later
  operand := h.operand
  endless := h.allowed (by simp)
  lit := h.lit
  note _ := h.data rfl
  binary n _ _ _ _ := h.yields _ (BinaryOp.isPlain_apply _ n _ _ _)
  logic _ := ⟨h.allowed (by simp), h.allowed (by simp)⟩
  unary _ _ := h.yields _ (UnaryOp.isPlain_apply _ _)
  slice _ _ _ _ := h.yields _ (Value.isPlain_slice _ _ _)
  cond _ := h.allowed (by simp)
  name := by
    intro m env x l hs hr hx
    show D.Proper m.store (m.store.get l)
    cases hl : m.store.get? l with
    | none =>
      rw [Store.get, hl]
      exact h.data rfl
    | some v =>
      rw [Store.get, hl]
      exact h.name hs hr hx hl
  unbound := h.unbound (Or.inl rfl)
  letIn hs hr hv := ⟨(h.push hs hv).1, (h.push hs hv).2, h.letIn hs hr hv⟩
  letFun := h.letFun
  app hs hc hv := ⟨(h.push hs hv).1, (h.push hs hv).2, h.app hs hc hv⟩
  notFunction _ := h.allowed (by simp)
  assign := h.assign
  notAssigned hr := ⟨h.allowed (by simp), h.unbound (Or.inr ⟨_, rfl⟩) hr⟩
  display hs _ _ := h.outward (EvalM.outward_display _) hs (fun _ _ _ => trivial)
  read hs _ := h.outward EvalM.outward_readInteger hs (fun _ _ hv => h.data hv)
  write hs _ _ := h.outward (EvalM.outward_write _ _) hs (fun _ _ hv => h.data hv)
  run hs _ := h.outward (EvalM.outward_run _) hs (fun _ _ hv => h.data hv)
  stray _ := ⟨h.allowed (by simp), fun _ => h.allowed (by simp)⟩

end StoreDiscipline

end TuneLang
