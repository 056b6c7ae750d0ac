import TuneLang.Proofs.Eval.History

/-!
# What an evaluation is made of

An evaluation goes from task to task: each task begins in the machine that was come to last, or in that machine with the last value
at one more location, and once a task ends with a fault the evaluation does (`Expr.chain`). What is left to do after the last task is
one action of the construct itself. It changes the store by an assignment only, the world by an exchange only, and it fails only for
a reason of its own (`Expr.Concludes`).

What holds of whole runs follows by induction. A fault always has a cause among the moments of the run: an evaluation whose tasks all
ended with values and that fails by itself (`Expr.exists_cause`).
-/

namespace TuneLang

/-- How a task ends, at most `n` expressions deep. -/
def Task.result (n : Nat) (t : Task) : EStateM.Result Fault Machine Value := t.expr.eval n t.env t.machine

/-- Tasks that come one after another from an outcome on. A task begins where a value was come to, in the machine that was left
there or with that value at one more location. `R` holds of the last outcome. -/
inductive Task.Chain (n : Nat) (R : EStateM.Result Fault Machine Value → Prop) :
    EStateM.Result Fault Machine Value → List Task → Prop where
  | done {r : EStateM.Result Fault Machine Value} : R r → Task.Chain n R r []
  | step {v : Value} {m : Machine} {t : Task} {ts : List Task} : t.machine = m ∨ t.machine = m.push v →
      Task.Chain n R (t.result n) ts → Task.Chain n R (.ok v m) (t :: ts)

/-- The value that an evaluation has when it begins: the function that it makes, if it makes one. -/
def Expr.made (env : Env) (m : Machine) : Expr → Value
  | .letFun f param body _ => .closure param body ((f, m.store.next) :: env)
  | _ => .nothing

/-- What an evaluation does outside the store after its last task, which has ended with `v`. -/
def Expr.exchange (v : Value) : Expr → EvalM Value
  | .display _ => do
    EvalM.display v
    pure v
  | .read => EvalM.readInteger
  | .write _ path => EvalM.write v path
  | .run path => EvalM.run path
  | _ => pure v

/-- What a value is shown as, if its numerals are not too long. -/
def Value.shown? : Value → Option String
  | .tune t => Tune.listing? t
  | v => v.text?

/-- Whether an evaluation in an environment and a machine, with tasks that end with values, can fail by itself with a fault. -/
def Expr.Causes (n : Nat) (env : Env) (m : Machine) (e : Expr) : Fault → Prop
  | .misuse (.notExpression _) => ∃ v, e = .stray v
  | .misuse _ => True
  | .unbound x => e = .name x ∨ ∃ a, e = .assign x a
  | .exchange .integerExpected | .interrupted => e = .read
  | .exchange .tuneExpected | .exchange (.notWritten _) => ∃ a path, e = .write a path
  | .exchange (.notPlayed _) => ∃ path, e = .run path
  | .numeralTooLong => (∃ v, e = .stray v) ∨ ∃ a v m₁, e = .display a ∧ a.eval n env m = .ok v m₁ ∧ v.shown? = none
  | .countTooLarge => ∃ a b k m₁, e = .binary .times a b ∧ a.eval n env m = .ok (.int k) m₁ ∧ Operator.isCount k = false
  | .endless => True

/-- How an evaluation ends after the outcome of its last task. -/
structure Expr.Settled (n : Nat) (env : Env) (e : Expr) (m : Machine) (v : Value) (m₁ : Machine) : Prop where
  store : e.Settles n env m m₁
  world : (EvalM.left (e.eval (n + 1) env m)).world = (EvalM.left (e.exchange v m₁)).world
  fault : ∀ f m', e.eval (n + 1) env m = .error f m' → e.Causes n env m f

/-- How an evaluation follows from the outcome of its last task: a fault is passed on, and after a value the construct acts. -/
def Expr.Concludes (n : Nat) (env : Env) (e : Expr) (m : Machine) : EStateM.Result Fault Machine Value → Prop
  | .error f m₁ => e.eval (n + 1) env m = .error f m₁
  | .ok v m₁ => e.Settled n env m v m₁

/-! ## Faults of operators -/

/-- Whether a fault is one that an operator has by itself: a misuse, but for that of a value that stands for an expression. -/
def Fault.isMisuse : Fault → Bool
  | .misuse (.notExpression _) => false
  | .misuse _ => true
  | _ => false

theorem Expr.Causes.of_isMisuse {n : Nat} {env : Env} {m : Machine} {e : Expr} {f : Fault} (h : f.isMisuse = true) :
    e.Causes n env m f := by
  cases f with
  | misuse u =>
    cases u with
    | notExpression => cases h
    | _ => trivial
  | _ => cases h

/-- How an operator with `v` on its left can fail. -/
def BinaryOp.Fails (op : BinaryOp) (v : Value) (f : Fault) : Prop :=
  f.isMisuse = true ∨ f = .endless ∨ (f = .countTooLarge ∧ op = .times ∧ ∃ k, v = .int k ∧ Operator.isCount k = false)

/-- A comparison fails only by being given up. -/
theorem Operator.compare_error {n : Nat} {s : Store} {v w : Value} {wanted : Bool} {f : Fault}
    (h : Operator.compare n s v w wanted = .error f) : f = .endless := by
  unfold Operator.compare at h
  split at h
  · split at h
    · cases h
    · exact (Except.error.inj h).symm
  · cases h

theorem BinaryOp.fails_of_apply {op : BinaryOp} {n : Nat} {s : Store} {v w : Value} :
    ∀ f, op.apply n s v w = .error f → op.Fails v f := by
  fun_cases BinaryOp.apply n s op v w with
  | case16 | case17 => exact fun f h => Or.inr (Or.inl (Operator.compare_error h))
  | case29 k t hk =>
    rintro f ⟨⟩
    exact Or.inr (Or.inr ⟨rfl, rfl, k, rfl, by simpa using hk⟩)
  | _ => simp [BinaryOp.Fails, Fault.isMisuse]

theorem UnaryOp.isMisuse_of_apply {op : UnaryOp} {v : Value} : ∀ f, op.apply v = .error f → f.isMisuse = true := by
  fun_cases UnaryOp.apply op v <;> simp [Fault.isMisuse]

theorem Value.isMisuse_of_slice {t i j : Value} : ∀ f, t.slice i j = .error f → f.isMisuse = true := by
  fun_cases Value.slice t i j <;> simp [Fault.isMisuse]

/-! ## Exchanges -/

/-- A step in two parts fails in the first or in the second. -/
theorem EvalM.bind_eq_error {α β : Type} {x : EvalM α} {k : α → EvalM β} {m m' : Machine} {f : Fault}
    (h : (x >>= k) m = .error f m') : x m = .error f m' ∨ ∃ a m₁, x m = .ok a m₁ ∧ k a m₁ = .error f m' := by
  cases hx : x m with
  | error g m₁ =>
    rw [EvalM.bind_error hx] at h
    cases h
    exact Or.inl rfl
  | ok a m₁ =>
    rw [EvalM.bind_ok hx] at h
    exact Or.inr ⟨a, m₁, rfl, h⟩

/-- A step in two parts ends with a value when both parts do. -/
theorem EvalM.bind_eq_ok {α β : Type} {x : EvalM α} {k : α → EvalM β} {m m' : Machine} {b : β}
    (h : (x >>= k) m = .ok b m') : ∃ a m₁, x m = .ok a m₁ ∧ k a m₁ = .ok b m' := by
  cases hx : x m with
  | error g m₁ =>
    rw [EvalM.bind_error hx] at h
    cases h
  | ok a m₁ =>
    rw [EvalM.bind_ok hx] at h
    exact ⟨a, m₁, rfl, h⟩

/-- A change of the world gives what it gives in the world of the machine. -/
theorem EvalM.onWorld_eq {α : Type} {change : World → α × World} {m : Machine} {a : α} {w : World} (h : change m.world = (a, w)) :
    EvalM.onWorld change m = .ok a { m with world := w } := by
  rw [EvalM.onWorld, h]

theorem EvalM.written_error {text : Option String} {m m' : Machine} {f : Fault} (h : EvalM.written text m = .error f m') :
    f = .numeralTooLong ∧ text = none := by
  cases text with
  | some s => cases h
  | none =>
    cases h
    exact ⟨rfl, rfl⟩

/-- Showing a value fails only for a numeral that is too long. -/
theorem EvalM.display_error {v : Value} {m m' : Machine} {f : Fault} (h : EvalM.display v m = .error f m') :
    f = .numeralTooLong ∧ v.shown? = none := by
  cases v with
  | tune t =>
    rcases EvalM.bind_eq_error h with h | ⟨listing, m₁, _, h⟩
    · exact EvalM.written_error h
    · rcases EvalM.bind_eq_error h with h | ⟨_, m₂, _, h⟩
      · cases h
      · rcases EvalM.bind_eq_error h with h | ⟨reason, m₃, _, h⟩
        · cases h
        · cases reason with
          | none => cases h
          | some reason => cases h
  | _ =>
    rcases EvalM.bind_eq_error h with h | ⟨text, m₁, _, h⟩
    · exact EvalM.written_error h
    · cases h

/-- What the answer to a question for an integer comes to. -/
def InputLine.integer : Option InputLine → Except Fault Value
  | some (.typed line) => ((Numeral.read? line).map .int).elim (.error (.exchange .integerExpected)) .ok
  | some .interrupt => .error .interrupted
  | none => .error (.exchange .integerExpected)

/-- What an attempt to record a tune comes to. -/
def RecordFailure.outcome : Option RecordFailure → Except Fault Value
  | none => .ok (.bool true)
  | some e => .error (.exchange (.notWritten e))

/-- What an attempt to play a file comes to. -/
def PlayFailure.outcome : Option PlayFailure → Except Fault Value
  | none => .ok (.bool true)
  | some e => .error (.exchange (.notPlayed e))

/-- A step that changes the world and then has an outcome. -/
theorem EvalM.onWorld_bind {α β : Type} {change : World → α × World} {k : α → EvalM β} {outcome : α → Except Fault β}
    (hk : ∀ a, k a = EvalM.ofExcept (outcome a)) (m : Machine) :
    (EvalM.onWorld change >>= k) m = EvalM.ofExcept (outcome (change m.world).1) { m with world := (change m.world).2 } := by
  rw [EvalM.bind_ok (EvalM.onWorld_eq (Prod.eta (change m.world)).symm), hk]

theorem EvalM.readInteger_eq (m : Machine) :
    EvalM.readInteger m = EvalM.ofExcept (InputLine.integer (m.world.ask "enter Integer: ").1)
      { m with world := (m.world.ask "enter Integer: ").2 } := by
  refine EvalM.onWorld_bind (fun answer => ?_) m
  cases answer with
  | none => rfl
  | some line =>
    cases line with
    | interrupt => rfl
    | typed text =>
      cases hread : Numeral.read? text <;> simp only [InputLine.integer, hread] <;> rfl

theorem EvalM.write_eq (t : Tune) (path : String) (m : Machine) :
    EvalM.write (.tune t) path m = EvalM.ofExcept (RecordFailure.outcome (m.world.record t path).1)
      { m with world := (m.world.record t path).2 } := by
  refine EvalM.onWorld_bind (fun failure => ?_) m
  cases failure <;> rfl

theorem EvalM.run_eq (path : String) (m : Machine) :
    EvalM.run path m = EvalM.ofExcept (PlayFailure.outcome (m.world.play path).1) { m with world := (m.world.play path).2 } := by
  refine EvalM.onWorld_bind (fun failure => ?_) m
  cases failure <;> rfl

/-- An outcome leaves the machine as it is. -/
theorem EvalM.left_ofExcept {α : Type} (r : Except Fault α) (m : Machine) : EvalM.left (EvalM.ofExcept r m) = m := by
  cases r <;> rfl

/-- An outcome that is a fault. -/
theorem EvalM.ofExcept_eq_error {α : Type} {r : Except Fault α} {m m' : Machine} {f : Fault}
    (h : EvalM.ofExcept r m = .error f m') : r = .error f := by
  cases r with
  | ok a => cases h
  | error g =>
    cases h
    rfl

/-- An outcome that is a value leaves the machine as it is. -/
theorem EvalM.ofExcept_eq_ok {α : Type} {r : Except Fault α} {m m' : Machine} {a : α} (h : EvalM.ofExcept r m = .ok a m') :
    r = .ok a ∧ m' = m := by
  cases r with
  | error f => cases h
  | ok b =>
    cases h
    exact ⟨rfl, rfl⟩

theorem EvalM.readInteger_error {m m' : Machine} {f : Fault} (h : EvalM.readInteger m = .error f m') :
    f = .exchange .integerExpected ∨ f = .interrupted := by
  rw [EvalM.readInteger_eq] at h
  have hanswer := EvalM.ofExcept_eq_error h
  unfold InputLine.integer at hanswer
  split at hanswer
  · rename_i line _
    cases hread : Numeral.read? line with
    | none =>
      rw [hread] at hanswer
      exact Or.inl (Except.error.inj hanswer).symm
    | some k =>
      rw [hread] at hanswer
      cases hanswer
  · exact Or.inr (Except.error.inj hanswer).symm
  · exact Or.inl (Except.error.inj hanswer).symm

theorem EvalM.write_error {v : Value} {path : String} {m m' : Machine} {f : Fault} (h : EvalM.write v path m = .error f m') :
    f = .exchange .tuneExpected ∨ ∃ e, f = .exchange (.notWritten e) := by
  cases v with
  | tune t =>
    rw [EvalM.write_eq] at h
    have houtcome := EvalM.ofExcept_eq_error h
    unfold RecordFailure.outcome at houtcome
    split at houtcome
    · cases houtcome
    · exact Or.inr ⟨_, (Except.error.inj houtcome).symm⟩
  | _ =>
    cases h
    exact Or.inl rfl

theorem EvalM.run_error {path : String} {m m' : Machine} {f : Fault} (h : EvalM.run path m = .error f m') :
    ∃ e, f = .exchange (.notPlayed e) := by
  rw [EvalM.run_eq] at h
  have houtcome := EvalM.ofExcept_eq_error h
  unfold PlayFailure.outcome at houtcome
  split at houtcome
  · cases houtcome
  · exact ⟨_, (Except.error.inj houtcome).symm⟩

/-! ## One evaluation -/

section

variable {n : Nat} {env : Env} {e : Expr} {m m₁ : Machine} {v : Value}

/-- An evaluation that leaves the machine as its last task did. -/
theorem Expr.settled_of_left (hleft : EvalM.left (e.eval (n + 1) env m) = m₁) (hexchange : e.exchange v = pure v)
    (hfault : ∀ f m', e.eval (n + 1) env m = .error f m' → e.Causes n env m f) : e.Settled n env m v m₁ where
  store := Or.inl (by rw [hleft])
  world := by
    rw [hleft, hexchange]
    rfl
  fault := hfault

/-- An evaluation that ends as its last task did. -/
theorem Expr.settled_of_eq (heq : e.eval (n + 1) env m = .ok v m₁) (hexchange : e.exchange v = pure v) : e.Settled n env m v m₁ := by
  refine Expr.settled_of_left (by rw [heq]; rfl) hexchange ?_
  intro f m' herror
  rw [heq] at herror
  cases herror

/-- An evaluation that fails by itself. -/
theorem Expr.settled_of_error {f : Fault} (heq : e.eval (n + 1) env m = .error f m₁) (hexchange : e.exchange v = pure v)
    (hcause : e.Causes n env m f) : e.Settled n env m v m₁ := by
  refine Expr.settled_of_left (by rw [heq]; rfl) hexchange ?_
  intro g m' herror
  rw [heq] at herror
  cases herror
  exact hcause

/-- An evaluation that ends with an operation on values. -/
theorem Expr.settled_of_ofExcept {r : Except Fault Value} (heq : e.eval (n + 1) env m = EvalM.ofExcept r m₁)
    (hexchange : e.exchange v = pure v) (hcause : ∀ f, r = .error f → e.Causes n env m f) : e.Settled n env m v m₁ := by
  cases r with
  | ok w =>
    refine Expr.settled_of_left (by rw [heq]; rfl) hexchange ?_
    intro f m' herror
    rw [heq] at herror
    cases herror
  | error f => exact Expr.settled_of_error heq hexchange (hcause f rfl)

/-- An evaluation that ends with an exchange. -/
theorem Expr.settled_of_exchange {P : Value → Prop} (heq : e.eval (n + 1) env m = e.exchange v m₁)
    (hout : EvalM.Outward (e.exchange v) P) (hcause : ∀ f m', e.exchange v m₁ = .error f m' → e.Causes n env m f) :
    e.Settled n env m v m₁ where
  store := Or.inl (by rw [heq, hout.store_left])
  world := by rw [heq]
  fault := by
    rw [heq]
    exact hcause

/-- How an evaluation follows from the outcome of its last task, when it goes on from there. -/
theorem Expr.concludes_bind {x : EvalM Value} {k : Value → EvalM Value} {m₀ : Machine}
    (heq : e.eval (n + 1) env m = (x >>= k) m₀) (hok : ∀ v m₁, x m₀ = .ok v m₁ → e.Settled n env m v m₁) :
    e.Concludes n env m (x m₀) := by
  cases hx : x m₀ with
  | ok v m₁ => exact hok v m₁ hx
  | error f m₁ => exact heq.trans (EvalM.bind_error hx)

/-- How an evaluation follows from the outcome of its last task, when it ends there. -/
theorem Expr.concludes_of_eq {r : EStateM.Result Fault Machine Value} (heq : e.eval (n + 1) env m = r)
    (hexchange : ∀ v, e.exchange v = pure v) : e.Concludes n env m r := by
  cases r with
  | ok v m₁ => exact Expr.settled_of_eq heq (hexchange v)
  | error f m₁ => exact heq

/-- A task whose value decides how the chain goes on. -/
theorem Task.chain_first {R : EStateM.Result Fault Machine Value → Prop} {a : Expr} {env' : Env} {m₀ : Machine}
    {next : Value → Machine → List Task} (hm : m₀ = m ∨ m₀ = m.push v)
    (herror : ∀ f m₁, a.eval n env' m₀ = .error f m₁ → R (.error f m₁))
    (hok : ∀ w m₁, a.eval n env' m₀ = .ok w m₁ → Task.Chain n R (.ok w m₁) (next w m₁)) :
    Task.Chain n R (.ok v m) (⟨env', a, m₀⟩ :: Task.after (a.eval n env' m₀) next) := by
  refine .step hm ?_
  show Task.Chain n R (a.eval n env' m₀) _
  cases hend : a.eval n env' m₀ with
  | error f m₁ => exact .done (herror f m₁ hend)
  | ok w m₁ => exact hok w m₁ hend

/-- The last task of a chain. -/
theorem Task.chain_last {R : EStateM.Result Fault Machine Value → Prop} {a : Expr} {env' : Env} {m₀ : Machine}
    (hm : m₀ = m ∨ m₀ = m.push v) (hend : R (a.eval n env' m₀)) : Task.Chain n R (.ok v m) [⟨env', a, m₀⟩] :=
  .step hm (.done hend)

end

/-- An evaluation goes from task to task, and follows from the outcome of the last of them. -/
theorem Expr.chain (n : Nat) (env : Env) (e : Expr) (m : Machine) :
    Task.Chain n (e.Concludes n env m) (.ok (e.made env m) m) (e.tasks n env m) := by
  cases e with
  | lit v => exact .done (Expr.settled_of_left rfl rfl (fun _ _ herror => nomatch herror))
  | note p d => exact .done (Expr.settled_of_left rfl rfl (fun _ _ herror => nomatch herror))
  | binary op l r =>
    refine Task.chain_first (Or.inl rfl) (fun _ _ => EvalM.bind_error) ?_
    intro v m₁ hv
    refine Task.chain_last (Or.inl rfl) (Expr.concludes_bind (EvalM.bind_ok hv) ?_)
    intro w m₂ hw
    refine Expr.settled_of_ofExcept (r := op.apply n m₂.store v w) ?_ rfl ?_
    · exact (EvalM.bind_ok hv).trans (EvalM.bind_ok hw)
    · intro f hf
      rcases BinaryOp.fails_of_apply f hf with hmisuse | rfl | ⟨rfl, rfl, k, rfl, hk⟩
      · exact .of_isMisuse hmisuse
      · trivial
      · exact ⟨l, r, k, m₁, rfl, hv, hk⟩
  | logic op l r =>
    refine Task.chain_first (Or.inl rfl) (fun _ _ => EvalM.bind_error) ?_
    intro v m₁ hv
    have heval : (Expr.logic op l r).eval (n + 1) env m = _ := EvalM.bind_ok hv
    by_cases hright : v = .bool (!op.settling)
    · subst hright
      rw [if_pos rfl]
      simp only [if_neg (show (!op.settling) ≠ op.settling by simp)] at heval
      refine Task.chain_last (Or.inl rfl) (Expr.concludes_bind heval ?_)
      intro w m₂ hw
      rw [EvalM.bind_ok hw] at heval
      cases w with
      | bool c => exact Expr.settled_of_eq heval rfl
      | _ => exact Expr.settled_of_error heval rfl trivial
    · rw [if_neg hright]
      cases v with
      | bool b =>
        have hb : b = op.settling := by
          cases b <;> cases hop : op.settling <;> simp_all
        simp only [if_pos hb] at heval
        exact .done (Expr.settled_of_eq heval rfl)
      | _ => exact .done (Expr.settled_of_error heval rfl trivial)
  | unary op a =>
    refine Task.chain_last (Or.inl rfl) (Expr.concludes_bind rfl ?_)
    intro v m₁ hv
    refine Expr.settled_of_ofExcept (r := op.apply v) (EvalM.bind_ok hv) rfl ?_
    exact fun f hf => .of_isMisuse (UnaryOp.isMisuse_of_apply f hf)
  | slice t i j =>
    refine Task.chain_first (Or.inl rfl) (fun _ _ => EvalM.bind_error) ?_
    intro u m₁ hu
    refine Task.chain_first (Or.inl rfl) (fun _ _ hi => (EvalM.bind_ok hu).trans (EvalM.bind_error hi)) ?_
    intro v m₂ hv
    refine Task.chain_last (Or.inl rfl) (Expr.concludes_bind ((EvalM.bind_ok hu).trans (EvalM.bind_ok hv)) ?_)
    intro w m₃ hw
    refine Expr.settled_of_ofExcept (r := u.slice v w) ?_ rfl (fun f hf => .of_isMisuse (Value.isMisuse_of_slice f hf))
    exact (EvalM.bind_ok hu).trans ((EvalM.bind_ok hv).trans (EvalM.bind_ok hw))
  | cond c t e =>
    refine Task.chain_first (Or.inl rfl) (fun _ _ => EvalM.bind_error) ?_
    intro v m₁ hv
    have heval : (Expr.cond c t e).eval (n + 1) env m = _ := EvalM.bind_ok hv
    cases v with
    | bool b =>
      cases b with
      | true => exact Task.chain_last (Or.inl rfl) (Expr.concludes_of_eq heval (fun _ => rfl))
      | false => exact Task.chain_last (Or.inl rfl) (Expr.concludes_of_eq heval (fun _ => rfl))
    | _ => exact .done (Expr.settled_of_error heval rfl trivial)
  | name x =>
    refine .done ?_
    cases hx : env.find? x with
    | some l =>
      refine Expr.settled_of_left (by simp only [Expr.eval, EvalM.locate, hx]; rfl) rfl ?_
      intro f m' herror
      simp only [Expr.eval, EvalM.locate, hx] at herror
      cases herror
    | none =>
      have heval : (Expr.name x).eval (n + 1) env m = .error (.unbound x) m := by
        simp only [Expr.eval, EvalM.locate, hx]
        rfl
      exact Expr.settled_of_error heval rfl (Or.inl rfl)
  | letIn x d b =>
    refine Task.chain_first (Or.inl rfl) (fun _ _ => EvalM.bind_error) ?_
    intro v m₁ hv
    exact Task.chain_last (Or.inr rfl) (Expr.concludes_of_eq (EvalM.bind_ok hv) (fun _ => rfl))
  | letFun f p b i => exact Task.chain_last (Or.inr rfl) (Expr.concludes_of_eq rfl (fun _ => rfl))
  | app f a =>
    refine Task.chain_first (Or.inl rfl) (fun _ _ => EvalM.bind_error) ?_
    intro c m₁ hc
    have heval : (Expr.app f a).eval (n + 1) env m = _ := EvalM.bind_ok hc
    cases c with
    | closure p b captured =>
      refine Task.chain_first (Or.inl rfl) (fun _ _ ha => heval.trans (EvalM.bind_error ha)) ?_
      intro v m₂ hv
      exact Task.chain_last (Or.inr rfl) (Expr.concludes_of_eq (heval.trans (EvalM.bind_ok hv)) (fun _ => rfl))
    | _ => exact .done (Expr.settled_of_error heval rfl trivial)
  | assign x a =>
    cases hx : env.find? x with
    | none =>
      have htasks : (Expr.assign x a).tasks n env m = [] := by simp only [Expr.tasks, hx]
      have heval : (Expr.assign x a).eval (n + 1) env m = .error (.unbound x) m := by
        simp only [Expr.eval, EvalM.locate, hx]
        rfl
      rw [htasks]
      exact .done (Expr.settled_of_error heval rfl (Or.inr ⟨a, rfl⟩))
    | some l =>
      by_cases hdata : (m.store.get l).isClosure = false
      · have htasks : (Expr.assign x a).tasks n env m = [⟨env, a, m⟩] := by simp [Expr.tasks, hx, hdata]
        rw [htasks]
        have heval := Expr.eval_assign (n := n) (a := a) hx hdata
        refine Task.chain_last (Or.inl rfl) (Expr.concludes_bind heval ?_)
        intro v m₁ hv
        rw [EvalM.bind_ok hv] at heval
        refine ⟨Or.inr ⟨x, a, l, v, rfl, hx, by rw [heval]; rfl⟩, by rw [heval]; rfl, ?_⟩
        intro f m' herror
        rw [heval] at herror
        cases herror
      · have htasks : (Expr.assign x a).tasks n env m = [] := by simp [Expr.tasks, hx, hdata]
        rw [htasks]
        exact .done (Expr.settled_of_error (Expr.eval_assign_function hx (by simpa using hdata)) rfl trivial)
  | seq a b =>
    refine Task.chain_first (Or.inl rfl) (fun _ _ => EvalM.bind_error) ?_
    intro v m₁ hv
    exact Task.chain_last (Or.inl rfl) (Expr.concludes_of_eq (EvalM.bind_ok hv) (fun _ => rfl))
  | display a =>
    refine Task.chain_last (Or.inl rfl) (Expr.concludes_bind rfl ?_)
    intro v m₁ hv
    have hout : EvalM.Outward ((Expr.display a).exchange v) (fun _ => True) :=
      (EvalM.outward_display v).bind (fun _ _ => EvalM.outward_pure trivial)
    refine Expr.settled_of_exchange (EvalM.bind_ok hv) hout ?_
    intro f m' herror
    rcases EvalM.bind_eq_error herror with herror | ⟨_, _, _, herror⟩
    · obtain ⟨rfl, hshown⟩ := EvalM.display_error herror
      exact Or.inr ⟨a, v, m₁, rfl, hv, hshown⟩
    · cases herror
  | read =>
    refine .done (Expr.settled_of_exchange rfl EvalM.outward_readInteger ?_)
    intro f m' herror
    rcases EvalM.readInteger_error herror with rfl | rfl <;> rfl
  | write a path =>
    refine Task.chain_last (Or.inl rfl) (Expr.concludes_bind rfl ?_)
    intro v m₁ hv
    refine Expr.settled_of_exchange (EvalM.bind_ok hv) (EvalM.outward_write v path) ?_
    intro f m' herror
    rcases EvalM.write_error herror with rfl | ⟨e, rfl⟩ <;> exact ⟨a, path, rfl⟩
  | run path =>
    refine .done (Expr.settled_of_exchange rfl (EvalM.outward_run path) ?_)
    intro f m' herror
    obtain ⟨e, rfl⟩ := EvalM.run_error herror
    exact ⟨path, rfl⟩
  | stray v =>
    refine .done ?_
    cases htext : v.text? with
    | some s =>
      have heval : (Expr.stray v).eval (n + 1) env m = .error (.misuse (.notExpression s)) m := by
        simp only [Expr.eval, EvalM.written, htext]
        rfl
      exact Expr.settled_of_error heval rfl ⟨v, rfl⟩
    | none =>
      have heval : (Expr.stray v).eval (n + 1) env m = .error .numeralTooLong m := by
        simp only [Expr.eval, EvalM.written, htext]
        rfl
      exact Expr.settled_of_error heval rfl (Or.inl ⟨v, rfl⟩)

/-! ## Whole runs -/

/-- What each task carries over from the outcome before it to its own outcome holds wherever a task begins, and of the last
outcome. -/
theorem Task.Chain.carry {n : Nat} {R I : EStateM.Result Fault Machine Value → Prop} {r : EStateM.Result Fault Machine Value}
    {ts : List Task} (h : Task.Chain n R r ts) (hr : I r)
    (hstep : ∀ t ∈ ts, ∀ v m, I (.ok v m) → (t.machine = m ∨ t.machine = m.push v) → I (t.result n)) :
    (∀ t ∈ ts, ∃ v m, I (.ok v m) ∧ (t.machine = m ∨ t.machine = m.push v)) ∧ ∃ r', R r' ∧ I r' := by
  induction h with
  | @done r hR => exact ⟨by simp, r, hR, hr⟩
  | @step v m t ts hstart _ ih =>
    obtain ⟨hfirst, hothers⟩ := List.forall_mem_cons.mp hstep
    obtain ⟨hlater, hlast⟩ := ih (hfirst v m hr hstart) hothers
    exact ⟨List.forall_mem_cons.mpr ⟨⟨v, m, hr, hstart⟩, hlater⟩, hlast⟩

/-- What each task adds to the account of the world, the tasks of a chain add one after another. -/
theorem Task.Chain.accumulate {α : Type} {A : World → List α → World → Prop} (hrefl : ∀ w, A w [] w)
    (htrans : ∀ {w w₁ w₂ as bs}, A w as w₁ → A w₁ bs w₂ → A w (as ++ bs) w₂) {n : Nat}
    {R : EStateM.Result Fault Machine Value → Prop} {r : EStateM.Result Fault Machine Value} {ts : List Task} (h : Task.Chain n R r ts)
    {part : Task → List α} (hts : ∀ t ∈ ts, A t.machine.world (part t) (t.left n).world) :
    ∃ r', R r' ∧ A (EvalM.left r).world (ts.flatMap part) (EvalM.left r').world := by
  induction h with
  | @done r hR => exact ⟨r, hR, hrefl _⟩
  | @step v m t ts hstart _ ih =>
    obtain ⟨htask, hrest⟩ := List.forall_mem_cons.mp hts
    obtain ⟨r', hR, hlater⟩ := ih hrest
    have hworld : t.machine.world = m.world := by
      rcases hstart with hsame | hpush
      · rw [hsame]
      · rw [hpush, Machine.push]
    rw [hworld] at htask
    refine ⟨r', hR, ?_⟩
    rw [List.flatMap_cons]
    exact htrans htask hlater

/-- A chain ends after a value, or with the fault of one of its tasks. -/
theorem Task.Chain.last {n : Nat} {R : EStateM.Result Fault Machine Value → Prop} {v₀ : Value} {m₀ : Machine} {ts : List Task}
    (h : Task.Chain n R (.ok v₀ m₀) ts) :
    (∃ v m, R (.ok v m)) ∨ ∃ f m, R (.error f m) ∧ ∃ t ∈ ts, t.result n = .error f m := by
  obtain ⟨_, r, hR, hlast⟩ :=
    h.carry (I := fun r => r = .ok v₀ m₀ ∨ ∃ t ∈ ts, t.result n = r) (Or.inl rfl) (fun t ht _ _ _ _ => Or.inr ⟨t, ht, rfl⟩)
  cases r with
  | ok v m => exact Or.inl ⟨v, m, hR⟩
  | error f m =>
    rcases hlast with hfirst | htask
    · cases hfirst
    · exact Or.inr ⟨f, m, hR, htask⟩

/-- A fault has a cause in its run: an evaluation that fails by itself. -/
theorem Expr.exists_cause (n : Nat) : ∀ (env : Env) (e : Expr) (m : Machine) (f : Fault) (m' : Machine),
    e.eval n env m = .error f m' → f ≠ .endless →
      ∃ k env₁ e₁ m₁, Moment.begins env₁ e₁ m₁ ∈ e.history n env m ∧ e₁.Causes k env₁ m₁ f := by
  induction n with
  | zero =>
    intro env e m f m' herror hend
    cases herror
    exact absurd rfl hend
  | succ n ih =>
    intro env e m f m' herror hend
    rcases (e.chain n env m).last with ⟨v, m₁, hsettled⟩ | ⟨g, m₁, hpassed, t, ht, htask⟩
    · exact ⟨n, env, e, m, e.begins_mem_history n env m, hsettled.fault f m' herror⟩
    · have hsame : e.eval (n + 1) env m = .error g m₁ := hpassed
      rw [herror] at hsame
      cases hsame
      obtain ⟨k, env₁, e₁, m₁, hmem, hcause⟩ := ih t.env t.expr t.machine f m' htask hend
      exact ⟨k, env₁, e₁, m₁, Expr.mem_history_of_task ht hmem, hcause⟩

end TuneLang
