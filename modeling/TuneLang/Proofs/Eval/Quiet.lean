import TuneLang.Proofs.Eval.Kinds

/-!
# Quiet programs

A program that neither shows nor plays anything tells the system nothing and makes no temporary file, however it ends. The only text
that it prints is the prompt of a question, as often as it asks one (`Expr.eval_quiet`).
-/

namespace TuneLang

/-- A text so many times. -/
def Text.repeated (s : String) : Nat → String
  | 0 => ""
  | k + 1 => s ++ Text.repeated s k

theorem Text.repeated_add (s : String) (j k : Nat) : Text.repeated s (j + k) = Text.repeated s j ++ Text.repeated s k := by
  induction j with
  | zero => rw [Nat.zero_add, Text.repeated, String.empty_append]
  | succ j ih => rw [Nat.succ_add, Text.repeated, Text.repeated, ih, String.append_assoc]

theorem Text.repeated_one (s : String) : Text.repeated s 1 = s := by
  rw [Text.repeated, Text.repeated, String.append_empty]

/-- How a world is related to a later one, when nothing was shown or played and an integer was asked for `k` times. -/
structure World.Quiet (k : Nat) (w w' : World) : Prop where
  commands : w'.commands = w.commands
  temporaries : w'.temporaries = w.temporaries
  out : w'.out = w.out ++ Text.repeated "enter Integer: " k

/-- Whether a moment begins a question. -/
def Moment.asks : Moment → Bool
  | .begins _ .read _ => true
  | _ => false

/-- Whether nothing in an expression shows a value or plays a file. -/
def Expr.Silent (e : Expr) : Prop := (∀ a, .display a ∉ e.parts) ∧ ∀ path, .run path ∉ e.parts

theorem World.Quiet.refl (w : World) : w.Quiet 0 w := ⟨rfl, rfl, String.append_empty.symm⟩

theorem World.Quiet.trans {j k : Nat} {w w' w'' : World} (h : World.Quiet j w w') (h' : World.Quiet k w' w'') :
    World.Quiet (j + k) w w'' where
  commands := h'.commands.trans h.commands
  temporaries := h'.temporaries.trans h.temporaries
  out := by rw [h'.out, h.out, Text.repeated_add, String.append_assoc]

/-- A question prints its prompt. -/
theorem World.quiet_ask (w : World) : w.Quiet 1 (w.ask "enter Integer: ").2 := by
  unfold World.ask
  split
  · exact ⟨rfl, rfl, by rw [Text.repeated_one, World.print]⟩
  · exact ⟨rfl, rfl, by rw [Text.repeated_one, World.print]⟩

/-- Recording a tune prints nothing. -/
theorem World.quiet_record (w : World) (t : Tune) (path : String) : w.Quiet 0 (w.record t path).2 :=
  ⟨rfl, rfl, String.append_empty.symm⟩

/-- Of the constructs that neither show nor play, only questions print anything after their last task. -/
theorem Expr.exchange_quiet {e : Expr} (hask : e ≠ .read) (hshow : ∀ a, e ≠ .display a) (hplay : ∀ path, e ≠ .run path)
    (v : Value) (m : Machine) : World.Quiet 0 m.world (EvalM.left (e.exchange v m)).world := by
  cases e with
  | read => exact absurd rfl hask
  | display a => exact absurd rfl (hshow a)
  | run path => exact absurd rfl (hplay path)
  | write a path =>
    cases v with
    | tune t =>
      show World.Quiet 0 m.world (EvalM.left (EvalM.write (.tune t) path m)).world
      rw [EvalM.write_eq, EvalM.left_ofExcept]
      exact World.quiet_record m.world t path
    | _ => exact World.Quiet.refl _
  | _ => exact World.Quiet.refl _

/-- The questions of an evaluation that is none itself are those of its tasks. -/
theorem Expr.countP_asks {e : Expr} (hask : e ≠ .read) (n : Nat) (env : Env) (m : Machine) :
    (e.history (n + 1) env m).countP Moment.asks =
      ((e.tasks n env m).flatMap fun t => t.expr.history n t.env t.machine).countP Moment.asks := by
  have hbegins : (Moment.begins env e m).asks = false := by
    cases e with
    | read => exact absurd rfl hask
    | _ => rfl
  have hends : ∀ m', (Moment.ends m').asks = false := fun _ => rfl
  simp [Expr.history, List.countP_append, hbegins, hends]

/-- The tasks of an evaluation are quiet when each of them is. -/
theorem Task.Chain.quiet {n : Nat} {R : EStateM.Result Fault Machine Value → Prop} {r : EStateM.Result Fault Machine Value}
    {ts : List Task} (h : Task.Chain n R r ts)
    (hts : ∀ t ∈ ts, World.Quiet ((t.expr.history n t.env t.machine).countP Moment.asks) t.machine.world (t.left n).world) :
    ∃ r', R r' ∧ World.Quiet ((ts.flatMap fun t => t.expr.history n t.env t.machine).countP Moment.asks) (EvalM.left r).world
      (EvalM.left r').world := by
  refine Task.Chain.accumulate (A := fun w moments w' => World.Quiet (moments.countP Moment.asks) w w') World.Quiet.refl ?_ h hts
  intro w w₁ w₂ first second hfirst hsecond
  rw [List.countP_append]
  exact hfirst.trans hsecond

/-- An evaluation in a run of a silent program is quiet: it prints one prompt for each question that it asks. -/
theorem Expr.eval_quiet {program : Expr} (hlegible : program.Legible) (hsilent : program.Silent) (n : Nat) :
    ∀ (env : Env) (e : Expr) (m : Machine), (Native.discipline program fun _ => True).Sound m →
      (Native.discipline program fun _ => True).Ready m env e →
      World.Quiet ((e.history n env m).countP Moment.asks) m.world (EvalM.left (e.eval n env m)).world := by
  have hlaw := Native.lawful hlegible (Note.kept_true program)
  induction n with
  | zero =>
    intro env e m _ _
    exact World.Quiet.refl _
  | succ n ih =>
    intro env e m hs hr
    by_cases hask : e = .read
    · subst hask
      have hquestion := World.quiet_ask m.world
      rw [show (Expr.read).eval (n + 1) env m = EvalM.readInteger m from rfl, EvalM.readInteger_eq, EvalM.left_ofExcept]
      exact hquestion
    · have hshow : ∀ a, e ≠ .display a := fun a h => hsilent.1 a (h ▸ hr.1)
      have hplay : ∀ path, e ≠ .run path := fun path h => hsilent.2 path (h ▸ hr.1)
      obtain ⟨r, hconcludes, htasks⟩ := (e.chain n env m).quiet (by
        intro t ht
        obtain ⟨_, hs', hr'⟩ := hlaw.course_task (hlaw.course hs hr) t ht
        exact ih t.env t.expr t.machine hs' hr')
      rw [Expr.countP_asks hask]
      cases r with
      | error f m₁ =>
        rw [show e.eval (n + 1) env m = .error f m₁ from hconcludes]
        exact htasks
      | ok v m₁ =>
        rw [hconcludes.world]
        exact htasks.trans (Expr.exchange_quiet hask hshow hplay v m₁)

end TuneLang
