import TuneLang.Proofs.Midi.Playable
import TuneLang.Proofs.World.Attempts

/-!
# Playbacks

Files are played by the constructs that play a named file, and by those that show a tune which can be recorded. A run consists of
evaluations, in the order in which they end (`Expr.evaluations`), and those of them that have a file played tell which
(`Evaluation.file?`). Everything that the system is told in a run belongs to one of these, and comes in their order: what belongs to
each of them is an attempt to play its file (`World.Accounts`). This holds of every evaluation, since it holds of each construct and
adds up from task to task (`Expr.exists_accounts`).
-/

namespace TuneLang

/-! ## The evaluations of a run -/

/-- An evaluation of a run: a task, and how deep it may go. -/
structure Evaluation extends Task where
  depth : Nat

/-- How an evaluation ends. -/
def Evaluation.result (x : Evaluation) : EStateM.Result Fault Machine Value := x.toTask.result x.depth

/-- The evaluations that an evaluation consists of, in the order in which they end, with itself as the last one. One that may not go
any deeper is given up before it begins. -/
def Expr.evaluations : Nat → Env → Expr → Machine → List Evaluation
  | 0, _, _, _ => []
  | n + 1, env, e, m =>
    ((e.tasks n env m).flatMap fun t => Expr.evaluations n t.env t.expr t.machine) ++ [⟨⟨env, e, m⟩, n + 1⟩]

/-- The file that an evaluation has played, if it has one played: the file that it names, or the temporary file of a tune that was shown
and recorded without a failure. -/
def Evaluation.file? (x : Evaluation) : Option String :=
  match x.expr, x.result with
  | .run path, _ => some path
  | .display _, .ok (.tune t) _ => if (Midi.file t).2 = none then some Recording.temporaryName else none
  | _, _ => none

/-- Whether an evaluation has a file played. -/
def Evaluation.plays (x : Evaluation) : Bool := x.file?.isSome

/-! ## Accounts -/

/-- An evaluation that has a file played, and what the system is told for that. -/
structure Playback where
  evaluation : Evaluation
  issued : List Command

/-- Whether playbacks account for what the system was told between two worlds, while evaluations ended. -/
structure World.Accounts (w : World) (evaluations : List Evaluation) (playbacks : List Playback) (w' : World) : Prop where
  /-- The system was told what belongs to the playbacks, one after another. -/
  issued : w.Issues (playbacks.flatMap Playback.issued) w'
  /-- There is one playback for each evaluation that has a file played. -/
  evaluations : playbacks.map Playback.evaluation = evaluations.filter Evaluation.plays
  /-- What belongs to a playback is an attempt to play its file. -/
  attempts : w.platform = "posix" → ∀ p ∈ playbacks, ∃ path, p.evaluation.file? = some path ∧ Player.Attempt path p.issued
  /-- On another platform the system is told nothing. -/
  elsewhere : w.platform ≠ "posix" → w'.commands = w.commands
  /-- A file that is named is played when the attempt succeeds, and only then. -/
  answers : ∀ p ∈ playbacks, ∀ path, p.evaluation.expr = .run path →
    ((∃ m, p.evaluation.result = .ok (.bool true) m) ↔ Player.Succeeds path p.issued)

namespace World.Accounts

variable {w w₁ w₂ : World} {xs ys : List Evaluation} {ps qs : List Playback}

/-- Where the system is told nothing, evaluations that have nothing played are accounted for. -/
theorem of_issues (h : w.Issues [] w₁) (hxs : xs.filter Evaluation.plays = []) : w.Accounts xs [] w₁ where
  issued := h
  evaluations := by rw [hxs, List.map_nil]
  attempts := by simp
  elsewhere _ := by rw [h.commands, List.append_nil]
  answers := by simp

theorem nothing (h : w.Issues [] w₁) : w.Accounts [] [] w₁ := of_issues h rfl

theorem idle {x : Evaluation} (h : w.Issues [] w₁) (hx : x.file? = none) : w.Accounts [x] [] w₁ :=
  of_issues h (by simp [Evaluation.plays, hx])

/-- Accounts one after the other. -/
theorem trans (h : w.Accounts xs ps w₁) (h' : w₁.Accounts ys qs w₂) : w.Accounts (xs ++ ys) (ps ++ qs) w₂ where
  issued := by
    rw [List.flatMap_append]
    exact h.issued.trans h'.issued
  evaluations := by rw [List.map_append, List.filter_append, h.evaluations, h'.evaluations]
  attempts hposix :=
    List.forall_mem_append.mpr ⟨h.attempts hposix, h'.attempts (h.issued.platform.trans hposix)⟩
  elsewhere hother := by rw [h'.elsewhere (by rwa [h.issued.platform]), h.elsewhere hother]
  answers := List.forall_mem_append.mpr ⟨h.answers, h'.answers⟩

/-- An account of a time after which the system was told nothing more. -/
theorem later (h : w.Accounts xs ps w₁) (h' : w₁.Issues [] w₂) : w.Accounts xs ps w₂ := by
  have hboth := h.trans (nothing h')
  rwa [List.append_nil, List.append_nil] at hboth

/-- An account of a time before which the system was told nothing. -/
theorem earlier (h : w.Issues [] w₁) (h' : w₁.Accounts xs ps w₂) : w.Accounts xs ps w₂ := (nothing h).trans h'

end World.Accounts

/-- The playback of an evaluation whose file is played. If it names the file, it ends as playing the file does. -/
theorem World.play_accounts {x : Evaluation} {path : String} (hfile : x.file? = some path) (w : World)
    (hrun : ∀ name, x.expr = .run name → ((∃ m, x.result = .ok (.bool true) m) ↔ (w.play path).1 = none)) :
    ∃ ps, w.Accounts [x] ps (w.play path).2 := by
  have hplays : [x] = [x].filter Evaluation.plays := by simp [Evaluation.plays, hfile]
  have hname : ∀ name, x.expr = .run name → name = path := by
    intro name hexpr
    simpa [Evaluation.file?, hexpr] using hfile
  by_cases hposix : w.platform = "posix"
  · obtain ⟨issued, hissues, hgoes⟩ := w.play_goes hposix path
    refine ⟨[⟨x, issued⟩], by simpa using hissues, hplays, ?_, fun hother => absurd hposix hother, ?_⟩
    · intro _ p hp
      rw [List.mem_singleton.mp hp]
      exact ⟨path, hfile, hgoes.attempt⟩
    · intro p hp name hexpr
      rw [List.mem_singleton.mp hp] at hexpr ⊢
      rw [hname name hexpr]
      exact (hrun name hexpr).trans hgoes.succeeds_iff
  · rw [World.play_elsewhere hposix] at hrun ⊢
    refine ⟨[⟨x, []⟩], World.Issues.refl w, hplays, fun h => absurd h hposix, fun _ => rfl, ?_⟩
    intro p hp name hexpr
    rw [List.mem_singleton.mp hp] at hexpr ⊢
    rw [hrun name hexpr]
    simp [Player.Succeeds, Player.commands]

/-! ## One construct -/

/-- Of all constructs, only those that show and those that play tell the system anything after their last task. -/
theorem Expr.exchange_issues {e : Expr} (hshow : ∀ a, e ≠ .display a) (hplay : ∀ path, e ≠ .run path) (v : Value) (m : Machine) :
    m.world.Issues [] (EvalM.left (e.exchange v m)).world := by
  cases e with
  | display a => exact absurd rfl (hshow a)
  | run path => exact absurd rfl (hplay path)
  | read =>
    show m.world.Issues [] (EvalM.left (EvalM.readInteger m)).world
    rw [EvalM.readInteger_eq, EvalM.left_ofExcept]
    exact m.world.issues_ask _
  | write a path =>
    cases v with
    | tune t =>
      show m.world.Issues [] (EvalM.left (EvalM.write (.tune t) path m)).world
      rw [EvalM.write_eq, EvalM.left_ofExcept]
      exact m.world.issues_record t path
    | _ => exact .refl _
  | _ => exact .refl _

/-- Showing a value that is no tune tells the system nothing. -/
theorem EvalM.issues_display {v : Value} (hv : ∀ t, v ≠ .tune t) (m : Machine) :
    m.world.Issues [] (EvalM.left (EvalM.display v m)).world := by
  have hprinted : ∀ text : Option String,
      m.world.Issues [] (EvalM.left ((EvalM.written text >>= fun s => EvalM.printLine s) m)).world := by
    intro text
    cases text with
    | none => exact .refl _
    | some s => exact m.world.issues_print _
  cases v with
  | tune t => exact absurd rfl (hv t)
  | _ => exact hprinted _

/-- A step that only gives a value leaves the machine as the step before it does. -/
theorem EvalM.left_bind_pure {α β : Type} (x : EvalM α) (b : β) (m : Machine) :
    EvalM.left ((x >>= fun _ => pure b) m) = EvalM.left (x m) := by
  cases h : x m with
  | error f m' => rw [EvalM.bind_error h, EvalM.left, EvalM.left]
  | ok a m' =>
    rw [EvalM.bind_ok h]
    rfl

/-- An evaluation that shows a value has a file played only when it ends with a tune. -/
theorem Evaluation.file?_of_display {x : Evaluation} {a : Expr} (hexpr : x.expr = .display a)
    (hresult : ∀ t m, x.result ≠ .ok (.tune t) m) : x.file? = none := by
  unfold Evaluation.file?
  rw [hexpr]
  split
  · contradiction
  · rename_i heq
    exact absurd heq (hresult _ _)
  · rfl

theorem Evaluation.file?_of_other {x : Evaluation} (hshow : ∀ a, x.expr ≠ .display a) (hplay : ∀ path, x.expr ≠ .run path) :
    x.file? = none := by
  unfold Evaluation.file?
  split
  · rename_i heq
    exact absurd heq (hplay _)
  · rename_i heq _
    exact absurd heq (hshow _)
  · rfl

/-- An evaluation that ends with a tune that it shows has its temporary file played, if the tune can be recorded. -/
theorem Evaluation.file?_of_tune {x : Evaluation} {a : Expr} {t : Tune} {m : Machine} (hexpr : x.expr = .display a)
    (hresult : x.result = .ok (.tune t) m) :
    x.file? = if (Midi.file t).2 = none then some Recording.temporaryName else none := by
  unfold Evaluation.file?
  rw [hexpr, hresult]

/-- What the system is told when a tune is shown that is evaluated. -/
theorem Evaluation.display_tune_accounts {x : Evaluation} {a : Expr} {t : Tune} {m : Machine} (hexpr : x.expr = .display a)
    (hresult : x.result = (EvalM.display (.tune t) >>= fun _ => pure (.tune t)) m) :
    ∃ ps, m.world.Accounts [x] ps (EvalM.left x.result).world := by
  cases hlisting : Tune.listing? t with
  | none =>
    have hdisplay : EvalM.display (.tune t) m = .error .numeralTooLong m := by
      rw [EvalM.display, hlisting]
      rfl
    rw [EvalM.bind_error hdisplay] at hresult
    have hfile : x.file? = none := Evaluation.file?_of_display hexpr (by simp [hresult])
    rw [hresult]
    exact ⟨[], .idle (.refl _) hfile⟩
  | some listing =>
    rcases hplay : (m.world.printLine listing).playTune t with ⟨failure, w⟩
    rw [EvalM.bind_ok (EvalM.display_tune hlisting hplay)] at hresult
    have hfile := Evaluation.file?_of_tune hexpr hresult
    have hw : ((m.world.printLine listing).playTune t).2 = w := by rw [hplay]
    rw [hresult]
    -- The list of the notes is printed before, and the notice after the file was played.
    suffices hplayed : ∃ ps, (m.world.printLine listing).Accounts [x] ps w by
      obtain ⟨ps, hps⟩ := hplayed
      exact ⟨ps, .earlier (m.world.issues_print _) (hps.later (w.issues_print _))⟩
    by_cases hrecorded : (Midi.file t).2 = none
    · rw [if_pos hrecorded] at hfile
      obtain ⟨player, hbefore, hthere⟩ := World.playTune_recorded hrecorded (m.world.printLine listing)
      have hrun : ∀ name, x.expr ≠ .run name := by simp [hexpr]
      obtain ⟨ps, hps⟩ := World.play_accounts hfile player (fun name hname => absurd hname (hrun name))
      rw [← hthere, hw] at hps
      exact ⟨ps, .earlier hbefore hps⟩
    · rw [if_neg hrecorded] at hfile
      rw [← hw]
      exact ⟨[], .idle (World.issues_playTune hrecorded) hfile⟩

/-- What the system is told when a value is shown that is no tune. -/
theorem Evaluation.display_accounts {x : Evaluation} {a : Expr} {v : Value} {m : Machine} (hv : ∀ t, v ≠ .tune t)
    (hexpr : x.expr = .display a) (hresult : x.result = (EvalM.display v >>= fun _ => pure v) m) :
    m.world.Accounts [x] [] (EvalM.left x.result).world := by
  have hfile : x.file? = none := by
    refine Evaluation.file?_of_display hexpr fun t m' htune => ?_
    rw [hresult] at htune
    obtain ⟨_, _, _, hpure⟩ := EvalM.bind_eq_ok htune
    cases hpure
    exact hv t rfl
  refine .idle ?_ hfile
  rw [hresult, EvalM.left_bind_pure]
  exact EvalM.issues_display hv m

/-- What the system is told when a file is played that is named. -/
theorem Evaluation.run_accounts (n : Nat) (env : Env) (path : String) (m : Machine) :
    ∃ ps, m.world.Accounts [⟨⟨env, .run path, m⟩, n + 1⟩] ps (EvalM.left ((Expr.run path).eval (n + 1) env m)).world := by
  have heval : (Expr.run path).eval (n + 1) env m =
      EvalM.ofExcept (PlayFailure.outcome (m.world.play path).1) { m with world := (m.world.play path).2 } := EvalM.run_eq path m
  rw [heval, EvalM.left_ofExcept]
  refine World.play_accounts rfl m.world fun _ _ => ?_
  show (∃ m', (Expr.run path).eval (n + 1) env m = .ok (.bool true) m') ↔ _
  rw [heval]
  constructor
  · rintro ⟨m', hok⟩
    obtain ⟨houtcome, _⟩ := EvalM.ofExcept_eq_ok hok
    cases hplayed : (m.world.play path).1 with
    | none => rfl
    | some failure =>
      rw [hplayed] at houtcome
      cases houtcome
  · intro hplayed
    rw [hplayed]
    exact ⟨_, rfl⟩

/-! ## Whole evaluations -/

/-- An evaluation that neither shows a value nor plays a file itself is accounted for when its tasks are. -/
theorem Expr.exists_accounts_of_tasks {n : Nat} {env : Env} {e : Expr} {m : Machine} (hshow : ∀ a, e ≠ .display a)
    (hplay : ∀ path, e ≠ .run path)
    (htasks : ∀ t ∈ e.tasks n env m, ∃ ps, t.machine.world.Accounts (t.expr.evaluations n t.env t.machine) ps (t.left n).world) :
    ∃ ps, m.world.Accounts (e.evaluations (n + 1) env m) ps (EvalM.left (e.eval (n + 1) env m)).world := by
  have hfile := Evaluation.file?_of_other (x := ⟨⟨env, e, m⟩, n + 1⟩) hshow hplay
  have htrans : ∀ {w w₁ w₂ : World} {xs ys : List Evaluation}, (∃ ps, w.Accounts xs ps w₁) → (∃ ps, w₁.Accounts ys ps w₂) →
      ∃ ps, w.Accounts (xs ++ ys) ps w₂ := by
    rintro w w₁ w₂ xs ys ⟨ps, hps⟩ ⟨qs, hqs⟩
    exact ⟨ps ++ qs, hps.trans hqs⟩
  obtain ⟨r, hconcludes, ps, hps⟩ := (e.chain n env m).accumulate (A := fun w xs w' => ∃ ps, w.Accounts xs ps w')
    (fun w => ⟨[], .nothing (.refl w)⟩) htrans htasks
  have hself : (EvalM.left r).world.Issues [] (EvalM.left (e.eval (n + 1) env m)).world := by
    cases r with
    | error f m₁ =>
      rw [show e.eval (n + 1) env m = .error f m₁ from hconcludes]
      exact .refl _
    | ok v m₁ =>
      rw [hconcludes.world]
      exact e.exchange_issues hshow hplay v m₁
  exact ⟨_, hps.trans (.idle hself hfile)⟩

/-- An evaluation that shows a value is accounted for when the evaluation of the value is. -/
theorem Expr.exists_accounts_of_shown {n : Nat} {env : Env} {a : Expr} {m : Machine} {ps : List Playback}
    (h : m.world.Accounts (a.evaluations n env m) ps (EvalM.left (a.eval n env m)).world) :
    ∃ qs, m.world.Accounts ((Expr.display a).evaluations (n + 1) env m) qs
      (EvalM.left ((Expr.display a).eval (n + 1) env m)).world := by
  have hevaluations : (Expr.display a).evaluations (n + 1) env m = a.evaluations n env m ++ [⟨⟨env, .display a, m⟩, n + 1⟩] := by
    simp [Expr.evaluations, Expr.tasks]
  rw [hevaluations]
  cases ha : a.eval n env m with
  | error f m₁ =>
    have hresult : (Evaluation.mk ⟨env, .display a, m⟩ (n + 1)).result = .error f m₁ := EvalM.bind_error ha
    have hfile := Evaluation.file?_of_display (x := ⟨⟨env, .display a, m⟩, n + 1⟩) rfl (by simp [hresult])
    rw [ha] at h
    rw [show (Expr.display a).eval (n + 1) env m = .error f m₁ from hresult]
    exact ⟨_, h.trans (.idle (.refl _) hfile)⟩
  | ok v m₁ =>
    have hresult : (Evaluation.mk ⟨env, .display a, m⟩ (n + 1)).result = (EvalM.display v >>= fun _ => pure v) m₁ := EvalM.bind_ok ha
    rw [ha] at h
    by_cases htune : ∃ t, v = .tune t
    · obtain ⟨t, rfl⟩ := htune
      obtain ⟨qs, hqs⟩ := Evaluation.display_tune_accounts rfl hresult
      exact ⟨_, h.trans hqs⟩
    · exact ⟨_, h.trans (Evaluation.display_accounts (fun t ht => htune ⟨t, ht⟩) rfl hresult)⟩

/-- Every evaluation is accounted for, however it ends. -/
theorem Expr.exists_accounts (n : Nat) : ∀ (env : Env) (e : Expr) (m : Machine),
    ∃ ps, m.world.Accounts (e.evaluations n env m) ps (EvalM.left (e.eval n env m)).world := by
  induction n with
  | zero => exact fun _ _ m => ⟨[], .nothing (.refl m.world)⟩
  | succ n ih =>
    intro env e m
    by_cases hshow : ∃ a, e = .display a
    · obtain ⟨a, rfl⟩ := hshow
      obtain ⟨ps, hps⟩ := ih env a m
      exact Expr.exists_accounts_of_shown hps
    by_cases hplay : ∃ path, e = .run path
    · obtain ⟨path, rfl⟩ := hplay
      exact Evaluation.run_accounts n env path m
    · exact Expr.exists_accounts_of_tasks (fun a h => hshow ⟨a, h⟩) (fun path h => hplay ⟨path, h⟩)
        (fun t _ => ih t.env t.expr t.machine)

end TuneLang
