import TuneLang.Proofs.Eval.Playback
import TuneLang.Proofs.Session.Turn

/-!
# Playbacks of a session

A session tells the system something in its evaluations only: neither the prompts nor the reports of a turn do. So the evaluations of all
its turns, one turn after another (`Session.Evaluates`), account for everything that the system is told, and the player is started only
when it was found and its file was found (`Session.player_checked`).
-/

namespace TuneLang

namespace Session

/-! ## Around an evaluation -/

theorem Entered.issues {w w' : World} {s : String} (h : Entered w s w') : w.Issues [] w' := by
  obtain ⟨lines, last, rest, _, _, _, rfl⟩ := h
  exact .of_eq rfl rfl rfl

theorem source_issues {s : String} {words : List String} {w w' : World} {r : Except SessionFailure String}
    (h : source s words w = (r, w')) : w.Issues [] w' := by
  obtain ⟨out, rfl⟩ := source_prints h
  exact .of_eq rfl rfl rfl

theorem Sourced.issues {w w' : World} {text : String} (h : Sourced w text w') : w.Issues [] w' := by
  obtain ⟨s, w₁, hentered, _, hsource⟩ := h
  exact hentered.issues.trans (source_issues hsource)

/-- A turn tells the system nothing before it evaluates anything. -/
theorem Reaches.issues {w w' : World} {stage : Stage} (h : Reaches w stage w') : w.Issues [] w' := by
  cases h with
  | finished | interrupted => exact .of_eq rfl rfl rfl
  | empty h | blank h => exact h.issues
  | unsourced h _ hsource => exact h.issues.trans (source_issues hsource)
  | unread h => exact h.issues.trans (World.issues_print _ _)
  | unbuilt h => exact h.issues.trans (World.issues_print _ _)
  | ready h => exact (h.issues.trans (World.issues_print _ _)).trans (World.issues_print _ _)

/-- The end of a turn tells the system nothing. -/
theorem conclude_issues (result : EStateM.Result Fault Machine Value) :
    (EvalM.left result).world.Issues [] (conclude result).2 := by
  obtain ⟨out, hout⟩ := conclude_prints result
  rw [hout]
  exact .of_eq rfl rfl rfl

/-! ## Turns -/

/-- The evaluations of a turn that comes to a stage in a world. -/
def Stage.evaluations (depth : Nat) (w : World) : Stage → List Evaluation
  | .settled _ => []
  | .evaluate e => e.evaluations depth [] ⟨.empty, w⟩

/-- The evaluations of a session, turn after turn. -/
inductive Evaluates (depth : Nat) : World → List Evaluation → Prop where
  | last {w w₁ w' : World} {stage : Stage} {t : Turn} (h : Reaches w stage w₁) (hturn : turn depth w = (t, w')) (hlast : t ≠ .next) :
    Evaluates depth w (stage.evaluations depth w₁)
  | next {w w₁ w' : World} {stage : Stage} {later : List Evaluation} (h : Reaches w stage w₁) (hturn : turn depth w = (.next, w'))
    (hlater : Evaluates depth w' later) : Evaluates depth w (stage.evaluations depth w₁ ++ later)

/-- Every session has its evaluations. -/
theorem exists_evaluates (depth : Nat) (w : World) : ∃ xs, Evaluates depth w xs := by
  -- Each turn that is not the last one leaves fewer lines.
  induction hlength : w.input.length using Nat.strongRecOn generalizing w with
  | ind n ih =>
    obtain ⟨stage, w₁, hstage⟩ := exists_reaches w
    rcases hturn : turn depth w with ⟨t, w'⟩
    by_cases ht : t = .next
    · subst ht
      obtain ⟨later, hlater⟩ := ih _ (hlength ▸ (advances_of_next hturn).shorter) w' rfl
      exact ⟨_, .next hstage hturn hlater⟩
    · exact ⟨_, .last hstage hturn ht⟩

/-- A turn is accounted for by its evaluations. -/
theorem Reaches.exists_accounts {w w₁ : World} {stage : Stage} (h : Reaches w stage w₁) (depth : Nat) :
    ∃ ps, w.Accounts (stage.evaluations depth w₁) ps (turn depth w).2 := by
  cases stage with
  | settled t =>
    rw [turn_of_settled h]
    exact ⟨[], .nothing h.issues⟩
  | evaluate e =>
    obtain ⟨ps, hps⟩ := Expr.exists_accounts depth [] e ⟨.empty, w₁⟩
    rw [turn_of_evaluate h]
    exact ⟨ps, .earlier h.issues (hps.later (conclude_issues _))⟩

/-- A session is accounted for by its evaluations. -/
theorem Evaluates.exists_accounts {depth : Nat} {w : World} {xs : List Evaluation} (h : Evaluates depth w xs) :
    ∃ ps, w.Accounts xs ps (run depth w).2 := by
  induction h with
  | @last w w₁ w' stage t h hturn hlast =>
    obtain ⟨ps, hps⟩ := h.exists_accounts depth
    rw [hturn] at hps
    cases t with
    | next => exact absurd rfl hlast
    | finished =>
      rw [run_of_finished hturn]
      exact ⟨ps, hps⟩
    | stopped e =>
      rw [run_of_stopped hturn]
      exact ⟨ps, hps⟩
  | next h hturn _ ih =>
    obtain ⟨ps, hps⟩ := h.exists_accounts depth
    obtain ⟨qs, hqs⟩ := ih
    rw [hturn] at hps
    rw [run_of_next hturn]
    exact ⟨ps ++ qs, hps.trans hqs⟩

/-- The player is never started unchecked. What the system is told by an evaluation, in whatever environment and machine, and by a session
is told in attempts to play a file, one after another: one for each evaluation that plays a named file or shows a tune that was recorded.
An attempt looks for the player and then for the file before it starts the player, goes on only while zero is returned, and breaks off
only when something else is. On another platform the system is told nothing. Playing a named file gives true exactly when its attempt is
complete and zero was returned each time. -/
theorem player_checked (depth : Nat) :
    (∀ (env : Env) (e : Expr) (m : Machine),
      ∃ ps, m.world.Accounts (e.evaluations depth env m) ps (EvalM.left (e.eval depth env m)).world) ∧
    ∀ w : World, (∃ xs, Evaluates depth w xs) ∧ ∀ xs, Evaluates depth w xs → ∃ ps, w.Accounts xs ps (run depth w).2 :=
  ⟨Expr.exists_accounts depth, fun w => ⟨exists_evaluates depth w, fun _ h => h.exists_accounts⟩⟩

/-- A session of one command, in a world where the player and the file are found. -/
def recital : World := { input := [.typed "run a"], codes := [0, 0, 0] }

/-- The command of the recital plays a file, with nothing left to be typed. -/
theorem recital_reaches : ∃ w, Reaches recital (.evaluate (.run "a")) w ∧ w.input = [] := by
  have hsourced : Sourced recital "run a" (prompted recital 0 []) := by
    refine ⟨"run a", _, ⟨[], "run a", [], ⟨rfl, by simp⟩, by simp [Continues], rfl, rfl⟩, ?_, ?_⟩
    · decide +kernel
    · rfl
  have hparse : Tree.parse "run a" = .ok (.node .run [Tree.pathLeaf "a"]) := Tree.parse_of_toOption (by decide +kernel)
  exact ⟨_, .ready hsourced hparse rfl rfl, rfl⟩

theorem recital_played {w : World} (h : Reaches recital (.evaluate (.run "a")) w) :
    (Expr.run "a").evalClosed 1 w = .ok (.bool true) ⟨.empty, (w.play "a").2⟩ := by
  have hplatform : w.platform = "posix" := h.issues.platform
  have hcodes : w.codes = [0, 0, 0] := h.issues.codes
  have hplayed : (w.play "a").1 = none := by simp [World.play, World.issue, hplatform, hcodes]
  show EvalM.run "a" ⟨.empty, w⟩ = _
  rw [EvalM.run_eq, hplayed]
  rfl

/-- The recital tells the system all three commands, for its one evaluation. -/
theorem player_checked_recital :
    ∃ x : Evaluation, Evaluates 1 recital [x] ∧ x.file? = some "a" ∧
      (∃ ps, recital.Accounts [x] ps (run 1 recital).2) ∧ (run 1 recital).2.commands.map Command.text = Player.commands "a" := by
  obtain ⟨w, hreaches, hinput⟩ := recital_reaches
  have hplayed := recital_played hreaches
  -- There is one more turn, at the end of the input.
  obtain ⟨u, hturn, hend⟩ : ∃ u, turn 1 recital = (.next, u) ∧ u.input = [] := by
    obtain ⟨codes, commands, hleft⟩ := w.play_eq "a"
    rw [turn_of_evaluate hreaches, hplayed, hleft]
    exact ⟨_, rfl, hinput⟩
  have hheard : Heard u [] [] := ⟨hend, by simp⟩
  have hxs : Evaluates 1 recital [⟨⟨[], .run "a", ⟨.empty, w⟩⟩, 1⟩] :=
    .next hreaches hturn (.last (.finished hheard) (turn_of_settled (.finished hheard) 1) (by simp))
  obtain ⟨ps, hps⟩ := ((player_checked 1).2 recital).2 _ hxs
  refine ⟨_, hxs, rfl, ⟨ps, hps⟩, ?_⟩
  obtain ⟨p, rfl, hp⟩ : ∃ p, ps = [p] ∧ p.evaluation = ⟨⟨[], .run "a", ⟨.empty, w⟩⟩, 1⟩ := List.map_eq_singleton_iff.mp hps.evaluations
  have hsucceeds : Player.Succeeds "a" p.issued := by
    refine (hps.answers p (List.mem_singleton.mpr rfl) "a" (by rw [hp])).mp ?_
    exact ⟨_, (congrArg Evaluation.result hp).trans hplayed⟩
  rw [hps.issued.commands, ← hsucceeds.1]
  simp [recital]

end Session

end TuneLang
