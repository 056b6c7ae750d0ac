import TuneLang.Proofs.Eval.Kinds
import TuneLang.Proofs.Midi.Recording

/-!
# Playable notes

A program whose own notes last comes to tunes of lasting notes only: a duration is multiplied and divided by positive numbers, and a
quotient of zero becomes one. The pitches of these tunes are pitches of the scale, the rest, or written in the program, since a
pitch outside the scale becomes the rest when it is transposed (`Note.kept_playable`).

So no tune of such a program fails because of its notes, as long as their track fits its length field (`Tune.Oversized`). A tune that
is to be written is written, unless its path does not take it (`Files.Refuses`); and when a tune that is shown is not played, the
player was the reason. `Expr.playable_notes` says all of this of a whole run.
-/

namespace TuneLang

/-- Whether a note of a program's tunes lasts, and has a pitch of the scale, the rest, or a pitch that is written in the program. -/
structure Note.Playable (program : Expr) (n : Note) : Prop where
  lasts : 1 ≤ n.duration
  pitch : n.pitch ∈ Pitch.scale ∨ n.pitch = Pitch.rest ∨ ∃ d, Expr.note n.pitch d ∈ program.parts

/-- Whether the notes of a tune are playable. -/
def Tune.Playable (program : Expr) (t : Tune) : Prop := ∀ n ∈ t, n.Playable program

/-- Whether all notes that an expression writes last. -/
def Expr.Lasting (e : Expr) : Prop := ∀ p d, Expr.note p d ∈ e.parts → 1 ≤ d

/-- A transposed pitch is in the scale or the rest. -/
theorem Pitch.transpose_mem (p : Pitch) (k : Int) : p.transpose k ∈ Pitch.scale ∨ p.transpose k = Pitch.rest := by
  unfold Pitch.transpose
  split
  · rename_i i _
    have hlength : ((i + k) % 12).toNat < Pitch.scale.length := by
      have hscale : Pitch.scale.length = 12 := rfl
      omega
    unfold Pitch.ofIndex
    rw [List.getD_eq_getElem?_getD, List.getElem?_eq_getElem hlength, Option.getD_some]
    exact Or.inl (List.getElem_mem hlength)
  · exact Or.inr rfl

/-- A duration that lasts still lasts when it is shortened. -/
theorem Note.one_le_shortened {d k : Int} (hk : 0 < k) (hd : 1 ≤ d) : 1 ≤ Note.shortened d k := by
  have hquotient : 0 ≤ d.fdiv k := Int.fdiv_nonneg (by omega) (by omega)
  unfold Note.shortened
  dsimp only
  split <;> omega

/-- The operators on tunes keep notes playable. -/
theorem Note.kept_playable {program : Expr} (h : program.Lasting) : Note.Kept program (Note.Playable program) where
  written p d hmem := ⟨h p d hmem, Or.inr (Or.inr ⟨d, hmem⟩)⟩
  transposed {n} k hn := ⟨hn.lasts, (n.pitch.transpose_mem k).imp_right Or.inl⟩
  stretched {n k} hk hn := by
    have hlasts : 1 * 1 ≤ n.duration * k := Int.mul_le_mul hn.lasts hk (by decide) (by have := hn.lasts; omega)
    exact ⟨hlasts, hn.pitch⟩
  shortened hk hn := ⟨Note.one_le_shortened hk hn.lasts, hn.pitch⟩

/-! ## Writing and playing -/

/-- The file of a tune of notes that last has no failure, unless its track is too long. -/
theorem Midi.file_lasting {t : Tune} (ht : ∀ n ∈ t, 1 ≤ n.duration) (hsize : ¬ t.Oversized) : (Midi.file t).2 = none :=
  (Midi.read_file ht hsize).1

/-- How writing a tune of notes that last ends: with the bytes of the tune taken, or refused. -/
theorem EvalM.write_lasting {t : Tune} (ht : ∀ n ∈ t, 1 ≤ n.duration) (hsize : ¬ t.Oversized) (path : String) (m : Machine) :
    (∃ after, m.world.files.write path (Midi.file t).1 = (none, after) ∧
        EvalM.write (.tune t) path m = .ok (.bool true) { m with world := { m.world with files := after } }) ∨
      ∃ failure after, m.world.files.Refuses path failure.cause ∧ m.world.files.write path (Midi.file t).1 = (some failure, after) ∧
        EvalM.write (.tune t) path m =
          .error (.exchange (.notWritten (.file failure))) { m with world := { m.world with files := after } } := by
  rw [EvalM.write_eq, World.record, Midi.file_lasting ht hsize]
  cases hwrite : m.world.files.write path (Midi.file t).1 with
  | mk failure after =>
    cases failure with
    | none => exact Or.inl ⟨after, rfl, rfl⟩
    | some failure =>
      have hrefuses := (Files.write_error_iff.mp (congrArg Prod.fst hwrite)).2
      exact Or.inr ⟨failure, after, hrefuses, rfl, rfl⟩

/-- What is said about a tune that was not played, on a line of its own. -/
def Recording.notice : Option String → String
  | none => ""
  | some reason => "failed to play tune: " ++ reason ++ "\n"

/-- Showing a tune prints its notes, and a notice about what went wrong. -/
theorem EvalM.display_tune {t : Tune} {listing : String} {m : Machine} {failure : Option String} {w : World}
    (hlisting : Tune.listing? t = some listing) (hplay : (m.world.printLine listing).playTune t = (failure, w)) :
    EvalM.display (.tune t) m = .ok () { m with world := w.print (Recording.notice failure) } := by
  have hwritten : EvalM.written (Tune.listing? t) m = .ok listing m := by
    rw [hlisting]
    rfl
  have hprinted : EvalM.printLine listing m = .ok () { m with world := m.world.printLine listing } := rfl
  rw [EvalM.display, EvalM.bind_ok hwritten, EvalM.bind_ok hprinted, EvalM.bind_ok (EvalM.onWorld_eq hplay)]
  cases failure with
  | none =>
    have hsame : w.print (Recording.notice none) = w := by
      show { w with out := w.out ++ "" } = w
      simp only [String.append_empty]
    rw [hsame]
    exact rfl
  | some reason => rfl

/-- How showing a tune of notes that last ends: without an effect, when a duration is too long to be listed; and otherwise with a
list of the notes, and a notice if the player fails. -/
theorem EvalM.display_lasting {t : Tune} (ht : ∀ n ∈ t, 1 ≤ n.duration) (hsize : ¬ t.Oversized) (m : Machine) :
    (Tune.listing? t = none ∧ EvalM.display (.tune t) m = .error .numeralTooLong m) ∨
      ∃ (listing : String) (player : World) (m' : Machine), Tune.listing? t = some listing ∧
        player.platform = m.world.platform ∧ player.codes = m.world.codes ∧ EvalM.display (.tune t) m = .ok () m' ∧
        m'.world.out = m.world.out ++ (listing ++ "\n") ++
          Recording.notice ((player.play Recording.temporaryName).1.map PlayFailure.message) := by
  cases hlisting : Tune.listing? t with
  | none =>
    refine Or.inl ⟨rfl, ?_⟩
    rw [EvalM.display, hlisting]
    rfl
  | some listing =>
    let player : World := { m.world.printLine listing with temporaries := m.world.temporaries ++ [(Midi.file t).1] }
    have hplayed : (m.world.printLine listing).playTune t =
        ((player.play Recording.temporaryName).1.map PlayFailure.message, (player.play Recording.temporaryName).2) := by
      rw [World.playTune, Midi.file_lasting ht hsize]
      rfl
    refine Or.inr ⟨listing, player, _, rfl, rfl, rfl, EvalM.display_tune hlisting hplayed, ?_⟩
    obtain ⟨codes, commands, hplayer⟩ := player.play_eq Recording.temporaryName
    rw [World.print, hplayer]
    rfl

/-! ## Programs -/

/-- What holds of the notes in a run of a program, at most `n` expressions deep. -/
structure Expr.PlaysSafely (e : Expr) (n : Nat) (w : World) : Prop where
  /-- The program ends with a playable tune, if with a tune. -/
  returned : ∀ t m, e.evalClosed n w = .ok (.tune t) m → t.Playable e
  /-- The store holds playable tunes at every moment. -/
  held : ∀ x ∈ e.history n [] ⟨.empty, w⟩, ∀ l t, x.machine.store.get? l = some (.tune t) → t.Playable e
  /-- A tune that is to be written is playable. If its track is not too long, it is written, or its path cannot be opened, or what
  was opened refuses the bytes. -/
  written : ∀ env a path m, .begins env (.write a path) m ∈ e.history n [] ⟨.empty, w⟩ →
    ∀ k t m₁, a.eval k env m = .ok (.tune t) m₁ → t.Playable e ∧ (¬ t.Oversized →
      (∃ after, m₁.world.files.write path (Midi.file t).1 = (none, after) ∧
          (Expr.write a path).eval (k + 1) env m = .ok (.bool true) { m₁ with world := { m₁.world with files := after } }) ∨
        ∃ failure after, m₁.world.files.Refuses path failure.cause ∧
          m₁.world.files.write path (Midi.file t).1 = (some failure, after) ∧
          (Expr.write a path).eval (k + 1) env m =
            .error (.exchange (.notWritten (.file failure))) { m₁ with world := { m₁.world with files := after } })
  /-- A tune that is to be shown is playable. If its track is not too long and it can be listed, a notice behind the list names a
  failure of the player. -/
  shown : ∀ env a m, .begins env (.display a) m ∈ e.history n [] ⟨.empty, w⟩ →
    ∀ k t m₁, a.eval k env m = .ok (.tune t) m₁ → t.Playable e ∧ (¬ t.Oversized →
      (Tune.listing? t = none ∧ (Expr.display a).eval (k + 1) env m = .error .numeralTooLong m₁) ∨
        ∃ (listing : String) (player : World) (m₂ : Machine), Tune.listing? t = some listing ∧
          player.platform = m₁.world.platform ∧ player.codes = m₁.world.codes ∧
          (Expr.display a).eval (k + 1) env m = .ok (.tune t) m₂ ∧
          m₂.world.out = m₁.world.out ++ (listing ++ "\n") ++
            Recording.notice ((player.play Recording.temporaryName).1.map PlayFailure.message))

/-- Notes that last make writing safe. In every run of a program from a source whose own notes last, the tunes that it ends with,
holds in its store, writes or shows are playable; so a tune is written unless its path cannot be opened or what was opened refuses the
bytes, and is played unless the player fails. -/
theorem Expr.playable_notes {e : Expr} (he : e.Parsed) (hnotes : e.Lasting) (n : Nat) (w : World) : e.PlaysSafely n w := by
  have hlawful := Native.lawful he.legible (Note.kept_playable hnotes)
  obtain ⟨hs, hr⟩ := Native.ready e (Note.Playable e) w
  -- The operand of a construct that begins during the run ends with a playable tune, if with a tune.
  have operand : ∀ env c m, .begins env c m ∈ e.history n [] ⟨.empty, w⟩ → ∀ a ∈ c.operands, ∀ k t m₁,
      a.eval k env m = .ok (.tune t) m₁ → t.Playable e := by
    intro env c m hmoment a ha k t m₁ heval
    obtain ⟨hs₁, hr₁⟩ := hlawful.history_begins n [] e ⟨.empty, w⟩ hs hr env c m hmoment
    have hends := hlawful.eval k env a m hs₁ (hlawful.operand hr₁ ha)
    rw [heval] at hends
    exact hends.2.2
  refine ⟨?_, ?_, ?_, ?_⟩
  · intro t m hend
    have hends := hlawful.eval n [] e ⟨.empty, w⟩ hs hr
    rw [show e.eval n [] ⟨.empty, w⟩ = .ok (.tune t) m from hend] at hends
    exact hends.2.2
  · intro x hx l t hl
    exact (hlawful.history n [] e ⟨.empty, w⟩ hs hr x hx).2 l _ hl
  · intro env a path m hmoment k t m₁ heval
    have ht := operand env _ m hmoment a (by simp [Expr.operands]) k t m₁ heval
    have hwrite : (Expr.write a path).eval (k + 1) env m = EvalM.write (.tune t) path m₁ := EvalM.bind_ok heval
    rw [hwrite]
    exact ⟨ht, fun hsize => EvalM.write_lasting (fun u hu => (ht u hu).lasts) hsize path m₁⟩
  · intro env a m hmoment k t m₁ heval
    have ht := operand env _ m hmoment a (by simp [Expr.operands]) k t m₁ heval
    have hshow : (Expr.display a).eval (k + 1) env m = (EvalM.display (.tune t) >>= fun _ => pure (.tune t)) m₁ :=
      EvalM.bind_ok heval
    rw [hshow]
    refine ⟨ht, fun hsize => ?_⟩
    rcases EvalM.display_lasting (fun u hu => (ht u hu).lasts) hsize m₁ with ⟨hlisting, hdisplay⟩ | ⟨listing, player, m₂, h⟩
    · exact Or.inl ⟨hlisting, EvalM.bind_error hdisplay⟩
    · obtain ⟨hlisting, hplatform, hcodes, hdisplay, hout⟩ := h
      exact Or.inr ⟨listing, player, m₂, hlisting, hplatform, hcodes, EvalM.bind_ok hdisplay, hout⟩

/-- A tune with a note that is shortened to nothing and one outside the scale, shown and then written in another key. -/
def Expr.serenade : Expr :=
  .letIn "t" (.binary .div (.binary .join (.note "C" 1) (.note "H" 3)) (.lit (.int 2)))
    (.seq (.display (.name "t")) (.write (.binary .add (.name "t") (.lit (.int 1))) "x.mid"))

/-- The notes of the serenade last, so nothing goes wrong because of them. -/
theorem Expr.playable_notes_serenade :
    Expr.serenade.Parsed ∧ Expr.serenade.Lasting ∧ Expr.serenade.PlaysSafely 5 {} := by
  have hread : Expr.ofSource? "let t = ((C, 1) | (H, 3)) / 2 in show t ; write t + 1 : x.mid end" = some Expr.serenade := by
    decide +kernel
  have hparsed := Expr.parsed_of_ofSource? hread
  have hlasting : Expr.serenade.Lasting := by
    intro p d hmem
    simp only [Expr.serenade, Expr.parts, List.cons_append, List.nil_append, List.mem_cons, List.not_mem_nil, Expr.note.injEq,
      reduceCtorEq, false_or, or_false] at hmem
    rcases hmem with ⟨_, rfl⟩ | ⟨_, rfl⟩ <;> decide
  exact ⟨hparsed, hlasting, Expr.playable_notes hparsed hlasting 5 {}⟩

/-- A note that lasts, to be written to the full device. -/
def Expr.overfull : Expr := .write (.note "A" 1) "/dev/full"

/-- It is not only a path that cannot be opened which refuses a tune: the full device can be opened, and takes no note. -/
theorem Expr.refused_by_full_device :
    ¬ ∀ (e : Expr) (n : Nat) (w : World), e.Parsed → e.Lasting →
      ∀ env a path m, .begins env (.write a path) m ∈ e.history n [] ⟨.empty, w⟩ → ∀ k t m₁, a.eval k env m = .ok (.tune t) m₁ →
        ¬ t.Oversized → (∃ m₂, (Expr.write a path).eval (k + 1) env m = .ok (.bool true) m₂) ∨
          ∃ cause m₂, m₁.world.files.opened path = .error cause ∧
            (Expr.write a path).eval (k + 1) env m = .error (.exchange (.notWritten (.file ⟨cause, path⟩))) m₂ := by
  intro h
  have hread : Expr.ofSource? "write (A, 1) : /dev/full" = some Expr.overfull := by decide +kernel
  have hlasting : Expr.overfull.Lasting := by
    intro p d hmem
    simp only [Expr.overfull, Expr.parts, List.mem_cons, List.not_mem_nil, Expr.note.injEq, reduceCtorEq, false_or, or_false] at hmem
    rcases hmem with ⟨_, rfl⟩
    decide
  have hopened : ({} : World).files.opened "/dev/full" = .ok ["dev", "full"] := rfl
  have hrefused : Expr.overfull.eval 2 [] ⟨.empty, {}⟩ =
      .error (.exchange (.notWritten (.file ⟨.refused .noSpace, "/dev/full"⟩))) ⟨.empty, {}⟩ := rfl
  have hsize : ¬ Tune.Oversized [⟨"A", 1⟩] := Tune.not_oversized (by decide) (by decide +kernel)
  have hmoment := Expr.begins_mem_history 1 [] Expr.overfull ⟨.empty, {}⟩
  rcases h Expr.overfull 2 {} (Expr.parsed_of_ofSource? hread) hlasting [] _ _ _ hmoment 1 _ _ rfl hsize with
    ⟨m₂, hwritten⟩ | ⟨cause, m₂, hunopened, _⟩
  · rw [show (Expr.write (.note "A" 1) "/dev/full").eval 2 [] ⟨.empty, {}⟩ = _ from hrefused] at hwritten
    cases hwritten
  · rw [show Files.opened _ "/dev/full" = _ from hopened] at hunopened
    cases hunopened

end TuneLang
