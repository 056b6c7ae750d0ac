import TuneLang.Midi.Event

/-!
# Strikes and releases

When the timeline of a tune cannot be settled. Settling goes through the events in order with a stack of strikes for each key, and
fails at a release that finds its stack empty; so it fails exactly when some key is released before it was struck often enough
(`Midi.settle_error_iff`). On the timeline the strikes in front of a release are those of earlier ticks, and so are the other releases of
its key, as a release comes before the strikes of its own tick and equal events count once. So neither the stacks nor the order are needed
to say which tunes fail: those with a key that is released at a tick before which it was struck no more often than released
(`Midi.timeline_error_iff`).
-/

namespace TuneLang

/-- How often an action is done to a key in a list of events. -/
def Midi.count (es : List Midi.Event) (action : Midi.Action) (key : Nat) : Nat :=
  es.countP (fun e => decide (e.action = action) && decide (e.key = key))

/-- How often an action is done to a key before a tick. -/
def Midi.countBefore (es : List Midi.Event) (action : Midi.Action) (key : Nat) (tick : Int) : Nat :=
  Midi.count (es.filter (fun e => decide (e.tick < tick))) action key

/-- Whether some key is released at a tick before which it was struck no more often than released. -/
def Midi.Overdrawn (es : List Midi.Event) : Prop :=
  ∃ e ∈ es, e.action = .release ∧ Midi.countBefore es .strike e.key e.tick ≤ Midi.countBefore es .release e.key e.tick

instance (es : List Midi.Event) : Decidable (Midi.Overdrawn es) :=
  inferInstanceAs (Decidable (∃ e ∈ es, e.action = .release ∧ Midi.countBefore es .strike e.key e.tick ≤
    Midi.countBefore es .release e.key e.tick))

/-- Whether the events of a tune, of which equal ones count once, are overdrawn. -/
def Tune.Overdrawn (t : Tune) : Prop := Midi.Overdrawn (Midi.distinct (Midi.eventsFrom 0 0 t))

instance (t : Tune) : Decidable t.Overdrawn := inferInstanceAs (Decidable (Midi.Overdrawn (Midi.distinct (Midi.eventsFrom 0 0 t))))

/-! ## Open keys -/

/-- How often a key was struck and not yet released. -/
def Midi.OpenKeys.depth (key : Nat) : Midi.OpenKeys → Nat
  | [] => 0
  | (k, ticks) :: rest => if k = key then ticks.length else Midi.OpenKeys.depth key rest

/-- A strike opens its key once more. -/
theorem Midi.OpenKeys.depth_strike (struck : Midi.OpenKeys) (key k : Nat) (tick : Int) :
    (struck.strike key tick).depth k = struck.depth k + if key = k then 1 else 0 := by
  induction struck with
  | nil => simp [Midi.OpenKeys.strike, Midi.OpenKeys.depth]
  | cons p rest ih =>
    obtain ⟨j, ticks⟩ := p
    rw [Midi.OpenKeys.strike]
    split
    · rename_i hj
      subst hj
      by_cases hk : j = k <;> simp [Midi.OpenKeys.depth, hk]
    · rename_i hj
      by_cases hk : j = k
      · have hne : key ≠ k := fun heq => hj (hk.trans heq.symm)
        simp [Midi.OpenKeys.depth, hk, hne]
      · simp [Midi.OpenKeys.depth, hk, ih]

/-- A key that is not open cannot be released. -/
theorem Midi.OpenKeys.release_error {struck : Midi.OpenKeys} {key : Nat} (h : struck.depth key = 0) :
    ∃ failure, struck.release key = .error failure := by
  induction struck with
  | nil => exact ⟨_, rfl⟩
  | cons p rest ih =>
    obtain ⟨j, ticks⟩ := p
    by_cases hj : j = key
    · rw [Midi.OpenKeys.depth, if_pos hj] at h
      obtain rfl := List.length_eq_zero_iff.mp h
      exact ⟨.nothingOpen, by simp [Midi.OpenKeys.release, hj]⟩
    · rw [Midi.OpenKeys.depth, if_neg hj] at h
      obtain ⟨failure, hfailure⟩ := ih h
      exact ⟨failure, by simp [Midi.OpenKeys.release, hj, hfailure, Except.map]⟩

/-- A key that is open is released, and is open once less after that. -/
theorem Midi.OpenKeys.release_ok {struck : Midi.OpenKeys} {key : Nat} (h : 0 < struck.depth key) :
    ∃ (ticks : List Int) (later : Midi.OpenKeys), struck.release key = .ok (ticks, later) ∧
      ∀ k, struck.depth k = later.depth k + if key = k then 1 else 0 := by
  induction struck with
  | nil => exact absurd h (Nat.lt_irrefl 0)
  | cons p rest ih =>
    obtain ⟨j, ticks⟩ := p
    by_cases hj : j = key
    · rw [Midi.OpenKeys.depth, if_pos hj] at h
      subst hj
      obtain ⟨tick, before, rfl⟩ := List.exists_cons_of_length_pos h
      refine ⟨tick :: before, (j, before) :: rest, by simp [Midi.OpenKeys.release], fun k => ?_⟩
      by_cases hk : j = k <;> simp [Midi.OpenKeys.depth, hk]
    · rw [Midi.OpenKeys.depth, if_neg hj] at h
      obtain ⟨ticks', later, hrelease, hdepth⟩ := ih h
      refine ⟨ticks', (j, ticks) :: later, by simp [Midi.OpenKeys.release, hj, hrelease, Except.map], fun k => ?_⟩
      by_cases hk : j = k
      · have hne : key ≠ k := fun heq => hj (hk.trans heq.symm)
        simp [Midi.OpenKeys.depth, hk, hne]
      · simp [Midi.OpenKeys.depth, hk, hdepth k]

/-! ## Settling -/

theorem Midi.count_cons (e : Midi.Event) (es : List Midi.Event) (action : Midi.Action) (key : Nat) :
    Midi.count (e :: es) action key = Midi.count es action key + if e.action = action ∧ e.key = key then 1 else 0 := by
  simp [Midi.count, List.countP_cons]

/-- Whether a list of events comes to a release of a key that is not open there, when the keys are open to begin with as given. -/
def Midi.Fails (depth : Nat → Nat) (es : List Midi.Event) : Prop :=
  ∃ before e behind, es = before ++ e :: behind ∧ e.action = .release ∧
    depth e.key + Midi.count before .strike e.key ≤ Midi.count before .release e.key

/-- A list of events fails at its first event, or behind it. -/
theorem Midi.fails_cons {depth : Nat → Nat} {e : Midi.Event} {es : List Midi.Event} :
    Midi.Fails depth (e :: es) ↔ (e.action = .release ∧ depth e.key = 0) ∨ ∃ before f behind, es = before ++ f :: behind ∧
      f.action = .release ∧ depth f.key + Midi.count (e :: before) .strike f.key ≤ Midi.count (e :: before) .release f.key := by
  constructor
  · rintro ⟨before, f, behind, hsplit, hf, hcount⟩
    cases before with
    | nil =>
      obtain ⟨rfl, rfl⟩ := List.cons.inj hsplit
      exact Or.inl ⟨hf, Nat.eq_zero_of_le_zero hcount⟩
    | cons g before =>
      obtain ⟨rfl, rfl⟩ := List.cons.inj hsplit
      exact Or.inr ⟨before, f, behind, rfl, hf, hcount⟩
  · rintro (⟨he, hdepth⟩ | ⟨before, f, behind, rfl, hf, hcount⟩)
    · exact ⟨[], e, es, rfl, he, Nat.le_of_eq hdepth⟩
    · exact ⟨e :: before, f, behind, rfl, hf, hcount⟩

/-- An event in front counts as a key that is open once more, or once less. -/
theorem Midi.fails_cons_of_open {depth depth' : Nat → Nat} {e : Midi.Event} (es : List Midi.Event)
    (hopen : ¬ (e.action = .release ∧ depth e.key = 0))
    (hdepth : ∀ k, depth k + (if e.action = .strike ∧ e.key = k then 1 else 0) =
      depth' k + if e.action = .release ∧ e.key = k then 1 else 0) :
    Midi.Fails depth (e :: es) ↔ Midi.Fails depth' es := by
  rw [Midi.fails_cons, or_iff_right hopen]
  refine exists_congr fun before => exists_congr fun f => exists_congr fun behind => ?_
  refine and_congr_right fun _ => and_congr_right fun _ => ?_
  have hkey := hdepth f.key
  rw [Midi.count_cons, Midi.count_cons]
  omega

/-- Settling fails exactly when a release comes whose key is not open, counted from the keys that are open to begin with. -/
theorem Midi.settle_error_iff (struck : Midi.OpenKeys) (es : List Midi.Event) :
    (∃ failure, Midi.settle struck es = .error failure) ↔ Midi.Fails struck.depth es := by
  induction es generalizing struck with
  | nil => simp [Midi.settle, Midi.Fails]
  | cons e es ih =>
    cases he : e.action with
    | strike =>
      have hrest : (∃ failure, Midi.settle struck (e :: es) = .error failure) ↔
          ∃ failure, Midi.settle (struck.strike e.key e.tick) es = .error failure := by
        rw [Midi.settle, he]
        cases Midi.settle (struck.strike e.key e.tick) es <;> simp [Except.map]
      rw [hrest, ih]
      refine (Midi.fails_cons_of_open es (by simp [he]) fun k => ?_).symm
      simp [he, Midi.OpenKeys.depth_strike]
    | release =>
      by_cases hopen : struck.depth e.key = 0
      · obtain ⟨failure, hrelease⟩ := Midi.OpenKeys.release_error hopen
        refine iff_of_true ⟨failure, ?_⟩ (Midi.fails_cons.mpr (Or.inl ⟨he, hopen⟩))
        simp only [Midi.settle, he, hrelease]
        rfl
      · obtain ⟨ticks, later, hrelease, hdepth⟩ := Midi.OpenKeys.release_ok (Nat.pos_of_ne_zero hopen)
        have hrest : (∃ failure, Midi.settle struck (e :: es) = .error failure) ↔
            ∃ failure, Midi.settle later es = .error failure := by
          simp only [Midi.settle, he, hrelease, bind, Except.bind]
          cases Midi.settle later es with
          | error failure => exact Iff.rfl
          | ok rest =>
            refine iff_of_false ?_ (by simp)
            rintro ⟨failure, hfailure⟩
            dsimp only at hfailure
            split at hfailure <;> cases hfailure
        rw [hrest, ih]
        refine (Midi.fails_cons_of_open es (fun h => hopen h.2) fun k => ?_).symm
        simp [he, hdepth k]

/-! ## The order of the timeline -/

namespace Midi.Event

/-- What the order of the timeline says of two events: the first has an earlier tick, or they have one tick and either the first is a
release and the second a strike, or both do the same and the first was made by a note that is no later. -/
theorem before_iff {a b : Midi.Event} : a.before b = true ↔
    a.tick < b.tick ∨ (a.tick = b.tick ∧ ((a.action = b.action ∧ a.order ≤ b.order) ∨ (a.action = .release ∧ b.action = .strike))) := by
  unfold before
  by_cases htick : a.tick = b.tick
  · rw [if_pos htick]
    cases ha : a.action <;> cases hb : b.action <;> simp [htick]
  · rw [if_neg htick]
    simp [htick]

theorem before_trans (a b c : Midi.Event) (hab : a.before b = true) (hbc : b.before c = true) : a.before c = true := by
  rw [before_iff] at hab hbc ⊢
  grind

theorem before_total (a b : Midi.Event) : (a.before b || b.before a) = true := by
  rw [Bool.or_eq_true, before_iff, before_iff]
  cases ha : a.action <;> cases hb : b.action <;> simp <;> omega

end Midi.Event

/-- The timeline is in order. -/
theorem Midi.pairwise_sorted (es : List Midi.Event) : (Midi.sorted es).Pairwise (fun a b => a.before b = true) :=
  List.pairwise_mergeSort Midi.Event.before_trans Midi.Event.before_total es

theorem Midi.perm_sorted (es : List Midi.Event) : (Midi.sorted es).Perm es := List.mergeSort_perm es _

/-- No two events that are left are equal. -/
theorem Midi.pairwise_distinct (es : List Midi.Event) : (Midi.distinct es).Pairwise (fun a b => ¬ a.same b = true) := by
  induction es with
  | nil => exact .nil
  | cons e es ih =>
    rw [Midi.distinct]
    refine List.pairwise_cons.mpr ⟨fun f hf => ?_, ih.filter _⟩
    simpa using (List.mem_filter.mp hf).2

theorem Midi.Event.same_iff {a b : Midi.Event} : a.same b = true ↔ a.action = b.action ∧ a.tick = b.tick ∧ a.key = b.key := by
  simp [Midi.Event.same, and_assoc]

/-- No two events of the timeline are equal. -/
theorem Midi.pairwise_timeline (es : List Midi.Event) :
    (Midi.sorted (Midi.distinct es)).Pairwise (fun a b => a.before b = true ∧ ¬ a.same b = true) := by
  refine (Midi.pairwise_sorted _).and ?_
  refine (Midi.perm_sorted _).symm.pairwise (Midi.pairwise_distinct es) (fun {a b} hab hba => hab ?_)
  rw [Midi.Event.same_iff] at hba ⊢
  exact ⟨hba.1.symm, hba.2.1.symm, hba.2.2.symm⟩

/-! ## What comes before a release -/

/-- What is done to the key of a release in front of it on the timeline is what is done to the key before the tick of the release. -/
theorem Midi.countBefore_split {before behind : List Midi.Event} {e : Midi.Event} (he : e.action = .release)
    (h : (before ++ e :: behind).Pairwise (fun a b => a.before b = true ∧ ¬ a.same b = true)) (action : Midi.Action) :
    Midi.countBefore (before ++ e :: behind) action e.key e.tick = Midi.count before action e.key := by
  obtain ⟨_, hbehind, hbefore⟩ := List.pairwise_append.mp h
  -- neither the release nor what comes behind it has an earlier tick
  have hlate : (e :: behind).filter (fun f => decide (f.tick < e.tick)) = [] := by
    refine List.filter_eq_nil_iff.mpr fun f hf => ?_
    rw [decide_eq_true_eq]
    rcases List.mem_cons.mp hf with rfl | hf
    · exact Int.lt_irrefl _
    · have := Midi.Event.before_iff.mp ((List.pairwise_cons.mp hbehind).1 f hf).1
      omega
  -- in front of the release, all that is done to its key is done earlier
  have hearly : ∀ f ∈ before, f.key = e.key → f.tick < e.tick := by
    intro f hf hkey
    obtain ⟨hle, hne⟩ := hbefore f hf e (.head _)
    rw [Midi.Event.same_iff] at hne
    rcases Midi.Event.before_iff.mp hle with hlt | ⟨htick, ⟨haction, _⟩ | ⟨_, hstrike⟩⟩
    · exact hlt
    · exact absurd ⟨haction, htick, hkey⟩ hne
    · rw [he] at hstrike
      cases hstrike
  rw [Midi.countBefore, List.filter_append, hlate, List.append_nil, Midi.count, Midi.count, List.countP_filter]
  refine List.countP_congr fun f hf => ?_
  simp only [Bool.and_eq_true, decide_eq_true_eq]
  exact ⟨fun hand => hand.1, fun hand => ⟨hand, hearly f hf hand.2⟩⟩

/-- The timeline comes to a release of a key that is not open exactly when it is overdrawn. -/
theorem Midi.fails_iff_overdrawn {es : List Midi.Event} (h : es.Pairwise (fun a b => a.before b = true ∧ ¬ a.same b = true)) :
    Midi.Fails (fun _ => 0) es ↔ Midi.Overdrawn es := by
  constructor
  · rintro ⟨before, e, behind, rfl, he, hcount⟩
    refine ⟨e, List.mem_append_right _ (.head _), he, ?_⟩
    rw [Midi.countBefore_split he h, Midi.countBefore_split he h]
    simpa using hcount
  · rintro ⟨e, hmem, he, hcount⟩
    obtain ⟨before, behind, rfl⟩ := List.append_of_mem hmem
    rw [Midi.countBefore_split he h, Midi.countBefore_split he h] at hcount
    exact ⟨before, e, behind, rfl, he, by simpa using hcount⟩

/-- Whether events are overdrawn does not depend on their order. -/
theorem Midi.overdrawn_perm {es fs : List Midi.Event} (h : es.Perm fs) : Midi.Overdrawn es ↔ Midi.Overdrawn fs := by
  have hcount : ∀ action key tick, Midi.countBefore es action key tick = Midi.countBefore fs action key tick :=
    fun _ _ _ => (h.filter _).countP_eq _
  simp only [Midi.Overdrawn, hcount, h.mem_iff]

/-- The timeline of a tune cannot be settled exactly when its events are overdrawn. -/
theorem Midi.timeline_error_iff (t : Tune) : (∃ failure, Midi.timeline t = .error failure) ↔ t.Overdrawn := by
  have hsettled : (∃ failure, Midi.timeline t = .error failure) ↔
      ∃ failure, Midi.settle [] (Midi.sorted (Midi.distinct (Midi.eventsFrom 0 0 t))) = .error failure := by
    rw [Midi.timeline]
    cases Midi.settle [] (Midi.sorted (Midi.distinct (Midi.eventsFrom 0 0 t))) <;> simp [Except.map]
  calc (∃ failure, Midi.timeline t = .error failure)
      ↔ Midi.Fails (fun _ => 0) (Midi.sorted (Midi.distinct (Midi.eventsFrom 0 0 t))) := hsettled.trans (Midi.settle_error_iff [] _)
    _ ↔ Midi.Overdrawn (Midi.sorted (Midi.distinct (Midi.eventsFrom 0 0 t))) := Midi.fails_iff_overdrawn (Midi.pairwise_timeline _)
    _ ↔ t.Overdrawn := Midi.overdrawn_perm (Midi.perm_sorted _)

end TuneLang
