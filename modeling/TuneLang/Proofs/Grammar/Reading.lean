import TuneLang.Proofs.Grammar.Decomposition

/-!
# What a reading has read

A reading stands for the tokens that were read so far: each frame for those of the construct that it has begun, and the focus for
those behind the innermost frame. One token more is one token more of what the reading stands for (`Reading.Holds.feed`), and a
source that ends leaves the tree of a phrase with all its tokens (`Reading.Holds.finish`).
-/

namespace TuneLang

/-- Whether a tree is that of a phrase with the given tokens, of the level `q` at least. -/
def Tree.Reads (q : Level) (ts : List Token) (t : Tree) : Prop := ∃ p : Phrase, p.Fits ∧ q ≤ p.level ∧ p.tokens = ts ∧ p.tree = t

theorem Tree.Reads.mono {q q' : Level} {ts : List Token} {t : Tree} (hq : q' ≤ q) (h : t.Reads q ts) : t.Reads q' ts := by
  obtain ⟨p, hp, hlevel, htokens, htree⟩ := h
  exact ⟨p, hp, Nat.le_trans hq hlevel, htokens, htree⟩

/-- The level of the construct that a frame has begun. -/
def Frame.level : Frame → Level
  | .right s _ => s.level
  | .lead l => l.level
  | .assigned _ | .test | .consequent _ | .alternative _ _ => .statement
  | .recorded | .count | .repeated _ => .performance
  | .sliceStart _ | .sliceStop _ _ => .slice
  | .group | .argument _ | .definition _ | .body _ _ | .functionBody _ _ | .functionScope _ _ _ => .atom

/-- Whether a frame stands for the given tokens. -/
def Frame.Reads (ts : List Token) : Frame → Prop
  | .right s left => ∃ ls, left.Reads s.left ls ∧ ts = ls ++ [s.terminal.token]
  | .lead l => ts = [l.terminal.token]
  | .assigned x => ts = [⟨.name, x⟩, Terminal.assign.token]
  | .test => ts = [Terminal.ifWord.token]
  | .consequent c => ∃ cs, c.Reads .sequence cs ∧ ts = Terminal.ifWord.token :: cs ++ [Terminal.thenWord.token]
  | .alternative c y =>
    ∃ cs ys, c.Reads .sequence cs ∧ y.Reads .sequence ys ∧
      ts = Terminal.ifWord.token :: cs ++ Terminal.thenWord.token :: ys ++ [Terminal.elseWord.token]
  | .recorded => ts = [Terminal.writeWord.token]
  | .count => ts = [Terminal.repeatWord.token]
  | .repeated c => ∃ cs, c.Reads .join cs ∧ ts = Terminal.repeatWord.token :: cs ++ [Terminal.colon.token]
  | .group => ts = [Terminal.lpar.token]
  | .argument f => ∃ fs, f.Reads .atom fs ∧ ts = fs ++ [Terminal.lpar.token]
  | .sliceStart t => ∃ us, t.Reads .slice us ∧ ts = us ++ [Terminal.lsqb.token]
  | .sliceStop t i =>
    ∃ us is, t.Reads .slice us ∧ i.Reads .sequence is ∧ ts = us ++ Terminal.lsqb.token :: is ++ [Terminal.colon.token]
  | .definition x => ts = [Terminal.letWord.token, ⟨.name, x⟩, Terminal.equal.token]
  | .body x d =>
    ∃ ds, d.Reads .sequence ds ∧
      ts = Terminal.letWord.token :: ⟨.name, x⟩ :: Terminal.equal.token :: ds ++ [Terminal.inWord.token]
  | .functionBody f x =>
    ts = [Terminal.letfunWord.token, ⟨.name, f⟩, Terminal.lpar.token, ⟨.name, x⟩, Terminal.rpar.token, Terminal.equal.token]
  | .functionScope f x b =>
    ∃ bs, b.Reads .sequence bs ∧
      ts = Terminal.letfunWord.token :: ⟨.name, f⟩ :: Terminal.lpar.token :: ⟨.name, x⟩ :: Terminal.rpar.token ::
        Terminal.equal.token :: bs ++ [Terminal.inWord.token]

/-- Whether frames stand for the given tokens. The construct of each fits into the frame around it. -/
def Frame.Stack : List Token → List Frame → Prop
  | ts, [] => ts = []
  | ts, f :: fs => ∃ outer inner, ts = outer ++ inner ∧ Frame.Stack outer fs ∧ f.Reads inner ∧ Reading.need fs ≤ f.level

/-- Whether a focus stands for the given tokens, where a level of `q` is asked for. -/
def Focus.Reads (q : Level) (ts : List Token) : Focus → Prop
  | .operand => ts = []
  | .named x => q ≤ .atom ∧ ts = [⟨.name, x⟩]
  | .complete t level => q ≤ level ∧ t.Reads level ts
  | .writePath t => q ≤ .performance ∧ ∃ us, t.Reads .join us ∧ ts = Terminal.writeWord.token :: us ++ [Terminal.colon.token]
  | .runPath => q ≤ .performance ∧ ts = [Terminal.runWord.token]
  | .letName => q ≤ .atom ∧ ts = [Terminal.letWord.token]
  | .letEqual x => q ≤ .atom ∧ ts = [Terminal.letWord.token, ⟨.name, x⟩]
  | .funName => q ≤ .atom ∧ ts = [Terminal.letfunWord.token]
  | .funOpen f => q ≤ .atom ∧ ts = [Terminal.letfunWord.token, ⟨.name, f⟩]
  | .funParam f => q ≤ .atom ∧ ts = [Terminal.letfunWord.token, ⟨.name, f⟩, Terminal.lpar.token]
  | .funClose f x => q ≤ .atom ∧ ts = [Terminal.letfunWord.token, ⟨.name, f⟩, Terminal.lpar.token, ⟨.name, x⟩]
  | .funEqual f x =>
    q ≤ .atom ∧ ts = [Terminal.letfunWord.token, ⟨.name, f⟩, Terminal.lpar.token, ⟨.name, x⟩, Terminal.rpar.token]
  | .noteDuration x => q ≤ .atom ∧ ts = [Terminal.lpar.token, ⟨.name, x⟩, Terminal.comma.token]
  | .noteClose x d => q ≤ .atom ∧ ts = [Terminal.lpar.token, ⟨.name, x⟩, Terminal.comma.token, ⟨.int, d⟩]

/-- Whether a reading stands for the given tokens. -/
def Reading.Holds (r : Reading) (ts : List Token) : Prop :=
  ∃ outer inner, ts = outer ++ inner ∧ Frame.Stack outer r.frames ∧ r.focus.Reads (Reading.need r.frames) inner

theorem Reading.holds_start : Reading.start.Holds [] := ⟨[], [], rfl, rfl, rfl⟩

/-! ## The operations on frames -/

/-- The operand that completes a frame makes its construct. -/
theorem Frame.Reads.complete {f : Frame} {before inner : List Token} {t t' : Tree} {level : Level} (hf : f.Reads before)
    (ht : t.Reads f.need inner) (hcomplete : f.complete? t = some (t', level)) :
    t'.Reads level (before ++ inner) ∧ level = f.level := by
  obtain ⟨p, hp, hlevel, rfl, rfl⟩ := ht
  cases f with
  | right s left =>
    cases hcomplete
    obtain ⟨ls, ⟨pl, hl, hleft, rfl, rfl⟩, rfl⟩ := hf
    exact ⟨⟨.sign s pl p, ⟨hl, hleft, hp, hlevel⟩, Nat.le_refl _, by simp [Phrase.tokens], rfl⟩, rfl⟩
  | lead l =>
    cases hcomplete
    obtain rfl := hf
    exact ⟨⟨.lead l p, ⟨hp, hlevel⟩, Nat.le_refl _, rfl, rfl⟩, rfl⟩
  | assigned x =>
    cases hcomplete
    obtain rfl := hf
    exact ⟨⟨.assign x p, ⟨hp, hlevel⟩, Nat.le_refl _, rfl, rfl⟩, rfl⟩
  | alternative c y =>
    cases hcomplete
    obtain ⟨_, _, ⟨pc, hc, _, rfl, rfl⟩, ⟨py, hy, _, rfl, rfl⟩, rfl⟩ := hf
    exact ⟨⟨.cond pc py p, ⟨hc, hy, hp, hlevel⟩, Nat.le_refl _, by simp [Phrase.tokens], rfl⟩, rfl⟩
  | repeated c =>
    cases hcomplete
    obtain ⟨_, ⟨pc, hc, hcount, rfl, rfl⟩, rfl⟩ := hf
    exact ⟨⟨.times pc p, ⟨hc, hcount, hp, hlevel⟩, Nat.le_refl _, by simp [Phrase.tokens], rfl⟩, rfl⟩
  | _ => cases hcomplete

/-- The frame of a continuation stands for its operand and its terminal. -/
theorem Follow.reads_frame (k : Follow) {t : Tree} {ts : List Token} (ht : t.Reads k.left ts) :
    (k.frame t).Reads (ts ++ [k.terminal.token]) := by
  cases k <;> exact ⟨ts, ht, rfl⟩

theorem Follow.level_frame (k : Follow) (t : Tree) : (k.frame t).level = k.level := by cases k <;> rfl

theorem Follow.isClass_terminal (k : Follow) : k.terminal.isClass = false := by
  cases k with
  | sign s => exact s.isClass_terminal
  | slice | apply => rfl

/-- A continuation begins with its terminal. -/
theorem Follow.terminal_ofTerminal? {terminal : Terminal} {k : Follow} (h : Follow.ofTerminal? terminal = some k) :
    k.terminal = terminal := by
  unfold Follow.ofTerminal? at h
  split at h
  · cases h
    rfl
  · cases h
    rfl
  · obtain ⟨s, hs, rfl⟩ := Option.map_eq_some_iff.mp h
    have hterminal := List.find?_some hs
    exact eq_of_beq hterminal

section Operations

variable {fs : List Frame} {outer inner : List Token}

/-- A frame that was begun waits for an operand. -/
theorem Reading.holds_begun {f : Frame} (hfs : Frame.Stack outer fs) (hf : f.Reads inner) (hneed : Reading.need fs ≤ f.level) :
    Reading.Holds ⟨f :: fs, .operand⟩ (outer ++ inner) :=
  ⟨outer ++ inner, [], by simp, ⟨outer, inner, rfl, hfs, hf, hneed⟩, rfl⟩

/-- Going on from an operand adds the terminal of the continuation. -/
theorem Follow.holds_shift (k : Follow) {t : Tree} {level : Level} {r : Reading} (hfs : Frame.Stack outer fs)
    (hneed : Reading.need fs ≤ level) (ht : t.Reads level inner) (hshift : k.shift? fs t level = some r) :
    r.Holds (outer ++ (inner ++ [k.terminal.token])) := by
  induction fs generalizing t level outer inner with
  | nil =>
    unfold Follow.shift? at hshift
    split at hshift
    · cases hshift
      rename_i hleft
      exact Reading.holds_begun hfs (k.reads_frame (ht.mono hleft)) (Nat.zero_le _)
    · cases hshift
  | cons f fs ih =>
    unfold Follow.shift? at hshift
    split at hshift
    · cases hshift
      rename_i hfits
      simp only [Bool.and_eq_true, decide_eq_true_eq] at hfits
      exact Reading.holds_begun hfs (k.reads_frame (ht.mono hfits.1)) (k.level_frame t ▸ hfits.2)
    · obtain ⟨outer, before, rfl, houter, hf, hlevel⟩ := hfs
      split at hshift
      · rename_i hcomplete
        obtain ⟨hreads, rfl⟩ := hf.complete (ht.mono hneed) hcomplete
        have hrest := ih houter hlevel hreads hshift
        simpa using hrest
      · cases hshift

/-- The word or bracket that ends a part of a frame is added to what the frame stands for. -/
theorem Frame.Reads.close {f : Frame} {before : List Token} {terminal : Terminal} {t : Tree} {r : Reading}
    (hfs : Frame.Stack outer fs) (hf : f.Reads before) (hneed : Reading.need fs ≤ f.level) (ht : t.Reads f.need inner)
    (hclose : f.close? fs terminal t = some r) : r.Holds (outer ++ (before ++ inner ++ [terminal.token])) := by
  unfold Frame.close? at hclose
  split at hclose <;> cases hclose
  · obtain rfl := hf
    exact Reading.holds_begun hfs ⟨inner, ht, rfl⟩ hneed
  · obtain ⟨cs, hc, rfl⟩ := hf
    exact Reading.holds_begun hfs ⟨cs, inner, hc, ht, by simp⟩ hneed
  · obtain rfl := hf
    exact ⟨outer, _, rfl, hfs, hneed, inner, ht, rfl⟩
  · obtain rfl := hf
    exact Reading.holds_begun hfs ⟨inner, ht, rfl⟩ hneed
  · obtain rfl := hf
    obtain ⟨p, hp, _, rfl, rfl⟩ := ht
    exact ⟨outer, _, rfl, hfs, hneed, .group p, hp, Nat.le_refl _, rfl, rfl⟩
  · obtain ⟨_, ⟨pf, hpf, hlevel, rfl, rfl⟩, rfl⟩ := hf
    obtain ⟨p, hp, _, rfl, rfl⟩ := ht
    exact ⟨outer, _, rfl, hfs, hneed, .app pf p, ⟨hpf, hlevel, hp⟩, Nat.le_refl _, by simp [Phrase.tokens], rfl⟩
  · obtain ⟨us, hu, rfl⟩ := hf
    exact Reading.holds_begun hfs ⟨us, inner, hu, ht, by simp⟩ hneed
  · obtain ⟨_, _, ⟨pu, hu, hlevel, rfl, rfl⟩, ⟨pi, hi, _, rfl, rfl⟩, rfl⟩ := hf
    obtain ⟨p, hp, _, rfl, rfl⟩ := ht
    exact ⟨outer, _, rfl, hfs, hneed, .slice pu pi p, ⟨hu, hlevel, hi, hp⟩, Nat.le_refl _, by simp [Phrase.tokens], rfl⟩
  · obtain rfl := hf
    exact Reading.holds_begun hfs ⟨inner, ht, rfl⟩ hneed
  · obtain ⟨_, ⟨pd, hd, _, rfl, rfl⟩, rfl⟩ := hf
    obtain ⟨p, hp, _, rfl, rfl⟩ := ht
    exact ⟨outer, _, rfl, hfs, hneed, .letIn _ pd p, ⟨hd, hp⟩, Nat.le_refl _, by simp [Phrase.tokens], rfl⟩
  · obtain rfl := hf
    exact Reading.holds_begun hfs ⟨inner, ht, rfl⟩ hneed
  · obtain ⟨_, ⟨pb, hb, _, rfl, rfl⟩, rfl⟩ := hf
    obtain ⟨p, hp, _, rfl, rfl⟩ := ht
    exact ⟨outer, _, rfl, hfs, hneed, .letFun _ _ pb p, ⟨hb, hp⟩, Nat.le_refl _, by simp [Phrase.tokens], rfl⟩

/-- The word or bracket that ends an operand is added after the constructs that end before it. -/
theorem Reading.holds_close {terminal : Terminal} {t : Tree} {r : Reading} (hfs : Frame.Stack outer fs)
    (ht : t.Reads (Reading.need fs) inner) (hclose : Reading.close? terminal fs t = some r) :
    r.Holds (outer ++ (inner ++ [terminal.token])) := by
  induction fs generalizing t outer inner with
  | nil => cases hclose
  | cons f fs ih =>
    obtain ⟨outer, before, rfl, houter, hf, hlevel⟩ := hfs
    unfold Reading.close? at hclose
    split at hclose
    · cases hclose
      rename_i hend
      have hrest := hf.close houter hlevel ht hend
      simpa using hrest
    · split at hclose
      · rename_i hcomplete
        obtain ⟨hreads, rfl⟩ := hf.complete ht hcomplete
        have hrest := ih houter (hreads.mono hlevel) hclose
        simpa using hrest
      · cases hclose

/-- A source that ends after an operand has the tree of a phrase. -/
theorem Reading.reads_finish {t t' : Tree} (hfs : Frame.Stack outer fs) (ht : t.Reads (Reading.need fs) inner)
    (hfinish : Reading.finish? fs t = some t') : t'.Reads .sequence (outer ++ inner) := by
  induction fs generalizing t outer inner with
  | nil =>
    obtain rfl := hfs
    cases hfinish
    exact ht
  | cons f fs ih =>
    obtain ⟨outer, before, rfl, houter, hf, hlevel⟩ := hfs
    unfold Reading.finish? at hfinish
    split at hfinish
    · rename_i hcomplete
      obtain ⟨hreads, rfl⟩ := hf.complete ht hcomplete
      have hrest := ih houter (hreads.mono hlevel) hfinish
      simpa using hrest
    · cases hfinish

/-- Only a word or bracket ends an operand. -/
theorem Reading.isClass_of_close {terminal : Terminal} {t : Tree} {r : Reading} (h : Reading.close? terminal fs t = some r) :
    terminal.isClass = false := by
  induction fs generalizing t with
  | nil => cases h
  | cons f fs ih =>
    unfold Reading.close? at h
    split at h
    · rename_i hend
      unfold Frame.close? at hend
      split at hend <;> first | rfl | cases hend
    · split at h
      · exact ih h
      · cases h

/-- What goes on from an operand, or ends it, is added to what was read. -/
theorem Reading.holds_follow {t : Tree} {level : Level} {token : Token} {r : Reading} (hfs : Frame.Stack outer fs)
    (hneed : Reading.need fs ≤ level) (ht : t.Reads level inner) (htoken : token.Settled)
    (hfollow : Reading.follow? fs t level token.terminal = some r) : r.Holds (outer ++ (inner ++ [token])) := by
  unfold Reading.follow? at hfollow
  split at hfollow
  · rename_i k hk
    have hterminal := Follow.terminal_ofTerminal? hk
    rw [htoken (hterminal ▸ k.isClass_terminal), ← hterminal]
    exact k.holds_shift hfs hneed ht hfollow
  · rw [htoken (Reading.isClass_of_close hfollow)]
    exact Reading.holds_close hfs (ht.mono hneed) hfollow

/-- An operand that is begun stands for its first token. -/
theorem Reading.holds_begin {token : Token} {level : Level} {r : Reading} (hfs : Frame.Stack outer fs) (htoken : token.Settled)
    (hlevel : token.terminal.operandLevel? = some level) (hneed : Reading.need fs ≤ level)
    (hbegin : Reading.begin? fs token = some r) : r.Holds (outer ++ [token]) := by
  obtain ⟨terminal, text⟩ := token
  have hword : terminal.isClass = false → [⟨terminal, text⟩] = [terminal.token] := fun h => congrArg (fun t => [t]) (htoken h)
  cases terminal with
  | name =>
    cases hbegin
    cases hlevel
    exact ⟨outer, _, rfl, hfs, hneed, rfl⟩
  | int =>
    cases hbegin
    cases hlevel
    exact ⟨outer, _, rfl, hfs, hneed, .int text, trivial, Nat.le_refl _, rfl, rfl⟩
  | letWord | letfunWord | runWord =>
    cases hbegin
    cases hlevel
    exact ⟨outer, _, rfl, hfs, hneed, hword rfl⟩
  | lpar | minus | bang | ifWord | showWord | writeWord | repeatWord | reverseWord =>
    cases hbegin
    cases hlevel
    exact Reading.holds_begun hfs (hword rfl) hneed
  | _ => cases hbegin

/-- What goes on from a name is added to what was read. -/
theorem Reading.holds_followName {x : String} {token : Token} {r : Reading} (hfs : Frame.Stack outer fs)
    (hneed : Reading.need fs ≤ .atom) (htoken : token.Settled) (hfollow : Reading.followName? fs x token.terminal = some r) :
    r.Holds (outer ++ ([⟨.name, x⟩] ++ [token])) := by
  unfold Reading.followName? at hfollow
  split at hfollow
  · rename_i hassign
    split at hfollow
    · cases hfollow
      rename_i hstatement
      rw [htoken (by rw [hassign]; rfl), hassign]
      exact Reading.holds_begun hfs rfl hstatement
    · cases hfollow
  · rename_i fs hcomma
    cases hfollow
    obtain ⟨outer, before, rfl, houter, rfl, hlevel⟩ := hfs
    rw [htoken (by rw [hcomma]; rfl), hcomma, List.append_assoc]
    exact ⟨outer, _, rfl, houter, hlevel, rfl⟩
  · exact Reading.holds_follow hfs hneed ⟨.name x, trivial, Nat.le_refl _, rfl, rfl⟩ htoken hfollow

end Operations

/-! ## One token -/

/-- A token that is read is added to what the reading stands for. -/
theorem Reading.Holds.feed {r r' : Reading} {ts : List Token} {token : Token} (h : r.Holds ts) (htoken : token.Settled)
    (hfeed : r.feed? token = some r') : r'.Holds (ts ++ [token]) := by
  obtain ⟨fs, focus⟩ := r
  obtain ⟨terminal, text⟩ := token
  obtain ⟨outer, inner, rfl, hfs, hfocus⟩ := h
  rw [List.append_assoc]
  cases focus with
  | operand =>
    obtain rfl := hfocus
    simp only [Reading.feed?] at hfeed
    split at hfeed
    · rename_i level hlevel
      split at hfeed
      · rename_i hneed
        exact Reading.holds_begin hfs htoken hlevel hneed hfeed
      · cases hfeed
    · cases hfeed
  | named x =>
    obtain ⟨hneed, rfl⟩ := hfocus
    exact Reading.holds_followName hfs hneed htoken hfeed
  | complete t level =>
    obtain ⟨hneed, ht⟩ := hfocus
    exact Reading.holds_follow hfs hneed ht htoken hfeed
  | writePath t =>
    cases terminal <;> cases hfeed
    obtain ⟨hneed, _, ⟨p, hp, hlevel, rfl, rfl⟩, rfl⟩ := hfocus
    exact ⟨outer, _, rfl, hfs, hneed, .write p text, ⟨hp, hlevel⟩, Nat.le_refl _, by simp [Phrase.tokens], rfl⟩
  | runPath =>
    cases terminal <;> cases hfeed
    obtain ⟨hneed, rfl⟩ := hfocus
    exact ⟨outer, _, rfl, hfs, hneed, .run text, trivial, Nat.le_refl _, rfl, rfl⟩
  | letName | funName | funParam | noteDuration =>
    cases terminal <;> cases hfeed
    obtain ⟨hneed, rfl⟩ := hfocus
    exact ⟨outer, _, rfl, hfs, hneed, rfl⟩
  | funOpen | funClose =>
    cases terminal <;> cases hfeed
    obtain ⟨hneed, rfl⟩ := hfocus
    exact ⟨outer, _, rfl, hfs, hneed, by rw [htoken rfl]; rfl⟩
  | letEqual | funEqual =>
    cases terminal <;> cases hfeed
    obtain ⟨hneed, rfl⟩ := hfocus
    exact Reading.holds_begun hfs (by rw [htoken rfl]; rfl) hneed
  | noteClose x d =>
    cases terminal <;> cases hfeed
    obtain ⟨hneed, rfl⟩ := hfocus
    exact ⟨outer, _, rfl, hfs, hneed, .note x d, trivial, Nat.le_refl _, by rw [htoken rfl]; rfl, rfl⟩

/-- A source that ends has the tree of a phrase with all its tokens. -/
theorem Reading.Holds.finish {r : Reading} {ts : List Token} {t : Tree} (h : r.Holds ts) (hend : r.end? = some t) :
    t.Reads .sequence ts := by
  obtain ⟨fs, focus⟩ := r
  obtain ⟨outer, inner, rfl, hfs, hfocus⟩ := h
  cases focus with
  | named x =>
    obtain ⟨hneed, rfl⟩ := hfocus
    exact Reading.reads_finish hfs ⟨.name x, trivial, hneed, rfl, rfl⟩ hend
  | complete t level =>
    obtain ⟨hneed, ht⟩ := hfocus
    exact Reading.reads_finish hfs (ht.mono hneed) hend
  | _ => cases hend

end TuneLang
