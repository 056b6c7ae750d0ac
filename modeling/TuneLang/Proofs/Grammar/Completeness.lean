import TuneLang.Proofs.Grammar.Reading

/-!
# Every phrase is read

The tokens of a phrase that fits are read one by one where an operand of the phrase's level can stand, and each of them is looked
for when it comes (`Phrase.takes`). Behind them the reading rests on the phrase: it goes on, and ends, as it would with the phrase
as the one operand that was read (`Reading.Rests`).
-/

namespace TuneLang

/-- Whether tokens can be read one after another, each of them looked for. -/
inductive Reading.Takes : Reading → List Token → Reading → Prop where
  | nil (r : Reading) : Takes r [] r
  | cons {r r' r'' : Reading} {t : Token} {ts : List Token} :
    t.terminal ∈ r.allowed → r.feed? t = some r' → Takes r' ts r'' → Takes r (t :: ts) r''

theorem Reading.Takes.append {r r' r'' : Reading} {ts us : List Token} (h : r.Takes ts r') (h' : r'.Takes us r'') :
    r.Takes (ts ++ us) r'' := by
  induction h with
  | nil => exact h'
  | cons hallowed hfeed _ ih => exact .cons hallowed hfeed (ih h')

/-- Whether a reading rests on an operand of a level behind frames: what follows is looked for, and read as if the operand had been
read at once. -/
structure Reading.Rests (r : Reading) (fs : List Frame) (t : Tree) (level : Level) : Prop where
  follow : ∀ k : Follow, k.left ≤ level → k.terminal ∈ r.allowed ∧ r.feed? k.terminal.token = k.shift? fs t level
  close : ∀ terminal ∈ Terminal.closers, ∀ r', Reading.close? terminal fs t = some r' →
    terminal ∈ r.allowed ∧ r.feed? terminal.token = some r'
  finish : r.end? = Reading.finish? fs t

/-! ## Where a reading rests -/

/-- A closer is no continuation. -/
theorem Follow.ofTerminal?_closer : ∀ terminal ∈ Terminal.closers, Follow.ofTerminal? terminal = none := by decide

/-- The levels of what is complete as soon as its last token is read. -/
def Level.ofComplete : List Level := [.performance, .slice, .atom]

theorem Level.mem_followers_of_left : ∀ level ∈ Level.ofComplete, ∀ k ∈ Follow.all, k.left ≤ level →
    k.terminal ∈ level.followers := by decide

theorem Level.mem_followers_of_closer : ∀ level ∈ Level.ofComplete, ∀ terminal ∈ Terminal.closers,
    terminal ∈ level.followers := by decide

/-- A reading rests on a complete operand. -/
theorem Reading.rests_complete {fs : List Frame} {t : Tree} {level : Level} (hlevel : level ∈ Level.ofComplete) :
    Reading.Rests ⟨fs, .complete t level⟩ fs t level := by
  refine ⟨fun k hk => ⟨Level.mem_followers_of_left level hlevel k k.mem_all hk, ?_⟩,
    fun terminal hterminal r' hclose => ⟨Level.mem_followers_of_closer level hlevel terminal hterminal, ?_⟩, rfl⟩
  · simp only [Reading.feed?, Reading.follow?, Terminal.token, k.ofTerminal?_terminal]
  · simp only [Reading.feed?, Reading.follow?, Terminal.token, Follow.ofTerminal?_closer terminal hterminal, hclose]

/-- What follows a name goes on from it as from any operand. -/
theorem Reading.followName?_eq {terminal : Terminal} (hassign : terminal ≠ .assign) (hcomma : terminal ≠ .comma) (fs : List Frame)
    (x : String) : Reading.followName? fs x terminal = Reading.follow? fs (Tree.ofName x) .atom terminal := by
  unfold Reading.followName?
  split
  · exact absurd rfl hassign
  · exact absurd rfl hcomma
  · rfl

/-- Every continuation is looked for behind a name. -/
theorem Reading.mem_allowed_named (fs : List Frame) (x : String) (k : Follow) :
    k.terminal ∈ Reading.allowed ⟨fs, .named x⟩ := by
  unfold Reading.allowed
  simp only
  split
  · have hall : ∀ k ∈ Follow.all, k.terminal ∈
        [.comma, .lpar, .rpar, .lsqb, .semicolon, .assign] ++ Terminal.relating ++ Terminal.arithmetic := by decide
    exact hall k k.mem_all
  · have hleft : ∀ k ∈ Follow.all, k.left ≤ .atom := by decide
    exact List.mem_append_right _ (Level.mem_followers_of_left .atom (by decide) k k.mem_all (hleft k k.mem_all))

/-- Only a parenthesis closes a group. -/
theorem Reading.close?_group {terminal : Terminal} {fs : List Frame} {t : Tree} {r : Reading}
    (h : Reading.close? terminal (.group :: fs) t = some r) : terminal = .rpar := by
  cases terminal with
  | rpar => rfl
  | _ => cases h

/-- A closer that ends a name is looked for behind it. -/
theorem Reading.mem_allowed_named_closer {terminal : Terminal} {fs : List Frame} {x : String} {r : Reading}
    (hterminal : terminal ∈ Terminal.closers) (hclose : Reading.close? terminal fs (Tree.ofName x) = some r) :
    terminal ∈ Reading.allowed ⟨fs, .named x⟩ := by
  unfold Reading.allowed
  simp only
  split
  · rw [Reading.close?_group hclose]
    decide
  · exact List.mem_append_right _ (Level.mem_followers_of_closer .atom (by decide) terminal hterminal)

/-- A reading rests on a name. -/
theorem Reading.rests_named (fs : List Frame) (x : String) : Reading.Rests ⟨fs, .named x⟩ fs (Tree.ofName x) .atom := by
  refine ⟨fun k _ => ⟨Reading.mem_allowed_named fs x k, ?_⟩,
    fun terminal hterminal r' hclose => ⟨Reading.mem_allowed_named_closer hterminal hclose, ?_⟩, rfl⟩
  · have hother : ∀ k ∈ Follow.all, k.terminal ≠ .assign ∧ k.terminal ≠ .comma := by decide
    obtain ⟨hassign, hcomma⟩ := hother k k.mem_all
    simp only [Reading.feed?, Terminal.token, Reading.followName?_eq hassign hcomma, Reading.follow?, k.ofTerminal?_terminal]
  · have hother : ∀ t ∈ Terminal.closers, t ≠ .assign ∧ t ≠ .comma := by decide
    obtain ⟨hassign, hcomma⟩ := hother terminal hterminal
    simp only [Reading.feed?, Terminal.token, Reading.followName?_eq hassign hcomma, Reading.follow?,
      Follow.ofTerminal?_closer terminal hterminal, hclose]

/-- A frame that its operand completes is not closed by a word or bracket. -/
theorem Frame.close?_of_complete {f : Frame} {fs : List Frame} {t : Tree} {outcome : Tree × Level} (terminal : Terminal)
    (h : f.complete? t = some outcome) : f.close? fs terminal t = none := by
  cases f with
  | right | lead | assigned | alternative | repeated => rfl
  | _ => cases h

/-- A construct that ends with an operand is rested on where its operand is. -/
theorem Reading.Rests.complete {r : Reading} {f : Frame} {fs : List Frame} {t t' : Tree} {level : Level}
    (h : r.Rests (f :: fs) t level) (hneed : f.need ≤ level) (hguards : Level.Guards f.level f.need)
    (hcomplete : f.complete? t = some (t', f.level)) : r.Rests fs t' f.level := by
  refine ⟨fun k hk => ?_, fun terminal hterminal r' hclose => ?_, ?_⟩
  · obtain ⟨hallowed, hfeed⟩ := h.follow k (Nat.le_trans hk (Nat.le_trans hguards.1 hneed))
    have hloose : ¬ f.need ≤ k.level := Nat.not_le_of_lt (hguards.2 k k.mem_all hk)
    have hshift : k.shift? (f :: fs) t level = k.shift? fs t' f.level := by simp [Follow.shift?, hloose, hcomplete]
    exact ⟨hallowed, hfeed.trans hshift⟩
  · refine h.close terminal hterminal r' ?_
    simp only [Reading.close?, Frame.close?_of_complete terminal hcomplete, hcomplete, hclose]
  · rw [h.finish]
    simp only [Reading.finish?, hcomplete]

/-! ## Reading a phrase -/

/-- Going on from an operand that is tight enough, where what is made of it fits. -/
theorem Follow.shift?_of_le {k : Follow} {fs : List Frame} {t : Tree} {level : Level} (hleft : k.left ≤ level)
    (hneed : Reading.need fs ≤ k.level) : k.shift? fs t level = some ⟨k.frame t :: fs, .operand⟩ := by
  cases fs with
  | nil => simp [Follow.shift?, hleft]
  | cons f fs =>
    have hneed : f.need ≤ k.level := hneed
    simp [Follow.shift?, hleft, hneed]

/-- A terminal that begins an operand tight enough is looked for, and begins it. -/
theorem Reading.takes_begin {fs : List Frame} {token : Token} {level : Level} {r : Reading}
    (hlevel : token.terminal.operandLevel? = some level) (hneed : Reading.need fs ≤ level)
    (hbegin : Reading.begin? fs token = some r) : Reading.Takes ⟨fs, .operand⟩ [token] r := by
  refine .cons ?_ ?_ (.nil r)
  · have hmem : token.terminal ∈ Terminal.beginning := by
      cases hterminal : token.terminal <;> first | decide | (rw [hterminal] at hlevel; cases hlevel)
    exact List.mem_filter.mpr ⟨hmem, by simp [hlevel, hneed]⟩
  · simp only [Reading.feed?, hlevel, hneed, if_true, hbegin]

/-- A name where a statement can stand may be assigned. -/
theorem Reading.takes_assign {fs : List Frame} {x : String} (hneed : Reading.need fs ≤ .statement) :
    Reading.Takes ⟨fs, .named x⟩ [Terminal.assign.token] ⟨.assigned x :: fs, .operand⟩ := by
  refine .cons ?_ ?_ (.nil _)
  · unfold Reading.allowed
    simp only
    split
    · exact (by decide : Terminal.assign ∈
        [.comma, .lpar, .rpar, .lsqb, .semicolon, .assign] ++ Terminal.relating ++ Terminal.arithmetic)
    · rw [if_pos hneed]
      exact .head _
  · simp [Reading.feed?, Reading.followName?, Terminal.token, hneed]

namespace Reading.Rests

variable {r : Reading} {fs : List Frame} {t : Tree} {level : Level}

/-- A reading that rests goes on with a continuation. -/
theorem shift (h : r.Rests fs t level) (k : Follow) (hleft : k.left ≤ level) (hneed : Reading.need fs ≤ k.level) :
    r.Takes [k.terminal.token] ⟨k.frame t :: fs, .operand⟩ := by
  obtain ⟨hallowed, hfeed⟩ := h.follow k hleft
  exact .cons hallowed (hfeed.trans (Follow.shift?_of_le hleft hneed)) (.nil _)

/-- A reading that rests goes on with a word or bracket that closes the innermost frame. -/
theorem ended {f : Frame} {r' : Reading} (h : r.Rests (f :: fs) t level) (terminal : Terminal)
    (hclose : f.close? fs terminal t = some r') : r.Takes [terminal.token] r' := by
  have hterminal : terminal ∈ Terminal.closers := by
    unfold Frame.close? at hclose
    split at hclose <;> first | decide | cases hclose
  obtain ⟨hallowed, hfeed⟩ := h.close terminal hterminal r' (by simp only [Reading.close?, hclose])
  exact .cons hallowed hfeed (.nil r')

end Reading.Rests

/-- The tokens of a phrase that fits are read where an operand of its level can stand, and the reading rests on the phrase. -/
theorem Phrase.takes {p : Phrase} (h : p.Fits) (fs : List Frame) (hneed : Reading.need fs ≤ p.level) :
    ∃ r, Reading.Takes ⟨fs, .operand⟩ p.tokens r ∧ r.Rests fs p.tree p.level := by
  induction p generalizing fs with
  | int d => exact ⟨_, Reading.takes_begin rfl hneed rfl, Reading.rests_complete (by decide)⟩
  | name x => exact ⟨_, Reading.takes_begin rfl hneed rfl, Reading.rests_named fs x⟩
  | note x d =>
    have hopen : Reading.Takes ⟨fs, .operand⟩ [Terminal.lpar.token] ⟨.group :: fs, .operand⟩ := Reading.takes_begin rfl hneed rfl
    have hname : Reading.Takes ⟨.group :: fs, .operand⟩ [⟨.name, x⟩] ⟨.group :: fs, .named x⟩ :=
      Reading.takes_begin rfl (Nat.zero_le _) rfl
    have hrest : Reading.Takes ⟨.group :: fs, .named x⟩ [Terminal.comma.token, ⟨.int, d⟩, Terminal.rpar.token]
        ⟨fs, .complete (Phrase.note x d).tree .atom⟩ :=
      .cons (.head _) rfl (.cons (.head _) rfl (.cons (.head _) rfl (.nil _)))
    exact ⟨_, hopen.append (hname.append hrest), Reading.rests_complete (by decide)⟩
  | group e he =>
    have hopen : Reading.Takes ⟨fs, .operand⟩ [Terminal.lpar.token] ⟨.group :: fs, .operand⟩ := Reading.takes_begin rfl hneed rfl
    obtain ⟨r, htakes, hrests⟩ := he h (.group :: fs) (Nat.zero_le _)
    exact ⟨_, hopen.append (htakes.append (hrests.ended .rpar rfl)), Reading.rests_complete (by decide)⟩
  | letIn x d b hd hb =>
    obtain ⟨hdefinition, hbody⟩ := h
    have hopen : Reading.Takes ⟨fs, .operand⟩ [Terminal.letWord.token] ⟨fs, .letName⟩ := Reading.takes_begin rfl hneed rfl
    have hequal : Reading.Takes ⟨fs, .letName⟩ [⟨.name, x⟩, Terminal.equal.token] ⟨.definition x :: fs, .operand⟩ :=
      .cons (.head _) rfl (.cons (.head _) rfl (.nil _))
    obtain ⟨r, htakes, hrests⟩ := hd hdefinition (.definition x :: fs) (Nat.zero_le _)
    obtain ⟨r', htakes', hrests'⟩ := hb hbody (.body x d.tree :: fs) (Nat.zero_le _)
    have hscope := (hrests.ended .inWord rfl).append (htakes'.append (hrests'.ended .endWord rfl))
    exact ⟨_, hopen.append (hequal.append (htakes.append hscope)), Reading.rests_complete (by decide)⟩
  | letFun f x b i hb hi =>
    obtain ⟨hbody, hscope⟩ := h
    have hopen : Reading.Takes ⟨fs, .operand⟩ [Terminal.letfunWord.token] ⟨fs, .funName⟩ := Reading.takes_begin rfl hneed rfl
    have hequal : Reading.Takes ⟨fs, .funName⟩
        [⟨.name, f⟩, Terminal.lpar.token, ⟨.name, x⟩, Terminal.rpar.token, Terminal.equal.token] ⟨.functionBody f x :: fs, .operand⟩ :=
      .cons (.head _) rfl (.cons (.head _) rfl (.cons (.head _) rfl (.cons (.head _) rfl (.cons (.head _) rfl (.nil _)))))
    obtain ⟨r, htakes, hrests⟩ := hb hbody (.functionBody f x :: fs) (Nat.zero_le _)
    obtain ⟨r', htakes', hrests'⟩ := hi hscope (.functionScope f x b.tree :: fs) (Nat.zero_le _)
    have hin := (hrests.ended .inWord rfl).append (htakes'.append (hrests'.ended .endWord rfl))
    exact ⟨_, hopen.append (hequal.append (htakes.append hin)), Reading.rests_complete (by decide)⟩
  | app f a hf ha =>
    obtain ⟨hfunction, hlevel, hargument⟩ := h
    obtain ⟨r, htakes, hrests⟩ := hf hfunction fs (Nat.le_trans hneed hlevel)
    obtain ⟨r', htakes', hrests'⟩ := ha hargument (.argument f.tree :: fs) (Nat.zero_le _)
    have hopen := hrests.shift .apply hlevel hneed
    exact ⟨_, htakes.append (hopen.append (htakes'.append (hrests'.ended .rpar rfl))), Reading.rests_complete (by decide)⟩
  | slice t i j ht hi hj =>
    obtain ⟨htune, hlevel, hstart, hstop⟩ := h
    obtain ⟨r, htakes, hrests⟩ := ht htune fs (Nat.le_trans hneed hlevel)
    obtain ⟨r', htakes', hrests'⟩ := hi hstart (.sliceStart t.tree :: fs) (Nat.zero_le _)
    obtain ⟨r'', htakes'', hrests''⟩ := hj hstop (.sliceStop t.tree i.tree :: fs) (Nat.zero_le _)
    have hopen := hrests.shift .slice hlevel hneed
    have hcolon := (hrests'.ended .colon rfl).append (htakes''.append (hrests''.ended .rsqb rfl))
    exact ⟨_, htakes.append (hopen.append (htakes'.append hcolon)), Reading.rests_complete (by decide)⟩
  | lead l e he =>
    have hopen : Reading.Takes ⟨fs, .operand⟩ [l.terminal.token] ⟨.lead l :: fs, .operand⟩ := by
      cases l <;> exact Reading.takes_begin rfl hneed rfl
    obtain ⟨r, htakes, hrests⟩ := he h.1 (.lead l :: fs) h.2
    exact ⟨r, hopen.append htakes, hrests.complete h.2 l.guards rfl⟩
  | sign s l r hl hr =>
    obtain ⟨hleft, hlevel, hright, hlevel'⟩ := h
    have hlower : s.level ≤ s.left := (Follow.sign s).level_le_left
    obtain ⟨r₁, htakes, hrests⟩ := hl hleft fs (Nat.le_trans hneed (Nat.le_trans hlower hlevel))
    obtain ⟨r₂, htakes', hrests'⟩ := hr hright (.right s l.tree :: fs) hlevel'
    have hopen := hrests.shift (.sign s) hlevel hneed
    exact ⟨r₂, htakes.append (hopen.append htakes'), hrests'.complete hlevel' s.guards rfl⟩
  | times c t hc ht =>
    obtain ⟨hcount, hlevel, htune, hlevel'⟩ := h
    have hopen : Reading.Takes ⟨fs, .operand⟩ [Terminal.repeatWord.token] ⟨.count :: fs, .operand⟩ :=
      Reading.takes_begin rfl hneed rfl
    obtain ⟨r, htakes, hrests⟩ := hc hcount (.count :: fs) hlevel
    obtain ⟨r', htakes', hrests'⟩ := ht htune (.repeated c.tree :: fs) hlevel'
    have hguards : Level.Guards .performance .join := by decide
    exact ⟨r', hopen.append (htakes.append ((hrests.ended .colon rfl).append htakes')), hrests'.complete hlevel' hguards rfl⟩
  | write t path ht =>
    have hopen : Reading.Takes ⟨fs, .operand⟩ [Terminal.writeWord.token] ⟨.recorded :: fs, .operand⟩ :=
      Reading.takes_begin rfl hneed rfl
    obtain ⟨r, htakes, hrests⟩ := ht h.1 (.recorded :: fs) h.2
    have hpath : Reading.Takes ⟨fs, .writePath t.tree⟩ [⟨.path, path⟩] ⟨fs, .complete (Phrase.write t path).tree .performance⟩ :=
      .cons (.head _) rfl (.nil _)
    exact ⟨_, hopen.append (htakes.append ((hrests.ended .colon rfl).append hpath)), Reading.rests_complete (by decide)⟩
  | run path =>
    have hopen : Reading.Takes ⟨fs, .operand⟩ [Terminal.runWord.token] ⟨fs, .runPath⟩ := Reading.takes_begin rfl hneed rfl
    have hpath : Reading.Takes ⟨fs, .runPath⟩ [⟨.path, path⟩] ⟨fs, .complete (Phrase.run path).tree .performance⟩ :=
      .cons (.head _) rfl (.nil _)
    exact ⟨_, hopen.append hpath, Reading.rests_complete (by decide)⟩
  | assign x e he =>
    have hname : Reading.Takes ⟨fs, .operand⟩ [⟨.name, x⟩] ⟨fs, .named x⟩ :=
      Reading.takes_begin rfl (Nat.le_trans hneed (Phrase.level_le _)) rfl
    obtain ⟨r, htakes, hrests⟩ := he h.1 (.assigned x :: fs) h.2
    have hguards : Level.Guards .statement .statement := by decide
    exact ⟨r, hname.append ((Reading.takes_assign hneed).append htakes), hrests.complete h.2 hguards rfl⟩
  | cond c t e hc ht he =>
    obtain ⟨htest, hyes, hno, hlevel⟩ := h
    have hopen : Reading.Takes ⟨fs, .operand⟩ [Terminal.ifWord.token] ⟨.test :: fs, .operand⟩ := Reading.takes_begin rfl hneed rfl
    obtain ⟨r, htakes, hrests⟩ := hc htest (.test :: fs) (Nat.zero_le _)
    obtain ⟨r', htakes', hrests'⟩ := ht hyes (.consequent c.tree :: fs) (Nat.zero_le _)
    obtain ⟨r'', htakes'', hrests''⟩ := he hno (.alternative c.tree t.tree :: fs) hlevel
    have hguards : Level.Guards .statement .statement := by decide
    have helse := htakes'.append ((hrests'.ended .elseWord rfl).append htakes'')
    exact ⟨r'', hopen.append (htakes.append ((hrests.ended .thenWord rfl).append helse)), hrests''.complete hlevel hguards rfl⟩

/-- The tokens of a phrase that fits are a whole source. -/
theorem Phrase.takes_start {p : Phrase} (h : p.Fits) : ∃ r, Reading.start.Takes p.tokens r ∧ r.end? = some p.tree := by
  obtain ⟨r, htakes, hrests⟩ := Phrase.takes h [] (Nat.zero_le _)
  exact ⟨r, htakes, hrests.finish⟩

end TuneLang
