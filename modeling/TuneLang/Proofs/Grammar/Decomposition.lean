import TuneLang.Proofs.Grammar.Phrase

/-!
# Unique decomposition

A phrase is a head, which begins with a word or sign of its own, and the tails that go on from it one after another: a sign with its
right operand, a slice, an argument. Each tail asks for no more than the level of what is before it. So a phrase of a level can be
told from what follows it, as long as that does not begin with something that goes on at this level: two phrases with the same
tokens in front of them are the same (`Phrase.tokens_inj`).
-/

namespace TuneLang

/-! ## What follows an operand -/

/-- The terminal that a continuation begins with. -/
def Follow.terminal : Follow → Terminal
  | .sign s => s.terminal
  | .slice => .lsqb
  | .apply => .lpar

/-- All continuations. -/
def Follow.all : List Follow := Sign.all.map .sign ++ [.slice, .apply]

theorem Sign.mem_all (s : Sign) : s ∈ Sign.all := by cases s <;> decide

theorem Follow.mem_all (k : Follow) : k ∈ Follow.all := by
  cases k with
  | sign s => exact List.mem_append_left _ (List.mem_map_of_mem s.mem_all)
  | _ => decide

theorem Follow.ofTerminal?_terminal (k : Follow) : Follow.ofTerminal? k.terminal = some k := by
  have hall : ∀ k ∈ Follow.all, Follow.ofTerminal? k.terminal = some k := by decide
  exact hall k k.mem_all

/-- Whether a construct of a level that ends with an operand of the level `need` is complete before every continuation that asks for
no more than the construct's level: what goes on from the construct does not go on from its operand. -/
def Level.Guards (level need : Level) : Prop := level ≤ need ∧ ∀ k ∈ Follow.all, k.left ≤ level → k.level < need

instance (level need : Level) : Decidable (Level.Guards level need) :=
  inferInstanceAs (Decidable (level ≤ need ∧ ∀ k ∈ Follow.all, k.left ≤ level → k.level < need))

theorem Sign.guards (s : Sign) : Level.Guards s.level s.right := by
  have hall : ∀ s ∈ Sign.all, Level.Guards s.level s.right := by decide
  exact hall s s.mem_all

theorem Lead.guards (l : Lead) : Level.Guards l.level l.operand := by cases l <;> decide

theorem Lead.terminal_inj {l l' : Lead} (h : l.terminal = l'.terminal) : l = l' := by
  cases l <;> cases l' <;> first | rfl | cases h

theorem Follow.level_le_left (k : Follow) : k.level ≤ k.left := by
  have hall : ∀ k ∈ Follow.all, k.level ≤ k.left := by decide
  exact hall k k.mem_all

/-- The words and brackets that end a part of a construct. -/
def Terminal.closers : List Terminal := [.colon, .elseWord, .endWord, .inWord, .rpar, .rsqb, .thenWord]

/-- Whether nothing goes on from a phrase of a level: there is no token, or one that closes, or a continuation of a looser level. -/
def Token.Stop (q : Level) : List Token → Prop
  | [] => True
  | t :: _ => t.terminal ∈ Terminal.closers ∨ ∃ k, Follow.ofTerminal? t.terminal = some k ∧ k.level < q

theorem Token.Stop.mono {q q' : Level} {ts : List Token} (hq : q ≤ q') (h : Token.Stop q ts) : Token.Stop q' ts := by
  cases ts with
  | nil => trivial
  | cons t ts =>
    rcases h with h | ⟨k, hk, hlevel⟩
    · exact Or.inl h
    · exact Or.inr ⟨k, hk, Nat.lt_of_lt_of_le hlevel hq⟩

theorem Token.stop_closer {k : Terminal} (hk : k ∈ Terminal.closers) (q : Level) (ts : List Token) :
    Token.Stop q (k.token :: ts) := Or.inl hk

/-- What follows a name does not make it assigned. -/
theorem Token.not_stop_assign {q : Level} {ts : List Token} : ¬ Token.Stop q (Terminal.assign.token :: ts) := by
  rintro (h | ⟨k, hk, _⟩)
  · exact absurd h (by decide)
  · cases hk

/-! ## Heads and tails -/

/-- What goes on from an operand on its left. -/
inductive Tail where
  | sign (s : Sign) (right : Phrase)
  | slice (start stop : Phrase)
  | apply (argument : Phrase)

namespace Tail

/-- The continuation of a tail. -/
def follow : Tail → Follow
  | .sign s _ => .sign s
  | .slice _ _ => .slice
  | .apply _ => .apply

/-- The phrase that a tail makes of its operand. -/
def attach : Tail → Phrase → Phrase
  | .sign s right, left => .sign s left right
  | .slice start stop, tune => .slice tune start stop
  | .apply argument, function => .app function argument

/-- The tokens of a tail. -/
def tokens : Tail → List Token
  | .sign s right => s.terminal.token :: right.tokens
  | .slice i j => Terminal.lsqb.token :: (i.tokens ++ Terminal.colon.token :: (j.tokens ++ [Terminal.rsqb.token]))
  | .apply a => Terminal.lpar.token :: (a.tokens ++ [Terminal.rpar.token])

/-- Whether the parts of a tail fit. -/
def Fits : Tail → Prop
  | .sign s right => right.Fits ∧ s.right ≤ right.level
  | .slice i j => i.Fits ∧ j.Fits
  | .apply a => a.Fits

theorem level_attach (t : Tail) (p : Phrase) : (t.attach p).level = t.follow.level := by cases t <;> rfl

theorem tokens_attach (t : Tail) (p : Phrase) : (t.attach p).tokens = p.tokens ++ t.tokens := by cases t <;> rfl

theorem fits_attach (t : Tail) (p : Phrase) : (t.attach p).Fits ↔ p.Fits ∧ t.follow.left ≤ p.level ∧ t.Fits := by cases t <;> rfl

/-- The tokens of tails, one after another. -/
def allTokens (ts : List Tail) : List Token := ts.flatMap tokens

/-- Whether tails go on from an operand of a level, and end at no looser a level than `q`. -/
def Chain (q : Level) : Level → List Tail → Prop
  | level, [] => q ≤ level
  | level, t :: ts => t.follow.left ≤ level ∧ t.Fits ∧ Chain q t.follow.level ts

/-- A tail begins with the terminal of its continuation. -/
theorem tokens_eq (t : Tail) : ∃ rest, t.tokens = t.follow.terminal.token :: rest := by
  cases t with
  | sign s right => exact ⟨_, rfl⟩
  | slice i j => exact ⟨_, rfl⟩
  | apply a => exact ⟨_, rfl⟩

/-- Tails make nothing looser than they are asked to. -/
theorem Chain.le {q level : Level} {ts : List Tail} (h : Chain q level ts) : q ≤ level := by
  induction ts generalizing level with
  | nil => exact h
  | cons t ts ih =>
    obtain ⟨hleft, _, hrest⟩ := h
    exact Nat.le_trans (ih hrest) (Nat.le_trans t.follow.level_le_left hleft)

/-- A tail goes on at the level that its chain ends with. -/
theorem Chain.not_stop {q level : Level} {t : Tail} {ts : List Tail} (h : Chain q level (t :: ts)) (r : List Token) :
    ¬ Token.Stop q (allTokens (t :: ts) ++ r) := by
  obtain ⟨rest, htokens⟩ := t.tokens_eq
  rw [allTokens, List.flatMap_cons, htokens]
  rintro (hcloser | ⟨k, hk, hlevel⟩)
  · have hnone : ∀ k ∈ Follow.all, k.terminal ∉ Terminal.closers := by decide
    exact hnone _ t.follow.mem_all hcloser
  · obtain rfl : t.follow = k := Option.some.inj (t.follow.ofTerminal?_terminal.symm.trans hk)
    exact absurd (Nat.lt_of_lt_of_le hlevel h.2.2.le) (Nat.lt_irrefl _)

/-- Nothing goes on from the last operand of a construct when the tails go on from the construct. -/
theorem Chain.stop {q level need : Level} {ts : List Tail} {r : List Token} (h : Chain q level ts) (hr : Token.Stop q r)
    (hguards : Level.Guards level need) : Token.Stop need (allTokens ts ++ r) := by
  cases ts with
  | nil => exact hr.mono (Nat.le_trans h hguards.1)
  | cons t ts =>
    obtain ⟨rest, htokens⟩ := t.tokens_eq
    rw [allTokens, List.flatMap_cons, htokens]
    exact Or.inr ⟨t.follow, t.follow.ofTerminal?_terminal, hguards.2 _ t.follow.mem_all h.1⟩

end Tail

namespace Phrase

/-- Whether a phrase begins with a word or sign of its own. -/
def IsHead : Phrase → Prop
  | .sign _ _ _ | .slice _ _ _ | .app _ _ => False
  | _ => True

/-- A phrase with tails attached one after another. -/
def grow (p : Phrase) (ts : List Tail) : Phrase := ts.foldl (fun p t => t.attach p) p

/-- Every phrase is a head with tails. -/
theorem exists_grow (p : Phrase) : ∃ (h : Phrase) (ts : List Tail), h.IsHead ∧ p = h.grow ts := by
  induction p with
  | sign s l r hl =>
    obtain ⟨h, ts, hhead, rfl⟩ := hl
    exact ⟨h, ts ++ [.sign s r], hhead, by simp [grow, Tail.attach]⟩
  | slice t i j ht =>
    obtain ⟨h, ts, hhead, rfl⟩ := ht
    exact ⟨h, ts ++ [.slice i j], hhead, by simp [grow, Tail.attach]⟩
  | app f a hf =>
    obtain ⟨h, ts, hhead, rfl⟩ := hf
    exact ⟨h, ts ++ [.apply a], hhead, by simp [grow, Tail.attach]⟩
  | _ => exact ⟨_, [], by trivial, rfl⟩

theorem tokens_grow (p : Phrase) (ts : List Tail) : (p.grow ts).tokens = p.tokens ++ Tail.allTokens ts := by
  induction ts generalizing p with
  | nil => simp [grow, Tail.allTokens]
  | cons t ts ih =>
    have hrest := ih (t.attach p)
    rw [grow] at hrest
    simp [grow, Tail.allTokens, hrest, t.tokens_attach]

/-- The tails of a phrase that fits go on from its head. -/
theorem chain_of_fits {q : Level} {p : Phrase} {ts : List Tail} (h : (p.grow ts).Fits) (hq : q ≤ (p.grow ts).level) :
    p.Fits ∧ Tail.Chain q p.level ts := by
  induction ts generalizing p with
  | nil => exact ⟨h, hq⟩
  | cons t ts ih =>
    obtain ⟨hfits, hchain⟩ := ih (p := t.attach p) h hq
    obtain ⟨hp, hleft, ht⟩ := (t.fits_attach p).mp hfits
    rw [t.level_attach] at hchain
    exact ⟨hp, hleft, ht, hchain⟩

/-- The level asked for in the operand that a head ends with. A head that ends with a word or bracket asks for nothing. -/
def trail : Phrase → Level
  | .lead l _ => l.operand
  | .times _ _ => .join
  | .assign _ _ | .cond _ _ _ => .statement
  | _ => Level.atom + 1

/-- What goes on from a head does not go on from the operand that it ends with. -/
theorem guards_trail {h : Phrase} (hh : h.IsHead) : Level.Guards h.level h.trail := by
  cases h with
  | lead l => exact l.guards
  | sign | slice | app => exact hh.elim
  | int | name | note | group | letIn | letFun => exact (by decide : Level.Guards .atom (Level.atom + 1))
  | times => exact (by decide : Level.Guards .performance .join)
  | write | run => exact (by decide : Level.Guards .performance (Level.atom + 1))
  | assign | cond => exact (by decide : Level.Guards .statement .statement)

/-- A phrase has at least one token. -/
theorem tokens_ne_nil (p : Phrase) : p.tokens ≠ [] := by
  cases p <;> simp [tokens]

/-- What a head is that begins with the token `t`: `rest` are the tokens after that, and `r` those after the head. -/
def Opens (h : Phrase) (t : Token) (rest r : List Token) : Prop :=
  match t.terminal with
  | .int => h = .int t.text ∧ r = rest
  | .name => (h = .name t.text ∧ r = rest) ∨ ∃ e, h = .assign t.text e ∧ Terminal.assign.token :: (e.tokens ++ r) = rest
  | .lpar =>
    (∃ x d, h = .note x d ∧ ⟨.name, x⟩ :: Terminal.comma.token :: ⟨.int, d⟩ :: Terminal.rpar.token :: r = rest) ∨
      ∃ e, h = .group e ∧ e.tokens ++ Terminal.rpar.token :: r = rest
  | .letWord =>
    ∃ x d b, h = .letIn x d b ∧
      ⟨.name, x⟩ :: Terminal.equal.token :: (d.tokens ++ Terminal.inWord.token :: (b.tokens ++ Terminal.endWord.token :: r)) = rest
  | .letfunWord =>
    ∃ f x b i, h = .letFun f x b i ∧
      ⟨.name, f⟩ :: Terminal.lpar.token :: ⟨.name, x⟩ :: Terminal.rpar.token :: Terminal.equal.token ::
        (b.tokens ++ Terminal.inWord.token :: (i.tokens ++ Terminal.endWord.token :: r)) = rest
  | .repeatWord => ∃ c e, h = .times c e ∧ c.tokens ++ Terminal.colon.token :: (e.tokens ++ r) = rest
  | .writeWord => ∃ e path, h = .write e path ∧ e.tokens ++ Terminal.colon.token :: ⟨.path, path⟩ :: r = rest
  | .runWord => ∃ path, h = .run path ∧ ⟨.path, path⟩ :: r = rest
  | .ifWord =>
    ∃ c y n, h = .cond c y n ∧
      c.tokens ++ Terminal.thenWord.token :: (y.tokens ++ Terminal.elseWord.token :: (n.tokens ++ r)) = rest
  | k => ∃ l e, l.terminal = k ∧ h = .lead l e ∧ e.tokens ++ r = rest

/-- A head is what its first token says. -/
theorem opens {h : Phrase} (hh : h.IsHead) {t : Token} {rest r : List Token} (heq : h.tokens ++ r = t :: rest) :
    h.Opens t rest r := by
  cases h with
  | sign | slice | app => exact hh.elim
  | lead l e =>
    obtain ⟨rfl, rfl⟩ := List.cons.inj heq
    cases l <;> exact ⟨_, e, rfl, rfl, rfl⟩
  | int d =>
    obtain ⟨rfl, rfl⟩ := List.cons.inj heq
    exact ⟨rfl, rfl⟩
  | name x =>
    obtain ⟨rfl, rfl⟩ := List.cons.inj heq
    exact Or.inl ⟨rfl, rfl⟩
  | assign x e =>
    obtain ⟨rfl, rfl⟩ := List.cons.inj heq
    exact Or.inr ⟨e, rfl, rfl⟩
  | note x d =>
    obtain ⟨rfl, rfl⟩ := List.cons.inj heq
    exact Or.inl ⟨x, d, rfl, rfl⟩
  | group e =>
    obtain ⟨rfl, rfl⟩ := List.cons.inj heq
    exact Or.inr ⟨e, rfl, by simp⟩
  | letIn x d b =>
    obtain ⟨rfl, rfl⟩ := List.cons.inj heq
    exact ⟨x, d, b, rfl, by simp⟩
  | letFun f x b i =>
    obtain ⟨rfl, rfl⟩ := List.cons.inj heq
    exact ⟨f, x, b, i, rfl, by simp⟩
  | times c e =>
    obtain ⟨rfl, rfl⟩ := List.cons.inj heq
    exact ⟨c, e, rfl, by simp⟩
  | write e path =>
    obtain ⟨rfl, rfl⟩ := List.cons.inj heq
    exact ⟨e, path, rfl, by simp⟩
  | run path =>
    obtain ⟨rfl, rfl⟩ := List.cons.inj heq
    exact ⟨path, rfl, rfl⟩
  | cond c y n =>
    obtain ⟨rfl, rfl⟩ := List.cons.inj heq
    exact ⟨c, y, n, rfl, by simp⟩

/-- What stands in parentheses and begins with a name does not go on with a comma: that is left to notes. -/
theorem comma_not_follow (e : Phrase) (x : String) (r rest : List Token) :
    e.tokens ++ Terminal.rpar.token :: r ≠ ⟨.name, x⟩ :: Terminal.comma.token :: rest := by
  intro heq
  obtain ⟨h, ts, hhead, rfl⟩ := e.exists_grow
  rw [tokens_grow, List.append_assoc] at heq
  rcases opens hhead heq with ⟨_, hrest⟩ | ⟨e, _, hrest⟩
  · cases ts with
    | nil => cases (List.cons.inj hrest).1
    | cons t ts =>
      obtain ⟨_, htokens⟩ := t.tokens_eq
      rw [Tail.allTokens, List.flatMap_cons, htokens] at hrest
      have hcomma : ∀ k ∈ Follow.all, k.terminal.token ≠ Terminal.comma.token := by decide
      exact hcomma _ t.follow.mem_all (List.cons.inj hrest).1
  · cases (List.cons.inj hrest).1

end Phrase

/-! ## One decomposition -/

/-- Whether a phrase of at most `n` tokens can be told from what follows it. -/
def Phrase.Determined (n : Nat) : Prop :=
  ∀ {p p' : Phrase} {q : Level} {r r' : List Token}, p.tokens.length ≤ n → p.Fits → p'.Fits → q ≤ p.level → q ≤ p'.level →
    Token.Stop q r → Token.Stop q r' → p.tokens ++ r = p'.tokens ++ r' → p = p' ∧ r = r'

namespace Phrase.Determined

variable {n : Nat} {r r' : List Token}

/-- A part of a construct is told from the word or bracket that ends it. -/
theorem enclosed (hn : Determined n) {p p' : Phrase} {k : Terminal} (hlen : p.tokens.length ≤ n) (h : p.Fits) (h' : p'.Fits)
    (hk : k ∈ Terminal.closers) (heq : p.tokens ++ k.token :: r = p'.tokens ++ k.token :: r') : p = p' ∧ r = r' := by
  obtain ⟨hp, hrest⟩ :=
    hn hlen h h' (Nat.zero_le _) (Nat.zero_le _) (Token.stop_closer hk 0 r) (Token.stop_closer hk 0 r') heq
  exact ⟨hp, (List.cons.inj hrest).2⟩

/-- The operand that a construct ends with is told from what does not go on from it. -/
theorem last (hn : Determined n) {p p' : Phrase} {q : Level} (hlen : p.tokens.length ≤ n) (h : p.Fits ∧ q ≤ p.level)
    (h' : p'.Fits ∧ q ≤ p'.level) (hr : Token.Stop q r) (hr' : Token.Stop q r') (heq : p.tokens ++ r = p'.tokens ++ r') :
    p = p' ∧ r = r' :=
  hn hlen h.1 h'.1 h.2 h'.2 hr hr' heq

/-- Heads with the same tokens, in front of what does not go on from their last operands, are the same. -/
theorem head (hn : Determined n) {h h' : Phrase} (hh : h.IsHead) (hh' : h'.IsHead) (hlen : h.tokens.length ≤ n + 1)
    (hfits : h.Fits) (hfits' : h'.Fits) (hr : Token.Stop h.trail r) (hr' : Token.Stop h'.trail r')
    (heq : h.tokens ++ r = h'.tokens ++ r') : h = h' ∧ r = r' := by
  obtain ⟨⟨k, text⟩, rest, hrest⟩ := List.exists_cons_of_ne_nil (List.append_ne_nil_of_left_ne_nil h.tokens_ne_nil r)
  have ho := Phrase.opens hh hrest
  have ho' := Phrase.opens hh' (heq ▸ hrest)
  clear heq hrest
  cases k with
  | int =>
    obtain ⟨rfl, rfl⟩ := ho'
    obtain ⟨rfl, rfl⟩ := ho
    exact ⟨rfl, rfl⟩
  | name =>
    -- a name and an assignment differ in the token after the name
    rcases ho' with ⟨rfl, rfl⟩ | ⟨e', rfl, rfl⟩ <;> rcases ho with ⟨rfl, hrest⟩ | ⟨e, rfl, hrest⟩
    · exact ⟨rfl, hrest⟩
    · exact absurd (hrest ▸ hr') Token.not_stop_assign
    · exact absurd (hrest ▸ hr) Token.not_stop_assign
    · have hshort : e.tokens.length ≤ n := by simp [tokens] at hlen; omega
      obtain ⟨rfl, rfl⟩ := hn.last hshort hfits hfits' hr hr' (List.cons.inj hrest).2
      exact ⟨rfl, rfl⟩
  | lpar =>
    rcases ho' with ⟨x', d', rfl, rfl⟩ | ⟨e', rfl, rfl⟩ <;> rcases ho with ⟨x, d, rfl, hrest⟩ | ⟨e, rfl, hrest⟩
    · cases hrest
      exact ⟨rfl, rfl⟩
    · exact absurd hrest (comma_not_follow _ _ _ _)
    · exact absurd hrest.symm (comma_not_follow _ _ _ _)
    · have hshort : e.tokens.length ≤ n := by simp [tokens] at hlen; omega
      have he' : e'.Fits := hfits'
      obtain ⟨rfl, rfl⟩ := hn.enclosed hshort hfits he' (by decide) hrest
      exact ⟨rfl, rfl⟩
  | letWord =>
    obtain ⟨x', d', b', rfl, rfl⟩ := ho'
    obtain ⟨x, d, b, rfl, hrest⟩ := ho
    have hshort : d.tokens.length ≤ n ∧ b.tokens.length ≤ n := by simp [tokens] at hlen; omega
    simp only [List.cons.injEq, Token.mk.injEq, true_and] at hrest
    obtain ⟨rfl, hdefinition⟩ := hrest
    obtain ⟨rfl, hbody⟩ := hn.enclosed hshort.1 hfits.1 hfits'.1 (by decide) hdefinition
    obtain ⟨rfl, rfl⟩ := hn.enclosed hshort.2 hfits.2 hfits'.2 (by decide) hbody
    exact ⟨rfl, rfl⟩
  | letfunWord =>
    obtain ⟨f', x', b', i', rfl, rfl⟩ := ho'
    obtain ⟨f, x, b, i, rfl, hrest⟩ := ho
    have hshort : b.tokens.length ≤ n ∧ i.tokens.length ≤ n := by simp [tokens] at hlen; omega
    simp only [List.cons.injEq, Token.mk.injEq, true_and] at hrest
    obtain ⟨rfl, rfl, hbody⟩ := hrest
    obtain ⟨rfl, hscope⟩ := hn.enclosed hshort.1 hfits.1 hfits'.1 (by decide) hbody
    obtain ⟨rfl, rfl⟩ := hn.enclosed hshort.2 hfits.2 hfits'.2 (by decide) hscope
    exact ⟨rfl, rfl⟩
  | repeatWord =>
    obtain ⟨c', e', rfl, rfl⟩ := ho'
    obtain ⟨c, e, rfl, hcount⟩ := ho
    have hshort : c.tokens.length ≤ n ∧ e.tokens.length ≤ n := by simp [tokens] at hlen; omega
    obtain ⟨hc, _, he⟩ := hfits
    obtain ⟨hc', _, he'⟩ := hfits'
    obtain ⟨rfl, htune⟩ := hn.enclosed hshort.1 hc hc' (by decide) hcount
    obtain ⟨rfl, rfl⟩ := hn.last hshort.2 he he' hr hr' htune
    exact ⟨rfl, rfl⟩
  | writeWord =>
    obtain ⟨e', path', rfl, rfl⟩ := ho'
    obtain ⟨e, path, rfl, htune⟩ := ho
    have hshort : e.tokens.length ≤ n := by simp [tokens] at hlen; omega
    obtain ⟨rfl, hpath⟩ := hn.enclosed hshort hfits.1 hfits'.1 (by decide) htune
    cases hpath
    exact ⟨rfl, rfl⟩
  | runWord =>
    obtain ⟨path', rfl, rfl⟩ := ho'
    obtain ⟨path, rfl, hpath⟩ := ho
    cases hpath
    exact ⟨rfl, rfl⟩
  | ifWord =>
    obtain ⟨c', y', e', rfl, rfl⟩ := ho'
    obtain ⟨c, y, e, rfl, htest⟩ := ho
    have hshort : c.tokens.length ≤ n ∧ y.tokens.length ≤ n ∧ e.tokens.length ≤ n := by simp [tokens] at hlen; omega
    obtain ⟨hc, hy, he⟩ := hfits
    obtain ⟨hc', hy', he'⟩ := hfits'
    obtain ⟨rfl, hyes⟩ := hn.enclosed hshort.1 hc hc' (by decide) htest
    obtain ⟨rfl, hno⟩ := hn.enclosed hshort.2.1 hy hy' (by decide) hyes
    obtain ⟨rfl, rfl⟩ := hn.last hshort.2.2 he he' hr hr' hno
    exact ⟨rfl, rfl⟩
  | _ =>
    obtain ⟨l', e', hl', rfl, rfl⟩ := ho'
    obtain ⟨l, e, hl, rfl, hrest⟩ := ho
    obtain rfl := Lead.terminal_inj (hl.trans hl'.symm)
    have hshort : e.tokens.length ≤ n := by simp [tokens] at hlen; omega
    obtain ⟨rfl, rfl⟩ := hn.last hshort hfits hfits' hr hr' hrest
    exact ⟨rfl, rfl⟩

/-- Tails with the same tokens, in front of what goes on from neither, are the same. -/
theorem tail (hn : Determined n) {t t' : Tail} (hlen : t.tokens.length ≤ n + 1) (ht : t.Fits) (ht' : t'.Fits)
    (hr : ∀ need, Level.Guards t.follow.level need → Token.Stop need r)
    (hr' : ∀ need, Level.Guards t'.follow.level need → Token.Stop need r') (heq : t.tokens ++ r = t'.tokens ++ r') :
    t = t' ∧ r = r' := by
  have hfollow : t.follow = t'.follow := by
    obtain ⟨_, htokens⟩ := t.tokens_eq
    obtain ⟨_, htokens'⟩ := t'.tokens_eq
    rw [htokens, htokens'] at heq
    have hterminal : t.follow.terminal = t'.follow.terminal := congrArg Token.terminal (List.cons.inj heq).1
    exact Option.some.inj (t.follow.ofTerminal?_terminal.symm.trans (hterminal ▸ t'.follow.ofTerminal?_terminal))
  cases t with
  | sign s p =>
    obtain ⟨p', rfl⟩ : ∃ p', t' = .sign s p' := by cases t' <;> cases hfollow; exact ⟨_, rfl⟩
    have hshort : p.tokens.length ≤ n := by simp [Tail.tokens] at hlen; omega
    obtain ⟨rfl, rfl⟩ := hn.last hshort ht ht' (hr _ s.guards) (hr' _ s.guards) (List.cons.inj heq).2
    exact ⟨rfl, rfl⟩
  | slice i j =>
    obtain ⟨i', j', rfl⟩ : ∃ i' j', t' = .slice i' j' := by cases t' <;> cases hfollow; exact ⟨_, _, rfl⟩
    have hshort : i.tokens.length ≤ n ∧ j.tokens.length ≤ n := by simp [Tail.tokens] at hlen; omega
    simp only [Tail.tokens, List.cons_append, List.append_assoc, List.nil_append, List.cons.injEq, true_and] at heq
    obtain ⟨rfl, hstop⟩ := hn.enclosed hshort.1 ht.1 ht'.1 (by decide) heq
    obtain ⟨rfl, rfl⟩ := hn.enclosed hshort.2 ht.2 ht'.2 (by decide) hstop
    exact ⟨rfl, rfl⟩
  | apply a =>
    obtain ⟨a', rfl⟩ : ∃ a', t' = .apply a' := by cases t' <;> cases hfollow; exact ⟨_, rfl⟩
    have hshort : a.tokens.length ≤ n := by simp [Tail.tokens] at hlen; omega
    simp only [Tail.tokens, List.cons_append, List.append_assoc, List.nil_append, List.cons.injEq, true_and] at heq
    obtain ⟨rfl, rfl⟩ := hn.enclosed hshort ht ht' (by decide) heq
    exact ⟨rfl, rfl⟩

/-- Tails with the same tokens, in front of what does not go on at the level `q`, are the same. -/
theorem tails (hn : Determined n) {q level level' : Level} {ts ts' : List Tail} (hlen : (Tail.allTokens ts).length ≤ n + 1)
    (hc : Tail.Chain q level ts) (hc' : Tail.Chain q level' ts') (hr : Token.Stop q r) (hr' : Token.Stop q r')
    (heq : Tail.allTokens ts ++ r = Tail.allTokens ts' ++ r') : ts = ts' ∧ r = r' := by
  induction ts generalizing ts' level level' with
  | nil =>
    cases ts' with
    | nil => exact ⟨rfl, heq⟩
    | cons t' ts' =>
      obtain rfl : r = Tail.allTokens (t' :: ts') ++ r' := heq
      exact absurd hr (hc'.not_stop r')
  | cons t ts ih =>
    cases ts' with
    | nil =>
      obtain rfl : Tail.allTokens (t :: ts) ++ r = r' := heq
      exact absurd hr' (hc.not_stop r)
    | cons t' ts' =>
      simp only [Tail.allTokens, List.flatMap_cons, List.append_assoc, List.length_append] at heq hlen
      obtain ⟨_, ht, hchain⟩ := hc
      obtain ⟨_, ht', hchain'⟩ := hc'
      obtain ⟨rfl, hrest⟩ := hn.tail (Nat.le_trans (Nat.le_add_right _ _) hlen) ht ht' (fun _ hg => hchain.stop hr hg)
        (fun _ hg => hchain'.stop hr' hg) heq
      obtain ⟨rfl, rfl⟩ := ih (Nat.le_trans (Nat.le_add_left _ _) hlen) hchain hchain' hrest
      exact ⟨rfl, rfl⟩

end Phrase.Determined

/-- Every phrase can be told from what follows it. -/
theorem Phrase.determined (n : Nat) : Phrase.Determined n := by
  induction n with
  | zero =>
    intro p _ _ _ _ hlen
    exact absurd (List.eq_nil_of_length_eq_zero (Nat.le_zero.mp hlen)) p.tokens_ne_nil
  | succ n hn =>
    intro p p' q r r' hlen hp hp' hq hq' hr hr' heq
    obtain ⟨h, ts, hh, rfl⟩ := p.exists_grow
    obtain ⟨h', ts', hh', rfl⟩ := p'.exists_grow
    obtain ⟨hfits, hchain⟩ := Phrase.chain_of_fits hp hq
    obtain ⟨hfits', hchain'⟩ := Phrase.chain_of_fits hp' hq'
    rw [Phrase.tokens_grow, Phrase.tokens_grow, List.append_assoc, List.append_assoc] at heq
    rw [Phrase.tokens_grow, List.length_append] at hlen
    obtain ⟨rfl, htails⟩ := hn.head hh hh' (Nat.le_trans (Nat.le_add_right _ _) hlen) hfits hfits'
      (hchain.stop hr (Phrase.guards_trail hh)) (hchain'.stop hr' (Phrase.guards_trail hh')) heq
    obtain ⟨rfl, rfl⟩ := hn.tails (Nat.le_trans (Nat.le_add_left _ _) hlen) hchain hchain' hr hr' htails
    exact ⟨rfl, rfl⟩

/-- A sequence of tokens is that of one phrase at most. -/
theorem Phrase.tokens_inj {p p' : Phrase} (h : p.Fits) (h' : p'.Fits) (heq : p.tokens = p'.tokens) : p = p' := by
  have hend : Token.Stop 0 [] := trivial
  exact (Phrase.determined p.tokens.length (Nat.le_refl _) h h' (Nat.zero_le _) (Nat.zero_le _) hend hend (by rw [heq])).1

end TuneLang
