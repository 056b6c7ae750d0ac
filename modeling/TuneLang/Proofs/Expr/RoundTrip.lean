import TuneLang.Proofs.Expr.Build
import TuneLang.Proofs.Grammar.Printing

/-!
# Expressions as they are written

An expression is written with parentheses around a part exactly where the part is looser than what is asked for there, and with one
space between tokens. Every expression that a source can write is read back from its own text (`Expr.round_trip`).
-/

namespace TuneLang

/-! ## Writing expressions -/

/-- A phrase where a level is asked for: in parentheses exactly when it is looser. -/
def Phrase.within (q : Level) (p : Phrase) : Phrase := if q ≤ p.level then p else .group p

/-- A sign between two operands. -/
def Sign.phrase (s : Sign) (left right : Phrase) : Phrase := .sign s (left.within s.left) (right.within s.right)

/-- A leading word and its operand. -/
def Lead.phrase (l : Lead) (operand : Phrase) : Phrase := .lead l (operand.within l.operand)

/-- A binary operator between two operands. Repetition is written with a word in front of them. -/
def BinaryOp.phrase : BinaryOp → Phrase → Phrase → Phrase
  | .add => Sign.add.phrase
  | .sub => Sign.sub.phrase
  | .mul => Sign.mul.phrase
  | .div => Sign.div.phrase
  | .eq => Sign.eq.phrase
  | .ne => Sign.ne.phrase
  | .lt => Sign.lt.phrase
  | .gt => Sign.gt.phrase
  | .le => Sign.le.phrase
  | .ge => Sign.ge.phrase
  | .join => Sign.join.phrase
  | .times => fun count tune => .times (count.within .join) (tune.within .join)

/-- A connective between two operands. -/
def Connective.phrase : Connective → Phrase → Phrase → Phrase
  | .and => Sign.and.phrase
  | .or => Sign.or.phrase

/-- An operator in front of its operand. -/
def UnaryOp.phrase : UnaryOp → Phrase → Phrase
  | .neg => Lead.neg.phrase
  | .not => Lead.not.phrase
  | .reverse => Lead.reverse.phrase

/-- An expression as it is written. A value that no source can write leaves an empty name. -/
def Expr.phrase : Expr → Phrase
  | .lit (.int n) => .int (toString n)
  | .lit (.bool b) => .name (toString b)
  | .note x d => .note x (toString d)
  | .binary op l r => op.phrase l.phrase r.phrase
  | .logic op l r => op.phrase l.phrase r.phrase
  | .unary op e => op.phrase e.phrase
  | .slice t i j => .slice (t.phrase.within .slice) i.phrase j.phrase
  | .cond c t e => .cond c.phrase t.phrase (e.phrase.within .statement)
  | .name x => .name x
  | .letIn x d b => .letIn x d.phrase b.phrase
  | .letFun f x b i => .letFun f x b.phrase i.phrase
  | .app f a => .app (f.phrase.within .atom) a.phrase
  | .assign x e => .assign x (e.phrase.within .statement)
  | .seq a b => Sign.seq.phrase a.phrase b.phrase
  | .display e => Lead.display.phrase e.phrase
  | .read => .name "read"
  | .write t path => .write (t.phrase.within .join) path
  | .run path => .run path
  | .lit _ | .stray _ => .name ""

/-- The text of an expression, with one space between tokens. -/
def Expr.print (e : Expr) : String := Token.print e.phrase.tokens

/-- Whether an integer can be written with digits only, and not too many of them. -/
def Numeral.isUnsigned (n : Int) : Bool := decide (0 ≤ n) && decide (n.toNat < Numeral.bound)

/-- Whether an expression can be written in a source. -/
def Expr.isSurface : Expr → Bool
  | .lit (.int n) => Numeral.isUnsigned n
  | .lit (.bool _) | .read => true
  | .note x d => Lexeme.isIdentifier x && Numeral.isUnsigned d
  | .binary _ l r | .logic _ l r | .seq l r | .app l r => l.isSurface && r.isSurface
  | .unary _ e | .display e => e.isSurface
  | .slice a b c | .cond a b c => a.isSurface && b.isSurface && c.isSurface
  | .name x => Lexeme.isIdentifier x && !(["true", "false", "read"].contains x)
  | .letIn x d b => Lexeme.isIdentifier x && d.isSurface && b.isSurface
  | .letFun f x b i => Lexeme.isIdentifier f && Lexeme.isIdentifier x && b.isSurface && i.isSurface
  | .assign x e => Lexeme.isIdentifier x && e.isSurface
  | .write t path => t.isSurface && Lexeme.isFilePath path
  | .run path => Lexeme.isFilePath path
  | .lit _ | .stray _ => false

/-! ## Numerals -/

theorem Lexeme.toNat_of_isDigit {c : Char} (h : Lexeme.isDigit c = true) : 48 ≤ c.toNat ∧ c.toNat ≤ 57 := by
  simp only [Lexeme.isDigit, Bool.and_eq_true, decide_eq_true_eq] at h
  exact h

/-- The decimal text of a number has digits only. -/
theorem Lexeme.isDigit_of_mem_toDigits {n : Nat} {c : Char} (h : c ∈ Nat.toDigits 10 n) : Lexeme.isDigit c = true := by
  have hdigit := Nat.isDigit_of_mem_toDigits (by decide) (by decide) h
  simp only [Char.isDigit, Bool.and_eq_true, decide_eq_true_eq] at hdigit
  simp only [Lexeme.isDigit, Bool.and_eq_true, decide_eq_true_eq]
  exact hdigit

theorem Digit.value?_ascii {c : Char} (h : Lexeme.isDigit c = true) : Digit.value? c = some (c.toNat - 48) := by
  obtain ⟨hlow, hhigh⟩ := Lexeme.toNat_of_isDigit h
  have hzero : (decide (48 ≤ c.toNat) && decide (c.toNat < 48 + 10)) = true := by simp; omega
  have hzeros : Digit.zeros = 48 :: Digit.zeros.tail := rfl
  rw [Digit.value?, hzeros, List.find?_cons, hzero]
  rfl

/-- Digits are read one by one. -/
theorem Numeral.digits?_ascii {cs : List Char} (hne : cs ≠ []) (h : ∀ c ∈ cs, Lexeme.isDigit c = true) :
    Numeral.digits? cs = some (cs.map (fun c => c.toNat - 48)) := by
  induction cs with
  | nil => exact absurd rfl hne
  | cons c cs ih =>
    obtain ⟨hc, hcs⟩ := List.forall_mem_cons.mp h
    cases cs with
    | nil => simp [Numeral.digits?, Digit.value?_ascii hc]
    | cons d ds =>
      have hd : d ≠ '_' := by
        rintro rfl
        exact absurd (hcs '_' (.head _)) (by decide)
      have hrest := ih (List.cons_ne_nil _ _) hcs
      rw [Numeral.digits?]
      · rw [Digit.value?_ascii hc, hrest]
        rfl
      · simp
      · intro _ heq
        exact hd (List.cons.inj heq).1

/-- A text without padding stays as it is. -/
theorem Text.unpadded_eq_self {cs : List Char} (h : ∀ c ∈ cs, Text.isPadding c = false) : Text.unpadded cs = cs := by
  have hdrop : ∀ ds : List Char, (∀ c ∈ ds, Text.isPadding c = false) → ds.dropWhile Text.isPadding = ds := by
    intro ds hds
    cases ds with
    | nil => rfl
    | cons d ds => simp [hds d (.head _)]
  rw [Text.unpadded, hdrop cs h, hdrop cs.reverse (fun c hc => h c (List.mem_reverse.mp hc)), List.reverse_reverse]

theorem Text.isPadding_digit {c : Char} (h : Lexeme.isDigit c = true) : Text.isPadding c = false := by
  obtain ⟨hlow, hhigh⟩ := Lexeme.toNat_of_isDigit h
  refine Bool.eq_false_iff.mpr fun hpadding => ?_
  simp only [Text.isPadding, Bool.or_eq_true, Bool.and_eq_true, decide_eq_true_eq, beq_iff_eq] at hpadding
  omega

/-- A text of digits is read as they stand: it has neither padding nor sign. -/
theorem Numeral.read?_ascii {s : String} (h : ∀ c ∈ s.toList, Lexeme.isDigit c = true) :
    Numeral.read? s = (Numeral.unsigned? s.toList).map Int.ofNat := by
  rw [Numeral.read?, Text.unpadded_eq_self (fun c hc => Text.isPadding_digit (h c hc))]
  generalize s.toList = cs at h
  unfold Numeral.signed?
  split
  · exact absurd (h '-' (.head _)) (by decide)
  · exact absurd (h '+' (.head _)) (by decide)
  · cases Numeral.unsigned? cs <;> rfl

/-- A number below a power of ten has no more digits than that. -/
theorem Numeral.length_toDigits_le {n : Nat} (k : Nat) (hk : 0 < k) (h : n < Nat.pow 10 k) : (Nat.toDigits 10 n).length ≤ k :=
  (Nat.length_toDigits_le_iff (by decide) hk).mpr h

/-- The decimal text of a number is read back. -/
theorem Numeral.read?_repr {n : Nat} (h : n < Numeral.bound) : Numeral.read? n.repr = some (n : Int) := by
  have hdigits : ∀ c ∈ Nat.toDigits 10 n, Lexeme.isDigit c = true := fun _ => Lexeme.isDigit_of_mem_toDigits
  have hlength : (Nat.toDigits 10 n).length ≤ Numeral.maxDigits := by
    unfold Numeral.bound at h
    generalize hk : Numeral.maxDigits = k at h ⊢
    exact Numeral.length_toDigits_le k (hk ▸ by decide) h
  have hvalue : Numeral.ofDigits ((Nat.toDigits 10 n).map (fun c => c.toNat - 48)) = n := by
    rw [Numeral.ofDigits, List.foldl_map]
    exact Nat.ofDigitChars_toDigits (by decide) (by decide)
  have hunsigned : Numeral.unsigned? (Nat.toDigits 10 n) = some n := by
    rw [Numeral.unsigned?, Numeral.digits?_ascii Nat.toDigits_ne_nil hdigits]
    simp [hlength, hvalue]
  rw [Numeral.read?_ascii (by rwa [Nat.toList_repr]), Nat.toList_repr, hunsigned]
  rfl

/-- What an integer that can be written with digits only is read back from. -/
theorem Numeral.written {n : Int} (h : Numeral.isUnsigned n = true) :
    Numeral.read? (toString n) = some n ∧ Token.Stands ⟨.int, toString n⟩ := by
  simp only [Numeral.isUnsigned, Bool.and_eq_true, decide_eq_true_eq] at h
  obtain ⟨k, rfl⟩ := Int.eq_ofNat_of_zero_le h.1
  have htext : toString (k : Int) = k.repr := rfl
  refine ⟨htext ▸ Numeral.read?_repr h.2, ?_⟩
  have hstands : k.repr.toList ≠ [] ∧ ∀ d ∈ k.repr.toList, Lexeme.isDigit d = true := by
    rw [Nat.toList_repr]
    exact ⟨Nat.toDigits_ne_nil, fun d => Lexeme.isDigit_of_mem_toDigits⟩
  exact hstands

/-! ## What a phrase writes -/

/-- Whether a phrase writes an expression: it fits, it is converted into the expression, and its tokens are read back. -/
structure Phrase.Writes (p : Phrase) (e : Expr) : Prop where
  fits : p.Fits
  expr : p.expr? = some e
  stands : ∀ t ∈ p.tokens, t.Stands

theorem Terminal.stands_token {k : Terminal} (h : k.isClass = false) : k.token.Stands := by
  cases k with
  | name | int | path => cases h
  | _ => rfl

/-- A phrase is tight enough where it stands. -/
theorem Phrase.le_level_within {q : Level} (hq : q ≤ .atom) (p : Phrase) : q ≤ (p.within q).level := by
  unfold Phrase.within
  split
  · assumption
  · exact hq

namespace Phrase.Writes

variable {p p' p'' : Phrase} {e e' e'' : Expr}

/-- Parentheses do not change what a phrase writes. -/
theorem within (h : p.Writes e) (q : Level) : (p.within q).Writes e := by
  unfold Phrase.within
  split
  · exact h
  · refine ⟨h.fits, h.expr, ?_⟩
    simp only [Phrase.tokens, List.forall_mem_cons, List.forall_mem_append]
    exact ⟨rfl, h.stands, rfl, by simp⟩

theorem sign (s : Sign) (h : p.Writes e) (h' : p'.Writes e') : (s.phrase p p').Writes (s.expr e e') := by
  have hl := h.within s.left
  have hr := h'.within s.right
  refine ⟨⟨hl.fits, le_level_within s.left_le p, hr.fits, le_level_within s.right_le p'⟩, ?_, ?_⟩
  · simp [Sign.phrase, hl.expr, hr.expr]
  · simp only [Sign.phrase, Phrase.tokens, List.forall_mem_cons, List.forall_mem_append]
    exact ⟨hl.stands, Terminal.stands_token s.isClass_terminal, hr.stands⟩

theorem lead (l : Lead) (h : p.Writes e) : (l.phrase p).Writes (l.expr e) := by
  have ho := h.within l.operand
  refine ⟨⟨ho.fits, le_level_within l.operand_le p⟩, ?_, ?_⟩
  · simp [Lead.phrase, ho.expr]
  · simp only [Lead.phrase, Phrase.tokens, List.forall_mem_cons]
    exact ⟨Terminal.stands_token l.isClass_terminal, ho.stands⟩

theorem times (h : p.Writes e) (h' : p'.Writes e') : (BinaryOp.times.phrase p p').Writes (.binary .times e e') := by
  have hc := h.within .join
  have ht := h'.within .join
  refine ⟨⟨hc.fits, le_level_within (by decide) p, ht.fits, le_level_within (by decide) p'⟩, ?_, ?_⟩
  · simp [BinaryOp.phrase, hc.expr, ht.expr]
  · simp only [BinaryOp.phrase, Phrase.tokens, List.forall_mem_cons, List.forall_mem_append]
    exact ⟨rfl, hc.stands, rfl, ht.stands⟩

/-- A binary operator writes what it makes of its operands. -/
theorem binary (op : BinaryOp) (h : p.Writes e) (h' : p'.Writes e') : (op.phrase p p').Writes (.binary op e e') := by
  cases op with
  | times => exact h.times h'
  | add => exact h.sign .add h'
  | sub => exact h.sign .sub h'
  | mul => exact h.sign .mul h'
  | div => exact h.sign .div h'
  | eq => exact h.sign .eq h'
  | ne => exact h.sign .ne h'
  | lt => exact h.sign .lt h'
  | gt => exact h.sign .gt h'
  | le => exact h.sign .le h'
  | ge => exact h.sign .ge h'
  | join => exact h.sign .join h'

/-- A connective writes what it makes of its operands. -/
theorem logic (op : Connective) (h : p.Writes e) (h' : p'.Writes e') : (op.phrase p p').Writes (.logic op e e') := by
  cases op with
  | and => exact h.sign .and h'
  | or => exact h.sign .or h'

/-- An operator in front of its operand writes what it makes of it. -/
theorem unary (op : UnaryOp) (h : p.Writes e) : (op.phrase p).Writes (.unary op e) := by
  cases op with
  | neg => exact h.lead .neg
  | not => exact h.lead .not
  | reverse => exact h.lead .reverse

/-- A name writes the expression of the name. -/
theorem name {x : String} (hx : Lexeme.isIdentifier x = true) : (Phrase.name x).Writes (Expr.ofName x) := by
  refine ⟨trivial, rfl, ?_⟩
  simp only [Phrase.tokens, List.forall_mem_cons]
  exact ⟨hx, by simp⟩

theorem int {n : Int} (hn : Numeral.isUnsigned n = true) : (Phrase.int (toString n)).Writes (.lit (.int n)) := by
  obtain ⟨hread, hstands⟩ := Numeral.written hn
  refine ⟨trivial, ?_, ?_⟩
  · rw [Phrase.expr?, hread]
    rfl
  · simp only [Phrase.tokens, List.forall_mem_cons]
    exact ⟨hstands, by simp⟩

theorem note {x : String} {d : Int} (hx : Lexeme.isIdentifier x = true) (hd : Numeral.isUnsigned d = true) :
    (Phrase.note x (toString d)).Writes (.note x d) := by
  obtain ⟨hread, hstands⟩ := Numeral.written hd
  refine ⟨trivial, ?_, ?_⟩
  · rw [Phrase.expr?, hread]
    rfl
  · simp only [Phrase.tokens, List.forall_mem_cons]
    exact ⟨rfl, hx, rfl, hstands, rfl, by simp⟩

theorem slice (h : p.Writes e) (h' : p'.Writes e') (h'' : p''.Writes e'') :
    (Phrase.slice (p.within .slice) p' p'').Writes (.slice e e' e'') := by
  have ht := h.within .slice
  refine ⟨⟨ht.fits, le_level_within (by decide) p, h'.fits, h''.fits⟩, ?_, ?_⟩
  · simp [ht.expr, h'.expr, h''.expr]
  · simp only [Phrase.tokens, List.forall_mem_cons, List.forall_mem_append]
    exact ⟨ht.stands, rfl, h'.stands, rfl, h''.stands, rfl, by simp⟩

theorem cond (h : p.Writes e) (h' : p'.Writes e') (h'' : p''.Writes e'') :
    (Phrase.cond p p' (p''.within .statement)).Writes (.cond e e' e'') := by
  have hno := h''.within .statement
  refine ⟨⟨h.fits, h'.fits, hno.fits, le_level_within (by decide) p''⟩, ?_, ?_⟩
  · simp [h.expr, h'.expr, hno.expr]
  · simp only [Phrase.tokens, List.forall_mem_cons, List.forall_mem_append]
    exact ⟨rfl, h.stands, rfl, h'.stands, rfl, hno.stands⟩

theorem letIn {x : String} (hx : Lexeme.isIdentifier x = true) (h : p.Writes e) (h' : p'.Writes e') :
    (Phrase.letIn x p p').Writes (.letIn x e e') := by
  refine ⟨⟨h.fits, h'.fits⟩, ?_, ?_⟩
  · simp [h.expr, h'.expr]
  · simp only [Phrase.tokens, List.forall_mem_cons, List.forall_mem_append]
    exact ⟨rfl, hx, rfl, h.stands, rfl, h'.stands, rfl, by simp⟩

theorem letFun {f x : String} (hf : Lexeme.isIdentifier f = true) (hx : Lexeme.isIdentifier x = true) (h : p.Writes e)
    (h' : p'.Writes e') : (Phrase.letFun f x p p').Writes (.letFun f x e e') := by
  refine ⟨⟨h.fits, h'.fits⟩, ?_, ?_⟩
  · simp [h.expr, h'.expr]
  · simp only [Phrase.tokens, List.forall_mem_cons, List.forall_mem_append]
    exact ⟨rfl, hf, rfl, hx, rfl, rfl, h.stands, rfl, h'.stands, rfl, by simp⟩

theorem app (h : p.Writes e) (h' : p'.Writes e') : (Phrase.app (p.within .atom) p').Writes (.app e e') := by
  have hf := h.within .atom
  refine ⟨⟨hf.fits, le_level_within (by decide) p, h'.fits⟩, ?_, ?_⟩
  · simp [hf.expr, h'.expr]
  · simp only [Phrase.tokens, List.forall_mem_cons, List.forall_mem_append]
    exact ⟨hf.stands, rfl, h'.stands, rfl, by simp⟩

theorem assign {x : String} (hx : Lexeme.isIdentifier x = true) (h : p.Writes e) :
    (Phrase.assign x (p.within .statement)).Writes (.assign x e) := by
  have hvalue := h.within .statement
  refine ⟨⟨hvalue.fits, le_level_within (by decide) p⟩, ?_, ?_⟩
  · simp [hvalue.expr]
  · simp only [Phrase.tokens, List.forall_mem_cons]
    exact ⟨hx, rfl, hvalue.stands⟩

theorem write {path : String} (hpath : Lexeme.isFilePath path = true) (h : p.Writes e) :
    (Phrase.write (p.within .join) path).Writes (.write e path) := by
  have ht := h.within .join
  refine ⟨⟨ht.fits, le_level_within (by decide) p⟩, ?_, ?_⟩
  · simp [ht.expr]
  · simp only [Phrase.tokens, List.forall_mem_cons, List.forall_mem_append]
    exact ⟨rfl, ht.stands, rfl, hpath, by simp⟩

theorem run {path : String} (hpath : Lexeme.isFilePath path = true) : (Phrase.run path).Writes (.run path) := by
  refine ⟨trivial, rfl, ?_⟩
  simp only [Phrase.tokens, List.forall_mem_cons]
  exact ⟨rfl, hpath, by simp⟩

end Phrase.Writes

/-- An expression that can be written is written by its phrase. -/
theorem Expr.writes_phrase : ∀ e : Expr, e.isSurface = true → e.phrase.Writes e
  | .lit v, h => by
    cases v with
    | int n => exact Phrase.Writes.int h
    | bool b => cases b <;> exact Phrase.Writes.name rfl
    | _ => cases h
  | .note x d, h => by
    obtain ⟨hx, hd⟩ := Bool.and_eq_true_iff.mp h
    exact Phrase.Writes.note hx hd
  | .binary op l r, h => by
    obtain ⟨hl, hr⟩ := Bool.and_eq_true_iff.mp h
    exact (l.writes_phrase hl).binary op (r.writes_phrase hr)
  | .logic op l r, h => by
    obtain ⟨hl, hr⟩ := Bool.and_eq_true_iff.mp h
    exact (l.writes_phrase hl).logic op (r.writes_phrase hr)
  | .unary op e, h => (e.writes_phrase h).unary op
  | .slice t i j, h => by
    obtain ⟨hti, hj⟩ := Bool.and_eq_true_iff.mp h
    obtain ⟨ht, hi⟩ := Bool.and_eq_true_iff.mp hti
    exact (t.writes_phrase ht).slice (i.writes_phrase hi) (j.writes_phrase hj)
  | .cond c t e, h => by
    obtain ⟨hct, he⟩ := Bool.and_eq_true_iff.mp h
    obtain ⟨hc, ht⟩ := Bool.and_eq_true_iff.mp hct
    exact (c.writes_phrase hc).cond (t.writes_phrase ht) (e.writes_phrase he)
  | .name x, h => by
    obtain ⟨hx, hword⟩ := Bool.and_eq_true_iff.mp h
    have hname : Expr.ofName x = .name x := by simp_all [Expr.ofName]
    have hwrites := Phrase.Writes.name hx
    rw [hname] at hwrites
    exact hwrites
  | .letIn x d b, h => by
    obtain ⟨hxd, hb⟩ := Bool.and_eq_true_iff.mp h
    obtain ⟨hx, hd⟩ := Bool.and_eq_true_iff.mp hxd
    exact Phrase.Writes.letIn hx (d.writes_phrase hd) (b.writes_phrase hb)
  | .letFun f x b i, h => by
    obtain ⟨hfxb, hi⟩ := Bool.and_eq_true_iff.mp h
    obtain ⟨hfx, hb⟩ := Bool.and_eq_true_iff.mp hfxb
    obtain ⟨hf, hx⟩ := Bool.and_eq_true_iff.mp hfx
    exact Phrase.Writes.letFun hf hx (b.writes_phrase hb) (i.writes_phrase hi)
  | .app f a, h => by
    obtain ⟨hf, ha⟩ := Bool.and_eq_true_iff.mp h
    exact (f.writes_phrase hf).app (a.writes_phrase ha)
  | .assign x e, h => by
    obtain ⟨hx, he⟩ := Bool.and_eq_true_iff.mp h
    exact Phrase.Writes.assign hx (e.writes_phrase he)
  | .seq a b, h => by
    obtain ⟨ha, hb⟩ := Bool.and_eq_true_iff.mp h
    exact (a.writes_phrase ha).sign .seq (b.writes_phrase hb)
  | .display e, h => (e.writes_phrase h).lead .display
  | .read, _ => Phrase.Writes.name rfl
  | .write t path, h => by
    obtain ⟨ht, hpath⟩ := Bool.and_eq_true_iff.mp h
    exact Phrase.Writes.write hpath (t.writes_phrase ht)
  | .run _, h => Phrase.Writes.run h

/-- Every expression that a source can write is read back from its own text, in which tokens have one space between them and a part
stands in parentheses exactly where it is looser than what is asked for. -/
theorem Expr.round_trip {e : Expr} (h : e.isSurface = true) :
    ∃ tree counts, Tree.parse e.print = .ok tree ∧ Expr.ofTree tree [] = .ok e counts := by
  have hwrites := e.writes_phrase h
  have hgives := e.phrase.gives_ofTree []
  refine ⟨e.phrase.tree, ?_⟩
  cases htree : Expr.ofTree e.phrase.tree [] with
  | ok e' counts =>
    rw [htree, hwrites.expr] at hgives
    obtain ⟨_, heq, rfl⟩ := hgives
    obtain rfl := Option.some.inj heq
    exact ⟨counts, Phrase.parse_print hwrites.fits hwrites.stands, rfl⟩
  | error err counts =>
    rw [htree, hwrites.expr] at hgives
    obtain ⟨heq, _⟩ := hgives
    cases heq

/-- A program with parentheses of every kind: around operands on the left and on the right, a tune, a function and a value. -/
def Expr.medley : Expr :=
  .letFun "f" "t"
    (.cond
      (.logic .and (.unary .not (.binary .eq (.name "t") (.binary .eq (.name "u") .read)))
        (.binary .lt (.lit (.int 2)) (.binary .sub (.lit (.int 9)) (.binary .sub (.lit (.int 4)) (.lit (.int 1))))))
      (.assign "u" (.seq (.display (.name "t")) (.lit (.bool true))))
      (.binary .join
        (.binary .join (.slice (.binary .times (.lit (.int 3)) (.name "t")) (.lit (.int 0)) (.unary .neg (.lit (.int 1))))
          (.note "C4" 2))
        (.unary .reverse (.name "t"))))
    (.write (.app (.unary .neg (.name "f")) (.run "in.mid")) "out:2.mid")

/-- The text of the medley is read back. -/
theorem Expr.round_trip_medley :
    Expr.medley.isSurface = true ∧
      ∃ tree counts, Tree.parse Expr.medley.print = .ok tree ∧ Expr.ofTree tree [] = .ok Expr.medley counts := by
  have h : Expr.medley.isSurface = true := by decide +kernel
  exact ⟨h, Expr.round_trip h⟩

end TuneLang
