import TuneLang.Expr.Labelled
import TuneLang.Proofs.Expr.Build
import TuneLang.Proofs.Expr.Plain
import TuneLang.Proofs.Grammar.Source

/-!
# Parts

The parts of an expression are all expressions in it, itself and the bodies of its functions included. What a program evaluates
are parts of it, so what holds of all parts of a program holds of everything that a run of it comes to.

An expression is legible when its parts are what a source can write: integers and durations with not too many digits, truth values,
and no stray values. Every expression that is read from a source is legible (`Expr.Parsed.legible`), and a legible expression has a
text (`Expr.Legible.exists_text?`).
-/

namespace TuneLang

/-- Induction on an expression, for what is said of expressions alone: the value in a literal is not looked into. -/
@[induction_eliminator]
theorem Expr.induction {motive : Expr → Prop} (lit : ∀ v, motive (.lit v)) (note : ∀ p d, motive (.note p d))
    (binary : ∀ op l r, motive l → motive r → motive (.binary op l r))
    (logic : ∀ op l r, motive l → motive r → motive (.logic op l r)) (unary : ∀ op a, motive a → motive (.unary op a))
    (slice : ∀ t i j, motive t → motive i → motive j → motive (.slice t i j))
    (cond : ∀ c t e, motive c → motive t → motive e → motive (.cond c t e)) (name : ∀ x, motive (.name x))
    (letIn : ∀ x d b, motive d → motive b → motive (.letIn x d b))
    (letFun : ∀ f p b i, motive b → motive i → motive (.letFun f p b i))
    (app : ∀ f a, motive f → motive a → motive (.app f a)) (assign : ∀ x a, motive a → motive (.assign x a))
    (seq : ∀ a b, motive a → motive b → motive (.seq a b)) (display : ∀ a, motive a → motive (.display a)) (read : motive .read)
    (write : ∀ a path, motive a → motive (.write a path)) (run : ∀ path, motive (.run path)) (stray : ∀ v, motive (.stray v))
    (e : Expr) : motive e :=
  @Expr.rec (fun _ => True) motive (fun _ => trivial) (fun _ => trivial) trivial (fun _ => trivial) (fun _ => trivial)
    (fun _ _ _ _ => trivial) (fun v _ => lit v) note binary logic unary slice cond name letIn letFun app assign seq display read
    write run (fun v _ => stray v) e

/-- All expressions in an expression, itself first. -/
def Expr.parts : Expr → List Expr
  | .lit v => [.lit v]
  | .note pitch duration => [.note pitch duration]
  | .binary op left right => .binary op left right :: (left.parts ++ right.parts)
  | .logic op left right => .logic op left right :: (left.parts ++ right.parts)
  | .unary op operand => .unary op operand :: operand.parts
  | .slice tune start stop => .slice tune start stop :: (tune.parts ++ start.parts ++ stop.parts)
  | .cond test yes no => .cond test yes no :: (test.parts ++ yes.parts ++ no.parts)
  | .name x => [.name x]
  | .letIn x definition body => .letIn x definition body :: (definition.parts ++ body.parts)
  | .letFun f param body scope => .letFun f param body scope :: (body.parts ++ scope.parts)
  | .app function argument => .app function argument :: (function.parts ++ argument.parts)
  | .assign x value => .assign x value :: value.parts
  | .seq first second => .seq first second :: (first.parts ++ second.parts)
  | .display shown => .display shown :: shown.parts
  | .read => [.read]
  | .write tune path => .write tune path :: tune.parts
  | .run path => [.run path]
  | .stray v => [.stray v]

/-- An expression is a part of itself. -/
theorem Expr.self_mem_parts (e : Expr) : e ∈ e.parts := by
  cases e <;> exact List.mem_cons_self

/-- A part of a part is a part. -/
theorem Expr.mem_parts_trans {e a b : Expr} (ha : a ∈ e.parts) (hb : b ∈ a.parts) : b ∈ e.parts := by
  induction e with
  | lit | note | name | read | run | stray =>
    rcases List.mem_singleton.mp ha with rfl
    exact hb
  | unary _ _ ih | assign _ _ ih | display _ ih | write _ _ ih =>
    rcases List.mem_cons.mp ha with rfl | ha
    · exact hb
    · exact List.mem_cons_of_mem _ (ih ha)
  | binary _ _ _ ihl ihr | logic _ _ _ ihl ihr | letIn _ _ _ ihl ihr | letFun _ _ _ _ ihl ihr | app _ _ ihl ihr | seq _ _ ihl ihr =>
    rcases List.mem_cons.mp ha with rfl | ha
    · exact hb
    · refine List.mem_cons_of_mem _ (List.mem_append.mpr ?_)
      exact (List.mem_append.mp ha).imp ihl ihr
  | slice _ _ _ ih₁ ih₂ ih₃ | cond _ _ _ ih₁ ih₂ ih₃ =>
    rcases List.mem_cons.mp ha with rfl | ha
    · exact hb
    · refine List.mem_cons_of_mem _ (List.mem_append.mpr ?_)
      refine (List.mem_append.mp ha).imp (fun ha => List.mem_append.mpr ?_) ih₃
      exact (List.mem_append.mp ha).imp ih₁ ih₂

/-- The operands of an expression are parts of it. -/
theorem Expr.operand_mem_parts {e a : Expr} (ha : a ∈ e.operands) : a ∈ e.parts := by
  have hself := a.self_mem_parts
  cases e with
  | lit | note | name | letFun | read | run | stray => cases ha
  | unary | display | write | assign =>
    rcases List.mem_singleton.mp ha with rfl
    exact List.mem_cons_of_mem _ hself
  | letIn =>
    rcases List.mem_singleton.mp ha with rfl
    exact List.mem_cons_of_mem _ (List.mem_append_left _ hself)
  | binary | logic | app | seq =>
    simp only [Expr.operands, List.mem_cons, List.not_mem_nil, or_false] at ha
    rcases ha with rfl | rfl
    · exact List.mem_cons_of_mem _ (List.mem_append_left _ hself)
    · exact List.mem_cons_of_mem _ (List.mem_append_right _ hself)
  | slice | cond =>
    simp only [Expr.operands, List.mem_cons, List.not_mem_nil, or_false] at ha
    rcases ha with rfl | rfl | rfl
    · exact List.mem_cons_of_mem _ (List.mem_append_left _ (List.mem_append_left _ hself))
    · exact List.mem_cons_of_mem _ (List.mem_append_left _ (List.mem_append_right _ hself))
    · exact List.mem_cons_of_mem _ (List.mem_append_right _ hself)

/-- The body of a binding is a part of it. -/
theorem Expr.letIn_body_mem_parts (x : String) (d b : Expr) : b ∈ (Expr.letIn x d b).parts :=
  List.mem_cons_of_mem _ (List.mem_append_right _ b.self_mem_parts)

/-- The body of a function is a part of the expression that makes it. -/
theorem Expr.letFun_body_mem_parts (f p : String) (b i : Expr) : b ∈ (Expr.letFun f p b i).parts :=
  List.mem_cons_of_mem _ (List.mem_append_left _ b.self_mem_parts)

/-- The scope of a function is a part of the expression that makes it. -/
theorem Expr.letFun_scope_mem_parts (f p : String) (b i : Expr) : i ∈ (Expr.letFun f p b i).parts :=
  List.mem_cons_of_mem _ (List.mem_append_right _ i.self_mem_parts)

/-! ## Legible expressions -/

/-- Whether an expression can stand in a source, its parts left aside. -/
def Expr.Writable : Expr → Prop
  | .lit (.int n) => n.natAbs < Numeral.bound
  | .lit (.bool _) => True
  | .lit _ => False
  | .note _ duration => duration.natAbs < Numeral.bound
  | .stray _ => False
  | _ => True

/-- Whether all parts of an expression can stand in a source. -/
def Expr.Legible (e : Expr) : Prop := ∀ a ∈ e.parts, a.Writable

theorem Expr.Legible.part {e a : Expr} (h : e.Legible) (ha : a ∈ e.parts) : a.Legible :=
  fun _ hb => h _ (Expr.mem_parts_trans ha hb)

/-! ## Numerals that were read -/

/-- The value of a digit is less than ten. -/
theorem Digit.value?_lt {c : Char} {d : Nat} (h : Digit.value? c = some d) : d < 10 := by
  obtain ⟨z, hz, rfl⟩ := Option.map_eq_some_iff.mp h
  have hrange := List.find?_some hz
  simp only [Bool.and_eq_true, decide_eq_true_eq] at hrange
  omega

theorem Numeral.digits?_lt {cs : List Char} {ds : List Nat} (h : Numeral.digits? cs = some ds) : ∀ d ∈ ds, d < 10 := by
  fun_induction Numeral.digits? cs generalizing ds with
  | case1 => cases h
  | case2 c =>
    obtain ⟨d, hd, rfl⟩ := Option.map_eq_some_iff.mp h
    exact fun _ hmem => List.mem_singleton.mp hmem ▸ Digit.value?_lt hd
  | case3 c cs ih | case4 c cs _ _ ih =>
    simp only [Option.bind_eq_bind, Option.bind_eq_some_iff, Option.pure_def, Option.some.injEq] at h
    obtain ⟨d, hd, rest, hrest, rfl⟩ := h
    exact List.forall_mem_cons.mpr ⟨Digit.value?_lt hd, ih hrest⟩

/-- A number has no more digits than the numeral that writes it. -/
theorem Numeral.ofDigits_lt {ds : List Nat} (h : ∀ d ∈ ds, d < 10) : Numeral.ofDigits ds < Nat.pow 10 ds.length := by
  -- With what was read before in front: each further digit makes room for the number before it, plus one, ten times.
  have general : ∀ n, ds.foldl (fun n d => 10 * n + d) n < (n + 1) * Nat.pow 10 ds.length := by
    induction ds with
    | nil =>
      intro n
      simp
    | cons d ds ih =>
      intro n
      obtain ⟨hd, hds⟩ := List.forall_mem_cons.mp h
      calc (d :: ds).foldl (fun n d => 10 * n + d) n
          < (10 * n + d + 1) * Nat.pow 10 ds.length := ih hds (10 * n + d)
        _ ≤ (10 * n + 10) * Nat.pow 10 ds.length := Nat.mul_le_mul_right _ (by omega)
        _ = (n + 1) * Nat.pow 10 (d :: ds).length := by
          have hten : 10 * n + 10 = (n + 1) * 10 := by omega
          rw [List.length_cons, Nat.pow_eq, Nat.pow_eq, Nat.pow_succ, hten, Nat.mul_assoc, Nat.mul_comm 10]
  have hstart := general 0
  rwa [Nat.zero_add, Nat.one_mul] at hstart

theorem Numeral.unsigned?_lt {cs : List Char} {n : Nat} (h : Numeral.unsigned? cs = some n) : n < Numeral.bound := by
  simp only [Numeral.unsigned?, Option.bind_eq_bind, Option.bind_eq_some_iff] at h
  obtain ⟨ds, hds, h⟩ := h
  split at h
  · rename_i hlength
    cases h
    unfold Numeral.bound
    generalize Numeral.maxDigits = limit at hlength ⊢
    exact Nat.lt_of_lt_of_le (Numeral.ofDigits_lt (Numeral.digits?_lt hds)) (Nat.pow_le_pow_right (by decide) hlength)
  · cases h

/-- An integer that was read can be written. -/
theorem Numeral.natAbs_lt_of_read? {s : String} {n : Int} (h : Numeral.read? s = some n) : n.natAbs < Numeral.bound := by
  unfold Numeral.read? Numeral.signed? at h
  split at h
  all_goals
    simp only [Option.bind_eq_bind, Option.pure_def, Option.map_eq_some_iff, Option.bind_eq_some_iff, Option.some.injEq] at h
    obtain ⟨_, ⟨k, hk, rfl⟩, rfl⟩ := h
    have hlt := Numeral.unsigned?_lt hk
    omega

/-! ## Expressions that were read -/

/-- Whether an expression can stand in a source, its parts left aside, with numbers of one kind only. -/
def Expr.Literal (kind : Int → Prop) : Expr → Prop
  | .lit (.int n) => kind n
  | .lit (.bool _) => True
  | .lit _ => False
  | .note _ duration => kind duration
  | .stray _ => False
  | _ => True

/-- The expression of a name is a truth value, the word that reads, or a name. -/
theorem Expr.literal_ofName (kind : Int → Prop) (x : String) : ∀ a ∈ (Expr.ofName x).parts, a.Literal kind := by
  unfold Expr.ofName
  split
  · simp [Expr.parts, Expr.Literal]
  · split
    · simp [Expr.parts, Expr.Literal]
    · split <;> simp [Expr.parts, Expr.Literal]

/-- The numbers in the expression of a phrase are those that its numerals write. -/
theorem Phrase.literal_of_expr? {kind : Int → Prop} {p : Phrase} {e : Expr}
    (hkind : ∀ digits n, ⟨.int, digits⟩ ∈ p.tokens → Numeral.read? digits = some n → kind n) (h : p.expr? = some e) :
    ∀ a ∈ e.parts, a.Literal kind := by
  induction p generalizing e with
  | int digits | note x digits =>
    simp only [Phrase.expr?, Option.bind_eq_bind, Option.bind_eq_some_iff, Option.pure_def, Option.some.injEq] at h
    obtain ⟨n, hn, rfl⟩ := h
    simpa [Expr.parts, Expr.Literal] using hkind digits n (by simp [Phrase.tokens]) hn
  | name x =>
    cases h
    exact Expr.literal_ofName kind x
  | run path =>
    cases h
    simp [Expr.parts, Expr.Literal]
  | group p ih => exact ih (fun digits n hd => hkind digits n (by simp [Phrase.tokens, hd])) h
  | lead l p ih =>
    simp only [Phrase.expr?, Option.bind_eq_bind, Option.bind_eq_some_iff, Option.pure_def, Option.some.injEq] at h
    obtain ⟨a, ha, rfl⟩ := h
    have hoperand := ih (fun digits n hd => hkind digits n (by simp [Phrase.tokens, hd])) ha
    cases l <;> exact List.forall_mem_cons.mpr ⟨trivial, hoperand⟩
  | write p path ih | assign x p ih =>
    simp only [Phrase.expr?, Option.bind_eq_bind, Option.bind_eq_some_iff, Option.pure_def, Option.some.injEq] at h
    obtain ⟨a, ha, rfl⟩ := h
    have hoperand := ih (fun digits n hd => hkind digits n (by simp [Phrase.tokens, hd])) ha
    exact List.forall_mem_cons.mpr ⟨trivial, hoperand⟩
  | sign s p q ihp ihq =>
    simp only [Phrase.expr?, Option.bind_eq_bind, Option.bind_eq_some_iff, Option.pure_def, Option.some.injEq] at h
    obtain ⟨a, ha, b, hb, rfl⟩ := h
    have hleft := ihp (fun digits n hd => hkind digits n (by simp [Phrase.tokens, hd])) ha
    have hright := ihq (fun digits n hd => hkind digits n (by simp [Phrase.tokens, hd])) hb
    have hoperands := List.forall_mem_append.mpr ⟨hleft, hright⟩
    cases s <;> exact List.forall_mem_cons.mpr ⟨trivial, hoperands⟩
  | letIn x p q ihp ihq | letFun f x p q ihp ihq | app p q ihp ihq | times p q ihp ihq =>
    simp only [Phrase.expr?, Option.bind_eq_bind, Option.bind_eq_some_iff, Option.pure_def, Option.some.injEq] at h
    obtain ⟨a, ha, b, hb, rfl⟩ := h
    have hleft := ihp (fun digits n hd => hkind digits n (by simp [Phrase.tokens, hd])) ha
    have hright := ihq (fun digits n hd => hkind digits n (by simp [Phrase.tokens, hd])) hb
    exact List.forall_mem_cons.mpr ⟨trivial, List.forall_mem_append.mpr ⟨hleft, hright⟩⟩
  | slice p q r ihp ihq ihr | cond p q r ihp ihq ihr =>
    simp only [Phrase.expr?, Option.bind_eq_bind, Option.bind_eq_some_iff, Option.pure_def, Option.some.injEq] at h
    obtain ⟨a, ha, b, hb, c, hc, rfl⟩ := h
    have hfirst := ihp (fun digits n hd => hkind digits n (by simp [Phrase.tokens, hd])) ha
    have hsecond := ihq (fun digits n hd => hkind digits n (by simp [Phrase.tokens, hd])) hb
    have hthird := ihr (fun digits n hd => hkind digits n (by simp [Phrase.tokens, hd])) hc
    have hparts := List.forall_mem_append.mpr ⟨List.forall_mem_append.mpr ⟨hfirst, hsecond⟩, hthird⟩
    exact List.forall_mem_cons.mpr ⟨trivial, hparts⟩

/-- The expression of a phrase is legible. -/
theorem Phrase.legible_of_expr? {p : Phrase} {e : Expr} (h : p.expr? = some e) : e.Legible := by
  intro a ha
  have hliteral := Phrase.literal_of_expr? (fun _ _ _ hread => Numeral.natAbs_lt_of_read? hread) h a ha
  cases a with
  | lit v => cases v <;> exact hliteral
  | _ => exact hliteral

/-- An expression that is read from a source is legible. -/
theorem Expr.Parsed.legible {e : Expr} (h : e.Parsed) : e.Legible := by
  obtain ⟨source, tree, counts, hparse, hbuild⟩ := h
  obtain ⟨_, _, _, p, _, _, _, rfl⟩ := Tree.reads_of_parse hparse
  have hgives := p.gives_ofTree []
  rw [hbuild] at hgives
  obtain ⟨_, hexpr, rfl⟩ := hgives
  exact Phrase.legible_of_expr? hexpr

/-- An integer that is not too long has a text. -/
theorem Numeral.exists_write? {n : Int} (h : n.natAbs < Numeral.bound) : ∃ s, Numeral.write? n = some s := ⟨_, if_pos h⟩

/-- A legible expression has a text. -/
theorem Expr.Legible.exists_text? {e : Expr} (h : e.Legible) : ∃ s, e.text? = some s := by
  induction e with
  | lit v =>
    have hv := h _ (Expr.self_mem_parts _)
    cases v with
    | int n =>
      obtain ⟨s, hs⟩ := Numeral.exists_write? hv
      exact ⟨s, by rw [Expr.text?, Value.text?, hs]⟩
    | bool b => exact ⟨_, by rw [Expr.text?, Value.text?]⟩
    | _ => exact hv.elim
  | note p d =>
    obtain ⟨s, hs⟩ := Numeral.exists_write? (h _ (Expr.self_mem_parts _))
    exact ⟨_, by rw [Expr.text?, Note.text?, hs]; rfl⟩
  | name | read | run => exact ⟨_, by rw [Expr.text?]⟩
  | stray v => exact (h _ (Expr.self_mem_parts _)).elim
  | unary _ _ ih | assign _ _ ih | display _ ih | write _ _ ih =>
    obtain ⟨s, hs⟩ := ih (List.forall_mem_cons.mp h).2
    exact ⟨_, by rw [Expr.text?, hs]; rfl⟩
  | binary _ _ _ ihl ihr | logic _ _ _ ihl ihr | letIn _ _ _ ihl ihr | letFun _ _ _ _ ihl ihr | app _ _ ihl ihr | seq _ _ ihl ihr =>
    obtain ⟨hl, hr⟩ := List.forall_mem_append.mp (List.forall_mem_cons.mp h).2
    obtain ⟨s, hs⟩ := ihl hl
    obtain ⟨s', hs'⟩ := ihr hr
    exact ⟨_, by rw [Expr.text?, hs, hs']; rfl⟩
  | slice _ _ _ ih₁ ih₂ ih₃ | cond _ _ _ ih₁ ih₂ ih₃ =>
    obtain ⟨h₁₂, h₃⟩ := List.forall_mem_append.mp (List.forall_mem_cons.mp h).2
    obtain ⟨h₁, h₂⟩ := List.forall_mem_append.mp h₁₂
    obtain ⟨s₁, hs₁⟩ := ih₁ h₁
    obtain ⟨s₂, hs₂⟩ := ih₂ h₂
    obtain ⟨s₃, hs₃⟩ := ih₃ h₃
    exact ⟨_, by rw [Expr.text?, hs₁, hs₂, hs₃]; rfl⟩

end TuneLang
