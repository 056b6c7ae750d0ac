import TuneLang.Proofs.Eval.Depth
import TuneLang.Proofs.Eval.Kinds
import TuneLang.Proofs.Store.Making

/-!
# The identity of functions

What equality means on functions. At every moment of a run of a program, a function is held at its own location, where a definition
of the program made it under the name that its environment begins with. So two functions are the same one when their own locations
are, and then they are equal. Otherwise they are different when parameter, body or own name differ; and when none of these does,
comparing them never ends (`Expr.function_identity`).

Bodies are compared part by part, where a truth value is equal to the number it counts as. That is to say that they are the same once
all truth values are counted (`Expr.alike_iff_counted`).
-/

namespace TuneLang

/-- A value with the number that it counts as in place of a truth value. -/
def Value.counted : Value → Value
  | .bool b => .int (Value.ofTruth b)
  | v => v

/-- An expression with the numbers that they count as in place of all truth values that it writes. -/
def Expr.counted : Expr → Expr
  | .lit v => .lit v.counted
  | .note pitch duration => .note pitch duration
  | .binary op left right => .binary op left.counted right.counted
  | .logic op left right => .logic op left.counted right.counted
  | .unary op operand => .unary op operand.counted
  | .slice tune start stop => .slice tune.counted start.counted stop.counted
  | .cond test yes no => .cond test.counted yes.counted no.counted
  | .name x => .name x
  | .letIn x definition body => .letIn x definition.counted body.counted
  | .letFun f param body scope => .letFun f param body.counted scope.counted
  | .app function argument => .app function.counted argument.counted
  | .assign x value => .assign x value.counted
  | .seq first second => .seq first.counted second.counted
  | .display shown => .display shown.counted
  | .read => .read
  | .write tune path => .write tune.counted path
  | .run path => .run path
  | .stray v => .stray v

/-- Literals that can be written are alike when they are the same once they are counted. -/
theorem Value.alike_iff_counted {v w : Value} (hv : (Expr.lit v).Writable) (hw : (Expr.lit w).Writable) :
    v.alike w = true ↔ v.counted = w.counted := by
  cases v with
  | int m =>
    cases w with
    | int | bool => simp [Value.alike, Value.counted]
    | _ => exact hw.elim
  | bool a =>
    cases w with
    | int => simp [Value.alike, Value.counted]
    | bool b => cases a <;> cases b <;> simp [Value.alike, Value.counted, Value.ofTruth]
    | _ => exact hw.elim
  | _ => exact hv.elim

/-- Legible expressions are alike when they are the same once they are counted. -/
theorem Expr.alike_iff_counted {a b : Expr} (ha : a.Legible) (hb : b.Legible) : a.alike b = true ↔ a.counted = b.counted := by
  induction a generalizing b with
  | lit v =>
    cases b with
    | lit w =>
      rw [Expr.alike, Value.alike_iff_counted (ha _ (Expr.self_mem_parts _)) (hb _ (Expr.self_mem_parts _))]
      simp only [Expr.counted, Expr.lit.injEq]
    | _ => simp [Expr.alike, Expr.counted]
  | stray v => exact (ha _ (Expr.self_mem_parts _)).elim
  | note | name | read | run => cases b <;> simp [Expr.alike, Expr.counted]
  | unary _ _ ih | assign _ _ ih | display _ ih | write _ _ ih =>
    cases b with
    | unary | assign | display | write =>
      simp [Expr.alike, Expr.counted, ih (List.forall_mem_cons.mp ha).2 (List.forall_mem_cons.mp hb).2]
    | _ => simp [Expr.alike, Expr.counted]
  | binary _ _ _ ihl ihr | logic _ _ _ ihl ihr | letIn _ _ _ ihl ihr | letFun _ _ _ _ ihl ihr | app _ _ ihl ihr | seq _ _ ihl ihr =>
    obtain ⟨hl, hr⟩ := List.forall_mem_append.mp (List.forall_mem_cons.mp ha).2
    cases b with
    | binary | logic | letIn | letFun | app | seq =>
      obtain ⟨hl', hr'⟩ := List.forall_mem_append.mp (List.forall_mem_cons.mp hb).2
      simp [Expr.alike, Expr.counted, ihl hl hl', ihr hr hr', and_assoc]
    | _ => simp [Expr.alike, Expr.counted]
  | slice _ _ _ ih₁ ih₂ ih₃ | cond _ _ _ ih₁ ih₂ ih₃ =>
    obtain ⟨h₁₂, h₃⟩ := List.forall_mem_append.mp (List.forall_mem_cons.mp ha).2
    obtain ⟨h₁, h₂⟩ := List.forall_mem_append.mp h₁₂
    cases b with
    | slice | cond =>
      obtain ⟨h₁₂', h₃'⟩ := List.forall_mem_append.mp (List.forall_mem_cons.mp hb).2
      obtain ⟨h₁', h₂'⟩ := List.forall_mem_append.mp h₁₂'
      simp [Expr.alike, Expr.counted, ih₁ h₁ h₁', ih₂ h₂ h₂', ih₃ h₃ h₃', and_assoc]
    | _ => simp [Expr.alike, Expr.counted]

/-! ## Comparing -/

/-- Equality of two rooted functions: they have one own location, or differ, or the comparison is given up however deep it may go. -/
theorem BinaryOp.apply_eq_rooted {s : Store} {p p' f f' : String} {b b' : Expr} {l l' : Loc} {env env' : Env}
    (h : (Value.closure p b ((f, l) :: env)).Rooted s) (h' : (Value.closure p' b' ((f', l') :: env')).Rooted s) (n : Nat) :
    BinaryOp.eq.apply (n + 1) s (.closure p b ((f, l) :: env)) (.closure p' b' ((f', l') :: env')) =
      if (p = p' && b.alike b') = true ∧ f = f' then if l = l' then .ok (.bool true) else .error .endless
      else .ok (.bool false) := by
  have hsame := Value.same?_rooted h h' n
  simp only [BinaryOp.apply, Operator.compare, Value.comparable, if_true, hsame]
  by_cases halike : (p = p' && b.alike b') = true ∧ f = f'
  · rw [if_pos halike, if_pos halike]
    by_cases hl : l = l'
    · rw [if_pos hl, if_pos hl]
      rfl
    · rw [if_neg hl, if_neg hl]
  · rw [if_neg halike, if_neg halike]
    rfl

/-- A step is given up when its first part is. -/
theorem EvalM.GivenUp.bind {α β : Type} {x : EvalM α} {k : α → EvalM β} {m : Machine} (h : EvalM.GivenUp (x m)) :
    EvalM.GivenUp ((x >>= k) m) := by
  cases hend : x m with
  | ok a m' =>
    rw [hend] at h
    exact h.elim
  | error f m' =>
    rw [hend, EvalM.givenUp_error] at h
    rwa [EvalM.bind_error hend, EvalM.givenUp_error]

section

variable {op : BinaryOp} {env : Env} {a b : Expr} {m m₁ m₂ : Machine} {v w : Value}

/-- An evaluation that ends is given up or has ended, at every depth. -/
theorem Expr.EndsWith.givenUp_or {r : EStateM.Result Fault Machine Value} (h : a.EndsWith env m r) (n : Nat) :
    EvalM.GivenUp (a.eval n env m) ∨ a.eval n env m = r := by
  by_cases hup : EvalM.GivenUp (a.eval n env m)
  · exact Or.inl hup
  · obtain ⟨_, k, hk⟩ := h
    have hlate := hk (max k n) (Nat.le_max_left k n)
    rw [Expr.eval_of_le hup (Nat.le_max_right k n)] at hlate
    exact Or.inr hlate

/-- An operator whose operands end, and that has a value of them at every depth, ends with that value. -/
theorem Expr.endsWith_binary {u : Value} (ha : a.EndsWith env m (.ok v m₁)) (hb : b.EndsWith env m₁ (.ok w m₂))
    (hop : ∀ n, op.apply (n + 1) m₂.store v w = .ok u) : (Expr.binary op a b).EndsWith env m (.ok u m₂) := by
  obtain ⟨_, j, hj⟩ := ha
  obtain ⟨_, k, hk⟩ := hb
  have hv := hj (j + k + 1) (by omega)
  have hw := hk (j + k + 1) (by omega)
  refine Expr.endsWith_of_not_givenUp (k := j + k + 2) ?_ not_false
  refine (EvalM.bind_ok hv).trans ((EvalM.bind_ok hw).trans ?_)
  show EvalM.ofExcept (op.apply (j + k + 1) m₂.store v w) m₂ = .ok u m₂
  rw [hop]
  rfl

/-- An operator whose operands end, and that is given up on them at every depth, runs for ever. -/
theorem Expr.runsForever_binary (ha : a.EndsWith env m (.ok v m₁)) (hb : b.EndsWith env m₁ (.ok w m₂))
    (hop : ∀ n, op.apply n m₂.store v w = .error .endless) : (Expr.binary op a b).RunsForever env m := by
  intro n
  cases n with
  | zero => trivial
  | succ n =>
    rcases ha.givenUp_or n with hup | hv
    · exact hup.bind
    · rw [show (Expr.binary op a b).eval (n + 1) env m = _ from EvalM.bind_ok hv]
      rcases hb.givenUp_or n with hup | hw
      · exact hup.bind
      · rw [EvalM.bind_ok hw]
        show EvalM.GivenUp (EvalM.ofExcept (op.apply n m₂.store v w) m₂)
        rw [hop]
        trivial

end

/-! ## Programs -/

/-- What holds of the functions at a moment of a run. -/
structure Moment.KnowsFunctions (moments : List Moment) (x : Moment) : Prop where
  /-- A function's environment begins with its own name, bound to a location that holds the function. A definition of that name made
  the location for it. -/
  own : ∀ k p b env, x.machine.store.get? k = some (.closure p b env) →
    ∃ f l rest, env = (f, l) :: rest ∧ x.machine.store.get? l = some (.closure p b env) ∧ Moment.Makes moments l f p b rest
  /-- Equality of two functions that are held, with the own names `f` and `f'` and the own locations `l` and `l'`, where two
  operands end with them. -/
  equality : ∀ k k' p p' b b' f f' l l' rest rest', x.machine.store.get? k = some (.closure p b ((f, l) :: rest)) →
    x.machine.store.get? k' = some (.closure p' b' ((f', l') :: rest')) →
    ∀ env a a' m m₁, a.EndsWith env m (.ok (.closure p b ((f, l) :: rest)) m₁) →
      a'.EndsWith env m₁ (.ok (.closure p' b' ((f', l') :: rest')) x.machine) →
      (l = l' → Value.closure p b ((f, l) :: rest) = .closure p' b' ((f', l') :: rest') ∧
        (Expr.binary .eq a a').EndsWith env m (.ok (.bool true) x.machine)) ∧
      (l ≠ l' → p ≠ p' ∨ b.counted ≠ b'.counted ∨ f ≠ f' →
        (Expr.binary .eq a a').EndsWith env m (.ok (.bool false) x.machine)) ∧
      (l ≠ l' → p = p' → b.counted = b'.counted → f = f' → (Expr.binary .eq a a').RunsForever env m)

/-- Functions are known where they are rooted, were made during the run, and have legible bodies. -/
theorem Moment.knowsFunctions {moments : List Moment} {x : Moment} (hs : x.machine.store.Rooted)
    (hmade : Store.empty.Descends moments x.machine.store)
    (hbody : ∀ k p b env, x.machine.store.get? k = some (.closure p b env) → b.Legible) : x.KnowsFunctions moments where
  own := by
    intro k p b env hk
    obtain ⟨_, _, f, l, rest, rfl, hl⟩ := hs k _ hk
    refine ⟨f, l, rest, rfl, hl, ?_⟩
    rcases hmade l f p b rest hl with hempty | hmakes
    · exact absurd (Store.lt_next_of_get? hempty) (Nat.not_lt_zero l)
    · exact hmakes
  equality := by
    intro k k' p p' b b' f f' l l' rest rest' hk hk' env a a' m m₁ ha ha'
    have hrooted := hs k _ hk
    have hrooted' := hs k' _ hk'
    have halike := Expr.alike_iff_counted (hbody k _ _ _ hk) (hbody k' _ _ _ hk')
    refine ⟨?_, ?_, ?_⟩
    · -- One location holds one function.
      rintro rfl
      have hsame : Value.closure p b ((f, l) :: rest) = .closure p' b' ((f', l) :: rest') := by
        obtain ⟨_, _, _, _, _, heq, hl⟩ := hrooted
        obtain ⟨_, _, _, _, _, heq', hl'⟩ := hrooted'
        cases heq
        cases heq'
        rw [hl] at hl'
        exact Option.some.inj hl'
      refine ⟨hsame, Expr.endsWith_binary ha ha' (fun n => ?_)⟩
      cases hsame
      rw [BinaryOp.apply_eq_rooted hrooted hrooted', if_pos ⟨by simp [halike], rfl⟩, if_pos rfl]
    · intro _ hdiffer
      refine Expr.endsWith_binary ha ha' (fun n => ?_)
      rw [BinaryOp.apply_eq_rooted hrooted hrooted', if_neg]
      rintro ⟨hparts, hf⟩
      simp only [Bool.and_eq_true, decide_eq_true_eq, halike] at hparts
      rcases hdiffer with hp | hb | hname
      · exact hp hparts.1
      · exact hb hparts.2
      · exact hname hf
    · intro hne hp hb hf
      refine Expr.runsForever_binary ha ha' (fun n => ?_)
      cases n with
      | zero => rfl
      | succ n =>
        have hparts : (p = p' && b.alike b') = true := by simp [hp, halike, hb]
        rw [BinaryOp.apply_eq_rooted hrooted hrooted', if_pos ⟨hparts, hf⟩, if_neg hne]

/-- The identity of functions. In every run of a program from a source, the definitions make ever newer locations; at every moment,
each function is held at its own location, which a definition made for it under its own name, and equality means being made at one
location; and whatever evaluation of the run ends with a function leaves it at its own location. -/
theorem Expr.function_identity {e : Expr} (he : e.Parsed) (n : Nat) (w : World) :
    ((e.history n [] ⟨.empty, w⟩).filterMap Moment.made?).Pairwise (· < ·) ∧
    (∀ x ∈ e.history n [] ⟨.empty, w⟩, x.KnowsFunctions (e.history n [] ⟨.empty, w⟩)) ∧
    ∀ env a m, .begins env a m ∈ e.history n [] ⟨.empty, w⟩ → ∀ k p b captured m₁,
      a.eval k env m = .ok (.closure p b captured) m₁ →
        ∃ f l rest, captured = (f, l) :: rest ∧ m₁.store.get? l = some (.closure p b captured) := by
  have hrooted := Rooted.lawful.toDiscipline
  have hempty : Store.empty.Rooted := Store.all_empty _
  have hready : Rooted.discipline.toDiscipline.Ready ⟨.empty, w⟩ [] e := ⟨he.plain, fun _ hl => nomatch hl⟩
  have hnative := Native.lawful he.legible (Note.kept_true e)
  obtain ⟨hs, hr⟩ := Native.ready e (fun _ => True) w
  refine ⟨Expr.made_increasing he.legible n w, ?_, ?_⟩
  · intro x hx
    refine Moment.knowsFunctions (hrooted.history n [] e ⟨.empty, w⟩ hempty hready x hx).2 ?_ ?_
    · exact Expr.history_descends n [] e ⟨.empty, w⟩ hempty hready.1 hready.2 x hx
    · intro k p b env hk
      exact he.legible.part ((hnative.history n [] e ⟨.empty, w⟩ hs hr x hx).2 k _ hk).1
  · intro env a m hmoment k p b captured m₁ heval
    obtain ⟨hs₁, hr₁⟩ := hrooted.history_begins n [] e ⟨.empty, w⟩ hempty hready env a m hmoment
    have hends := hrooted.eval k env a m hs₁ hr₁
    rw [heval] at hends
    obtain ⟨_, _, f, l, rest, hcaptured, hl⟩ := hends.2.2
    exact ⟨f, l, rest, hcaptured, hl⟩

/-- Two functions of one definition, which is evaluated twice, are compared. -/
def Expr.doubles : Expr :=
  .letFun "make" "n" (.letFun "f" "x" (.name "n") (.name "f"))
    (.binary .eq (.app (.name "make") (.lit (.int 1))) (.app (.name "make") (.lit (.int 2))))

/-- The run makes three functions, at three locations, and knows them at every moment. -/
theorem Expr.function_identity_doubles :
    Expr.doubles.Parsed ∧ (Expr.doubles.history 5 [] ⟨.empty, {}⟩).filterMap Moment.made? = [0, 2, 4] ∧
      ∀ x ∈ Expr.doubles.history 5 [] ⟨.empty, {}⟩, x.KnowsFunctions (Expr.doubles.history 5 [] ⟨.empty, {}⟩) := by
  have hread : Expr.ofSource? "letfun make(n) = letfun f(x) = n in f end in make(1) == make(2) end" = some Expr.doubles := by
    decide +kernel
  have hparsed := Expr.parsed_of_ofSource? hread
  have hmade : (Expr.doubles.history 5 [] ⟨.empty, {}⟩).filterMap Moment.made? = [0, 2, 4] := by decide +kernel
  exact ⟨hparsed, hmade, (Expr.function_identity hparsed 5 {}).2.1⟩

end TuneLang
