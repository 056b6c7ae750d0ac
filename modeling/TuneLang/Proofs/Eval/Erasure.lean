import TuneLang.Proofs.Eval.Depth
import TuneLang.Proofs.Eval.Quiet

/-!
# Shows can be erased

To erase the shows of an expression is to put what is shown in the place of each show, inside the bodies of functions as well. A
program that ends with a value still ends with it when its shows are erased, provided that it plays no files and compares no
functions: showing gives back the value, and leaves the store, the answers still to come and the files as they are. The functions of
the two runs differ in the shows of their bodies only, and nothing but a comparison looks into a body without evaluating it.

The two runs go side by side (`EvalM.ErasesTo`): where the first one ends with a value, the second one ends with that value erased, in
a machine that differs by the shows only (`Machine.Erased`). What the second run does to the rest of the world is known from its being
silent. `Expr.erasure` puts both together.
-/

namespace TuneLang

/-- An expression without its shows: what was shown stands in their place. -/
def Expr.erase : Expr → Expr
  | .display shown => shown.erase
  | .binary op left right => .binary op left.erase right.erase
  | .logic op left right => .logic op left.erase right.erase
  | .unary op operand => .unary op operand.erase
  | .slice tune start stop => .slice tune.erase start.erase stop.erase
  | .cond test yes no => .cond test.erase yes.erase no.erase
  | .letIn x definition body => .letIn x definition.erase body.erase
  | .letFun f param body scope => .letFun f param body.erase scope.erase
  | .app function argument => .app function.erase argument.erase
  | .assign x value => .assign x value.erase
  | .seq first second => .seq first.erase second.erase
  | .write tune path => .write tune.erase path
  | .lit v => .lit v
  | .note pitch duration => .note pitch duration
  | .name x => .name x
  | .read => .read
  | .run path => .run path
  | .stray v => .stray v

/-- A value without shows: the body of a function is erased. -/
def Value.erase : Value → Value
  | .closure param body env => .closure param body.erase env
  | v => v

/-- A store with all its values erased. -/
def Store.erase (s : Store) : Store := ⟨s.cells.map Value.erase⟩

/-- Whether a machine is another one without shows: its store is erased, and it has the same answers to come and the same files. -/
structure Machine.Erased (m m' : Machine) : Prop where
  store : m'.store = m.store.erase
  input : m'.world.input = m.world.input
  files : m'.world.files = m.world.files

/-- Whether the second step, from `m'`, ends with the erased value wherever the first one, from `m`, ends with a value. -/
def EvalM.ErasesTo (m m' : Machine) (x y : EvalM Value) : Prop :=
  ∀ v m₁, x m = .ok v m₁ → ∃ m₁', y m' = .ok v.erase m₁' ∧ m₁.Erased m₁'

/-- Whether two functions are compared in the evaluation that begins at a moment. -/
def Moment.ComparesFunctions (x : Moment) : Prop :=
  ∃ env op a b m n c c' m₁ m₂, x = .begins env (.binary op a b) m ∧ (op = .eq ∨ op = .ne) ∧
    a.eval n env m = .ok c m₁ ∧ b.eval n env m₁ = .ok c' m₂ ∧ c.isClosure = true ∧ c'.isClosure = true

/-! ## Values and stores -/

theorem Value.erase_of_data {v : Value} (h : v.isClosure = false) : v.erase = v := by
  cases v with
  | closure => cases h
  | _ => rfl

theorem Value.isClosure_erase (v : Value) : v.erase.isClosure = v.isClosure := by
  cases v <;> rfl

theorem Store.next_erase (s : Store) : s.erase.next = s.next := Array.size_map

theorem Store.get_erase (s : Store) (l : Loc) : s.erase.get l = (s.get l).erase := by
  unfold Store.get Store.get? Store.erase
  rw [Array.getElem?_map]
  cases s.cells[l]? <;> rfl

theorem Store.erase_push (s : Store) (v : Value) : (s.push v).erase = s.erase.push v.erase := by
  unfold Store.push Store.erase
  rw [Array.map_push]

theorem Store.erase_set (s : Store) (l : Loc) (v : Value) : (s.set l v).erase = s.erase.set l v.erase := by
  unfold Store.set Store.erase
  rw [Array.map_setIfInBounds]

namespace Machine.Erased

variable {m m' : Machine}

theorem next (h : m.Erased m') : m'.store.next = m.store.next := by rw [h.store, Store.next_erase]

theorem get (h : m.Erased m') (l : Loc) : m'.store.get l = (m.store.get l).erase := by rw [h.store, Store.get_erase]

theorem push (h : m.Erased m') (v : Value) : (m.push v).Erased (m'.push v.erase) where
  store := by rw [Machine.push, Machine.push, h.store, Store.erase_push]
  input := h.input
  files := h.files

theorem set (h : m.Erased m') (l : Loc) (v : Value) : (m.set l v).Erased (m'.set l v.erase) where
  store := by rw [Machine.set, Machine.set, h.store, Store.erase_set]
  input := h.input
  files := h.files

end Machine.Erased

/-! ## Operators -/

/-- An operator other than the two comparisons for equality has a value of data only. -/
theorem BinaryOp.data_of_apply {op : BinaryOp} (heq : op ≠ .eq) (hne : op ≠ .ne) {n : Nat} {s : Store} {v w : Value} :
    ∀ u, op.apply n s v w = .ok u → v.isClosure = false ∧ w.isClosure = false := by
  fun_cases BinaryOp.apply n s op v w with
  | case16 => exact absurd rfl heq
  | case17 => exact absurd rfl hne
  | _ => simp [Value.isClosure]

theorem UnaryOp.data_of_apply {op : UnaryOp} {v : Value} : ∀ u, op.apply v = .ok u → v.isClosure = false := by
  fun_cases UnaryOp.apply op v <;> simp [Value.isClosure]

theorem Value.data_of_slice {t i j : Value} :
    ∀ u, t.slice i j = .ok u → t.isClosure = false ∧ i.isClosure = false ∧ j.isClosure = false := by
  fun_cases Value.slice t i j <;> simp [Value.isClosure]

/-- Of two values that can be compared, one is a function when the other is. -/
theorem Value.data_of_comparable {v w : Value} (h : v.comparable w = true) (hfunctions : ¬ (v.isClosure = true ∧ w.isClosure = true)) :
    v.isClosure = false ∧ w.isClosure = false := by
  cases v <;> cases w <;> simp_all [Value.comparable, Value.isClosure]

theorem Value.comparable_erase (v w : Value) : v.erase.comparable w.erase = v.comparable w := by
  cases v <;> cases w <;> rfl

/-- The comparison of data does not look at the store. -/
theorem Value.same?_data {v : Value} (h : v.isClosure = false) (s s' : Store) (n : Nat) (w : Value) :
    Value.same? s n v w = Value.same? s' n v w := by
  cases n with
  | zero => rfl
  | succ n =>
    cases v with
    | closure => cases h
    | _ => rfl

/-- A comparison of values that are not both functions has the same answer without shows. -/
theorem Operator.compare_erase (n : Nat) (s s' : Store) {v w : Value} (wanted : Bool)
    (hfunctions : ¬ (v.isClosure = true ∧ w.isClosure = true)) :
    Operator.compare n s' v.erase w.erase wanted = Operator.compare n s v w wanted := by
  unfold Operator.compare
  rw [Value.comparable_erase]
  by_cases hcomparable : v.comparable w = true
  · obtain ⟨hv, hw⟩ := Value.data_of_comparable hcomparable hfunctions
    rw [Value.erase_of_data hv, Value.erase_of_data hw, Value.same?_data hv s' s]
  · rw [if_neg hcomparable, if_neg hcomparable]

/-- The value of an operator is data. -/
theorem Operator.data_of_isPlain {r : Except Fault Value} {u : Value} (hplain : Operator.isPlain r = true) (h : r = .ok u) :
    u.isClosure = false := by
  rw [h] at hplain
  simpa [Operator.isPlain] using hplain

/-- An operator that has a value has the same one without shows, unless two functions are compared. -/
theorem BinaryOp.apply_erase {op : BinaryOp} {n : Nat} {s s' : Store} {u v w : Value} (h : op.apply n s v w = .ok u)
    (hfunctions : op = .eq ∨ op = .ne → ¬ (v.isClosure = true ∧ w.isClosure = true)) :
    op.apply n s' v.erase w.erase = .ok u.erase := by
  rw [Value.erase_of_data (Operator.data_of_isPlain (BinaryOp.isPlain_apply op n s v w) h), ← h]
  by_cases heq : op = .eq
  · subst heq
    exact Operator.compare_erase n s s' true (hfunctions (Or.inl rfl))
  · by_cases hne : op = .ne
    · subst hne
      exact Operator.compare_erase n s s' false (hfunctions (Or.inr rfl))
    · obtain ⟨hv, hw⟩ := BinaryOp.data_of_apply heq hne u h
      rw [Value.erase_of_data hv, Value.erase_of_data hw, BinaryOp.apply_bare heq hne n s', BinaryOp.apply_bare heq hne n s]

theorem UnaryOp.apply_erase {op : UnaryOp} {u v : Value} (h : op.apply v = .ok u) : op.apply v.erase = .ok u.erase := by
  rw [Value.erase_of_data (Operator.data_of_isPlain (UnaryOp.isPlain_apply op v) h),
    Value.erase_of_data (UnaryOp.data_of_apply u h), h]

theorem Value.slice_erase {t i j u : Value} (h : t.slice i j = .ok u) : t.erase.slice i.erase j.erase = .ok u.erase := by
  obtain ⟨ht, hi, hj⟩ := Value.data_of_slice u h
  rw [Value.erase_of_data (Operator.data_of_isPlain (Value.isPlain_slice t i j) h), Value.erase_of_data ht,
    Value.erase_of_data hi, Value.erase_of_data hj, h]

/-! ## Exchanges -/

/-- A question has the same answer where the answers to come are the same, and leaves the files as they are. -/
theorem World.ask_congr {w w' : World} (h : w'.input = w.input) (prompt : String) :
    (w'.ask prompt).1 = (w.ask prompt).1 ∧ (w'.ask prompt).2.input = (w.ask prompt).2.input ∧
      (w'.ask prompt).2.files = w'.files := by
  unfold World.ask
  rw [h]
  split
  · exact ⟨rfl, h, rfl⟩
  · exact ⟨rfl, rfl, rfl⟩

/-- Recording a tune does the same where the files are the same, and leaves the answers to come. -/
theorem World.record_congr {w w' : World} (h : w'.files = w.files) (t : Tune) (path : String) :
    (w'.record t path).1 = (w.record t path).1 ∧ (w'.record t path).2.files = (w.record t path).2.files ∧
      (w'.record t path).2.input = w'.input := by
  unfold World.record
  rw [h]
  exact ⟨rfl, rfl, rfl⟩

/-- Playing a tune leaves the answers to come and the files. -/
theorem World.playTune_frame (w : World) (t : Tune) : (w.playTune t).2.input = w.input ∧ (w.playTune t).2.files = w.files := by
  unfold World.playTune
  dsimp only
  split
  · exact ⟨rfl, rfl⟩
  · obtain ⟨codes, commands, hplay⟩ :=
      World.play_eq { w with temporaries := w.temporaries ++ [(Midi.file t).1] } Recording.temporaryName
    rw [hplay]
    exact ⟨rfl, rfl⟩

/-- Whether a step leaves the answers to come and the files as they are. -/
def EvalM.Spares {α : Type} (x : EvalM α) : Prop :=
  ∀ m, (EvalM.left (x m)).world.input = m.world.input ∧ (EvalM.left (x m)).world.files = m.world.files

theorem EvalM.Spares.bind {α β : Type} {x : EvalM α} {k : α → EvalM β} (hx : EvalM.Spares x) (hk : ∀ a, EvalM.Spares (k a)) :
    EvalM.Spares (x >>= k) := by
  intro m
  have hfirst := hx m
  cases h : x m with
  | error f m₁ =>
    rw [h] at hfirst
    rw [EvalM.bind_error h]
    exact hfirst
  | ok a m₁ =>
    rw [h] at hfirst
    rw [EvalM.bind_ok h]
    exact ⟨(hk a m₁).1.trans hfirst.1, (hk a m₁).2.trans hfirst.2⟩

theorem EvalM.spares_written (text : Option String) : EvalM.Spares (EvalM.written text) := by
  intro m
  cases text <;> exact ⟨rfl, rfl⟩

theorem EvalM.spares_printLine (s : String) : EvalM.Spares (EvalM.printLine s) := fun _ => ⟨rfl, rfl⟩

/-- Showing a value leaves the answers to come and the files as they are. -/
theorem EvalM.spares_display (v : Value) : EvalM.Spares (EvalM.display v) := by
  unfold EvalM.display
  split
  · refine (EvalM.spares_written _).bind (fun listing => (EvalM.spares_printLine listing).bind (fun _ => ?_))
    refine EvalM.Spares.bind (fun m => World.playTune_frame m.world _) (fun failure => ?_)
    cases failure with
    | none => exact fun _ => ⟨rfl, rfl⟩
    | some reason => exact EvalM.spares_printLine _
  · exact (EvalM.spares_written _).bind (fun text => EvalM.spares_printLine text)

namespace Machine.Erased

variable {m m' : Machine}

/-- A machine without shows stays one when a value is shown. -/
theorem display (h : m.Erased m') {v : Value} {m₁ : Machine} {u : Unit} (hshow : EvalM.display v m = .ok u m₁) : m₁.Erased m' := by
  have hstore := (EvalM.outward_display v).store_left m
  have hspared := EvalM.spares_display v m
  rw [hshow] at hstore hspared
  exact ⟨h.store.trans (congrArg Store.erase hstore.symm), h.input.trans hspared.1.symm, h.files.trans hspared.2.symm⟩

/-- Asking for an integer, without shows. -/
theorem readInteger (h : m.Erased m') : EvalM.ErasesTo m m' EvalM.readInteger EvalM.readInteger := by
  intro v m₁ hread
  obtain ⟨k, rfl⟩ := EvalM.readInteger_ok hread
  rw [EvalM.readInteger_eq] at hread
  obtain ⟨hanswer, rfl⟩ := EvalM.ofExcept_eq_ok hread
  obtain ⟨hsame, hinput, hfiles⟩ := World.ask_congr h.input "enter Integer: "
  refine ⟨{ m' with world := (m'.world.ask "enter Integer: ").2 }, ?_, h.store, hinput, ?_⟩
  · rw [EvalM.readInteger_eq, hsame, hanswer]
    rfl
  · exact hfiles.trans (h.files.trans (World.ask_congr rfl "enter Integer: ").2.2.symm)

/-- Writing a value, without shows. -/
theorem write (h : m.Erased m') (v : Value) (path : String) :
    EvalM.ErasesTo m m' (EvalM.write v path) (EvalM.write v.erase path) := by
  intro u m₁ hwrite
  cases v with
  | tune t =>
    obtain rfl := EvalM.write_ok hwrite
    rw [EvalM.write_eq] at hwrite
    obtain ⟨houtcome, rfl⟩ := EvalM.ofExcept_eq_ok hwrite
    obtain ⟨hsame, hfiles, hinput⟩ := World.record_congr h.files t path
    refine ⟨{ m' with world := (m'.world.record t path).2 }, ?_, h.store, ?_, hfiles⟩
    · show EvalM.write (.tune t) path m' = _
      rw [EvalM.write_eq, hsame, houtcome]
      rfl
    · exact hinput.trans (h.input.trans (World.record_congr rfl t path).2.2.symm)
  | _ => cases hwrite

end Machine.Erased

/-! ## Two runs side by side -/

namespace EvalM.ErasesTo

variable {m m' : Machine} {x y : EvalM Value}

/-- A step that ends with a fault asks nothing of the other one. -/
theorem of_error {f : Fault} {m₁ : Machine} (h : x m = .error f m₁) : ErasesTo m m' x y := by
  intro v m₂ hend
  rw [h] at hend
  cases hend

/-- Steps one after the other go side by side when each of them does. -/
theorem bind {k k' : Value → EvalM Value} (hx : ErasesTo m m' x y)
    (hk : ∀ v m₁ m₁', x m = .ok v m₁ → m₁.Erased m₁' → ErasesTo m₁ m₁' (k v) (k' v.erase)) :
    ErasesTo m m' (x >>= k) (y >>= k') := by
  intro u m₂ hend
  obtain ⟨v, m₁, hv, hrest⟩ := EvalM.bind_eq_ok hend
  obtain ⟨m₁', hv', herased⟩ := hx v m₁ hv
  obtain ⟨m₂', hu, herased'⟩ := hk v m₁ m₁' hv herased u m₂ hrest
  exact ⟨m₂', (EvalM.bind_ok hv').trans hu, herased'⟩

/-- A value gets one more location on both sides. -/
theorem allocate {v : Value} {k k' : Loc → EvalM Value} (h : m.Erased m')
    (hk : ErasesTo (m.push v) (m'.push v.erase) (k m.store.next) (k' m.store.next)) :
    ErasesTo m m' (EvalM.allocate v >>= k) (EvalM.allocate v.erase >>= k') := by
  intro u m₁ hend
  obtain ⟨m₁', hu, hm₁⟩ := hk u m₁ hend
  refine ⟨m₁', ?_, hm₁⟩
  show k' m'.store.next (m'.push v.erase) = .ok u.erase m₁'
  rw [h.next]
  exact hu

/-- An operation on values goes beside one that has the erased value. -/
theorem ofExcept {r r' : Except Fault Value} (h : m.Erased m') (hr : ∀ u, r = .ok u → r' = .ok u.erase) :
    ErasesTo m m' (EvalM.ofExcept r) (EvalM.ofExcept r') := by
  intro u m₁ hend
  obtain ⟨hu, rfl⟩ := EvalM.ofExcept_eq_ok hend
  rw [hr u hu]
  exact ⟨m', rfl, h⟩

end EvalM.ErasesTo

/-- Whether an evaluation can do without its shows: it is one of a run of the program, and compares no functions. -/
structure Expr.Erasable (program : Expr) (n : Nat) (env : Env) (e : Expr) (m : Machine) : Prop where
  sound : (Native.discipline program fun _ => True).Sound m
  ready : (Native.discipline program fun _ => True).Ready m env e
  compares : ∀ x ∈ e.history n env m, ¬ x.ComparesFunctions

/-- The tasks of an evaluation that can do without shows can, too. -/
theorem Expr.Erasable.task {program : Expr} (hprogram : program.Legible) {n : Nat} {env : Env} {e : Expr} {m : Machine} {t : Task}
    (h : Expr.Erasable program (n + 1) env e m) (ht : t ∈ e.tasks n env m) : Expr.Erasable program n t.env t.expr t.machine := by
  have hlaw := Native.lawful hprogram (Note.kept_true program)
  obtain ⟨_, hs, hr⟩ := hlaw.course_task (hlaw.course h.sound h.ready) t ht
  exact ⟨hs, hr, fun x hx => h.compares x (Expr.mem_history_of_task ht hx)⟩

/-- An evaluation goes beside that of the expression without shows. -/
theorem Expr.eval_erase {program : Expr} (hprogram : program.Legible) (hplay : ∀ path, .run path ∉ program.parts) (n : Nat) :
    ∀ (env : Env) (e : Expr) (m m' : Machine), Expr.Erasable program n env e m → m.Erased m' →
      EvalM.ErasesTo m m' (e.eval n env) (e.erase.eval n env) := by
  induction n with
  | zero =>
    intro env e m m' _ _ v m₁ hend
    cases hend
  | succ n ih =>
    intro env e m m' he hm
    -- A task of the evaluation goes beside its own erasure.
    have task : ∀ {env' a m₁ m₁'}, ⟨env', a, m₁⟩ ∈ e.tasks n env m → m₁.Erased m₁' →
        EvalM.ErasesTo m₁ m₁' (a.eval n env') (a.erase.eval n env') :=
      fun ht hm₁ => ih _ _ _ _ (he.task hprogram ht) hm₁
    cases e with
    | lit v =>
      rintro u m₁ ⟨⟩
      have hv := hprogram _ he.ready.1
      cases v with
      | int | bool => exact ⟨m', rfl, hm⟩
      | _ => exact hv.elim
    | note p d =>
      rintro u m₁ ⟨⟩
      exact ⟨m', rfl, hm⟩
    | binary op l r =>
      refine (task (by simp [Expr.tasks]) hm).bind ?_
      intro v m₁ m₁' hv hm₁
      refine (task (by simp [Expr.tasks, Task.after, hv]) hm₁).bind ?_
      intro w m₂ m₂' hw hm₂
      refine EvalM.ErasesTo.ofExcept hm₂ (fun u hu => BinaryOp.apply_erase hu ?_)
      rintro hop ⟨hc, hc'⟩
      exact he.compares _ (Expr.begins_mem_history n env _ m) ⟨env, op, l, r, m, n, v, w, m₁, m₂, rfl, hop, hv, hw, hc, hc'⟩
    | logic op l r =>
      refine (task (by simp [Expr.tasks]) hm).bind ?_
      intro v m₁ m₁' hv hm₁
      cases v with
      | bool b =>
        by_cases hb : b = op.settling
        · simp only [Value.erase, if_pos hb]
          rintro u m₂ ⟨⟩
          exact ⟨m₁', rfl, hm₁⟩
        · have hright : (Value.bool b) = .bool (!op.settling) := by
            cases b <;> cases hop : op.settling <;> simp_all
          simp only [Value.erase, if_neg hb]
          refine (task (by simp [Expr.tasks, Task.after, hv, hright]) hm₁).bind ?_
          intro w m₂ m₂' _ hm₂
          cases w with
          | bool c =>
            rintro u m₃ ⟨⟩
            exact ⟨m₂', rfl, hm₂⟩
          | _ => exact EvalM.ErasesTo.of_error rfl
      | _ => exact EvalM.ErasesTo.of_error rfl
    | unary op a =>
      refine (task (by simp [Expr.tasks]) hm).bind ?_
      intro v m₁ m₁' _ hm₁
      exact EvalM.ErasesTo.ofExcept hm₁ (fun u hu => UnaryOp.apply_erase hu)
    | slice t i j =>
      refine (task (by simp [Expr.tasks]) hm).bind ?_
      intro u m₁ m₁' hu hm₁
      refine (task (by simp [Expr.tasks, Task.after, hu]) hm₁).bind ?_
      intro v m₂ m₂' hv hm₂
      refine (task (by simp [Expr.tasks, Task.after, hu, hv]) hm₂).bind ?_
      intro w m₃ m₃' _ hm₃
      exact EvalM.ErasesTo.ofExcept hm₃ (fun u hu => Value.slice_erase hu)
    | cond c t f =>
      refine (task (by simp [Expr.tasks]) hm).bind ?_
      intro v m₁ m₁' hv hm₁
      cases v with
      | bool b =>
        cases b with
        | true => exact task (by simp [Expr.tasks, Task.after, hv]) hm₁
        | false => exact task (by simp [Expr.tasks, Task.after, hv]) hm₁
      | _ => exact EvalM.ErasesTo.of_error rfl
    | name x =>
      simp only [Expr.erase, Expr.eval, EvalM.locate]
      cases hx : env.find? x with
      | some l =>
        rintro u m₁ ⟨⟩
        exact ⟨m', congrArg (fun v => EStateM.Result.ok v m') (hm.get l), hm⟩
      | none => exact EvalM.ErasesTo.of_error rfl
    | letIn x d b =>
      refine (task (by simp [Expr.tasks]) hm).bind ?_
      intro v m₁ m₁' hv hm₁
      exact EvalM.ErasesTo.allocate hm₁ (task (by simp [Expr.tasks, Task.after, hv]) (hm₁.push v))
    | letFun f p b i =>
      have hscope : EvalM.ErasesTo _ _ (i.eval n ((f, m.store.next) :: env)) (i.erase.eval n ((f, m.store.next) :: env)) :=
        task (by simp [Expr.tasks]) (hm.push (.closure p b ((f, m.store.next) :: env)))
      intro u m₁ hend
      obtain ⟨m₁', hu, hm₁⟩ := hscope u m₁ hend
      refine ⟨m₁', ?_, hm₁⟩
      show i.erase.eval n ((f, m'.store.next) :: env) (m'.push (.closure p b.erase ((f, m'.store.next) :: env))) = .ok u.erase m₁'
      rw [hm.next]
      exact hu
    | app f a =>
      refine (task (by simp [Expr.tasks]) hm).bind ?_
      intro c m₁ m₁' hc hm₁
      cases c with
      | closure p b captured =>
        refine (task (by simp [Expr.tasks, Task.after, hc]) hm₁).bind ?_
        intro v m₂ m₂' hv hm₂
        exact EvalM.ErasesTo.allocate hm₂ (task (by simp [Expr.tasks, Task.after, hc, hv]) (hm₂.push v))
      | _ => exact EvalM.ErasesTo.of_error rfl
    | assign x a =>
      cases hx : env.find? x with
      | none =>
        have hunbound : (Expr.assign x a).eval (n + 1) env m = .error (.unbound x) m := by
          simp only [Expr.eval, EvalM.locate, hx]
          rfl
        exact EvalM.ErasesTo.of_error hunbound
      | some l =>
        by_cases hdata : (m.store.get l).isClosure = false
        · have hdata' : (m'.store.get l).isClosure = false := by rwa [hm.get, Value.isClosure_erase]
          have hassign : EvalM.ErasesTo m m' (a.eval n env >>= fun v => EvalM.update l v >>= fun _ => pure v)
              (a.erase.eval n env >>= fun v => EvalM.update l v >>= fun _ => pure v) := by
            refine (task (by simp [Expr.tasks, hx, hdata]) hm).bind ?_
            rintro v m₁ m₁' _ hm₁ u m₂ ⟨⟩
            exact ⟨m₁'.set l v.erase, rfl, hm₁.set l v⟩
          intro u m₂ hend
          rw [Expr.eval_assign hx hdata] at hend
          rw [Expr.erase, Expr.eval_assign hx hdata']
          exact hassign u m₂ hend
        · exact EvalM.ErasesTo.of_error (Expr.eval_assign_function hx (by simpa using hdata))
    | seq a b =>
      refine (task (by simp [Expr.tasks]) hm).bind ?_
      intro v m₁ m₁' hv hm₁
      exact task (by simp [Expr.tasks, Task.after, hv]) hm₁
    | display a =>
      -- The show ends with the value of what is shown, which the second run comes to one step earlier.
      intro v m₂ hend
      obtain ⟨u, m₁, hu, hrest⟩ := EvalM.bind_eq_ok hend
      obtain ⟨_, m₃, hshow, hvalue⟩ := EvalM.bind_eq_ok hrest
      cases hvalue
      obtain ⟨m₁', hu', hm₁⟩ := task (by simp [Expr.tasks]) hm v m₁ hu
      have hends : ¬ EvalM.GivenUp (a.erase.eval n env m') := by
        rw [hu']
        exact not_false
      exact ⟨m₁', (Expr.eval_of_le hends (Nat.le_succ n)).trans hu', hm₁.display hshow⟩
    | read => exact hm.readInteger
    | write a path =>
      refine (task (by simp [Expr.tasks]) hm).bind ?_
      intro v m₁ m₁' _ hm₁
      exact hm₁.write v path
    | run path => exact absurd he.ready.1 (hplay path)
    | stray v => exact (hprogram _ he.ready.1).elim

/-! ## Programs -/

/-- The parts of an expression without shows come from its parts other than shows. -/
theorem Expr.mem_parts_erase {e a : Expr} (h : a ∈ e.erase.parts) : ∃ b ∈ e.parts, b.erase = a ∧ ∀ c, b ≠ .display c := by
  induction e with
  | lit | note | name | read | run | stray =>
    rw [List.mem_singleton.mp h]
    exact ⟨_, Expr.self_mem_parts _, rfl, by simp⟩
  | display x ih =>
    obtain ⟨b, hb, hrest⟩ := ih h
    exact ⟨b, List.mem_cons_of_mem _ hb, hrest⟩
  | unary _ _ ih | assign _ _ ih | write _ _ ih =>
    rcases List.mem_cons.mp h with rfl | h
    · exact ⟨_, Expr.self_mem_parts _, rfl, by simp⟩
    · obtain ⟨b, hb, hrest⟩ := ih h
      exact ⟨b, List.mem_cons_of_mem _ hb, hrest⟩
  | binary _ _ _ ihl ihr | logic _ _ _ ihl ihr | letIn _ _ _ ihl ihr | letFun _ _ _ _ ihl ihr | app _ _ ihl ihr | seq _ _ ihl ihr =>
    rcases List.mem_cons.mp h with rfl | h
    · exact ⟨_, Expr.self_mem_parts _, rfl, by simp⟩
    · rcases List.mem_append.mp h with h | h
      · obtain ⟨b, hb, hrest⟩ := ihl h
        exact ⟨b, List.mem_cons_of_mem _ (List.mem_append_left _ hb), hrest⟩
      · obtain ⟨b, hb, hrest⟩ := ihr h
        exact ⟨b, List.mem_cons_of_mem _ (List.mem_append_right _ hb), hrest⟩
  | slice _ _ _ ih₁ ih₂ ih₃ | cond _ _ _ ih₁ ih₂ ih₃ =>
    rcases List.mem_cons.mp h with rfl | h
    · exact ⟨_, Expr.self_mem_parts _, rfl, by simp⟩
    · rcases List.mem_append.mp h with h | h
      · rcases List.mem_append.mp h with h | h
        · obtain ⟨b, hb, hrest⟩ := ih₁ h
          exact ⟨b, List.mem_cons_of_mem _ (List.mem_append_left _ (List.mem_append_left _ hb)), hrest⟩
        · obtain ⟨b, hb, hrest⟩ := ih₂ h
          exact ⟨b, List.mem_cons_of_mem _ (List.mem_append_left _ (List.mem_append_right _ hb)), hrest⟩
      · obtain ⟨b, hb, hrest⟩ := ih₃ h
        exact ⟨b, List.mem_cons_of_mem _ (List.mem_append_right _ hb), hrest⟩

/-- A legible expression is legible without its shows. -/
theorem Expr.Legible.erase {e : Expr} (h : e.Legible) : e.erase.Legible := by
  intro a ha
  obtain ⟨b, hb, rfl, hshow⟩ := Expr.mem_parts_erase ha
  have hwritable := h b hb
  cases b with
  | display c => exact absurd rfl (hshow c)
  | lit | note | stray => exact hwritable
  | _ => trivial

/-- An expression that plays nothing is silent without its shows. -/
theorem Expr.silent_erase {e : Expr} (hplay : ∀ path, .run path ∉ e.parts) : e.erase.Silent := by
  constructor
  · intro a ha
    obtain ⟨b, _, heq, hshow⟩ := Expr.mem_parts_erase ha
    cases b with
    | display c => exact hshow c rfl
    | _ => cases heq
  · intro path ha
    obtain ⟨b, hb, heq, hshow⟩ := Expr.mem_parts_erase ha
    cases b with
    | display c => exact hshow c rfl
    | run path' =>
      cases heq
      exact hplay path hb
    | _ => cases heq

/-- Shows can be erased. When a program from a source that plays no files ends with a value, in whatever world, and no two functions
were compared, then without its shows it ends with that value erased. It leaves the same store, erased, the same answers to come and
the same files; it tells the system nothing, makes no temporary file, and prints the prompts of its questions and nothing else. -/
theorem Expr.erasure {e : Expr} (he : e.Parsed) (hplay : ∀ path, .run path ∉ e.parts) {n : Nat} {w : World} {v : Value}
    {m : Machine} (hend : e.evalClosed n w = .ok v m) (hcompare : ∀ x ∈ e.history n [] ⟨.empty, w⟩, ¬ x.ComparesFunctions) :
    ∃ m', e.erase.evalClosed n w = .ok v.erase m' ∧ m.Erased m' ∧
      World.Quiet ((e.erase.history n [] ⟨.empty, w⟩).countP Moment.asks) w m'.world := by
  obtain ⟨hs, hr⟩ := Native.ready e (fun _ => True) w
  have hempty : Machine.Erased ⟨.empty, w⟩ ⟨.empty, w⟩ := ⟨by simp [Store.empty, Store.erase], rfl, rfl⟩
  obtain ⟨m', herased, hm'⟩ := Expr.eval_erase he.legible hplay n [] e ⟨.empty, w⟩ ⟨.empty, w⟩ ⟨hs, hr, hcompare⟩ hempty v m hend
  refine ⟨m', herased, hm', ?_⟩
  obtain ⟨hs', hr'⟩ := Native.ready e.erase (fun _ => True) w
  have hquiet := Expr.eval_quiet he.legible.erase (Expr.silent_erase hplay) n [] e.erase ⟨.empty, w⟩ hs' hr'
  rw [herased] at hquiet
  exact hquiet

/-- A function that shows its argument, applied to a comparison with an answer of the user; it is the value of the program. -/
def Expr.confession : Expr :=
  .letFun "f" "x" (.display (.name "x")) (.seq (.app (.name "f") (.binary .eq .read (.lit (.int 5)))) (.name "f"))

/-- A world in which the user answers with a five. -/
def World.answering : World := { input := [.typed "5"] }

/-- Without its shows, the confession has the function without its show as its value, and prints one prompt. -/
theorem Expr.erasure_confession :
    Expr.confession.Parsed ∧ (∀ path, .run path ∉ Expr.confession.parts) ∧
      (∃ m, Expr.confession.evalClosed 5 .answering = .ok (.closure "x" (.display (.name "x")) [("f", 0)]) m) ∧
      (∀ x ∈ Expr.confession.history 5 [] ⟨.empty, .answering⟩, ¬ x.ComparesFunctions) ∧
      ∃ m', Expr.confession.erase.evalClosed 5 .answering = .ok (.closure "x" (.name "x") [("f", 0)]) m' ∧
        m'.world.out = "enter Integer: " := by
  have hread : Expr.ofSource? "letfun f(x) = show x in f(read == 5) ; f end" = some Expr.confession := by decide +kernel
  have hparsed := Expr.parsed_of_ofSource? hread
  have hplay : ∀ path, .run path ∉ Expr.confession.parts := by
    simp [Expr.confession, Expr.parts]
  have hend : Expr.confession.evalClosed 5 .answering = .ok (.closure "x" (.display (.name "x")) [("f", 0)]) _ := rfl
  -- The only comparison of the program has an answer of the user on its left.
  have hcompare : ∀ x ∈ Expr.confession.history 5 [] ⟨.empty, .answering⟩, ¬ x.ComparesFunctions := by
    rintro _ hx ⟨env, op, a, b, m, n, c, c', m₁, m₂, rfl, _, hc, _, hfunction, _⟩
    obtain ⟨hs, hr⟩ := Native.ready Expr.confession (fun _ => True) .answering
    have hlaw := Native.lawful hparsed.legible (Note.kept_true Expr.confession)
    have hpart := (hlaw.history_begins 5 [] _ _ hs hr env _ m hx).2.1
    simp only [Expr.confession, Expr.parts, List.cons_append, List.nil_append, List.mem_cons, List.not_mem_nil, Expr.binary.injEq,
      reduceCtorEq, false_or, or_false] at hpart
    obtain ⟨_, rfl, _⟩ := hpart
    cases n with
    | zero => cases hc
    | succ n =>
      obtain ⟨k, rfl⟩ := EvalM.readInteger_ok hc
      cases hfunction
  obtain ⟨m', herased, _, hquiet⟩ := Expr.erasure hparsed hplay hend hcompare
  have hcount : (Expr.confession.erase.history 5 [] ⟨.empty, .answering⟩).countP Moment.asks = 1 := by decide +kernel
  rw [hcount] at hquiet
  refine ⟨hparsed, hplay, ⟨_, hend⟩, hcompare, m', herased, ?_⟩
  rw [hquiet.out, Text.repeated_one, World.answering, String.empty_append]

end TuneLang
