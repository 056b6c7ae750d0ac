import TuneLang.Proofs.Eval.Chain
import TuneLang.Proofs.Expr.Parts
import TuneLang.Proofs.Store.Rooted

/-!
# The values of a program

A legible program comes to four kinds of values: integers, truth values, tunes and functions whose bodies are parts of the program.
The other two kinds, the text and the absence of a value, arise from literals only, and no source writes such literals.

The notes of the tunes have every property that the notes of the program have and that the operators on tunes keep (`Note.Kept`):
nothing else makes notes. Both facts are one discipline (`Native.lawful`).
-/

namespace TuneLang

/-- Whether a property of notes holds of the notes that a program writes and is kept by the operators on tunes. -/
structure Note.Kept (program : Expr) (N : Note → Prop) : Prop where
  written : ∀ p d, Expr.note p d ∈ program.parts → N ⟨p, d⟩
  transposed : ∀ {n : Note} (k : Int), N n → N ⟨n.pitch.transpose k, n.duration⟩
  stretched : ∀ {n : Note} {k : Int}, 0 < k → N n → N ⟨n.pitch, n.duration * k⟩
  shortened : ∀ {n : Note} {k : Int}, 0 < k → N n → N ⟨n.pitch, Note.shortened n.duration k⟩

/-- Every note is a note. -/
theorem Note.kept_true (program : Expr) : Note.Kept program (fun _ => True) :=
  ⟨fun _ _ _ => trivial, fun _ _ => trivial, fun _ _ => trivial, fun _ _ => trivial⟩

section

variable (program : Expr) (N : Note → Prop)

/-- Whether a value is one that a program can come to: an integer, a truth value, a tune of notes that have the property `N`, or a
function with a part of the program as its body, in an environment of locations that were made. -/
def Value.Native (s : Store) : Value → Prop
  | .int _ | .bool _ => True
  | .tune t => ∀ n ∈ t, N n
  | .closure _ body env => body ∈ program.parts ∧ env.Within s
  | .nothing | .text _ => False

/-- Whether a store holds values of a program. -/
def Store.Native (s : Store) : Prop := s.All (Value.Native program N s)

/-- A program comes to values of its own. -/
def Native.discipline : Discipline where
  Sound m := m.store.Native program N
  Leads m m' := m.store.next ≤ m'.store.next
  Proper m v := v.Native program N m.store
  Ready m env e := e ∈ program.parts ∧ env.Within m.store
  Allowed _ := True

end

variable {program : Expr} {N : Note → Prop}

theorem Value.Native.later {s s' : Store} {v : Value} (hl : s.next ≤ s'.next) (h : v.Native program N s) :
    v.Native program N s' := by
  cases v with
  | closure p b env => exact ⟨h.1, h.2.later hl⟩
  | _ => exact h

/-- A store of values of the program gets one more. -/
theorem Store.Native.push {s : Store} {v : Value} (hs : s.Native program N) (hv : v.Native program N (s.push v)) :
    (s.push v).Native program N := by
  have hlater : s.All (Value.Native program N (s.push v)) :=
    fun l u hu => (hs l u hu).later (Nat.le_of_lt (s.next_lt_push v))
  exact hlater.push hv

/-- A store of values of the program gets another one at a location. -/
theorem Store.Native.set {s : Store} {l : Loc} {v : Value} (hs : s.Native program N) (hv : v.Native program N s) :
    (s.set l v).Native program N := by
  have hnext : s.next ≤ (s.set l v).next := Nat.le_of_eq (Store.next_set s l v).symm
  have hlater : s.All (Value.Native program N (s.set l v)) := fun k u hu => (hs k u hu).later hnext
  exact hlater.set (hv.later hnext)

/-! ## Operators -/

/-- The notes of a repeated tune are notes of the tune. -/
theorem Tune.mem_of_mem_times {t : Tune} {k : Nat} {n : Note} (h : n ∈ Tune.times t k) : n ∈ t := by
  unfold Tune.times at h
  split at h
  · cases h
  · obtain ⟨u, hu, hn⟩ := List.mem_flatten.mp h
    exact (List.mem_replicate.mp hu).2 ▸ hn

/-- The notes of a slice are notes of the tune. -/
theorem Tune.mem_of_mem_slice {t : Tune} {i j : Int} {n : Note} (h : n ∈ Tune.slice t i j) : n ∈ t :=
  List.mem_of_mem_take (List.mem_of_mem_drop h)

theorem Native.yields_compare (n : Nat) (m : Machine) (v w : Value) (wanted : Bool) :
    (Native.discipline program N).Yields m (Operator.compare n m.store v w wanted) := by
  unfold Operator.compare
  split
  · split <;> trivial
  · trivial

theorem BinaryOp.native_apply (hN : Note.Kept program N) (op : BinaryOp) (n : Nat) {m : Machine} {v w : Value}
    (hv : v.Native program N m.store) (hw : w.Native program N m.store) :
    (Native.discipline program N).Yields m (op.apply n m.store v w) := by
  fun_cases BinaryOp.apply n m.store op v w with
  | case2 t k => exact List.forall_mem_map.mpr (fun u hu => hN.transposed k (hv u hu))
  | case5 t k => exact List.forall_mem_map.mpr (fun u hu => hN.transposed (-k) (hv u hu))
  | case9 t k hk => exact List.forall_mem_map.mpr (fun u hu => hN.stretched (Int.not_le.mp hk) (hv u hu))
  | case14 t k hk => exact List.forall_mem_map.mpr (fun u hu => hN.shortened (Int.not_le.mp hk) (hv u hu))
  | case16 => exact Native.yields_compare n m v w true
  | case17 => exact Native.yields_compare n m v w false
  | case26 t u => exact List.forall_mem_append.mpr ⟨hv, hw⟩
  | case28 k t => exact fun u hu => hw u (Tune.mem_of_mem_times hu)
  | _ => trivial

theorem UnaryOp.native_apply (op : UnaryOp) {m : Machine} {v : Value} (hv : v.Native program N m.store) :
    (Native.discipline program N).Yields m (op.apply v) := by
  fun_cases UnaryOp.apply op v with
  | case5 t => exact fun u hu => hv u (List.mem_reverse.mp hu)
  | _ => trivial

theorem Value.native_slice {m : Machine} {t : Value} (i j : Value) (ht : t.Native program N m.store) :
    (Native.discipline program N).Yields m (t.slice i j) := by
  fun_cases Value.slice t i j with
  | case1 t i j => exact fun u hu => ht u (Tune.mem_of_mem_slice hu)
  | _ => trivial

/-! ## Exchanges -/

/-- What is read is an integer. -/
theorem EvalM.readInteger_ok {m m' : Machine} {v : Value} (h : EvalM.readInteger m = .ok v m') : ∃ n, v = .int n := by
  rw [EvalM.readInteger_eq] at h
  obtain ⟨hanswer, _⟩ := EvalM.ofExcept_eq_ok h
  unfold InputLine.integer at hanswer
  split at hanswer
  · rename_i line _
    cases hread : Numeral.read? line with
    | none =>
      rw [hread] at hanswer
      cases hanswer
    | some n =>
      rw [hread] at hanswer
      exact ⟨n, (Except.ok.inj hanswer).symm⟩
  · cases hanswer
  · cases hanswer

/-- A file that is written gives the truth value `true`. -/
theorem EvalM.write_ok {m m' : Machine} {path : String} {u v : Value} (h : EvalM.write u path m = .ok v m') : v = .bool true := by
  cases u with
  | tune t =>
    rw [EvalM.write_eq] at h
    obtain ⟨houtcome, _⟩ := EvalM.ofExcept_eq_ok h
    unfold RecordFailure.outcome at houtcome
    split at houtcome
    · exact (Except.ok.inj houtcome).symm
    · cases houtcome
  | _ => cases h

/-- A file that is played gives the truth value `true`. -/
theorem EvalM.run_ok {m m' : Machine} {path : String} {v : Value} (h : EvalM.run path m = .ok v m') : v = .bool true := by
  rw [EvalM.run_eq] at h
  obtain ⟨houtcome, _⟩ := EvalM.ofExcept_eq_ok h
  unfold PlayFailure.outcome at houtcome
  split at houtcome
  · exact (Except.ok.inj houtcome).symm
  · cases houtcome

/-- A step outside the store keeps the values of the program. -/
theorem Native.outward {α : Type} {x : EvalM α} {P : α → Prop} {Q : Machine → α → Prop} {m : Machine} (hx : EvalM.Outward x P)
    (hs : m.store.Native program N) (hok : ∀ a m', x m = .ok a m' → Q m' a) :
    (Native.discipline program N).Ends m Q (x m) := by
  have hstore := hx.store_left m
  have hleads : m.store.next ≤ (EvalM.left (x m)).store.next := Nat.le_of_eq (congrArg Store.next hstore.symm)
  have hsound : (EvalM.left (x m)).store.Native program N := by
    rw [hstore]
    exact hs
  cases hxm : x m with
  | ok a m' =>
    rw [hxm] at hleads hsound
    exact ⟨hleads, hsound, hok a m' hxm⟩
  | error f m' =>
    rw [hxm] at hleads hsound
    exact ⟨hleads, hsound, trivial⟩

/-! ## The discipline -/

/-- Every construct of a legible program keeps the values to those of the program. -/
theorem Native.lawful (hprogram : program.Legible) (hN : Note.Kept program N) : (Native.discipline program N).Lawful where
  refl := Nat.le_refl _
  trans := Nat.le_trans
  proper_later hl hv := hv.later hl
  ready_later hl hr := ⟨hr.1, hr.2.later hl⟩
  operand hr ha := ⟨Expr.mem_parts_trans hr.1 (Expr.operand_mem_parts ha), hr.2⟩
  endless := trivial
  lit {_ _ v} hr := by
    have hv := hprogram _ hr.1
    cases v with
    | int | bool => trivial
    | _ => exact hv.elim
  note hr := List.forall_mem_singleton.mpr (hN.written _ _ hr.1)
  binary n _ _ hv hw := BinaryOp.native_apply hN _ n hv hw
  logic _ := ⟨trivial, trivial⟩
  unary _ hv := UnaryOp.native_apply _ hv
  slice _ ht _ _ := Value.native_slice _ _ ht
  cond _ := trivial
  name {_ _ _ l} hs hr hx := hs l _ (Store.get?_of_lt_next (hr.2 l (Env.mem_locs_of_find? hx)))
  unbound _ _ := trivial
  letIn {m _ _ _ _ v} hs hr hv := by
    have hlater := Nat.le_of_lt (m.store.next_lt_push v)
    exact ⟨hlater, hs.push (hv.later hlater), Expr.mem_parts_trans hr.1 (Expr.letIn_body_mem_parts _ _ _), hr.2.push _ _⟩
  letFun {m env f p b i} hs hr := by
    have hbody := Expr.mem_parts_trans hr.1 (Expr.letFun_body_mem_parts f p b i)
    have hscope := Expr.mem_parts_trans hr.1 (Expr.letFun_scope_mem_parts f p b i)
    exact ⟨Nat.le_of_lt (m.store.next_lt_push _), hs.push ⟨hbody, hr.2.push _ _⟩, hscope, hr.2.push _ _⟩
  app {m _ _ _ v} hs hc hv := by
    have hlater := Nat.le_of_lt (m.store.next_lt_push v)
    exact ⟨hlater, hs.push (hv.later hlater), hc.1, hc.2.push _ _⟩
  notFunction _ := trivial
  assign {_ m' _ _ _ l v} _ _ _ _ hl hs hv := by
    have hnext := Nat.le_of_eq (Store.next_set m'.store l v).symm
    exact ⟨Nat.le_trans hl hnext, hs.set hv, hv.later hnext⟩
  notAssigned _ := ⟨trivial, fun _ => trivial⟩
  display hs _ _ := Native.outward (EvalM.outward_display _) hs (fun _ _ _ => trivial)
  read hs _ := Native.outward EvalM.outward_readInteger hs (fun _ _ hv => by
    obtain ⟨n, rfl⟩ := EvalM.readInteger_ok hv
    trivial)
  write hs _ _ := Native.outward (EvalM.outward_write _ _) hs (fun _ _ hv => by
    rw [EvalM.write_ok hv]
    trivial)
  run hs _ := Native.outward (EvalM.outward_run _) hs (fun _ _ hv => by
    rw [EvalM.run_ok hv]
    trivial)
  stray _ := ⟨trivial, fun _ => trivial⟩

/-- A program is ready to be evaluated from an empty store. -/
theorem Native.ready (program : Expr) (N : Note → Prop) (w : World) :
    (Native.discipline program N).Sound ⟨.empty, w⟩ ∧ (Native.discipline program N).Ready ⟨.empty, w⟩ [] program :=
  ⟨Store.all_empty _, program.self_mem_parts, fun _ hl => nomatch hl⟩

end TuneLang
