import TuneLang.Proofs.Tune.Structure

/-!
# Transposition

The integers act on the pitches of the scale by half steps: to go up by one number and then by another is to go up by their sum, and
twelve half steps lead back. The rest stays where it is. Any other pitch becomes the rest and is lost, so that a transposition can be
undone exactly on tunes without such pitches (`Tune.transpose_zero_iff`).

Transposition looks at one pitch at a time and leaves durations alone. So it goes past all other operators on tunes: those that move
notes about commute with whatever is done to each note by itself, and those that scale durations leave pitches alone
(`Expr.transposition_laws`).
-/

namespace TuneLang

/-! ## Pitches -/

namespace Pitch

/-- Whether a pitch is not lost when it is transposed: it is in the scale, or the rest. -/
def Kept (p : Pitch) : Prop := p ∈ Pitch.scale ∨ p = Pitch.rest

theorem ofIndex_of_emod_eq {j k : Int} (h : j % 12 = k % 12) : ofIndex j = ofIndex k := by rw [ofIndex, ofIndex, h]

/-- The pitch at a place of the scale is found there. -/
theorem index?_ofIndex (k : Int) : (ofIndex k).index? = some (k % 12).toNat := by
  have hall : ∀ r : Fin 12, index? (Pitch.scale.getD r Pitch.rest) = some r.val := by decide
  exact hall ⟨(k % 12).toNat, by omega⟩

/-- A pitch of the scale is the one at its place. -/
theorem ofIndex_of_index? {p : Pitch} {k : Nat} (h : p.index? = some k) : ofIndex k = p := by
  obtain ⟨hk, hp, _⟩ := List.findIdx?_eq_some_iff_getElem.mp h
  have hscale : Pitch.scale.length = 12 := rfl
  have hplace : ((k : Int) % 12).toNat = k := by omega
  rw [ofIndex, hplace, List.getD_eq_getElem?_getD, List.getElem?_eq_getElem hk, Option.getD_some]
  exact eq_of_beq hp

theorem index?_rest : Pitch.rest.index? = none := by decide

/-- The pitches of the scale are those that have a place in it. -/
theorem index?_eq_none {p : Pitch} : p.index? = none ↔ p ∉ Pitch.scale := List.idxOf?_eq_none_iff

theorem transpose_of_index? {p : Pitch} {k : Nat} (h : p.index? = some k) (a : Int) : p.transpose a = ofIndex (k + a) := by
  rw [transpose, h]

theorem transpose_of_not_mem {p : Pitch} (h : p ∉ Pitch.scale) (a : Int) : p.transpose a = Pitch.rest := by
  rw [transpose, index?_eq_none.mpr h]

theorem transpose_rest (a : Int) : Pitch.rest.transpose a = Pitch.rest := transpose_of_not_mem (index?_eq_none.mp index?_rest) a

/-- To transpose twice is to transpose by the sum. -/
theorem transpose_transpose (p : Pitch) (a b : Int) : (p.transpose a).transpose b = p.transpose (a + b) := by
  cases hk : p.index? with
  | none =>
    have hp := index?_eq_none.mp hk
    rw [transpose_of_not_mem hp, transpose_of_not_mem hp, transpose_rest]
  | some k =>
    rw [transpose_of_index? hk, transpose_of_index? hk, transpose_of_index? (index?_ofIndex _)]
    exact ofIndex_of_emod_eq (by omega)

/-- A pitch that is not lost comes back after any number of octaves. -/
theorem transpose_octaves {p : Pitch} (h : p.Kept) (a : Int) : p.transpose (12 * a) = p := by
  rcases h with hp | rfl
  · obtain ⟨k, hk⟩ := Option.ne_none_iff_exists'.mp (mt index?_eq_none.mp (not_not_intro hp))
    rw [transpose_of_index? hk, ofIndex_of_emod_eq (k := k) (by omega), ofIndex_of_index? hk]
  · exact transpose_rest _

/-- The pitches that stay where they are when they are transposed by nothing are those that are not lost. -/
theorem transpose_zero_iff {p : Pitch} : p.transpose 0 = p ↔ p.Kept := by
  constructor
  · intro h
    by_cases hp : p ∈ Pitch.scale
    · exact .inl hp
    · rw [transpose_of_not_mem hp] at h
      exact .inr h.symm
  · exact fun h => transpose_octaves h 0

end Pitch

/-! ## Tunes -/

namespace Tune

/-- Every duration changed in some way, and no pitch. -/
def timed (f : Int → Int) (t : Tune) : Tune := t.map (fun n => ⟨n.pitch, f n.duration⟩)

theorem transpose_transpose (t : Tune) (a b : Int) : (t.transpose a).transpose b = t.transpose (a + b) := by
  simp only [transpose, List.map_map, Function.comp_def, Pitch.transpose_transpose]

/-- Transposition leaves the durations as they are. -/
theorem durations_transpose (t : Tune) (a : Int) : (t.transpose a).map Note.duration = t.map Note.duration := by
  simp only [transpose, List.map_map, Function.comp_def]

/-- A tune whose notes are changed one by one stays as it is when each of its notes does. -/
theorem map_eq_self_iff (f : Note → Note) (t : Tune) : t.map f = t ↔ ∀ n ∈ t, f n = n := by
  have hself : t.map f = t ↔ t.map f = t.map id := by rw [List.map_id]
  rw [hself, List.map_inj_left]
  rfl

/-- A tune stays as it is when each of its pitches does. -/
theorem transpose_eq_self_iff (t : Tune) (a : Int) : t.transpose a = t ↔ ∀ n ∈ t, n.pitch.transpose a = n.pitch := by
  rw [transpose, map_eq_self_iff]
  refine forall_congr' fun n => imp_congr_right fun _ => ?_
  exact ⟨congrArg Note.pitch, fun h => Note.eq_of_parts h rfl⟩

/-- A tune without pitches that are lost comes back after any number of octaves. -/
theorem transpose_octaves {t : Tune} (h : ∀ n ∈ t, n.pitch.Kept) (a : Int) : t.transpose (12 * a) = t :=
  (transpose_eq_self_iff t _).mpr fun n hn => Pitch.transpose_octaves (h n hn) a

/-- Transposition can be undone exactly on tunes without pitches that are lost. -/
theorem transpose_zero_iff (t : Tune) : t.transpose 0 = t ↔ ∀ n ∈ t, n.pitch.Kept := by
  rw [transpose_eq_self_iff]
  exact forall_congr' fun n => imp_congr_right fun _ => Pitch.transpose_zero_iff

/-! ### Past the other operators -/

/-- A slice of a tune whose notes were changed one by one. -/
theorem slice_map (f : Note → Note) (t : Tune) (i j : Int) : Tune.slice (t.map f) i j = (t.slice i j).map f := by
  rw [slice, slice, List.length_map, List.map_drop, List.map_take]

/-- A repetition of a tune whose notes were changed one by one. -/
theorem times_map (f : Note → Note) (t : Tune) (n : Nat) : Tune.times (t.map f) n = (t.times n).map f := by
  simp only [times_eq, List.map_flatten, List.map_replicate]

theorem timed_transpose (f : Int → Int) (t : Tune) (a : Int) : (t.transpose a).timed f = (t.timed f).transpose a := by
  simp only [transpose, timed, List.map_map, Function.comp_def]

end Tune

/-! ## The laws -/

/-- Addition and subtraction both transpose a tune by some number of half steps. -/
theorem BinaryOp.exists_shift {op : BinaryOp} (h : op ∈ [BinaryOp.add, .sub]) (a : Int) :
    ∃ steps : Int, ∀ {d : Nat} {e : Expr} {t : Tune}, e.Yields (d + 1) (.tune t) →
      (Expr.binary op e (.int a)).Yields (d + 2) (.tune (t.transpose steps)) := by
  simp only [List.mem_cons, List.not_mem_nil, or_false] at h
  rcases h with rfl | rfl
  · exact ⟨a, fun he => he.added a⟩
  · exact ⟨-a, fun he => he.subtracted a⟩

/-- Multiplication and division by a positive number both change the durations of a tune alone. -/
theorem BinaryOp.exists_timing {op : BinaryOp} (h : op ∈ [BinaryOp.mul, .div]) {v : Int} (hv : 0 < v) :
    ∃ f : Int → Int, ∀ {d : Nat} {e : Expr} {t : Tune}, e.Yields (d + 1) (.tune t) →
      (Expr.binary op e (.int v)).Yields (d + 2) (.tune (t.timed f)) := by
  simp only [List.mem_cons, List.not_mem_nil, or_false] at h
  rcases h with rfl | rfl
  · exact ⟨(· * v), fun he => he.multiplied hv⟩
  · exact ⟨(Note.shortened · v), fun he => he.divided hv⟩

/-- Laws of transposition, for all tunes and all integers. The integers act on tunes, down is the opposite of up, and the way up and down
again leads back exactly when no pitch is lost, as octaves do then. Either direction leaves the durations as they are, and goes past
joins, reversals, slices, repetitions and the scaling of durations. -/
theorem Expr.transposition_laws (t u : Tune) (a b : Int) :
    Expr.Agree 3 (.binary .add (.binary .add (.tune t) (.int a)) (.int b)) (.binary .add (.tune t) (.int (a + b))) ∧
    Expr.Agree 2 (.binary .sub (.tune t) (.int a)) (.binary .add (.tune t) (.int (-a))) ∧
    (∃ back : Tune, (Expr.binary .sub (.binary .add (.tune t) (.int a)) (.int a)).Yields 3 (.tune back) ∧
      (back = t ↔ ∀ n ∈ t, n.pitch ∈ Pitch.scale ∨ n.pitch = Pitch.rest)) ∧
    ((∀ n ∈ t, n.pitch ∈ Pitch.scale ∨ n.pitch = Pitch.rest) →
      (Expr.binary .add (.tune t) (.int (12 * a))).Yields 2 (.tune t)) ∧
    ∀ op ∈ [BinaryOp.add, .sub],
      (∃ moved : Tune, (Expr.binary op (.tune t) (.int a)).Yields 2 (.tune moved) ∧ moved.length = t.length ∧
        moved.map Note.duration = t.map Note.duration) ∧
      Expr.Agree 3 (.binary op (.binary .join (.tune t) (.tune u)) (.int a))
        (.binary .join (.binary op (.tune t) (.int a)) (.binary op (.tune u) (.int a))) ∧
      Expr.Agree 3 (.binary op (.unary .reverse (.tune t)) (.int a)) (.unary .reverse (.binary op (.tune t) (.int a))) ∧
      (∀ i j : Int, Expr.Agree 3 (.binary op (.slice (.tune t) (.int i) (.int j)) (.int a))
        (.slice (.binary op (.tune t) (.int a)) (.int i) (.int j))) ∧
      (∀ k : Int, -9223372036854775808 ≤ k → k ≤ 9223372036854775807 →
        Expr.Agree 3 (.binary op (.binary .times (.int k) (.tune t)) (.int a))
          (.binary .times (.int k) (.binary op (.tune t) (.int a)))) ∧
      ∀ v : Int, 0 < v → ∀ scaling ∈ [BinaryOp.mul, .div],
        Expr.Agree 3 (.binary op (.binary scaling (.tune t) (.int v)) (.int a))
          (.binary scaling (.binary op (.tune t) (.int a)) (.int v)) := by
  have ht (d : Nat) : (Expr.tune t).Yields (d + 1) (.tune t) := Expr.yields_lit d _
  have hu (d : Nat) : (Expr.tune u).Yields (d + 1) (.tune u) := Expr.yields_lit d _
  refine ⟨⟨_, ((ht 0).added a).added b, ?_⟩, ⟨_, (ht 0).subtracted a, (ht 0).added (-a)⟩, ⟨_, ((ht 0).added a).subtracted a, ?_⟩,
    fun hkept => ?_, fun op hop => ?_⟩
  · rw [Tune.transpose_transpose]
    exact (ht 1).added (a + b)
  · rw [Tune.transpose_transpose, Int.add_right_neg]
    exact Tune.transpose_zero_iff t
  · have hoctaves := (ht 0).added (12 * a)
    rw [Tune.transpose_octaves hkept] at hoctaves
    exact hoctaves
  · obtain ⟨steps, hshift⟩ := op.exists_shift hop a
    have hmoved := hshift (ht 0)
    refine ⟨⟨_, hmoved, List.length_map .., t.durations_transpose steps⟩, ⟨_, hshift ((ht 0).joined (hu 0)), ?_⟩,
      ⟨_, hshift (ht 0).reversed, ?_⟩, fun i j => ⟨_, hshift ((ht 0).sliced i j), ?_⟩, fun k hlow hhigh => ?_,
      fun v hv scaling hscaling => ?_⟩
    · rw [Tune.transpose, List.map_append]
      exact hmoved.joined (hshift (hu 0))
    · rw [Tune.transpose, List.map_reverse]
      exact hmoved.reversed
    · rw [Tune.transpose, ← Tune.slice_map]
      exact hmoved.sliced i j
    · have hcount := Operator.isCount_of_le hlow hhigh
      refine ⟨_, hshift ((ht 0).repeated hcount), ?_⟩
      rw [Tune.transpose, ← Tune.times_map]
      exact hmoved.repeated hcount
    · obtain ⟨f, htiming⟩ := scaling.exists_timing hscaling hv
      refine ⟨_, hshift (htiming (ht 0)), ?_⟩
      rw [← Tune.timed_transpose]
      exact htiming hmoved

/-- The laws that ask something of their tune or their numbers, on the motif. -/
theorem Expr.transposition_laws_motif :
    ((∀ n ∈ Tune.motif, n.pitch ∈ Pitch.scale ∨ n.pitch = Pitch.rest) ∧
      (Expr.binary .add (.tune Tune.motif) (.int (12 * -3))).Yields 2 (.tune Tune.motif)) ∧
    (-9223372036854775808 ≤ (-1 : Int) ∧ (-1 : Int) ≤ 9223372036854775807 ∧
      Expr.Agree 3 (.binary .sub (.binary .times (.int (-1)) (.tune Tune.motif)) (.int (-3)))
        (.binary .times (.int (-1)) (.binary .sub (.tune Tune.motif) (.int (-3))))) ∧
    (0 < (2 : Int) ∧
      Expr.Agree 3 (.binary .sub (.binary .div (.tune Tune.motif) (.int 2)) (.int (-3)))
        (.binary .div (.binary .sub (.tune Tune.motif) (.int (-3))) (.int 2))) := by
  obtain ⟨_, _, _, hoctaves, hmoves⟩ := Expr.transposition_laws Tune.motif [] (-3) 0
  obtain ⟨_, _, _, _, htimes, hscaling⟩ := hmoves .sub (by decide)
  have hkept : ∀ n ∈ Tune.motif, n.pitch ∈ Pitch.scale ∨ n.pitch = Pitch.rest := by decide
  exact ⟨⟨hkept, hoctaves hkept⟩, ⟨by decide, by decide, htimes (-1) (by decide) (by decide)⟩,
    by decide, hscaling 2 (by decide) .div (by decide)⟩

end TuneLang
