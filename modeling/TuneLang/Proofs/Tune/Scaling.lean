import TuneLang.Proofs.Midi.Playable
import TuneLang.Proofs.Tune.Transposition

/-!
# Scaling of durations

Multiplication and division of a tune by a positive number change its durations one by one (`Tune.timed`). To multiply twice is to
multiply by the product. A quotient is rounded down and becomes one where it is zero, and still to divide twice is to divide by the
product: a duration that the first division takes to zero is one from there on, and the product takes it to zero at once
(`Note.shortened_shortened`). A division undoes the multiplication before it exactly on tunes without a duration of zero, and it makes no
positive duration longer (`Expr.scaling_laws`).
-/

namespace TuneLang

/-! ## Durations -/

namespace Note

theorem shortened_of_eq_zero {d k : Int} (h : d.fdiv k = 0) : shortened d k = 1 := if_pos h

theorem shortened_of_ne_zero {d k : Int} (h : d.fdiv k ≠ 0) : shortened d k = d.fdiv k := if_neg h

/-- A positive duration does not get longer. -/
theorem shortened_le {d : Int} (hd : 0 < d) (k : Int) : shortened d k ≤ d := by
  by_cases hzero : d.fdiv k = 0
  · rw [shortened_of_eq_zero hzero]
    exact hd
  · rw [shortened_of_ne_zero hzero]
    exact Int.fdiv_le_self k (Int.le_of_lt hd)

/-- A duration of one stays as it is. -/
theorem shortened_one {k : Int} (hk : 0 < k) : shortened 1 k = 1 :=
  Int.le_antisymm (shortened_le Int.one_pos k) (one_le_shortened hk (Int.le_refl 1))

/-- The floor of a quotient divided further is the floor of the quotient by the product. -/
theorem fdiv_fdiv (d : Int) {a b : Int} (ha : 0 < a) (hb : 0 < b) : (d.fdiv a).fdiv b = d.fdiv (a * b) := by
  have hab : 0 < a * b := Int.mul_pos ha hb
  rw [Int.fdiv_eq_ediv_of_nonneg d (Int.le_of_lt ha), Int.fdiv_eq_ediv_of_nonneg _ (Int.le_of_lt hb),
    Int.fdiv_eq_ediv_of_nonneg d (Int.le_of_lt hab), Int.ediv_ediv_of_nonneg (Int.le_of_lt ha)]

/-- To divide twice is to divide by the product. -/
theorem shortened_shortened (d : Int) {a b : Int} (ha : 0 < a) (hb : 0 < b) : shortened (shortened d a) b = shortened d (a * b) := by
  have hproduct := fdiv_fdiv d ha hb
  by_cases hfirst : d.fdiv a = 0
  · -- The first quotient is raised to one and stays there; the quotient by the product is zero as well.
    rw [hfirst, Int.zero_fdiv] at hproduct
    rw [shortened_of_eq_zero hfirst, shortened_one hb, shortened_of_eq_zero hproduct.symm]
  · -- Nothing is raised but the last quotient, which is the same on both sides.
    rw [shortened_of_ne_zero hfirst, shortened, shortened, hproduct]

/-- A division undoes the multiplication of a duration exactly when the duration is not zero. -/
theorem shortened_mul_iff (d : Int) {a : Int} (ha : 0 < a) : shortened (d * a) a = d ↔ d ≠ 0 := by
  have hquotient : (d * a).fdiv a = d := Int.mul_fdiv_cancel d (Int.ne_of_gt ha)
  by_cases hzero : d = 0
  · rw [shortened_of_eq_zero (hquotient.trans hzero)]
    omega
  · rw [shortened_of_ne_zero (by rwa [hquotient]), hquotient]
    exact ⟨fun _ => hzero, fun _ => rfl⟩

end Note

/-! ## Tunes -/

namespace Tune

theorem timed_timed (f g : Int → Int) (t : Tune) : (t.timed f).timed g = t.timed (fun d => g (f d)) := by
  simp only [timed, List.map_map, Function.comp_def]

/-- A tune stays as it is when each of its durations does. -/
theorem timed_eq_self_iff (f : Int → Int) (t : Tune) : t.timed f = t ↔ ∀ n ∈ t, f n.duration = n.duration := by
  rw [timed, map_eq_self_iff]
  refine forall_congr' fun n => imp_congr_right fun _ => ?_
  exact ⟨congrArg Note.duration, fun h => Note.eq_of_parts rfl h⟩

theorem stretch_stretch (t : Tune) (a b : Int) : (t.stretch a).stretch b = t.stretch (a * b) := by
  simp only [stretch, List.map_map, Function.comp_def, Int.mul_assoc]

theorem shrink_shrink (t : Tune) {a b : Int} (ha : 0 < a) (hb : 0 < b) : (t.shrink a).shrink b = t.shrink (a * b) := by
  simp only [shrink, List.map_map, Function.comp_def, Note.shortened_shortened _ ha hb]

/-- A division undoes the multiplication before it exactly on tunes without a duration of zero. -/
theorem shrink_stretch_iff (t : Tune) {a : Int} (ha : 0 < a) : (t.stretch a).shrink a = t ↔ ∀ n ∈ t, n.duration ≠ 0 := by
  have htimed : (t.stretch a).shrink a = t.timed (fun d => Note.shortened (d * a) a) := timed_timed (· * a) (Note.shortened · a) t
  rw [htimed, timed_eq_self_iff]
  exact forall_congr' fun n => imp_congr_right fun _ => Note.shortened_mul_iff n.duration ha

end Tune

/-! ## The laws -/

/-- Neither multiplication nor division takes a tune and a number that is not positive. -/
theorem BinaryOp.apply_scaling {op : BinaryOp} (h : op ∈ [BinaryOp.mul, .div]) (t : Tune) {v : Int} (hv : v ≤ 0) (n : Nat) (s : Store) :
    op.apply n s (.tune t) (.int v) = .error (.misuse .scaling) := by
  simp only [List.mem_cons, List.not_mem_nil, or_false] at h
  rcases h with rfl | rfl
  · exact if_pos hv
  · exact if_pos hv

/-- Laws of the scaling of durations, for all tunes. Factors multiply and divisors multiply, in spite of the rounding. The way up and down
again leads back exactly when no duration is zero. A division leaves positive durations positive and makes none of them longer. A number
that is not positive is refused, whatever the tune. -/
theorem Expr.scaling_laws (t : Tune) :
    (∀ a b : Int, 0 < a → 0 < b →
      Expr.Agree 3 (.binary .mul (.binary .mul (.tune t) (.int a)) (.int b)) (.binary .mul (.tune t) (.int (a * b))) ∧
      Expr.Agree 3 (.binary .div (.binary .div (.tune t) (.int a)) (.int b)) (.binary .div (.tune t) (.int (a * b)))) ∧
    (∀ a : Int, 0 < a → ∃ back : Tune, (Expr.binary .div (.binary .mul (.tune t) (.int a)) (.int a)).Yields 3 (.tune back) ∧
      (back = t ↔ ∀ n ∈ t, n.duration ≠ 0)) ∧
    (∀ a : Int, 0 < a → (∀ n ∈ t, 0 < n.duration) →
      ∃ divided : Tune, (Expr.binary .div (.tune t) (.int a)).Yields 2 (.tune divided) ∧ divided.length = t.length ∧
        ∀ (i : Nat) (n n' : Note), t[i]? = some n → divided[i]? = some n' →
          n'.pitch = n.pitch ∧ 0 < n'.duration ∧ n'.duration ≤ n.duration) ∧
    ∀ v : Int, v ≤ 0 → ∀ op ∈ [BinaryOp.mul, .div], (Expr.binary op (.tune t) (.int v)).Refused 2 (.misuse .scaling) := by
  have ht (d : Nat) : (Expr.tune t).Yields (d + 1) (.tune t) := Expr.yields_lit d _
  refine ⟨fun a b ha hb => ⟨⟨_, ((ht 0).multiplied ha).multiplied hb, ?_⟩, ⟨_, ((ht 0).divided ha).divided hb, ?_⟩⟩,
    fun a ha => ⟨_, ((ht 0).multiplied ha).divided ha, t.shrink_stretch_iff ha⟩,
    fun a ha hpositive => ⟨_, (ht 0).divided ha, List.length_map .., ?_⟩, fun v hv op hop => ?_⟩
  · rw [Tune.stretch_stretch]
    exact (ht 1).multiplied (Int.mul_pos ha hb)
  · rw [Tune.shrink_shrink t ha hb]
    exact (ht 1).divided (Int.mul_pos ha hb)
  · intro i n n' hn hn'
    rw [Tune.shrink, List.getElem?_map, hn] at hn'
    cases hn'
    have hlasts : 0 < n.duration := hpositive n (List.mem_of_getElem? hn)
    exact ⟨rfl, Note.one_le_shortened ha hlasts, Note.shortened_le hlasts a⟩
  · exact (ht 0).refused (Expr.yields_lit 0 _) (BinaryOp.apply_scaling hop t hv)

/-- The laws on the motif: each of its notes comes to one by a division by six, at once or in two steps. -/
theorem Expr.scaling_laws_motif :
    (0 < (2 : Int) ∧ 0 < (3 : Int) ∧
      Expr.Agree 3 (.binary .div (.binary .div (.tune Tune.motif) (.int 2)) (.int 3)) (.binary .div (.tune Tune.motif) (.int (2 * 3)))) ∧
    ((∀ n ∈ Tune.motif, n.duration ≠ 0) ∧
      (Expr.binary .div (.binary .mul (.tune Tune.motif) (.int 2)) (.int 2)).Yields 3 (.tune Tune.motif)) ∧
    ((∀ n ∈ Tune.motif, 0 < n.duration) ∧
      ∃ divided : Tune, (Expr.binary .div (.tune Tune.motif) (.int 2)).Yields 2 (.tune divided) ∧ divided.length = 3) ∧
    ((-1 : Int) ≤ 0 ∧ (Expr.binary .div (.tune Tune.motif) (.int (-1))).Refused 2 (.misuse .scaling)) := by
  obtain ⟨htwice, hback, hpositive, hrefused⟩ := Expr.scaling_laws Tune.motif
  have hdurations : ∀ n ∈ Tune.motif, 0 < n.duration := by decide
  have hlasting : ∀ n ∈ Tune.motif, n.duration ≠ 0 := by decide
  obtain ⟨back, hyields, hsame⟩ := hback 2 (by decide)
  obtain ⟨divided, hdivided, hlength, _⟩ := hpositive 2 (by decide) hdurations
  exact ⟨⟨by decide, by decide, (htwice 2 3 (by decide) (by decide)).2⟩, ⟨hlasting, hsame.mpr hlasting ▸ hyields⟩,
    ⟨hdurations, divided, hdivided, hlength⟩, by decide, hrefused (-1) (by decide) .div (by decide)⟩

end TuneLang
