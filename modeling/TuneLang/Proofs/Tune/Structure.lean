import TuneLang.Proofs.Tune.Formula

/-!
# Slices, repetitions and reversals

Laws of the operators that move notes about and leave each note as it is. A slice is told by the positions of its notes
(`Tune.between`), with bounds that count from the end when they are negative and go no further than the two ends (`Tune.limit`);
repetition is told by the sum and the product of counts, and reversal by what it makes of all the others (`Expr.structural_laws`).
-/

namespace TuneLang

namespace Tune

/-! ## Slices -/

/-- The position that a bound stands for in a tune of `n` notes: `n` is added to a negative bound, and then it is moved to the nearer
end if it lies outside of the tune. -/
def limit (n : Nat) (i : Int) : Int :=
  let k := if i < 0 then i + n else i
  if k < 0 then 0 else if n < k then n else k

/-- The notes of a tune, in order, whose positions are at least `lo` and less than `hi`. -/
def between (t : Tune) (lo hi : Int) : Tune := (t.zipIdx.filter (fun p => decide (lo ≤ p.2 ∧ p.2 < hi))).map Prod.fst

theorem position_eq_limit (n : Nat) (i : Int) : (position n i : Int) = limit n i := by
  unfold position limit
  dsimp only
  split <;> split <;> omega

/-- The notes between two positions, where the positions are counted from `k`. -/
theorem between_from (t : Tune) (k : Nat) (lo hi : Int) :
    ((t.zipIdx k).filter (fun p => decide (lo ≤ p.2 ∧ p.2 < hi))).map Prod.fst = (t.take (hi - k).toNat).drop (lo - k).toNat := by
  induction t generalizing k with
  | nil => simp
  | cons n t ih =>
    have hrest := ih (k + 1)
    rw [List.zipIdx_cons]
    by_cases hhi : (k : Int) < hi
    · have htake : (hi - k).toNat = (hi - (k + 1 : Nat)).toNat + 1 := by omega
      rw [htake, List.take_succ_cons]
      by_cases hlo : lo ≤ k
      · have hdrop : (lo - k).toNat = 0 := by omega
        have hdrop' : (lo - (k + 1 : Nat)).toNat = 0 := by omega
        rw [hdrop', List.drop_zero] at hrest
        rw [hdrop, List.drop_zero, List.filter_cons_of_pos (by simp [hlo, hhi]), List.map_cons, hrest]
      · have hdrop : (lo - k).toNat = (lo - (k + 1 : Nat)).toNat + 1 := by omega
        rw [hdrop, List.drop_succ_cons, List.filter_cons_of_neg (by simp [hlo]), hrest]
    · have htake : (hi - k).toNat = 0 := by omega
      have htake' : (hi - (k + 1 : Nat)).toNat = 0 := by omega
      rw [htake', List.take_zero, List.drop_nil] at hrest
      rw [htake, List.take_zero, List.drop_nil, List.filter_cons_of_neg (by simp [hhi]), hrest]

/-- A slice has the notes whose positions lie between its bounds. -/
theorem slice_eq_between (t : Tune) (i j : Int) : t.slice i j = t.between (limit t.length i) (limit t.length j) := by
  rw [between, between_from, ← position_eq_limit, ← position_eq_limit, slice]
  simp

theorem position_of_le {n : Nat} {i : Int} (hi : 0 ≤ i) (hn : i ≤ n) : position n i = i.toNat := by
  unfold position
  split
  · omega
  · split <;> omega

/-- A slice up to a bound and the slice from there on make up the tune. -/
theorem slice_append_slice (t : Tune) (i : Int) : t.slice 0 i ++ t.slice i t.length = t := by
  have hstart : position t.length 0 = 0 := position_of_le (Int.le_refl 0) (Int.natCast_nonneg _)
  have hstop : position t.length t.length = t.length := position_of_le (Int.natCast_nonneg _) (Int.le_refl _)
  rw [slice, slice, hstart, hstop, List.drop_zero, List.take_length, List.take_append_drop]

/-- A slice read backwards is the slice between the same notes of the tune read backwards. -/
theorem reverse_slice (t : Tune) {a b : Int} (ha : 0 ≤ a) (hab : a ≤ b) (hb : b ≤ t.length) :
    (t.slice a b).reverse = Tune.slice t.reverse (t.length - b) (t.length - a) := by
  have hleft : (t.length - b).toNat = t.length - b.toNat := by omega
  have hright : (t.length - a).toNat = t.length - a.toNat := by omega
  rw [slice, slice, List.length_reverse, position_of_le ha (by omega), position_of_le (by omega) hb,
    position_of_le (by omega) (by omega), position_of_le (by omega) (by omega), hleft, hright, List.reverse_drop, List.reverse_take,
    List.drop_take, List.length_take]
  congr 1
  omega

/-! ## Repetitions -/

theorem times_eq (t : Tune) (n : Nat) : t.times n = (List.replicate n t).flatten := by
  unfold times
  cases t <;> simp

theorem times_add (t : Tune) (a b : Nat) : t.times (a + b) = t.times a ++ t.times b := by
  simp only [times_eq, ← List.flatten_append, List.replicate_append_replicate]

theorem times_times (t : Tune) (a b : Nat) : (t.times b).times a = t.times (a * b) := by
  induction a with
  | zero => simp [times_eq]
  | succ a ih =>
    rw [times_add, ih, Nat.succ_mul, times_add]
    simp [times_eq]

theorem reverse_times (t : Tune) (n : Nat) : (t.times n).reverse = Tune.times t.reverse n := by
  simp only [times_eq, List.reverse_flatten, List.map_replicate, List.reverse_replicate]

end Tune

/-! ## The laws -/

/-- The signed integers of 64 bits can count repetitions. -/
theorem Operator.isCount_of_le {k : Int} (hlow : -9223372036854775808 ≤ k) (hhigh : k ≤ 9223372036854775807) :
    Operator.isCount k = true := by
  rw [Operator.isCount, decide_eq_true hlow, decide_eq_true hhigh]
  rfl

/-- Laws of slices, joins, reversals and repetitions, for all tunes and all integers. -/
theorem Expr.structural_laws (t u : Tune) :
    (∀ i : Int, (Expr.binary .join (.slice (.tune t) (.int 0) (.int i)) (.slice (.tune t) (.int i) (.int t.length))).Yields 3
      (.tune t)) ∧
    (∀ i j : Int, (Expr.slice (.tune t) (.int i) (.int j)).Yields 2
      (.tune (t.between (Tune.limit t.length i) (Tune.limit t.length j)))) ∧
    (Expr.unary .reverse (.unary .reverse (.tune t))).Yields 3 (.tune t) ∧
    Expr.Agree 3 (.unary .reverse (.binary .join (.tune t) (.tune u)))
      (.binary .join (.unary .reverse (.tune u)) (.unary .reverse (.tune t))) ∧
    (∀ a b : Int, 0 ≤ a → a ≤ b → b ≤ t.length →
      Expr.Agree 3 (.unary .reverse (.slice (.tune t) (.int a) (.int b)))
        (.slice (.unary .reverse (.tune t)) (.int (t.length - b)) (.int (t.length - a)))) ∧
    ∀ a b : Int, 0 ≤ a → 0 ≤ b → a + b < 9223372036854775808 → a * b < 9223372036854775808 →
      Expr.Agree 3 (.binary .times (.int (a + b)) (.tune t))
        (.binary .join (.binary .times (.int a) (.tune t)) (.binary .times (.int b) (.tune t))) ∧
      Expr.Agree 3 (.binary .times (.int a) (.binary .times (.int b) (.tune t))) (.binary .times (.int (a * b)) (.tune t)) ∧
      Expr.Agree 3 (.unary .reverse (.binary .times (.int a) (.tune t))) (.binary .times (.int a) (.unary .reverse (.tune t))) := by
  have ht (d : Nat) : (Expr.tune t).Yields (d + 1) (.tune t) := Expr.yields_lit d _
  have hu (d : Nat) : (Expr.tune u).Yields (d + 1) (.tune u) := Expr.yields_lit d _
  refine ⟨fun i => ?_, fun i j => ?_, ?_, ?_, fun a b ha hab hb => ?_, fun a b ha hb hsum hproduct => ?_⟩
  · have hboth := ((ht 0).sliced 0 i).joined ((ht 0).sliced i t.length)
    rw [Tune.slice_append_slice] at hboth
    exact hboth
  · rw [← Tune.slice_eq_between]
    exact (ht 0).sliced i j
  · have htwice := (ht 0).reversed.reversed
    rw [List.reverse_reverse] at htwice
    exact htwice
  · refine ⟨u.reverse ++ t.reverse, ?_, (hu 0).reversed.joined (ht 0).reversed⟩
    rw [← List.reverse_append]
    exact ((ht 0).joined (hu 0)).reversed
  · refine ⟨_, ((ht 0).sliced a b).reversed, ?_⟩
    rw [Tune.reverse_slice t ha hab hb]
    exact (ht 0).reversed.sliced _ _
  · have hnonneg := Int.mul_nonneg ha hb
    have hcount : Operator.isCount a = true := Operator.isCount_of_le (by omega) (by omega)
    have hcount' : Operator.isCount b = true := Operator.isCount_of_le (by omega) (by omega)
    have hcounts : Operator.isCount (a * b) = true := Operator.isCount_of_le (by omega) (by omega)
    refine ⟨⟨_, (ht 1).repeated (Operator.isCount_of_le (by omega) (by omega)), ?_⟩,
      ⟨_, ((ht 0).repeated hcount').repeated hcount, ?_⟩, ⟨_, ((ht 0).repeated hcount).reversed, ?_⟩⟩
    · rw [Int.toNat_add ha hb, Tune.times_add]
      exact ((ht 0).repeated hcount).joined ((ht 0).repeated hcount')
    · rw [Tune.times_times, ← Int.toNat_mul ha hb]
      exact (ht 1).repeated hcounts
    · rw [Tune.reverse_times]
      exact (ht 0).reversed.repeated hcount

/-- Three notes, the first and the last of the same pitch. -/
def Tune.motif : Tune := [⟨"C", 1⟩, ⟨"R", 2⟩, ⟨"C", 3⟩]

/-- The laws that ask something of their numbers, on the motif. -/
theorem Expr.structural_laws_motif :
    (0 ≤ (1 : Int) ∧ (1 : Int) ≤ 3 ∧ (3 : Int) ≤ Tune.motif.length ∧
      Expr.Agree 3 (.unary .reverse (.slice (.tune Tune.motif) (.int 1) (.int 3)))
        (.slice (.unary .reverse (.tune Tune.motif)) (.int (Tune.motif.length - 3)) (.int (Tune.motif.length - 1)))) ∧
    (0 ≤ (2 : Int) ∧ 0 ≤ (3 : Int) ∧ (2 : Int) + 3 < 9223372036854775808 ∧ (2 : Int) * 3 < 9223372036854775808 ∧
      Expr.Agree 3 (.binary .times (.int 2) (.binary .times (.int 3) (.tune Tune.motif)))
        (.binary .times (.int (2 * 3)) (.tune Tune.motif))) := by
  obtain ⟨_, _, _, _, hslice, htimes⟩ := Expr.structural_laws Tune.motif []
  refine ⟨⟨by decide, by decide, by decide, hslice 1 3 (by decide) (by decide) (by decide)⟩, ?_⟩
  exact ⟨by decide, by decide, by decide, by decide, (htimes 2 3 (by decide) (by decide) (by decide) (by decide)).2.1⟩

end TuneLang
