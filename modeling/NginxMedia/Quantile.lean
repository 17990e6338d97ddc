import Mathlib.Algebra.Order.BigOperators.Group.List
import Mathlib.Algebra.Order.Group.Nat
import Mathlib.Order.Lattice.Nat
import Mathlib.Tactic.Common

/-! The percentile of a list of numbers, in thousandths: the least number that so many of them do
not exceed. Nothing here names a particular histogram. -/
namespace Quantile

variable {l : List ℕ} {q x y : ℕ}

/-- At least `q` thousandths of the numbers are at most `x`. -/
def Covers (l : List ℕ) (q x : ℕ) : Prop := l.length * q ≤ 1000 * l.countP fun d => decide (d ≤ x)

noncomputable def percentile (l : List ℕ) (q : ℕ) : ℕ := sInf {x | Covers l q x}

theorem Covers.mono (h : Covers l q x) (hxy : x ≤ y) : Covers l q y := by
  have hcount : l.countP (fun d => decide (d ≤ x)) ≤ l.countP fun d => decide (d ≤ y) := by
    refine List.countP_mono_left fun d _ hd => ?_
    have hle := of_decide_eq_true hd
    exact decide_eq_true (hle.trans hxy)
  have hscaled := Nat.mul_le_mul_left 1000 hcount
  exact Nat.le_trans h hscaled

theorem covers_bound (hq : q ≤ 1000) (h : ∀ d ∈ l, d ≤ x) : Covers l q x := by
  have hall : l.countP (fun d => decide (d ≤ x)) = l.length :=
    List.countP_eq_length.mpr fun d hd => decide_eq_true (h d hd)
  unfold Covers
  rw [hall, Nat.mul_comm]
  exact Nat.mul_le_mul_right _ hq

theorem percentile_le_iff (hq : q ≤ 1000) : percentile l q ≤ x ↔ Covers l q x := by
  have hsome : {x | Covers l q x}.Nonempty :=
    ⟨l.sum, covers_bound hq fun _ hd => List.le_sum_of_mem hd⟩
  exact ⟨fun h => (Nat.sInf_mem hsome : Covers l q (percentile l q)).mono h,
    fun h => Nat.sInf_le h⟩

theorem percentile_mem (hne : l ≠ []) (h0 : 0 < q) (hq : q ≤ 1000) : percentile l q ∈ l := by
  have hcovers := (percentile_le_iff hq).mp (Nat.le_refl (percentile l q))
  by_contra hnone
  have hsame : ∀ d ∈ l, d ≤ percentile l q → d < percentile l q := fun d hd hle =>
    Nat.lt_of_le_of_ne hle fun heq => hnone (heq ▸ hd)
  rcases Nat.eq_zero_or_pos (percentile l q) with hzero | hpos
  · have hcount : l.countP (fun d => decide (d ≤ percentile l q)) = 0 :=
      List.countP_eq_zero.mpr fun d hd hle => by
        have := hsame d hd (of_decide_eq_true hle)
        omega
    have hmul := Nat.mul_pos (List.length_pos_of_ne_nil hne) h0
    unfold Covers at hcovers
    rw [hcount] at hcovers
    omega
  · have hcount : l.countP (fun d => decide (d ≤ percentile l q)) =
        l.countP fun d => decide (d ≤ percentile l q - 1) := by
      refine List.countP_congr fun d hd => ?_
      rw [decide_eq_true_eq, decide_eq_true_eq]
      exact ⟨fun hle => Nat.le_sub_one_of_lt (hsame d hd hle), fun hle => by omega⟩
    have hbelow : Covers l q (percentile l q - 1) := by
      unfold Covers at hcovers ⊢
      rwa [← hcount]
    have := (percentile_le_iff hq).mpr hbelow
    omega

end Quantile
