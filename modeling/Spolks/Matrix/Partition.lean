import Mathlib.Tactic.Ring
import Spolks.Lib.Tiling

/-!
# The partition of the rows

Both matrix labs give each of `w` parts `N / w` rows, and the last part whatever is left.
`blockRows N w i` is the number of rows of part `i`, and `N * i * (N / w)` the cell where
it starts (the offset that `masterCalculateOnSlaves` uses). `offset_blockRows` says that
this is the running sum of the sizes, `offset_all` that the parts end at `N * N`.
-/

namespace Spolks.Matrix

open Lib

/-- The rows of part `i` of `w`: `N / w`, or what is left of `N` for the last part. -/
def blockRows (N w i : Nat) : Nat := if i = w - 1 then N - (w - 1) * (N / w) else N / w

theorem pred_mul_div_le (N w : Nat) : (w - 1) * (N / w) ≤ N :=
  calc (w - 1) * (N / w) ≤ w * (N / w) := Nat.mul_le_mul_right _ (Nat.sub_le w 1)
    _ ≤ N := Nat.mul_div_le N w

theorem blockRows_of_lt {N w i : Nat} (h : i < w - 1) : blockRows N w i = N / w := by
  rw [blockRows, if_neg (by omega)]

theorem blockRows_last (N w : Nat) : blockRows N w (w - 1) = N - (w - 1) * (N / w) := by
  rw [blockRows, if_pos rfl]

/-- The last part has the `N % w` rows that the division leaves over in addition. -/
theorem blockRows_last_eq {N w : Nat} (hw : 0 < w) :
    blockRows N w (w - 1) = N / w + N % w := by
  rw [blockRows_last]
  have hdiv : w * (N / w) + N % w = N := Nat.div_add_mod N w
  have hsplit : w * (N / w) = (w - 1) * (N / w) + N / w := by
    rw [← Nat.succ_mul, Nat.succ_eq_add_one, Nat.sub_add_cancel hw]
  generalize N / w = q at hdiv hsplit ⊢
  omega

/-- All parts are equal exactly when the number of parts divides the number of rows. -/
theorem blockRows_last_eq_div_iff {N w : Nat} (hw : 0 < w) :
    blockRows N w (w - 1) = N / w ↔ w ∣ N := by
  rw [blockRows_last_eq hw, Nat.dvd_iff_mod_eq_zero]
  omega

theorem blockRows_of_dvd {N w : Nat} (hw : 0 < w) (h : w ∣ N) (i : Nat) :
    blockRows N w i = N / w := by
  by_cases hi : i = w - 1
  · rw [hi]
    exact (blockRows_last_eq_div_iff hw).mpr h
  · rw [blockRows, if_neg hi]

/-! ## Offsets -/

/-- The number of cells of part `i`. -/
def blockCells (N w i : Nat) : Nat := blockRows N w i * N

theorem offset_blockRows (N : Nat) {w i : Nat} (hi : i < w) :
    offset (blockCells N w) i = N * i * (N / w) := by
  induction i with
  | zero => simp
  | succ i ih =>
    rw [offset_succ, ih (by omega), blockCells, blockRows_of_lt (by omega)]
    ring

theorem offset_all (N : Nat) {w : Nat} (hw : 0 < w) : offset (blockCells N w) w = N * N := by
  obtain ⟨v, rfl⟩ : ∃ v, w = v + 1 := ⟨w - 1, by omega⟩
  rw [offset_succ, offset_blockRows N (Nat.lt_succ_self v), blockCells]
  have hlast : blockRows N (v + 1) v = N - v * (N / (v + 1)) := blockRows_last N (v + 1)
  have hle : v * (N / (v + 1)) ≤ N := pred_mul_div_le N (v + 1)
  rw [hlast, Nat.mul_assoc, Nat.mul_comm N, ← Nat.add_mul, Nat.add_sub_cancel' hle]

/-- The row where part `i` starts. -/
theorem offset_eq_row (N w i : Nat) : N * i * (N / w) = i * (N / w) * N := by
  ring

theorem exists_part (N : Nat) {w p : Nat} (hw : 0 < w) (hp : p < N * N) :
    ∃ i < w, N * i * (N / w) ≤ p ∧ p < N * i * (N / w) + blockCells N w i := by
  obtain ⟨i, hi, hb⟩ := exists_block (blockCells N w) (offset_all N hw ▸ hp)
  rw [offset_blockRows N hi] at hb
  exact ⟨i, hi, hb⟩

theorem part_le {N w i j : Nat} (hj : j < w) (hij : i < j) :
    N * i * (N / w) + blockCells N w i ≤ N * j * (N / w) := by
  have h := offset_add_size_le (blockCells N w) hij
  rwa [offset_blockRows N (by omega), offset_blockRows N hj] at h

theorem part_end_le {N w i : Nat} (hi : i < w) :
    N * i * (N / w) + blockCells N w i ≤ N * N := by
  have h := offset_add_size_le (blockCells N w) hi
  rwa [offset_blockRows N hi, offset_all N (by omega)] at h

end Spolks.Matrix
