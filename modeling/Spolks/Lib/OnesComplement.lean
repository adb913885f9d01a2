import Mathlib.Data.Nat.ModEq

/-!
# Deferred carries in base `M`

`fold M s` adds the part of `s` above the lowest digit in base `M` to that digit. It keeps
`s` modulo `M - 1` and does not make a positive number zero, so folding until a single
digit is left gives the one's complement sum, with `M - 1` for the zero of a sum that is
not empty.

* `fold_fold_lt`: for a sum of fewer than `M` digits two folds leave one digit.
* `fold_fold_eq_iff`: that digit is `M - 1` exactly for the positive multiples of `M - 1`.
* `endAroundSum_eq`: it is the sum in which every carry is added as soon as it arises.
* `fold_fold_swap`: with the two halves of every digit exchanged it has its halves exchanged.
-/

namespace Spolks.Lib

def fold (M s : Nat) : Nat := s / M + s % M

variable {M s : Nat}

theorem fold_modEq (M s : Nat) : fold M s ≡ s [MOD M - 1] := by
  cases M with
  | zero => simp [fold, Nat.ModEq]
  | succ m =>
    have hdiv : s = m * (s / (m + 1)) + fold (m + 1) s := by
      have h := Nat.div_add_mod s (m + 1)
      rw [Nat.succ_mul] at h
      unfold fold
      omega
    show fold (m + 1) s % m = s % m
    conv => rhs; rw [hdiv, Nat.mul_add_mod]

theorem fold_pos (M : Nat) (hs : 0 < s) : 0 < fold M s := by
  refine Nat.pos_of_ne_zero fun hzero => ?_
  obtain ⟨hdiv, hmod⟩ := Nat.add_eq_zero_iff.mp hzero
  have h := Nat.div_add_mod s M
  rw [hdiv, hmod] at h
  omega

theorem fold_zero (M : Nat) : fold M 0 = 0 := by simp [fold]

theorem fold_lt_two_mul (hM : 0 < M) (hs : s < M * M) : fold M s < 2 * M - 1 := by
  have hdiv : s / M < M := Nat.div_lt_of_lt_mul hs
  have hmod : s % M < M := Nat.mod_lt s hM
  unfold fold
  omega

/-- A fold of what one carry more than a digit can hold is a digit. -/
theorem fold_lt_of_lt_two_mul (hM : 0 < M) (hs : s < 2 * M - 1) : fold M s < M := by
  have h := Nat.div_add_mod s M
  have hmod : s % M < M := Nat.mod_lt s hM
  by_cases hlt : s < M
  · unfold fold
    rw [Nat.div_eq_of_lt hlt, Nat.mod_eq_of_lt hlt]
    omega
  · have hdiv : s / M = 1 := Nat.div_eq_of_lt_le (by omega) (by omega)
    unfold fold
    rw [hdiv] at h ⊢
    omega

theorem fold_fold_lt (hM : 0 < M) (hs : s < M * M) : fold M (fold M s) < M :=
  fold_lt_of_lt_two_mul hM (fold_lt_two_mul hM hs)

theorem fold_fold_modEq (M s : Nat) : fold M (fold M s) ≡ s [MOD M - 1] :=
  (fold_modEq M (fold M s)).trans (fold_modEq M s)

/-- Two folds give the largest digit exactly for the positive multiples of `M - 1`. -/
theorem fold_fold_eq_iff (hM : 1 < M) (hs : s < M * M) :
    fold M (fold M s) = M - 1 ↔ 0 < s ∧ M - 1 ∣ s := by
  have hmod := fold_fold_modEq M s
  have hlt := fold_fold_lt (by omega) hs
  constructor
  · intro h
    refine ⟨?_, ?_⟩
    · by_contra hzero
      obtain rfl : s = 0 := by omega
      rw [fold_zero, fold_zero] at h
      omega
    · rw [h] at hmod
      exact (Nat.modEq_zero_iff_dvd).mp (hmod.symm.trans (by simp [Nat.ModEq]))
  · rintro ⟨hpos, hdvd⟩
    have hpos' : 0 < fold M (fold M s) := fold_pos M (fold_pos M hpos)
    have hdvd' : M - 1 ∣ fold M (fold M s) :=
      (Nat.modEq_zero_iff_dvd).mp (hmod.trans ((Nat.modEq_zero_iff_dvd).mpr hdvd))
    have hle := Nat.le_of_dvd hpos' hdvd'
    omega

theorem fold_eq_zero_iff (M : Nat) : fold M s = 0 ↔ s = 0 := by
  constructor
  · intro h
    by_contra hne
    have hpos := fold_pos M (Nat.pos_of_ne_zero hne)
    omega
  · intro h
    rw [h, fold_zero]

/-- A digit is determined by its class modulo `M - 1` and by whether it is `0`. -/
theorem digit_eq {a b : Nat} (ha : a < M) (hb : b < M) (hmod : a ≡ b [MOD M - 1])
    (hzero : a = 0 ↔ b = 0) : a = b := by
  rcases Nat.lt_or_ge a b with hlt | hge
  · have hdvd : M - 1 ∣ b - a := (Nat.modEq_iff_dvd' hlt.le).mp hmod
    have hle := Nat.le_of_dvd (by omega) hdvd
    omega
  · rcases Nat.lt_or_ge b a with hlt | hge'
    · have hdvd : M - 1 ∣ a - b := (Nat.modEq_iff_dvd' hlt.le).mp hmod.symm
      have hle := Nat.le_of_dvd (by omega) hdvd
      omega
    · omega

/-- The only digit with the class of `s` that is `0` just when `s` is. -/
theorem fold_fold_eq_of_digit {d : Nat} (hM : 0 < M) (hs : s < M * M) (hd : d < M)
    (hmod : d ≡ s [MOD M - 1]) (hzero : d = 0 ↔ s = 0) : fold M (fold M s) = d := by
  apply digit_eq (fold_fold_lt hM hs) hd ((fold_fold_modEq M s).trans hmod.symm)
  rw [fold_eq_zero_iff, fold_eq_zero_iff, hzero]

/-! ## Carries added at every step -/

/-- Addition of two digits; a carry out of the digit is added at its low end. -/
def endAround (M a b : Nat) : Nat := if a + b < M then a + b else a + b - M + 1

def endAroundSum (M : Nat) (ws : List Nat) : Nat := ws.foldl (endAround M) 0

theorem endAround_lt {a b : Nat} (ha : a < M) (hb : b < M) : endAround M a b < M := by
  unfold endAround
  split <;> omega

theorem endAround_modEq {a b : Nat} (hb : b < M) :
    endAround M a b ≡ a + b [MOD M - 1] := by
  unfold endAround
  split
  · rfl
  · have hsplit : a + b = a + b - M + 1 + (M - 1) := by omega
    conv => rhs; rw [hsplit]
    exact (Nat.add_modEq_right ..).symm

theorem endAround_eq_zero_iff {a b : Nat} (hb : b < M) : endAround M a b = 0 ↔ a + b = 0 := by
  unfold endAround
  split
  · rfl
  · constructor
    · intro h
      omega
    · intro h
      omega

/-- What the sum keeps with every word: it is a digit with the class of the exact sum, and
`0` just when that is. -/
theorem foldl_endAround {ws : List Nat} (hws : ∀ w ∈ ws, w < M) {a t : Nat} (ha : a < M)
    (hmod : a ≡ t [MOD M - 1]) (hzero : a = 0 ↔ t = 0) :
    ws.foldl (endAround M) a < M ∧ ws.foldl (endAround M) a ≡ t + ws.sum [MOD M - 1] ∧
      (ws.foldl (endAround M) a = 0 ↔ t + ws.sum = 0) := by
  induction ws generalizing a t with
  | nil => exact ⟨ha, hmod, hzero⟩
  | cons w ws ih =>
    have hw : w < M := hws w List.mem_cons_self
    have hstep : endAround M a w ≡ t + w [MOD M - 1] :=
      (endAround_modEq hw).trans (hmod.add_right w)
    have hnil : endAround M a w = 0 ↔ t + w = 0 := by
      rw [endAround_eq_zero_iff hw]
      omega
    have hrest := ih (fun v hv => hws v (List.mem_cons_of_mem _ hv)) (endAround_lt ha hw) hstep hnil
    rw [List.foldl_cons, List.sum_cons, ← Nat.add_assoc]
    exact hrest

/-- Deferring every carry and folding twice gives the end-around sum. -/
theorem endAroundSum_eq {ws : List Nat} (hM : 0 < M) (hws : ∀ w ∈ ws, w < M)
    (hsum : ws.sum < M * M) : fold M (fold M ws.sum) = endAroundSum M ws := by
  obtain ⟨hlt, hmod, hzero⟩ := foldl_endAround hws hM (Nat.ModEq.refl 0) Iff.rfl
  rw [Nat.zero_add] at hmod hzero
  exact fold_fold_eq_of_digit hM hsum hlt hmod hzero

/-! ## Exchanging the halves of a digit -/

/-- The digit in base `B * B` with its two digits in base `B` exchanged. -/
def swap (B x : Nat) : Nat := B * (x % B) + x / B

theorem swap_lt {B x : Nat} (hx : x < B * B) : swap B x < B * B := by
  have hB : 0 < B := by
    apply Nat.pos_of_ne_zero
    rintro rfl
    omega
  have hhigh : x / B < B := Nat.div_lt_of_lt_mul hx
  have hlow : x % B < B := Nat.mod_lt x hB
  unfold swap
  calc B * (x % B) + x / B < B * (x % B) + B := by omega
    _ = B * (x % B + 1) := (Nat.mul_succ ..).symm
    _ ≤ B * B := Nat.mul_le_mul_left B hlow

/-- Exchanging the halves multiplies by `B`. -/
theorem swap_modEq (B x : Nat) : swap B x ≡ B * x [MOD B * B - 1] := by
  rcases Nat.eq_zero_or_pos B with rfl | hB
  · simp [swap, Nat.ModEq]
  have hone : 1 ≤ B * B := Nat.mul_pos hB hB
  obtain ⟨n, hn⟩ : ∃ n, B * B = n + 1 := ⟨B * B - 1, by omega⟩
  have hsplit : B * x = swap B x + n * (x / B) := by
    calc B * x = B * (B * (x / B) + x % B) := by rw [Nat.div_add_mod]
      _ = (n + 1) * (x / B) + B * (x % B) := by rw [Nat.mul_add, ← Nat.mul_assoc, hn]
      _ = swap B x + n * (x / B) := by
          unfold swap
          rw [Nat.succ_mul]
          omega
  show swap B x % (B * B - 1) = B * x % (B * B - 1)
  rw [hsplit, hn, Nat.add_sub_cancel, Nat.add_mul_mod_self_left]

theorem swap_eq_zero_iff {B x : Nat} (hB : 0 < B) : swap B x = 0 ↔ x = 0 := by
  constructor
  · intro h
    obtain ⟨hlow, hhigh⟩ := Nat.add_eq_zero_iff.mp h
    have hmod : x % B = 0 := (Nat.mul_eq_zero.mp hlow).resolve_left hB.ne'
    rw [← Nat.div_add_mod x B, hhigh, hmod, Nat.mul_zero]
  · intro h
    rw [h]
    simp [swap]

/-- Two sums of which one is `B` times the other modulo `B * B - 1` fold to digits with
exchanged halves. -/
theorem fold_fold_swap {B s t : Nat} (hB : 0 < B) (hs : s < B * B * (B * B))
    (ht : t < B * B * (B * B)) (hmod : t ≡ B * s [MOD B * B - 1]) (hzero : t = 0 ↔ s = 0) :
    fold (B * B) (fold (B * B) t) = swap B (fold (B * B) (fold (B * B) s)) := by
  have hBB : 0 < B * B := Nat.mul_pos hB hB
  apply fold_fold_eq_of_digit hBB ht (swap_lt (fold_fold_lt hBB hs))
  · calc swap B (fold (B * B) (fold (B * B) s))
        ≡ B * fold (B * B) (fold (B * B) s) [MOD B * B - 1] := swap_modEq B _
      _ ≡ B * s [MOD B * B - 1] := (fold_fold_modEq (B * B) s).mul_left B
      _ ≡ t [MOD B * B - 1] := hmod.symm
  · rw [swap_eq_zero_iff hB, fold_eq_zero_iff, fold_eq_zero_iff, hzero]

end Spolks.Lib
