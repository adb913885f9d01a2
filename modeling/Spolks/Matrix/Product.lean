import Mathlib.Algebra.Group.Defs
import Mathlib.Algebra.Group.Basic
import Spolks.Lib.Memory

/-!
# The triple loop of the matrix labs

`Lab5/mpi-peer.c` and `Lab6/mpi-collective.c` multiply with the same loop body,
`C[row + j] += A[row + k] * B[j * N + k]` for `j < N`, `k < N`, once for each row start
`row` of a block of rows. Addition, multiplication and zero are those of an arbitrary
carrier with no law assumed, so that nothing below uses that a sum may be reordered.

* `multiplyRows_apply`: the loop adds to each cell of the block, in the order of `k`,
  the products of its row and column, and touches no other cell.
* `multiplyRows_shift`: the product of a copied block of rows, with its row numbers
  starting again at `0`, is that block of the whole product.
-/

namespace Spolks.Matrix

open Lib

variable {α : Type*} [Add α]

theorem forLoop_update (n p : Nat) (t : Nat → α) (C : Nat → α) :
    forLoop n (fun k C => Function.update C p (C p + t k)) C =
      Function.update C p (forLoop n (fun k v => v + t k) (C p)) := by
  induction n with
  | zero => simp
  | succ n ih => rw [forLoop_succ, ih, forLoop_succ, Function.update_idem, Function.update_self]

variable [Mul α]

/-- The body shared by the loops over rows; `row` is the cell where the row starts. -/
def multiplyRow (N : Nat) (A B : Nat → α) (row : Nat) (C : Nat → α) : Nat → α :=
  forLoop N (fun j C =>
    forLoop N (fun k C =>
      Function.update C (row + j) (C (row + j) + A (row + k) * B (j * N + k))) C) C

/-- `for (i = 0; i < rows; i++)` around the loops over `j` and `k`. -/
def multiplyRows (rows N : Nat) (A B C : Nat → α) : Nat → α :=
  forLoop rows (fun i C => multiplyRow N A B (i * N) C) C

/-- `v` with the `N` products of row `p / N` of `A` and row `p % N` of `B` added to it, in
the order of `k`. -/
def accumulate (N : Nat) (A B : Nat → α) (p : Nat) (v : α) : α :=
  forLoop N (fun k v => v + A (p / N * N + k) * B (p % N * N + k)) v

/-- Cell `p` of the product: the accumulation from zero. -/
def entry [Zero α] (N : Nat) (A B : Nat → α) (p : Nat) : α := accumulate N A B p 0

theorem cell_div {i j N : Nat} (hj : j < N) : (i * N + j) / N = i := by
  rw [Nat.mul_comm, Nat.mul_add_div (by omega), Nat.div_eq_of_lt hj, Nat.add_zero]

theorem cell_mod {i j N : Nat} (hj : j < N) : (i * N + j) % N = j := by
  rw [Nat.mul_comm, Nat.mul_add_mod, Nat.mod_eq_of_lt hj]

theorem cell_lt {i j N : Nat} (hi : i < N) (hj : j < N) : i * N + j < N * N := by
  have := Nat.mul_le_mul_right N (show i + 1 ≤ N by omega)
  rw [Nat.succ_mul] at this
  omega

/-- One row: the cells of the row are accumulated, the others stay. -/
theorem multiplyRow_apply (N i : Nat) (A B C : Nat → α) (p : Nat) :
    multiplyRow N A B (i * N) C p =
      if i * N ≤ p ∧ p < i * N + N then accumulate N A B p (C p) else C p := by
  let P : Nat → (Nat → α) → Prop := fun j C' => ∀ p, C' p =
    if i * N ≤ p ∧ p < i * N + j then accumulate N A B p (C p) else C p
  suffices h : P N (multiplyRow N A B (i * N) C) from h p
  refine forLoop_invariant (fun p => by simp) fun j C' hj hP p => ?_
  rw [forLoop_update]
  by_cases hp : p = i * N + j
  · -- the cell this iteration accumulates into; the earlier iterations left it alone
    subst hp
    rw [Function.update_self, hP, if_neg (by omega), if_pos (by omega), accumulate, cell_div hj,
      cell_mod hj]
  · rw [Function.update_of_ne hp, hP]
    by_cases hlt : i * N ≤ p ∧ p < i * N + j
    · rw [if_pos hlt, if_pos (by omega)]
    · rw [if_neg hlt, if_neg (by omega)]

theorem multiplyRows_apply (rows N : Nat) (A B C : Nat → α) (p : Nat) :
    multiplyRows rows N A B C p =
      if p < rows * N then accumulate N A B p (C p) else C p := by
  let P : Nat → (Nat → α) → Prop := fun i C' => ∀ p, C' p =
    if p < i * N then accumulate N A B p (C p) else C p
  suffices h : P rows (multiplyRows rows N A B C) from h p
  refine forLoop_invariant (fun p => by simp) fun i C' _ hP p => ?_
  have hsucc : (i + 1) * N = i * N + N := Nat.succ_mul i N
  rw [multiplyRow_apply, hP]
  by_cases hlt : p < i * N
  · rw [if_pos hlt, if_neg (by omega), if_pos (by omega)]
  · rw [if_neg hlt]
    by_cases hp : p < i * N + N
    · rw [if_pos (by omega), if_pos (by omega)]
    · rw [if_neg (by omega), if_neg (by omega)]

/-- A cell of the product depends only on its row of `A` and on the `N * N` cells of `B`. -/
theorem accumulate_congr {N : Nat} {A A' B B' : Nat → α} {p q : Nat} (v : α)
    (hmod : p % N = q % N) (hN : 0 < N)
    (hA : ∀ k < N, A (p / N * N + k) = A' (q / N * N + k))
    (hB : ∀ c < N * N, B c = B' c) : accumulate N A B p v = accumulate N A' B' q v := by
  refine forLoop_congr fun k hk => ?_
  have hq : q % N < N := Nat.mod_lt q hN
  have hc : q % N * N + k < N * N := by
    have := Nat.mul_le_mul_right N (show q % N + 1 ≤ N by omega)
    rw [Nat.succ_mul] at this
    omega
  funext v
  rw [hA k hk, hmod, hB _ hc]

/-- Multiplying a copy of the rows from row `r` on, numbered from `0`, into a block of
zeros gives the cells of the whole product from row `r` on. -/
theorem multiplyRows_shift [Zero α] {rows N r : Nat} {A A' B B' C : Nat → α} (hN : 0 < N)
    (hA : ∀ k < rows * N, A' k = A (r * N + k)) (hB : ∀ c < N * N, B' c = B c)
    (hC : ∀ k < rows * N, C k = 0) {k : Nat} (hk : k < rows * N) :
    multiplyRows rows N A' B' C k = entry N A B (r * N + k) := by
  have hdiv : (r * N + k) / N = r + k / N := by
    rw [Nat.mul_comm, Nat.mul_add_div hN]
  have hmod : k % N = (r * N + k) % N := by rw [Nat.mul_comm, Nat.mul_add_mod]
  rw [multiplyRows_apply, if_pos hk, hC k hk, entry]
  refine accumulate_congr 0 hmod hN (fun l hl => ?_) hB
  have hrow : k / N * N + l < rows * N := by
    have hlt : k / N < rows := (Nat.div_lt_iff_lt_mul hN).mpr hk
    have := Nat.mul_le_mul_right N (show k / N + 1 ≤ rows by omega)
    rw [Nat.succ_mul] at this
    omega
  rw [hA _ hrow, hdiv, Nat.add_mul, Nat.add_assoc]

end Spolks.Matrix
