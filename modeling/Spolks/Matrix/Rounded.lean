import Mathlib.Algebra.BigOperators.Group.Finset.Basic
import Mathlib.Algebra.Order.Ring.Abs
import Mathlib.Algebra.Order.Ring.Int
import Mathlib.Data.Nat.Cast.Order.Ring
import Mathlib.Tactic.Linarith
import Spolks.Matrix.Product

/-!
# Whole numbers in a format that rounds

The cells of the matrices are `double`s. As long as they hold whole numbers, a sum or a product
is the exact one rounded to a number of the format, and the format has all whole numbers up to
some bound. The rounding is a parameter, so that nothing is said about what happens beyond it.

* `sum_exact`: an accumulation that stays within the bound is the exact sum.
* `entry_exact`: so is a cell of the product when its `N` products of cells do.
-/

namespace Spolks.Matrix

open Lib Finset

/-- A whole number in a format whose results are rounded by `rd`. -/
@[ext] structure Rounded (rd : Int → Int) where
  val : Int

/-- The format has all whole numbers up to the bound. -/
def ExactUpTo (rd : Int → Int) (bound : Int) : Prop := ∀ x, |x| ≤ bound → rd x = x

namespace Rounded

variable {rd : Int → Int}

instance : Zero (Rounded rd) := ⟨⟨0⟩⟩

instance : Add (Rounded rd) := ⟨fun x y => ⟨rd (x.val + y.val)⟩⟩

instance : Mul (Rounded rd) := ⟨fun x y => ⟨rd (x.val * y.val)⟩⟩

/-- The conversion of an `int`. -/
instance : IntCast (Rounded rd) := ⟨fun v => ⟨rd v⟩⟩

@[simp] theorem zero_val : (0 : Rounded rd).val = 0 := rfl

theorem add_val (x y : Rounded rd) : (x + y).val = rd (x.val + y.val) := rfl

theorem mul_val (x y : Rounded rd) : (x * y).val = rd (x.val * y.val) := rfl

theorem intCast_val (v : Int) : (v : Rounded rd).val = rd v := rfl

variable {bound a b : Int}

theorem mul_le_bound {x y : Int} (hx : |x| ≤ a) (hy : |y| ≤ b) : |x * y| ≤ a * b := by
  rw [abs_mul]
  exact mul_le_mul hx hy (abs_nonneg y) ((abs_nonneg x).trans hx)

/-- The accumulation of `n` numbers, none of which is above `b`. -/
theorem sum_exact (hrd : ExactUpTo rd bound) {n : Nat} {f : Nat → Rounded rd}
    (hf : ∀ i < n, |(f i).val| ≤ b) (hbound : n * b ≤ bound) :
    (forLoop n (fun i sum => sum + f i) 0).val = ∑ i ∈ range n, (f i).val ∧
      |∑ i ∈ range n, (f i).val| ≤ n * b := by
  induction n with
  | zero => simp
  | succ n ih =>
    have hb : 0 ≤ b := (abs_nonneg _).trans (hf n (Nat.lt_succ_self n))
    rw [Nat.cast_succ, add_mul, one_mul] at hbound ⊢
    obtain ⟨hsum, hle⟩ := ih (fun i hi => hf i (by omega)) (by linarith)
    have hnext : |∑ i ∈ range (n + 1), (f i).val| ≤ n * b + b := by
      rw [sum_range_succ]
      exact (abs_add_le _ _).trans (add_le_add hle (hf n (Nat.lt_succ_self n)))
    refine ⟨?_, hnext⟩
    rw [forLoop_succ, add_val, hsum, ← sum_range_succ]
    exact hrd _ (hnext.trans hbound)

/-- **An exact product.** A cell of the product of two matrices with cells up to `a` and `b` is
the exact one when `N * (a * b)` is within the bound. -/
theorem entry_exact (hrd : ExactUpTo rd bound) {N : Nat} {A B : Nat → Rounded rd}
    (hA : ∀ c < N * N, |(A c).val| ≤ a) (hB : ∀ c < N * N, |(B c).val| ≤ b)
    (hbound : N * (a * b) ≤ bound) {i j : Nat} (hi : i < N) (hj : j < N) :
    (entry N A B (i * N + j)).val =
        ∑ k ∈ range N, (A (i * N + k)).val * (B (j * N + k)).val ∧
      |(entry N A B (i * N + j)).val| ≤ N * (a * b) := by
  have hfactors : ∀ k < N, |(A (i * N + k)).val * (B (j * N + k)).val| ≤ a * b := fun k hk =>
    mul_le_bound (hA _ (cell_lt hi hk)) (hB _ (cell_lt hj hk))
  have hab : a * b ≤ bound := by
    have hpos : 0 ≤ a * b := (abs_nonneg _).trans (hfactors i hi)
    have hone : (1 : Int) ≤ N := by omega
    exact (le_mul_of_one_le_left hpos hone).trans hbound
  have hproduct : ∀ k < N, (A (i * N + k) * B (j * N + k)).val =
      (A (i * N + k)).val * (B (j * N + k)).val := fun k hk =>
    hrd _ ((hfactors k hk).trans hab)
  have hsum := sum_exact hrd (f := fun k => A (i * N + k) * B (j * N + k)) (n := N)
    (fun k hk => (hproduct k hk).symm ▸ hfactors k hk) hbound
  have hentry : entry N A B (i * N + j) =
      forLoop N (fun k sum => sum + A (i * N + k) * B (j * N + k)) 0 := by
    rw [entry, accumulate, cell_div hj, cell_mod hj]
  rw [hentry, hsum.1]
  have hterms : ∑ k ∈ range N, (A (i * N + k) * B (j * N + k)).val =
      ∑ k ∈ range N, (A (i * N + k)).val * (B (j * N + k)).val :=
    sum_congr rfl fun k hk => hproduct k (mem_range.mp hk)
  exact ⟨hterms, hsum.2⟩

end Rounded

end Spolks.Matrix
