import Mathlib.Algebra.BigOperators.Group.Finset.Basic
import Mathlib.Algebra.Order.BigOperators.Group.Finset
import Spolks.Lib.Memory

/-!
# Consecutive blocks

Blocks of sizes `sizes 0, sizes 1, …` laid end to end from cell `0` on. Block `i` starts
at the running sum `offset sizes i`. Any `w` of them tile `[0, offset sizes w)`:
`exists_block` (every cell lies in a block) and `offset_add_size_le` (a later block starts
after an earlier one ends). `gather` writes one list per block; `gather_readBlock` says
what is then in each cell. `writeBlocks` writes them in a given order: blocks that do not
meet can be written in any (`writeBlocks_perm`), and then `writtenCells_perm` says that
each cell of the tiling is written once.
-/

namespace Spolks.Lib

open Finset

/-- Where block `i` starts: the sum of the sizes before it. -/
def offset (sizes : Nat → Nat) (i : Nat) : Nat := ∑ j ∈ range i, sizes j

@[simp] theorem offset_zero (sizes : Nat → Nat) : offset sizes 0 = 0 := rfl

theorem offset_succ (sizes : Nat → Nat) (i : Nat) :
    offset sizes (i + 1) = offset sizes i + sizes i := sum_range_succ sizes i

theorem offset_mono (sizes : Nat → Nat) {i j : Nat} (h : i ≤ j) :
    offset sizes i ≤ offset sizes j :=
  sum_le_sum_of_subset (range_subset_range.mpr h)

theorem offset_add_size_le (sizes : Nat → Nat) {i j : Nat} (h : i < j) :
    offset sizes i + sizes i ≤ offset sizes j := by
  rw [← offset_succ]
  exact offset_mono sizes h

theorem exists_block (sizes : Nat → Nat) {w p : Nat} (hp : p < offset sizes w) :
    ∃ i < w, offset sizes i ≤ p ∧ p < offset sizes i + sizes i := by
  induction w with
  | zero => simp at hp
  | succ w ih =>
    by_cases hlt : p < offset sizes w
    · obtain ⟨i, hi, hb⟩ := ih hlt
      exact ⟨i, by omega, hb⟩
    · rw [offset_succ] at hp
      exact ⟨w, by omega, by omega, hp⟩

variable {α : Type*}

/-- Write the list `data i` from cell `off i` on, for `i = 0, …, w - 1` in this order. -/
def gather (off : Nat → Nat) (data : Nat → List α) (w : Nat) (m : Nat → α) : Nat → α :=
  forLoop w (fun i m => writeBlock m (off i) (data i)) m

theorem gather_congr {off off' : Nat → Nat} {data data' : Nat → List α} {w : Nat} {m : Nat → α}
    (h : ∀ i < w, off i = off' i ∧ data i = data' i) :
    gather off data w m = gather off' data' w m := by
  refine forLoop_congr fun i hi => ?_
  obtain ⟨hoff, hdata⟩ := h i hi
  rw [hoff, hdata]

/-- Gathering copies of blocks of the right sizes leaves, in each cell of block `i`, the
cell of the `i`-th source at the same place; cells past the last block keep their value. -/
theorem gather_readBlock (sizes : Nat → Nat) (src : Nat → Nat → α) (w : Nat) (m : Nat → α) :
    (∀ i < w, ∀ k < sizes i,
      gather (offset sizes) (fun i => readBlock (src i) 0 (sizes i)) w m (offset sizes i + k) =
        src i k) ∧
    ∀ p, offset sizes w ≤ p →
      gather (offset sizes) (fun i => readBlock (src i) 0 (sizes i)) w m p = m p := by
  unfold gather
  induction w with
  | zero => exact ⟨fun i hi => absurd hi (by omega), fun p _ => rfl⟩
  | succ w ih =>
    obtain ⟨hin, hout⟩ := ih
    rw [forLoop_succ]
    constructor
    · intro i hi k hk
      by_cases hiw : i = w
      · subst hiw
        rw [writeBlock_readBlock _ _ (by omega) (by omega)]
        congr 1
        omega
      · have hle := offset_add_size_le sizes (show i < w by omega)
        rw [writeBlock_outside _ (Or.inl (by omega)), hin i (by omega) k hk]
    · intro p hp
      rw [offset_succ] at hp
      rw [writeBlock_outside _ (Or.inr (by rw [readBlock_length]; omega)), hout p (by omega)]

/-- The blocks, read one after the other, are all that they tile. -/
theorem flatMap_readBlock (sizes : Nat → Nat) (m : Nat → α) (w : Nat) :
    (List.range w).flatMap (fun i => readBlock m (offset sizes i) (sizes i)) =
      readBlock m 0 (offset sizes w) := by
  induction w with
  | zero => rfl
  | succ w ih =>
    rw [List.range_succ, List.flatMap_append, ih, offset_succ, readBlock_add, Nat.zero_add,
      List.flatMap_singleton]

/-! ## Writing the blocks in any order -/

/-- Write the list `data i` from cell `off i` on, for each `i` of `order` in turn. -/
def writeBlocks (off : Nat → Nat) (data : Nat → List α) (order : List Nat) (m : Nat → α) :
    Nat → α :=
  order.foldl (fun m i => writeBlock m (off i) (data i)) m

/-- The cells that this writes, in the order in which it does. -/
def writtenCells (off : Nat → Nat) (data : Nat → List α) (order : List Nat) : List Nat :=
  order.flatMap fun i => List.range' (off i) (data i).length

/-- No two of these blocks meet. -/
def Apart (off : Nat → Nat) (data : Nat → List α) (order : List Nat) : Prop :=
  ∀ i ∈ order, ∀ j ∈ order, i ≠ j →
    off i + (data i).length ≤ off j ∨ off j + (data j).length ≤ off i

section

variable {off : Nat → Nat} {data : Nat → List α} {order order' : List Nat} {m : Nat → α}

theorem writeBlocks_concat (off : Nat → Nat) (data : Nat → List α) (order : List Nat) (i : Nat)
    (m : Nat → α) : writeBlocks off data (order ++ [i]) m =
      writeBlock (writeBlocks off data order m) (off i) (data i) := by
  rw [writeBlocks, List.foldl_append]
  rfl

/-- Gathering writes the blocks in the order of their numbers. -/
theorem gather_eq_writeBlocks (off : Nat → Nat) (data : Nat → List α) (w : Nat) (m : Nat → α) :
    gather off data w m = writeBlocks off data (List.range w) m := by
  induction w with
  | zero => rfl
  | succ w ih =>
    rw [List.range_succ, writeBlocks_concat, ← ih]
    rfl

/-- A cell that is not among those written keeps its value. -/
theorem writeBlocks_of_notMem {c : Nat} (h : c ∉ writtenCells off data order) :
    writeBlocks off data order m c = m c := by
  induction order generalizing m with
  | nil => rfl
  | cons i order ih =>
    rw [writtenCells, List.flatMap_cons, List.mem_append, not_or, List.mem_range'_1] at h
    have hrest := ih (m := writeBlock m (off i) (data i)) h.2
    exact hrest.trans (writeBlock_outside m (by omega))

theorem writeBlocks_perm (hperm : order.Perm order') (h : Apart off data order) :
    writeBlocks off data order m = writeBlocks off data order' m := by
  refine hperm.foldl_eq' (fun i hi j hj m => ?_) m
  by_cases hij : i = j
  · rw [hij]
  · exact writeBlock_comm m (h i hi j hj hij)

end

section

variable {sizes : Nat → Nat} {data : Nat → List α} {order : List Nat} {w : Nat}

/-- The blocks of a tiling do not meet. -/
theorem apart_offset (hlen : ∀ i ∈ order, (data i).length = sizes i) :
    Apart (offset sizes) data order := by
  intro i hi j hj hij
  rw [hlen i hi, hlen j hj]
  exact (Nat.lt_or_gt_of_ne hij).imp (offset_add_size_le sizes) (offset_add_size_le sizes)

theorem writtenCells_range (hlen : ∀ i < w, (data i).length = sizes i) :
    writtenCells (offset sizes) data (List.range w) = List.range (offset sizes w) := by
  induction w with
  | zero => rfl
  | succ w ih =>
    have hinit := ih fun i hi => hlen i (Nat.lt_succ_of_lt hi)
    rw [writtenCells] at hinit ⊢
    rw [List.range_succ, List.flatMap_append, hinit, List.flatMap_singleton,
      hlen w (Nat.lt_succ_self w), offset_succ, List.range_add, List.range'_eq_map_range]

/-- In any order of the blocks each cell of the tiling is written once. -/
theorem writtenCells_perm (hlen : ∀ i < w, (data i).length = sizes i)
    (hperm : order.Perm (List.range w)) :
    (writtenCells (offset sizes) data order).Perm (List.range (offset sizes w)) := by
  rw [← writtenCells_range hlen]
  exact hperm.flatMap_right _

end

end Spolks.Lib
