import Spolks.Matrix.Rounded
import Spolks.Lab6.Finalize
import Spolks.Lab6.Input

/-!
# The results of `Lab6/mpi-collective.c` in doubles

The numbers in the files have no bound below that of an `int`, so the products need not be
exact. They are, and so is the printed sum, when the numbers are small enough for the side.

* `printed_exact`: what the roots hold and print then.
-/

namespace Spolks.Lab6

open Lib Spolks.Matrix Finset

/-- Cell `c` of the product of the matrices that two files of numbers give. -/
def productCell (N : Nat) (as bs : List Int) (a b : Int) (c : Nat) : Int :=
  ∑ k ∈ range N, cellValue as a (c / N * N + k) * cellValue bs b (c % N * N + k)

/-- A cell holds one of the numbers. -/
theorem cellValue_mem {vs : List Int} (hne : vs ≠ []) (value : Int) (i : Nat) :
    cellValue vs value i ∈ vs := by
  rcases Nat.lt_or_ge i vs.length with hlt | hge
  · rw [cellValue_of_lt hlt]
    exact List.getElem_mem hlt
  · rw [cellValue, List.getElem?_eq_none hge, List.getLast?_eq_some_getLast hne]
    exact List.getLast_mem hne

section

variable {rd : Int → Int} {p : Setup (Rounded rd)} {w : World (Rounded rd)}
  {textA textB : List UInt8} {as bs : List Int} {a b m : Int} {read : Matrices (Rounded rd)}

/-- The conversion of a number to `double` is exact. -/
theorem cell_exact (hrd : ExactUpTo rd 9007199254740992) {text : List UInt8} {vs : List Int}
    (h : Numbers text vs) (hne : vs ≠ []) (hsmall : ∀ v ∈ vs, |v| ≤ m) (value : Int) (i : Nat) :
    ((cellValue vs value i : Int) : Rounded rd).val = cellValue vs value i ∧
      |cellValue vs value i| ≤ m := by
  have hmem := cellValue_mem hne value i
  obtain ⟨hlow, hhigh⟩ := h.fits _ hmem
  exact ⟨hrd _ (abs_le.mpr ⟨by omega, by omega⟩), hsmall _ hmem⟩

/-- The cells of a root. -/
theorem root_cells (hrd : ExactUpTo rd 9007199254740992) (hA : Numbers textA as)
    (hB : Numbers textB bs) (hne : as ≠ [] ∧ bs ≠ [])
    (hsmall : (∀ v ∈ as, |v| ≤ m) ∧ ∀ v ∈ bs, |v| ≤ m)
    (hbound : p.N * (m * m) ≤ 9007199254740992)
    (hread : masterInitMatrix p.N (some textA) (some textB) a b (p.mallocA 0) (p.mallocB 0) =
      some read)
    (hp : p.A = read.A ∧ p.B = read.B) (hN : 1 ≤ p.N) (hrun : run p = some w) {q : Nat}
    (hq : IsRoot p w q) {c : Nat} (hc : c < p.N * p.N) :
    ((w q).CResult c).val = productCell p.N as bs a b c ∧
      |((w q).CResult c).val| ≤ p.N * (m * m) := by
  obtain ⟨read', hread', hcells⟩ :=
    masterInitMatrix_cells hA hB p.N a b (p.mallocA 0) (p.mallocB 0)
  obtain rfl : read = read' := Option.some.inj (hread.symm.trans hread')
  have hcellA : ∀ c < p.N * p.N, (p.A c).val = cellValue as a c ∧ |(p.A c).val| ≤ m := by
    intro c hc
    have h := cell_exact hrd hA hne.1 hsmall.1 a c
    rw [hp.1, (hcells c hc).1, h.1]
    exact ⟨rfl, h.2⟩
  have hcellB : ∀ c < p.N * p.N, (p.B c).val = cellValue bs b c ∧ |(p.B c).val| ≤ m := by
    intro c hc
    have h := cell_exact hrd hB hne.2 hsmall.2 b c
    rw [hp.2, (hcells c hc).2, h.1]
    exact ⟨rfl, h.2⟩
  have hi : c / p.N < p.N := (Nat.div_lt_iff_lt_mul hN).mpr hc
  have hj : c % p.N < p.N := Nat.mod_lt c hN
  have hentry := Rounded.entry_exact hrd (fun c hc => (hcellA c hc).2)
    (fun c hc => (hcellB c hc).2) hbound hi hj
  rw [Nat.div_add_mod', ← run_entries hN hrun hq c hc] at hentry
  refine ⟨hentry.1.trans (sum_congr rfl fun k hk => ?_), hentry.2⟩
  rw [(hcellA _ (cell_lt hi (mem_range.mp hk))).1, (hcellB _ (cell_lt hj (mem_range.mp hk))).1]

/-- **What the roots hold and print.** When the sum of all products stays within `2 ^ 53`, every
root of a run that reaches its end holds the exact product of the matrices in the files, and
prints the exact sum of all its cells but the last. -/
theorem printed_exact (hrd : ExactUpTo rd 9007199254740992) (hA : Numbers textA as)
    (hB : Numbers textB bs) (hne : as ≠ [] ∧ bs ≠ [])
    (hsmall : (∀ v ∈ as, |v| ≤ m) ∧ ∀ v ∈ bs, |v| ≤ m)
    (hbound : p.N * p.N * (p.N * (m * m)) ≤ 9007199254740992)
    (hread : masterInitMatrix p.N (some textA) (some textB) a b (p.mallocA 0) (p.mallocB 0) =
      some read)
    (hp : p.A = read.A ∧ p.B = read.B) (hN : 1 ≤ p.N) (hrun : run p = some w) {q : Nat}
    (hq : IsRoot p w q) :
    (∀ c < p.N * p.N, ((w q).CResult c).val = productCell p.N as bs a b c) ∧
      (groupsFinalize p (w q)).sum.val =
        ∑ c ∈ range (p.N * p.N - 1), productCell p.N as bs a b c := by
  have hm : 0 ≤ (p.N : Int) * (m * m) := mul_nonneg (Int.natCast_nonneg _) (mul_self_nonneg m)
  have hone : (1 : Int) ≤ p.N * p.N := one_le_mul_of_one_le_of_one_le (by omega) (by omega)
  have hcell : p.N * (m * m) ≤ 9007199254740992 := (le_mul_of_one_le_left hm hone).trans hbound
  have hcells := fun c (hc : c < p.N * p.N) =>
    root_cells hrd hA hB hne hsmall hcell hread hp hN hrun hq hc
  refine ⟨fun c hc => (hcells c hc).1, ?_⟩
  have hless : ((p.N * p.N - 1 : Nat) : Int) * (p.N * (m * m)) ≤ 9007199254740992 := by
    refine (mul_le_mul_of_nonneg_right ?_ hm).trans hbound
    rw [← Nat.cast_mul]
    exact Int.ofNat_le.mpr (Nat.sub_le _ _)
  have hsum := Rounded.sum_exact hrd (f := (w q).CResult) (n := p.N * p.N - 1)
    (fun c hc => (hcells c (by omega)).2) hless
  refine hsum.1.trans (sum_congr rfl fun c hc => ?_)
  rw [mem_range] at hc
  exact (hcells c (by omega)).1

end

/-! ## Four numbers in each file -/

def doublesFromFiles : Matrices (Rounded id) :=
  forLoop (2 * 2) readCells
    ⟨⟨lines [1, 2, 3, 4], 0⟩, ⟨lines [5, 6, 7], 0⟩, fun _ => 0, fun _ => 0⟩

def inDoubles : Setup (Rounded id) where
  globalSize := 1
  groupsCount := 1
  N := 2
  rand := fun _ => 0
  A := doublesFromFiles.A
  B := doublesFromFiles.B
  mallocA _ _ := 0
  mallocB _ _ := 0
  mallocC _ _ := 0

theorem printed_exact_short : ∃ w q, run inDoubles = some w ∧ IsRoot inDoubles w q ∧
    (groupsFinalize inDoubles (w q)).sum.val = 17 + 21 + 39 := by
  have h : inDoubles.Completes := ⟨by decide, by decide, by decide, by decide⟩
  obtain ⟨w, hrun⟩ := h.exists_run_iff.mpr (by decide)
  obtain ⟨q, hq, -⟩ := exists_groupRoot (g := 0) h hrun (by decide)
  have hA : Numbers (lines [1, 2, 3, 4]) [1, 2, 3, 4] := numbers_lines (by simp)
  have hB : Numbers (lines [5, 6, 7]) [5, 6, 7] := numbers_lines (by simp)
  have hread : masterInitMatrix inDoubles.N (some (lines [1, 2, 3, 4]))
      (some (lines [5, 6, 7])) 0 0 (inDoubles.mallocA 0) (inDoubles.mallocB 0) =
      some doublesFromFiles := rfl
  have hsmall : (∀ v ∈ [1, 2, 3, 4], |v| ≤ (7 : Int)) ∧ ∀ v ∈ [5, 6, 7], |v| ≤ (7 : Int) := by
    constructor <;> simp
  have hprinted := printed_exact (fun _ _ => rfl) hA hB (by simp) hsmall (by decide) hread
    ⟨rfl, rfl⟩ (by decide) hrun hq
  exact ⟨w, q, hrun, hq, hprinted.2.trans (by decide)⟩

end Spolks.Lab6
