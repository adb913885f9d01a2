import Spolks.Lab5.Results
import Spolks.Lab6.Product

/-!
# The two partitions

`Lab6/mpi-collective.c` sums up the sizes of the blocks to get the displacements, and
`Lab5/mpi-peer.c` has a formula for the offsets. For the same matrix and as many members in
a group as there are workers, the blocks are the same.

* `scatterArrays_eq_worker`: the arrays of a root are the offsets and the sizes of the workers.
* `blocks_agree`: the blocks tile the matrix and can be written in any order.
-/

namespace Spolks.Lab6

open Lib Spolks.Matrix
open Spolks.Lab5 (workerOffset workerBlockSize block ResultBlocks)

variable {α : Type*}

/-- `r` is the root of a group of `q` that has a member for each worker of `p`, and the matrices
have the same side. -/
structure SameParts (p : Lab5.Setup α) (q : Setup α) (r : Process α) : Prop where
  side : q.N = p.N
  root : r.groupRank = 0
  parts : r.groupSize = p.workersCount

theorem scatterArrays_eq_worker {p : Lab5.Setup α} {q : Setup α} {r : Process α}
    (h : SameParts p q r) {i : Nat} (hi : i < p.workersCount) :
    (scatterArrays q r).2 i = workerOffset p i ∧
      (scatterArrays q r).1 i = workerBlockSize p i * p.N := by
  obtain ⟨hsize, hdisp⟩ := scatterArrays_root (p := q) h.root (i := i) (by rwa [h.parts])
  rw [h.parts, h.side] at hsize hdisp
  exact ⟨hdisp.trans (Lab5.workerOffset_eq hi).symm, hsize⟩

/-- **The blocks agree and tile.** The root's displacements are the offsets of the workers and
its sizes theirs; the blocks are disjoint and cover the matrix; and blocks of results written
in any order give what gathering them at the displacements gives, each cell being written
once. -/
theorem blocks_agree (p : Lab5.Setup α) (q : Setup α) (r : Process α) (h : SameParts p q r)
    (hw : 1 ≤ p.workersCount) :
    (∀ i < p.workersCount, (scatterArrays q r).2 i = workerOffset p i ∧
      (scatterArrays q r).1 i = workerBlockSize p i * p.N) ∧
    (Finset.range p.workersCount : Set Nat).PairwiseDisjoint (block p) ∧
    (Finset.range p.workersCount).biUnion (block p) = Finset.range (p.N * p.N) ∧
    ∀ (data : Nat → List α) (order : List Nat) (C : Nat → α), ResultBlocks p data →
      order.Perm (List.range p.workersCount) →
        writeBlocks (workerOffset p) data order C =
            gather (scatterArrays q r).2 data p.workersCount C ∧
          (writtenCells (workerOffset p) data order).Perm (List.range (p.N * p.N)) := by
  refine ⟨fun i hi => scatterArrays_eq_worker h hi, Lab5.pairwiseDisjoint_block p,
    Lab5.biUnion_block hw, fun data order C hdata horder => ⟨?_, hdata.writtenCells_order hw horder⟩⟩
  rw [hdata.writeBlocks_order horder]
  exact gather_congr fun i hi => ⟨(scatterArrays_eq_worker h hi).1.symm, rfl⟩

theorem fiveInTwo_grouped : (groupsPrepare fiveInTwo (start fiveInTwo)).isSome = true := by
  decide +kernel

/-- The five processes in their two groups. -/
def fiveGrouped : World Int := (groupsPrepare fiveInTwo (start fiveInTwo)).get fiveInTwo_grouped

/-- The two workers of three rows, and the first group, of two processes. -/
theorem blocks_agree_threeByTwo :
    SameParts (Lab5.threeByTwo false) fiveInTwo (fiveGrouped 0) ∧
      (scatterArrays fiveInTwo (fiveGrouped 0)).2 1 = workerOffset (Lab5.threeByTwo false) 1 := by
  have hparts : SameParts (Lab5.threeByTwo false) fiveInTwo (fiveGrouped 0) :=
    ⟨rfl, by decide +kernel, by decide +kernel⟩
  have hagree := blocks_agree (Lab5.threeByTwo false) fiveInTwo (fiveGrouped 0) hparts (by decide)
  exact ⟨hparts, (hagree.1 1 (by decide)).1⟩

end Spolks.Lab6
