import Spolks.Lab6.Collective
import Spolks.Lab6.Grouping

/-!
# Every group computes the whole product

* `Grouped.member_*`: the members of a group number themselves from `0` on.
* `scatterArrays_root`: the arrays of a root are the sizes and the running sums of the
  partition of the rows by the group's size.
* `exists_run_iff`: a run has a result when the grouping does not stop, stays in the array and
  has group numbers whose file names fit. `Setup.Completes.defined_iff`: of the groupings that
  complete these are the ones into at most ten groups.
* `run_product`: at the end of such a run the root of every group holds the product, whatever
  the grouping.
-/

namespace Spolks.Lab6

open Lib Spolks.Matrix

/-! ## Communicators -/

section Communicators

variable {α : Type*} {p : Setup α} {w : World α}

/-- Each process knows the size of its group and its place in it. -/
structure Grouped (p : Setup α) (w : World α) : Prop where
  size : ∀ r < p.globalSize, (w r).groupSize = (members p w (w r).groupNumber).length
  rank : ∀ r < p.globalSize, (w r).groupRank = (members p w (w r).groupNumber).idxOf r

theorem mem_members {g : Int} {q : Nat} :
    q ∈ members p w g ↔ q < p.globalSize ∧ (w q).groupNumber = g := by
  simp [members]

theorem members_nodup (g : Int) : (members p w g).Nodup := List.nodup_range.filter _

theorem drawGroups_eq_some_iff {root : Groups} :
    drawGroups p = some root ↔ prepareGroups p.globalSize p.groupsCount p.rand = root ∧
      root.stopped = false ∧ InRange p.globalSize root := by
  unfold drawGroups
  simp only
  constructor
  · intro h
    split at h
    · rename_i hgood
      cases h
      exact ⟨rfl, hgood⟩
    · cases h
  · rintro ⟨rfl, hgood⟩
    exact if_pos hgood

/-- Outside of the array nothing is written. -/
theorem groupNumbers_outside {root : Groups} (h : drawGroups p = some root) {k : Int}
    (hk : ¬ (0 ≤ k ∧ k < p.globalSize)) : root.groupNumbers k = 0 := by
  obtain ⟨rfl, -, hrange⟩ := drawGroups_eq_some_iff.mp h
  exact prepareGroups_cleared _ _ _ k fun hmem => hk (hrange k hmem)

/-- `groupsPrepare` touches no matrix, and afterwards each process knows its group. -/
theorem groupsPrepare_grouped {w' : World α} (h : groupsPrepare p w = some w') :
    Grouped p w' ∧
      ∀ r, (w' r).groupNumber =
          (prepareGroups p.globalSize p.groupsCount p.rand).groupNumbers r ∧
        (w' r).A = (w r).A ∧ (w' r).B = (w r).B := by
  obtain ⟨root, hdraw, rfl⟩ := Option.map_eq_some_iff.mp h
  obtain ⟨rfl, -⟩ := drawGroups_eq_some_iff.mp hdraw
  exact ⟨⟨fun _ _ => rfl, fun _ _ => rfl⟩, fun _ => ⟨rfl, rfl, rfl⟩⟩

theorem groupsPrepare_completes {w' : World α} (h : groupsPrepare p w = some w') :
    (prepareGroups p.globalSize p.groupsCount p.rand).stopped = false := by
  obtain ⟨root, hdraw, -⟩ := Option.map_eq_some_iff.mp h
  obtain ⟨rfl, hstopped, -⟩ := drawGroups_eq_some_iff.mp hdraw
  exact hstopped

namespace Grouped

variable {r : Nat}

theorem self_mem (hr : r < p.globalSize) : r ∈ members p w (w r).groupNumber :=
  mem_members.mpr ⟨hr, rfl⟩

theorem rank_lt (h : Grouped p w) (hr : r < p.globalSize) : (w r).groupRank < (w r).groupSize := by
  rw [h.size r hr, h.rank r hr]
  exact List.idxOf_lt_length_of_mem (self_mem hr)

theorem member_eq (h : Grouped p w) (hr : r < p.globalSize) {j : Nat} (hj : j < (w r).groupSize) :
    (members p w (w r).groupNumber)[j]? = some (member p w r j) := by
  rw [h.size r hr] at hj
  rw [member, List.getElem?_eq_getElem hj, Option.getD_some]

/-- Member `j` of the group of `r` is a rank of that group. -/
theorem member_mem (h : Grouped p w) (hr : r < p.globalSize) {j : Nat}
    (hj : j < (w r).groupSize) :
    member p w r j < p.globalSize ∧ (w (member p w r j)).groupNumber = (w r).groupNumber :=
  mem_members.mp (List.mem_of_getElem? (h.member_eq hr hj))

theorem member_size (h : Grouped p w) (hr : r < p.globalSize) {j : Nat}
    (hj : j < (w r).groupSize) : (w (member p w r j)).groupSize = (w r).groupSize := by
  obtain ⟨hlt, hgroup⟩ := h.member_mem hr hj
  rw [h.size _ hlt, hgroup, h.size r hr]

/-- Member `j` of a group has the group rank `j`. -/
theorem member_rank (h : Grouped p w) (hr : r < p.globalSize) {j : Nat}
    (hj : j < (w r).groupSize) : (w (member p w r j)).groupRank = j := by
  obtain ⟨hlt, hgroup⟩ := h.member_mem hr hj
  have hget := h.member_eq hr hj
  rw [h.rank _ hlt, hgroup]
  obtain ⟨hj', hget⟩ := List.getElem?_eq_some_iff.mp hget
  rw [← hget]
  exact (members_nodup _).idxOf_getElem j hj'

/-- The members of a group in the order of their group ranks. -/
theorem members_eq (h : Grouped p w) (hr : r < p.globalSize) :
    members p w (w r).groupNumber = (List.range (w r).groupSize).map (member p w r) := by
  apply List.ext_getElem?
  intro j
  by_cases hj : j < (w r).groupSize
  · rw [h.member_eq hr hj, List.getElem?_map, List.getElem?_range hj, Option.map_some]
  · rw [List.getElem?_eq_none (by rw [← h.size r hr]; omega),
      List.getElem?_eq_none (by rw [List.length_map, List.length_range]; omega)]

/-- A group that has a rank has a root. -/
theorem exists_root (h : Grouped p w) (hr : r < p.globalSize) :
    ∃ q < p.globalSize, (w q).groupNumber = (w r).groupNumber ∧ (w q).groupRank = 0 := by
  have hpos : 0 < (w r).groupSize := Nat.lt_of_le_of_lt (Nat.zero_le _) (h.rank_lt hr)
  obtain ⟨hlt, hgroup⟩ := h.member_mem hr hpos
  exact ⟨_, hlt, hgroup, h.member_rank hr hpos⟩

end Grouped

/-! ## The arrays at the root -/

theorem fillScatter_loop (n : Nat) :
    ∀ i < n, (forLoop n (fillScatter p n) (fun _ => 0, fun _ => 0)).1 i = blockCells p.N n i ∧
      (forLoop n (fillScatter p n) (fun _ => 0, fun _ => 0)).2 i = offset (blockCells p.N n) i := by
  let P : Nat → (Nat → Nat) × (Nat → Nat) → Prop := fun m arrays =>
    ∀ i < m, arrays.1 i = blockCells p.N n i ∧ arrays.2 i = offset (blockCells p.N n) i
  refine forLoop_invariant (P := P) (fun i hi => absurd hi (Nat.not_lt_zero i)) ?_
  intro m arrays hm hP i hi
  have hsize : (fillScatter p n m arrays).1 m = blockCells p.N n m := by
    simp only [fillScatter, Function.update_self]
    rfl
  by_cases him : i = m
  · subst him
    refine ⟨hsize, ?_⟩
    cases i with
    | zero => simp [fillScatter]
    | succ i =>
      -- the running sum reads the two elements written before
      obtain ⟨hs, hd⟩ := hP i (Nat.lt_succ_self i)
      rw [offset_succ]
      simp [fillScatter, hs, hd]
  · obtain ⟨hs, hd⟩ := hP i (by omega)
    simp only [fillScatter, Function.update_of_ne him]
    exact ⟨hs, hd⟩

theorem scatterArrays_root {r : Process α} (h : r.groupRank = 0) {i : Nat} (hi : i < r.groupSize) :
    (scatterArrays p r).1 i = blockCells p.N r.groupSize i ∧
      (scatterArrays p r).2 i = offset (blockCells p.N r.groupSize) i := by
  rw [scatterArrays, if_pos h]
  exact fillScatter_loop r.groupSize i hi

/-! ## The blocks -/

/-- After the two `MPI_Scatter` each process knows the block of rows of its group rank. -/
theorem scatter_apply (h : Grouped p w) {r : Nat} (hr : r < p.globalSize) :
    (scatter p (prepareScatter p w) r).scatterSize =
        blockCells p.N (w r).groupSize (w r).groupRank ∧
      (scatter p (prepareScatter p w) r).scatterDisplacement =
        offset (blockCells p.N (w r).groupSize) (w r).groupRank := by
  have hlt := h.rank_lt hr
  have hpos : 0 < (w r).groupSize := by omega
  have hsize := h.member_size hr hpos
  have harrays := scatterArrays_root (p := p) (h.member_rank hr hpos) (i := (w r).groupRank)
    (by rwa [hsize])
  rw [hsize] at harrays
  exact harrays

/-- Each matrix cell that a process reads is that of rank `0`. -/
theorem prepareCalculate_apply {w : World α} (h₀ : (w 0).A = p.A ∧ (w 0).B = p.B) (r : Nat) :
    ∀ c < p.N * p.N,
      (prepareCalculate p w r).A c = p.A c ∧ (prepareCalculate p w r).B c = p.B c := by
  intro c hc
  simp only [prepareCalculate, h₀.1, h₀.2]
  rw [writeBlock_readBlock _ _ (Nat.zero_le c) (by omega),
    writeBlock_readBlock _ _ (Nat.zero_le c) (by omega), Nat.sub_zero, Nat.zero_add]
  exact ⟨rfl, rfl⟩

end Communicators

section

variable {α : Type*} [Add α] [Mul α] {p : Setup α} {w : World α}

/-- The strided loop is the loop over the rows of the block. -/
theorem scatterCalculateBlock_eq (hN : 0 < p.N) {r : Process α} {rows : Nat}
    (h : r.scatterSize = rows * p.N) (C : Nat → α) :
    scatterCalculateBlock p r C = multiplyRows rows p.N r.ABlock r.B C := by
  rw [scatterCalculateBlock, h, forStep_eq_forLoop hN]
  rfl

variable [Zero α]

/-- A process whose matrices are those of rank `0` computes its cells of the product. -/
theorem scatterCalculateBlock_apply (hN : 0 < p.N) {r : Process α} {n i : Nat} (hi : i < n)
    (hsize : r.scatterSize = blockCells p.N n i)
    (hdisp : r.scatterDisplacement = offset (blockCells p.N n) i)
    (hA : ∀ c < p.N * p.N, r.A c = p.A c) (hB : ∀ c < p.N * p.N, r.B c = p.B c) {k : Nat}
    (hk : k < blockCells p.N n i) :
    scatterCalculateBlock p r (fun _ => 0) k =
      entry p.N p.A p.B (offset (blockCells p.N n) i + k) := by
  have hoff : offset (blockCells p.N n) i = i * (p.N / n) * p.N := by
    rw [offset_blockRows p.N hi, offset_eq_row]
  have hend : offset (blockCells p.N n) i + blockCells p.N n i ≤ p.N * p.N := by
    rw [offset_blockRows p.N hi]
    exact part_end_le hi
  rw [scatterCalculateBlock_eq hN hsize, hoff]
  refine multiplyRows_shift hN (fun l hl => ?_) hB (fun _ _ => rfl) hk
  have hl' : l < blockCells p.N n i := hl
  rw [Process.ABlock, hdisp, hA _ (by omega), hoff]

/-! ## The gathered result -/

/-- The members' blocks, gathered at the running sums of their sizes, are the product. -/
theorem gather_product {n : Nat} (hn : 0 < n) {off : Nat → Nat} {size : Nat → Nat}
    {block : Nat → Nat → α} (hoff : ∀ i < n, off i = offset (blockCells p.N n) i)
    (hsize : ∀ i < n, size i = blockCells p.N n i)
    (hblock : ∀ i < n, ∀ k < blockCells p.N n i,
      block i k = entry p.N p.A p.B (offset (blockCells p.N n) i + k)) (C : Nat → α) {c : Nat}
    (hc : c < p.N * p.N) :
    gather off (fun i => readBlock (block i) 0 (size i)) n C c = entry p.N p.A p.B c := by
  have hgather : gather off (fun i => readBlock (block i) 0 (size i)) n C =
      gather (offset (blockCells p.N n)) (fun i => readBlock (block i) 0 (blockCells p.N n i)) n C :=
    gather_congr fun i hi => ⟨hoff i hi, by rw [hsize i hi]⟩
  rw [hgather]
  obtain ⟨i, hi, hle, hlt⟩ := exists_block (blockCells p.N n) (offset_all p.N hn ▸ hc)
  obtain ⟨k, rfl⟩ : ∃ k, c = offset (blockCells p.N n) i + k := ⟨_, (Nat.add_sub_cancel' hle).symm⟩
  have hk : k < blockCells p.N n i := by omega
  rw [(gather_readBlock (blockCells p.N n) block n C).1 i hi k hk, hblock i hi k hk]

/-! ## The file names -/

theorem rankNeeds_le_iff (g : Nat) : rankNeeds g ≤ rankSize ↔ g < 10 := by
  have hsuffix : suffix.length = 5 := rfl
  rw [← intText_length_le_one_iff, rankNeeds, fileName, List.length_append, hsuffix, rankSize]
  omega

/-- In a grouping that completes every group number occurs, and the names of all fit when these
have one digit. -/
theorem prepareGroups_fit_iff {globalSize : Nat} {groupsCount : Int} {rand : Nat → Nat}
    (hpos : 1 ≤ groupsCount) (hle : groupsCount ≤ globalSize)
    (hrun : (prepareGroups globalSize groupsCount rand).stopped = false) :
    (∀ r < globalSize,
        rankNeeds ((prepareGroups globalSize groupsCount rand).groupNumbers r) ≤ rankSize) ↔
      groupsCount ≤ 10 := by
  have hnumbers := (prepareGroups_parts hpos hle hrun).numbers
  constructor
  · intro hfit
    by_contra hmore
    obtain ⟨k, h₀, hk, hten⟩ := (hnumbers (10 : Nat)).mpr ⟨by omega, by omega⟩
    obtain ⟨r, rfl⟩ := Int.eq_ofNat_of_zero_le h₀
    have hlt := (rankNeeds_le_iff 10).mp (hten ▸ hfit r (by omega))
    omega
  · intro hten r hr
    obtain ⟨h₀, hlt⟩ := (hnumbers _).mp ⟨r, by omega, by omega, rfl⟩
    obtain ⟨g, hg⟩ := Int.eq_ofNat_of_zero_le h₀
    rw [hg] at hlt ⊢
    exact (rankNeeds_le_iff g).mpr (by omega)

/-- The names of the files of all processes fit into the array. -/
def NamesFit (p : Setup α) (w : World α) : Prop :=
  ∀ r < p.globalSize, rankNeeds (w r).groupNumber ≤ rankSize

omit [Add α] [Mul α] [Zero α] in
theorem saveBlocks_eq_some_iff {w' : World α} :
    saveBlocks p w = some w' ↔ NamesFit p w ∧ w = w' := by
  have hall : ((List.range p.globalSize).all fun r => (saveBlockToFile p r (w r)).isSome) = true ↔
      NamesFit p w := by
    simp [saveBlockToFile, NamesFit]
  rw [saveBlocks, Option.ite_none_right_eq_some, hall, Option.some.injEq]

/-- The numbers of the groups are known after the grouping, and no call changes them. -/
theorem scatterCalculate_eq_some_iff {w' : World α} :
    scatterCalculate p w = some w' ↔ NamesFit p w ∧
      gathered p (calculateBlocks p (scatter p (prepareScatter p w))) = w' := by
  have hfits : gathervFits p (calculateBlocks p (scatter p (prepareScatter p w))) = true := by
    refine List.all_eq_true.mpr fun r _ => ?_
    -- both sides are the element of the root's array that the member received
    exact decide_eq_true rfl
  rw [scatterCalculate, Option.bind_eq_bind, Option.bind_eq_some_iff]
  constructor
  · rintro ⟨v, hsave, hgather⟩
    obtain ⟨hnames, rfl⟩ := saveBlocks_eq_some_iff.mp hsave
    rw [gatherv, if_pos hfits] at hgather
    exact ⟨hnames, Option.some.inj hgather⟩
  · rintro ⟨hnames, rfl⟩
    exact ⟨_, saveBlocks_eq_some_iff.mpr ⟨hnames, rfl⟩, if_pos hfits⟩

/-! ## The program -/

/-- The memory of every rank when it calls `saveBlockToFile`. -/
def saving (p : Setup α) (w : World α) : World α :=
  calculateBlocks p (scatter p (prepareScatter p (prepareCalculate p w)))

theorem saving_groupNumber (p : Setup α) (w : World α) (r : Nat) :
    (saving p w r).groupNumber = (w r).groupNumber := rfl

theorem saving_groupRank (p : Setup α) (w : World α) (r : Nat) :
    (saving p w r).groupRank = (w r).groupRank := rfl

omit [Add α] [Mul α] [Zero α] in
theorem gathered_group (p : Setup α) (w : World α) (r : Nat) :
    (gathered p w r).groupNumber = (w r).groupNumber ∧
      (gathered p w r).groupRank = (w r).groupRank := ⟨rfl, rfl⟩

theorem run_eq_some_iff {w' : World α} :
    run p = some w' ↔ ∃ w, groupsPrepare p (start p) = some w ∧ NamesFit p w ∧
      gathered p (saving p w) = w' := by
  rw [run, Option.bind_eq_bind, Option.bind_eq_some_iff]
  simp only [scatterCalculate_eq_some_iff]
  rfl

/-- The draws neither stop the program nor write outside of the array, and the file names of
all group numbers fit. -/
def Setup.Defined (p : Setup α) : Prop :=
  ∃ root, drawGroups p = some root ∧
    ∀ r < p.globalSize, rankNeeds (root.groupNumbers r) ≤ rankSize

/-- When a run has a result. -/
theorem exists_run_iff : (∃ w, run p = some w) ↔ p.Defined := by
  simp only [run_eq_some_iff]
  constructor
  · rintro ⟨-, w, hprepare, hnames, rfl⟩
    obtain ⟨root, hdraw, rfl⟩ := Option.map_eq_some_iff.mp hprepare
    exact ⟨root, hdraw, hnames⟩
  · rintro ⟨root, hdraw, hnames⟩
    exact ⟨_, _, Option.map_eq_some_iff.mpr ⟨root, hdraw, rfl⟩, hnames, rfl⟩

/-- The arguments and the draws of a run that the grouping does not stop. -/
structure Setup.Completes (p : Setup α) : Prop where
  side : 1 ≤ p.N
  groups : 1 ≤ p.groupsCount
  groups_le : p.groupsCount ≤ p.globalSize
  grouped : (prepareGroups p.globalSize p.groupsCount p.rand).stopped = false

omit [Add α] [Mul α] [Zero α] in
/-- The tenth group is the last one whose file name fits. -/
theorem Setup.Completes.defined_iff (h : p.Completes) : p.Defined ↔ p.groupsCount ≤ 10 := by
  rw [← prepareGroups_fit_iff h.groups h.groups_le h.grouped]
  constructor
  · rintro ⟨root, hdraw, hnames⟩
    obtain ⟨rfl, -⟩ := drawGroups_eq_some_iff.mp hdraw
    exact hnames
  · intro hnames
    have hrange := (prepareGroups_parts h.groups h.groups_le h.grouped).inRange
    exact ⟨_, drawGroups_eq_some_iff.mpr ⟨rfl, h.grouped, hrange⟩, hnames⟩

theorem Setup.Completes.exists_run_iff (h : p.Completes) :
    (∃ w, run p = some w) ↔ p.groupsCount ≤ 10 :=
  Lab6.exists_run_iff.trans h.defined_iff

/-- `r` is the root of its group. -/
def IsRoot (p : Setup α) (w : World α) (r : Nat) : Prop :=
  r < p.globalSize ∧ (w r).groupRank = 0

/-- From processes that know their groups and hold the matrices, the calculation leaves the
product at each root. -/
theorem gathered_apply (hN : 0 < p.N) (h : Grouped p w)
    (hAB : ∀ r, ∀ c < p.N * p.N, (w r).A c = p.A c ∧ (w r).B c = p.B c) {r : Nat}
    (hroot : IsRoot p w r) {c : Nat} (hc : c < p.N * p.N) :
    (gathered p (calculateBlocks p (scatter p (prepareScatter p w))) r).CResult c =
      entry p.N p.A p.B c := by
  let v : World α := calculateBlocks p (scatter p (prepareScatter p w))
  have hv : ∀ r < p.globalSize, (v r).scatterSize = blockCells p.N (w r).groupSize (w r).groupRank :=
    fun r hr => (scatter_apply h hr).1
  obtain ⟨hr, hrank⟩ := hroot
  have hpos : 0 < (w r).groupSize := Nat.lt_of_le_of_lt (Nat.zero_le _) (h.rank_lt hr)
  rw [show (gathered p v r).CResult = _ from if_pos hrank]
  refine gather_product hpos (fun i hi => (scatterArrays_root hrank hi).2) (fun i hi => ?_)
    (fun i hi k hk => ?_) _ hc
  · obtain ⟨hlt, -⟩ := h.member_mem hr hi
    have hsize := hv _ hlt
    rwa [h.member_size hr hi, h.member_rank hr hi] at hsize
  · obtain ⟨hlt, -⟩ := h.member_mem hr hi
    obtain ⟨hsize, hdisp⟩ := scatter_apply h hlt
    rw [h.member_size hr hi, h.member_rank hr hi] at hsize hdisp
    exact scatterCalculateBlock_apply hN hi hsize hdisp (fun c hc => (hAB _ c hc).1)
      (fun c hc => (hAB _ c hc).2) hk

/-- What `scatterCalculate` leaves at row `r`, column `j` of the product. -/
theorem entry_cell {N r j : Nat} (A B : Nat → α) (hj : j < N) :
    entry N A B (r * N + j) =
      forLoop N (fun k v => v + A (r * N + k) * B (j * N + k)) 0 := by
  rw [entry, accumulate, cell_div hj, cell_mod hj]

/-- A run that reaches its end keeps the groups, each of which has a root, and every root ends
with the product. -/
theorem run_roots (hN : 1 ≤ p.N) (hrun : run p = some w) :
    (∀ r, (w r).groupNumber =
      (prepareGroups p.globalSize p.groupsCount p.rand).groupNumbers r) ∧
    (∀ r < p.globalSize, ∃ q, IsRoot p w q ∧ (w q).groupNumber = (w r).groupNumber) ∧
    ∀ r, IsRoot p w r → ∀ c < p.N * p.N, (w r).CResult c = entry p.N p.A p.B c := by
  obtain ⟨v, hprepare, -, rfl⟩ := run_eq_some_iff.mp hrun
  obtain ⟨hgrouped, hprepared⟩ := groupsPrepare_grouped hprepare
  have h₀ : (v 0).A = p.A ∧ (v 0).B = p.B := (hprepared 0).2
  have hgrouped' : Grouped p (prepareCalculate p v) := ⟨hgrouped.size, hgrouped.rank⟩
  simp only [IsRoot, gathered_group, saving_groupNumber, saving_groupRank]
  refine ⟨fun r => (hprepared r).1, fun r hr => ?_, fun r hroot c hc => ?_⟩
  · obtain ⟨q, hq, hnum, hrank⟩ := hgrouped.exists_root hr
    exact ⟨q, ⟨hq, hrank⟩, hnum⟩
  · exact gathered_apply hN hgrouped' (prepareCalculate_apply h₀) hroot hc

/-- In every run that reaches its end the roots hold the product. -/
theorem run_entries (hN : 1 ≤ p.N) (hrun : run p = some w) {q : Nat} (hq : IsRoot p w q) :
    ∀ c < p.N * p.N, (w q).CResult c = entry p.N p.A p.B c := (run_roots hN hrun).2.2 q hq

/-- In a grouping that completes every group has a root. -/
theorem exists_groupRoot (h : p.Completes) (hrun : run p = some w) {g : Nat}
    (hg : (g : Int) < p.groupsCount) : ∃ r, IsRoot p w r ∧ (w r).groupNumber = g := by
  obtain ⟨hnumber, hexists, -⟩ := run_roots h.side hrun
  obtain ⟨k, hk₀, hk, hkg⟩ := prepareGroups_occurs h.groups h.groups_le h.grouped g hg
  obtain ⟨n, rfl⟩ := Int.eq_ofNat_of_zero_le hk₀
  obtain ⟨q, hq, hnum⟩ := hexists n (by omega)
  exact ⟨q, hq, by rw [hnum, hnumber, ← hkg]⟩

end

/-! ## Five processes in two groups -/

/-- Five ranks, two groups, three rows; the first group gets two ranks. -/
def fiveInTwo : Setup Int where
  globalSize := 5
  groupsCount := 2
  N := 3
  rand := fun _ => 3
  A := fun c => c
  B := fun c => 9 - c
  mallocA := fun _ _ => 7
  mallocB := fun _ _ => 7
  mallocC := fun _ _ => 7

theorem fiveInTwo_completes : fiveInTwo.Completes :=
  ⟨by decide, by decide, by decide, by decide⟩

def thirteenInEleven : Setup Int where
  globalSize := 13
  groupsCount := 11
  N := 1
  rand := fun _ => 0
  A := fun _ => 2
  B := fun _ => 3
  mallocA := fun _ _ => 7
  mallocB := fun _ _ => 7
  mallocC := fun _ _ => 7

end Spolks.Lab6
