import Spolks.Lab6.Product

/-!
# `saveBlockToFile`: the name of the file

Each process appends its block to a file that is named after its group. The name is built in
an array of seven bytes, which has room for the suffix and one digit.

* `rank_inside_iff`: what lies behind the array is overwritten when the name needs more.
* `saveBlockToFile_lines`, `saving_lines`: the lines are the cells of the block, which in a
  run are cells of the product; `saving_product`: those of a group are all of them.
* `fileNames_fit_iff`: the names fit for at most ten groups.
-/

namespace Spolks.Lab6

open Lib Spolks.Matrix

section

variable {α : Type*}

/-! ## The array -/

theorem rank_eq (stack : Nat → UInt8) (g : Int) :
    rank stack g = writeBlock stack 0 (fileName g ++ [0]) := by
  rw [rank, strcat_strcpy (notMem_intText g) (Nat.lt_succ_self _), ← List.append_assoc, fileName]

/-- Whatever is there before, only the array is written exactly when it has room. -/
theorem rank_inside_iff (g : Int) :
    (∀ (stack : Nat → UInt8) c, rankSize ≤ c → rank stack g c = stack c) ↔
      rankNeeds g ≤ rankSize := by
  have hlen : (fileName g ++ [0]).length = rankNeeds g := List.length_append
  constructor
  · intro h
    by_contra hmore
    -- the terminator lies behind the array
    have hlast : (fileName g).length < (fileName g ++ [0]).length := by
      rw [hlen]
      exact Nat.lt_succ_self _
    have hover := h (fun _ => 1) (fileName g).length (by unfold rankNeeds at hmore; omega)
    rw [rank_eq, writeBlock_inside _ (Nat.zero_le _) (by omega)] at hover
    simp at hover
  · intro hfit stack c hc
    rw [rank_eq]
    exact writeBlock_outside _ (Or.inr (by omega))

/-! ## The lines -/

theorem forLoop_append {β : Type*} (n : Nat) (f : Nat → β) (xs : List β) :
    forLoop n (fun j xs => xs ++ [f j]) xs = xs ++ (List.range n).map f := by
  induction n with
  | zero => rw [forLoop_zero, List.range_zero, List.map_nil, List.append_nil]
  | succ n ih =>
    rw [forLoop_succ, ih, List.range_succ, List.map_append, List.append_assoc]
    rfl

/-- Every cell of the block is written, in order. -/
theorem saveBlockToFile_lines {p : Setup α} (hN : 0 < p.N) (globalRank : Nat) {r : Process α}
    {rows : Nat} (hfit : rankNeeds r.groupNumber ≤ rankSize) (h : r.scatterSize = rows * p.N) :
    saveBlockToFile p globalRank r = some (fileName r.groupNumber,
      (readBlock r.CBlock 0 r.scatterSize).map fun x => (globalRank, x)) := by
  have hrows : ∀ n, forLoop n (fun k lines => forLoop p.N
      (fun j lines => lines ++ [(globalRank, r.CBlock (k * p.N + j))]) lines) [] =
        (readBlock r.CBlock 0 (n * p.N)).map fun x => (globalRank, x) := by
    intro n
    induction n with
    | zero => rw [forLoop_zero, Nat.zero_mul]; rfl
    | succ n ih =>
      rw [forLoop_succ, ih, forLoop_append, Nat.succ_mul, readBlock_add, List.map_append,
        Nat.zero_add]
      congr 1
      rw [readBlock, List.map_map]
      rfl
  rw [saveBlockToFile, if_pos hfit, h, forStep_eq_forLoop hN, hrows]

end

/-! ## The groups of a run -/

section

variable {α : Type*} [Zero α] [Add α] [Mul α] {p : Setup α} {w v : World α}

/-- A process appends its cells of the product to the file of its group. -/
theorem saving_lines (hN : 0 < p.N) (h : groupsPrepare p (start p) = some w)
    (hnames : NamesFit p w) {r : Nat} (hr : r < p.globalSize) :
    saveBlockToFile p r (saving p w r) = some (fileName (w r).groupNumber,
      (readBlock (entry p.N p.A p.B) (offset (blockCells p.N (w r).groupSize) (w r).groupRank)
        (blockCells p.N (w r).groupSize (w r).groupRank)).map fun x => (r, x)) := by
  obtain ⟨hgrouped, hprepared⟩ := groupsPrepare_grouped h
  have h₀ : (w 0).A = p.A ∧ (w 0).B = p.B := (hprepared 0).2
  have hgrouped' : Grouped p (prepareCalculate p w) := ⟨hgrouped.size, hgrouped.rank⟩
  obtain ⟨hsize, hdisp⟩ := scatter_apply hgrouped' hr
  have hsize' : (saving p w r).scatterSize =
      blockCells p.N (w r).groupSize (w r).groupRank := hsize
  have hfit : rankNeeds (saving p w r).groupNumber ≤ rankSize := hnames r hr
  have hcells := prepareCalculate_apply (p := p) h₀ r
  have hblock : readBlock (saving p w r).CBlock 0 (saving p w r).scatterSize =
      readBlock (entry p.N p.A p.B) (offset (blockCells p.N (w r).groupSize) (w r).groupRank)
        (blockCells p.N (w r).groupSize (w r).groupRank) := by
    rw [hsize']
    refine readBlock_congr fun k hk => ?_
    rw [Nat.zero_add]
    exact scatterCalculateBlock_apply hN (hgrouped'.rank_lt hr) hsize hdisp
      (fun c hc => (hcells c hc).1) (fun c hc => (hcells c hc).2) hk
  rw [saveBlockToFile_lines hN r hfit hsize', hblock, saving_groupNumber]

/-- The cells of the members of a group, in the order of its communicator. -/
theorem members_cells (h : Grouped p w) {r : Nat} (hr : r < p.globalSize) :
    ((members p w (w r).groupNumber).flatMap fun q =>
        readBlock (entry p.N p.A p.B) (offset (blockCells p.N (w q).groupSize) (w q).groupRank)
          (blockCells p.N (w q).groupSize (w q).groupRank)) =
      readBlock (entry p.N p.A p.B) 0 (p.N * p.N) := by
  have hpos : 0 < (w r).groupSize := Nat.lt_of_le_of_lt (Nat.zero_le _) (h.rank_lt hr)
  have hcells : ∀ i ∈ List.range (w r).groupSize,
      readBlock (entry p.N p.A p.B)
          (offset (blockCells p.N (w (member p w r i)).groupSize) (w (member p w r i)).groupRank)
          (blockCells p.N (w (member p w r i)).groupSize (w (member p w r i)).groupRank) =
        readBlock (entry p.N p.A p.B) (offset (blockCells p.N (w r).groupSize) i)
          (blockCells p.N (w r).groupSize i) := by
    intro i hi
    have hi : i < (w r).groupSize := List.mem_range.mp hi
    rw [h.member_size hr hi, h.member_rank hr hi]
  rw [h.members_eq hr, List.flatMap_map, List.flatMap_congr hcells, flatMap_readBlock,
    offset_all p.N hpos]

/-- **What a group saves.** In every run that reaches its end each process appends its lines, each
with its rank, to the file of its group, and the cells of the members of a group in the order of
the ranks are those of the whole product. -/
theorem saving_product (hN : 1 ≤ p.N) (hrun : run p = some v) :
    ∃ (w : World α) (saved : Nat → List (Nat × α)),
      groupsPrepare p (start p) = some w ∧
      (∀ r < p.globalSize, (v r).groupNumber = (w r).groupNumber ∧
        saveBlockToFile p r (saving p w r) = some (fileName (w r).groupNumber, saved r) ∧
        ∀ line ∈ saved r, line.1 = r) ∧
      ∀ r < p.globalSize,
        ((members p w (w r).groupNumber).flatMap fun q => (saved q).map Prod.snd) =
          readBlock (entry p.N p.A p.B) 0 (p.N * p.N) := by
  obtain ⟨w, hprepare, hnames, rfl⟩ := run_eq_some_iff.mp hrun
  refine ⟨w, _, hprepare, fun r hr => ⟨rfl, saving_lines hN hprepare hnames hr, ?_⟩, fun r hr => ?_⟩
  · intro line hline
    obtain ⟨x, -, rfl⟩ := List.mem_map.mp hline
    rfl
  · rw [← members_cells (groupsPrepare_grouped hprepare).1 hr]
    refine List.flatMap_congr fun q _ => ?_
    rw [List.map_map]
    exact List.map_id _

/-- **When the file names fit.** After a grouping that completes, the names of all processes
fit into the array exactly when there are at most ten groups. -/
theorem fileNames_fit_iff (hpos : 1 ≤ p.groupsCount) (hle : p.groupsCount ≤ p.globalSize)
    (h : groupsPrepare p (start p) = some w) :
    (∀ r < p.globalSize, rankNeeds (saving p w r).groupNumber ≤ rankSize) ↔
      p.groupsCount ≤ 10 := by
  have hnumber := fun r => ((groupsPrepare_grouped h).2 r).1
  simp only [saving_groupNumber, hnumber]
  exact prepareGroups_fit_iff hpos hle (groupsPrepare_completes h)

end

/-- The second of the two groups of five processes. -/
theorem saving_product_fiveInTwo : ∃ v w, run fiveInTwo = some v ∧
    groupsPrepare fiveInTwo (start fiveInTwo) = some w ∧
    ∃ saved, saveBlockToFile fiveInTwo 4 (saving fiveInTwo w 4) =
        some (fileName (w 4).groupNumber, saved) ∧ ∀ line ∈ saved, line.1 = 4 := by
  obtain ⟨v, hv⟩ := fiveInTwo_completes.exists_run_iff.mpr (by decide)
  obtain ⟨w, saved, hw, hlines, -⟩ := saving_product (by decide) hv
  obtain ⟨-, hsave, hranks⟩ := hlines 4 (by decide)
  exact ⟨v, w, hv, hw, saved 4, hsave, hranks⟩

/-- The names of the two groups of five processes. -/
theorem fileNames_fit_fiveInTwo : ∃ w, groupsPrepare fiveInTwo (start fiveInTwo) = some w ∧
    ∀ r < 5, rankNeeds (saving fiveInTwo w r).groupNumber ≤ rankSize := by
  have hsome : (groupsPrepare fiveInTwo (start fiveInTwo)).isSome = true := by decide +kernel
  obtain ⟨w, hw⟩ := Option.isSome_iff_exists.mp hsome
  exact ⟨w, hw, (fileNames_fit_iff (by decide) (by decide) hw).mpr (by decide)⟩

/-- The last group has the number ten, whose file name takes eight bytes. -/
theorem fileNames_overflow :
    (∃ w, groupsPrepare thirteenInEleven (start thirteenInEleven) = some w ∧
      rankNeeds (saving thirteenInEleven w 12).groupNumber = 8) ∧
    ¬ ∀ (p : Setup Int) (w : World Int), 1 ≤ p.groupsCount → p.groupsCount ≤ p.globalSize →
      groupsPrepare p (start p) = some w →
        ∀ r < p.globalSize, rankNeeds (saving p w r).groupNumber ≤ rankSize := by
  have hsome : (groupsPrepare thirteenInEleven (start thirteenInEleven)).isSome = true := by
    decide +kernel
  obtain ⟨w, hw⟩ := Option.isSome_iff_exists.mp hsome
  have hlast : (prepareGroups 13 11 fun _ => 0).groupNumbers 12 = 10 := by decide +kernel
  have hten : (w 12).groupNumber = 10 := ((groupsPrepare_grouped hw).2 12).1.trans hlast
  have hneeds : rankNeeds (saving thirteenInEleven w 12).groupNumber = 8 := by
    rw [saving_groupNumber, hten]
    decide +kernel
  refine ⟨⟨w, hw, hneeds⟩, fun hall => ?_⟩
  have hle := hall thirteenInEleven w (by decide) (by decide) hw 12 (by decide)
  rw [hneeds, rankSize] at hle
  omega

end Spolks.Lab6
