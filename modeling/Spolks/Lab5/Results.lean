import Mathlib.Order.Interval.Finset.Nat
import Spolks.Lab5.Sync

/-!
# The blocks of the result

The blocks of the workers tile the matrix, so it does not matter in which order the master
receives them.

* `pairwiseDisjoint_block`, `biUnion_block`: the tiling.
* `writeBlocks_order`, `writtenCells_order`: blocks of results in any order.
* `exec_outside`: no run writes behind the matrix.
* `exec_result`: a run writes each block once, in the order of its deliveries, and leaves
  what the order of the workers would leave.
-/

namespace Spolks.Lab5

open Lib Spolks.Matrix

section

variable {α : Type*} {p : Setup α}

/-- The cells of the block of worker `i`. -/
def block (p : Setup α) (i : Nat) : Finset Nat :=
  Finset.Ico (workerOffset p i) (workerOffset p i + workerBlockSize p i * p.N)

/-- One list for each worker, as long as its block. -/
def ResultBlocks (p : Setup α) (data : Nat → List α) : Prop :=
  ∀ i < p.workersCount, (data i).length = workerBlockSize p i * p.N

/-- The offset of a worker is the sum of the sizes before it. -/
theorem workerOffset_eq {i : Nat} (hi : i < p.workersCount) :
    workerOffset p i = offset (blockCells p.N p.workersCount) i :=
  (offset_blockRows p.N hi).symm

theorem pairwiseDisjoint_block (p : Setup α) :
    (Finset.range p.workersCount : Set Nat).PairwiseDisjoint (block p) := by
  have hlt : ∀ i j, i < j → j < p.workersCount → Disjoint (block p i) (block p j) := by
    intro i j hij hj
    apply Finset.disjoint_left.mpr
    intro c hci hcj
    have hend : c < workerOffset p i + workerBlockSize p i * p.N := (Finset.mem_Ico.mp hci).2
    have hstart : workerOffset p j ≤ c := (Finset.mem_Ico.mp hcj).1
    have hle : workerOffset p i + workerBlockSize p i * p.N ≤ workerOffset p j := part_le hj hij
    omega
  intro i hi j hj hij
  have hi' : i < p.workersCount := Finset.mem_range.mp hi
  have hj' : j < p.workersCount := Finset.mem_range.mp hj
  rcases Nat.lt_or_gt_of_ne hij with h | h
  · exact hlt i j h hj'
  · exact (hlt j i h hi').symm

theorem biUnion_block (hw : 0 < p.workersCount) :
    (Finset.range p.workersCount).biUnion (block p) = Finset.range (p.N * p.N) := by
  ext c
  simp only [Finset.mem_biUnion, Finset.mem_range, block, Finset.mem_Ico]
  constructor
  · rintro ⟨i, hi, -, hlt⟩
    have hle : workerOffset p i + workerBlockSize p i * p.N ≤ p.N * p.N := part_end_le hi
    exact Nat.lt_of_lt_of_le hlt hle
  · exact fun hc => exists_part p.N hw hc

/-! ## Any order -/

variable {data : Nat → List α} {order : List Nat}

theorem mem_order (horder : order.Perm (List.range p.workersCount)) {i : Nat} :
    i ∈ order ↔ i < p.workersCount := horder.mem_iff.trans List.mem_range

theorem ResultBlocks.apart (h : ResultBlocks p data)
    (horder : order.Perm (List.range p.workersCount)) :
    Apart (workerOffset p) data order := by
  have hlen : ∀ i ∈ order, (data i).length = blockCells p.N p.workersCount i :=
    fun i hi => h i ((mem_order horder).mp hi)
  intro i hi j hj hij
  have hapart := apart_offset hlen i hi j hj hij
  rwa [← workerOffset_eq ((mem_order horder).mp hi), ← workerOffset_eq ((mem_order horder).mp hj)]
    at hapart

/-- The blocks can be written in any order. -/
theorem ResultBlocks.writeBlocks_order (h : ResultBlocks p data)
    (horder : order.Perm (List.range p.workersCount)) (C : Nat → α) :
    writeBlocks (workerOffset p) data order C = gather (workerOffset p) data p.workersCount C := by
  rw [gather_eq_writeBlocks, writeBlocks_perm horder (h.apart horder)]

/-- Each cell of the matrix is written once. -/
theorem ResultBlocks.writtenCells_order (h : ResultBlocks p data) (hw : 0 < p.workersCount)
    (horder : order.Perm (List.range p.workersCount)) :
    (writtenCells (workerOffset p) data order).Perm (List.range (p.N * p.N)) := by
  have hcells : writtenCells (workerOffset p) data order =
      writtenCells (offset (blockCells p.N p.workersCount)) data order := by
    refine List.flatMap_congr fun i hi => ?_
    rw [workerOffset_eq ((mem_order horder).mp hi)]
  rw [hcells, ← offset_all p.N hw]
  exact writtenCells_perm h horder

/-! ## The deliveries of a run -/

/-- The workers whose results a run delivers, in this order. -/
def delivered (es : List Event) : List Nat :=
  es.filterMap fun e => match e with
    | .deliver i => some i
    | _ => none

/-- What the master has received is the same. -/
def SameResult (s s' : State α) : Prop := s'.C = s.C ∧ s'.received = s.received

variable {s s' : State α}

theorem masterStep_sameResult (hstep : masterStep p s = some s') : SameResult s s' := by
  unfold masterStep at hstep
  split at hstep
  · cases hstep
    exact ⟨rfl, rfl⟩
  · split at hstep <;> cases hstep
    exact ⟨rfl, rfl⟩
  · rename_i t i hpc
    split at hstep
    · cases hstep
      have hcall := masterCall_isCall (p := p) s t i
      exact ⟨hcall.c, hcall.received⟩
    · split at hstep <;> cases hstep
      exact ⟨rfl, rfl⟩
  · split at hstep <;> cases hstep
    exact ⟨rfl, rfl⟩
  · cases hstep

theorem readStep_sameResult {c : Chan} (hstep : readStep p s c = some s') : SameResult s s' := by
  unfold readStep at hstep
  split at hstep <;> cases hstep
  exact ⟨rfl, rfl⟩

end

section

variable {α : Type*} [Zero α] [Add α] [Mul α] {p : Setup α} {s s' : State α}

theorem workerStep_sameResult {i : Nat} (hstep : workerStep p s i = some s') :
    SameResult s s' := by
  unfold workerStep at hstep
  simp only at hstep
  -- every branch that is a step changes its worker, the channels or the flag
  repeat' split at hstep
  all_goals cases hstep
  all_goals exact ⟨rfl, rfl⟩

/-- The block that worker `i` sends. -/
def resultBlock (p : Setup α) (i : Nat) : List α :=
  readBlock (entry p.N p.A p.B) (workerOffset p i) (workerBlockSize p i * p.N)

theorem resultBlocks_resultBlock (p : Setup α) : ResultBlocks p (resultBlock p) :=
  fun _ _ => readBlock_length ..

/-- A run from `s` to `s'` stores the blocks that it delivers, none of which is there before
or comes twice. -/
structure Delivers (p : Setup α) (es : List Event) (s s' : State α) : Prop where
  c : s'.C = writeBlocks (workerOffset p) (resultBlock p) (delivered es) s.C
  once : (delivered es).Nodup
  fresh : ∀ i ∈ delivered es, i < p.workersCount ∧ s.received i = false
  received : ∀ i, s'.received i = true ↔ s.received i = true ∨ i ∈ delivered es

theorem Delivers.nil (s : State α) : Delivers p [] s s where
  c := rfl
  once := List.nodup_nil
  fresh := fun _ hi => absurd hi List.not_mem_nil
  received := fun _ => (or_iff_left List.not_mem_nil).symm

/-- A step that delivers nothing. -/
theorem Delivers.quiet {t : State α} {e : Event} {es : List Event} (h : Delivers p es t s')
    (he : delivered (e :: es) = delivered es) (hsame : SameResult s t) :
    Delivers p (e :: es) s s' := by
  obtain ⟨hC, hreceived⟩ := hsame
  constructor
  · rw [he, ← hC, h.c]
  · rw [he]
    exact h.once
  · rw [he, ← hreceived]
    exact h.fresh
  · rw [he, ← hreceived]
    exact h.received

/-- A delivery of a block that was not there. -/
theorem Delivers.deliver {t : State α} {i : Nat} {es : List Event} (h : Delivers p es t s')
    (hi : i < p.workersCount) (hnew : s.received i = false)
    (hC : t.C = writeBlock s.C (workerOffset p i) (resultBlock p i))
    (hreceived : t.received = Function.update s.received i true) :
    Delivers p (.deliver i :: es) s s' := by
  have hcons : delivered (.deliver i :: es) = i :: delivered es := rfl
  have hfresh := h.fresh
  rw [hreceived] at hfresh
  have hnotMem : i ∉ delivered es := by
    intro hmem
    have hfalse := (hfresh i hmem).2
    rw [Function.update_self] at hfalse
    cases hfalse
  constructor
  · rw [h.c, hC, hcons]
    rfl
  · rw [hcons]
    exact List.nodup_cons.mpr ⟨hnotMem, h.once⟩
  · intro j hj
    rw [hcons] at hj
    rcases List.mem_cons.mp hj with rfl | hj
    · exact ⟨hi, hnew⟩
    · have hji : j ≠ i := fun he => hnotMem (he ▸ hj)
      have hold := hfresh j hj
      rwa [Function.update_of_ne hji] at hold
  · intro j
    rw [h.received, hreceived, hcons, List.mem_cons]
    by_cases hji : j = i
    · simp [hji]
    · simp [hji]

variable (hN : 0 < p.N) (hw : 0 < p.workersCount) (hs : SizesSettled p)

include hN hw hs

theorem exec_delivers {es : List Event} (h : Inv p s) (hrun : exec (step p) s es = some s') :
    Delivers p es s s' := by
  induction es generalizing s with
  | nil =>
    cases hrun
    exact Delivers.nil _
  | cons e es ih =>
    obtain ⟨t, ht, hrest⟩ := exec_cons_iff.mp hrun
    have hnext := ih (h.of_step hN hw hs ht) hrest
    unfold step at ht
    rw [if_neg (by rw [h.running]; decide)] at ht
    cases e with
    | master => exact hnext.quiet rfl (masterStep_sameResult ht)
    | worker i =>
      simp only at ht
      split at ht
      · exact hnext.quiet rfl (workerStep_sameResult ht)
      · cases ht
    | read c => exact hnext.quiet rfl (readStep_sameResult ht)
    | deliver i =>
      obtain ⟨hi, -, hnew, -, rfl⟩ := h.deliverStep_eq ht
      exact hnext.deliver hi hnew rfl rfl

/-- In no run is anything written behind the matrix. -/
theorem exec_outside {es : List Event} (hrun : exec (step p) (init p) es = some s) {c : Nat}
    (hc : p.N * p.N ≤ c) : s.C c = 0 := by
  have hrun' : Delivers p es (init p) s := exec_delivers hN hw hs (inv_init p) hrun
  rw [hrun'.c]
  refine writeBlocks_of_notMem fun hmem => ?_
  obtain ⟨i, hi, hmem⟩ := List.mem_flatMap.mp hmem
  have hi' : i < p.workersCount := (hrun'.fresh i hi).1
  rw [List.mem_range'_1, resultBlocks_resultBlock p i hi'] at hmem
  have hend : workerOffset p i + workerBlockSize p i * p.N ≤ p.N * p.N := part_end_le hi'
  omega

/-- **The order of the deliveries.** When the master has its last result, the run has delivered
each block once, and the result is that of storing them in the order of the workers. -/
theorem exec_result {es : List Event} (hrun : exec (step p) (init p) es = some s)
    (hr : ResultsReceived p s) :
    (delivered es).Perm (List.range p.workersCount) ∧
      s.C = gather (workerOffset p) (resultBlock p) p.workersCount fun _ => 0 := by
  have hrun' : Delivers p es (init p) s := exec_delivers hN hw hs (inv_init p) hrun
  have hI : Inv p s := inv_of_reached hN hw hs ⟨init p, rfl, es, hrun⟩
  have hperm : (delivered es).Perm (List.range p.workersCount) := by
    refine (List.perm_ext_iff_of_nodup hrun'.once List.nodup_range).mpr fun i => ?_
    rw [List.mem_range]
    constructor
    · exact fun hi => (hrun'.fresh i hi).1
    · intro hi
      have hdone := (hrun'.received i).mp (hI.received_of_results hr hi)
      have hbefore : (init p).received i = false := rfl
      exact hdone.resolve_left (by rw [hbefore]; decide)
  exact ⟨hperm, hrun'.c.trans ((resultBlocks_resultBlock p).writeBlocks_order hperm _)⟩

end

theorem exec_result_threeByTwo : (delivered syncEvents).Perm [0, 1] := by
  have hr : ResultsReceived (threeByTwo false) syncFinal := Or.inl (by decide +kernel)
  exact (exec_result (by simp [threeByTwo]) (by simp [threeByTwo]) (Or.inl rfl)
    (Option.some_get syncEvents_run).symm hr).1

end Spolks.Lab5
