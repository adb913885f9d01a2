import Mathlib.Logic.Function.Basic
import Mathlib.Tactic.Ring
import Spolks.Lib.Memory

/-!
# `groupsPrepare`: the random grouping of the ranks

Rank `0` gives each group but the last a random number of consecutive ranks and the last
group whatever is left. `prepareGroup` is the body of its loop over the groups and
`prepareGroups` the loop. `/` and `%` on `int` truncate (`Int.tdiv`, `Int.tmod`); a modulo
by zero stops the program (`stopped`). `rand i` is the result of the `i`-th call of
`rand()`, which iteration `i` makes. Integers are exact here.

* `GroupsInv.step`: what one iteration preserves.
* `prepareGroups_occurs`: in a grouping that completes every group has a rank.
-/

namespace Spolks.Lab6

open Lib

/-- The variables of `groupsPrepare` in rank `0`. -/
structure Groups where
  availableRanks : Int
  nextGroupRank : Int
  groupNumbers : Int → Int
  /-- The indices at which `group_numbers` has been written, in order. -/
  written : List Int
  /-- The program has stopped at a modulo by zero. -/
  stopped : Bool

namespace Groups

/-- `group_numbers[j] = v`. -/
def assign (s : Groups) (j v : Int) : Groups :=
  { s with groupNumbers := Function.update s.groupNumbers j v, written := s.written ++ [j] }

theorem assign_apply (s : Groups) (j v k : Int) :
    (s.assign j v).groupNumbers k = if k = j then v else s.groupNumbers k :=
  Function.update_apply ..

/-- `n` assignments of `v` from index `start` on. -/
def assignRange (s : Groups) (start : Int) (n : Nat) (v : Int) : Groups :=
  forLoop n (fun j s => s.assign (start + j) v) s

end Groups

/-- Iteration `i` of the loop over the groups. -/
def prepareGroup (globalSize groupsCount : Int) (rand : Nat → Nat) (i : Nat) (s : Groups) :
    Groups :=
  if s.stopped then s
  else if (i : Int) ≠ groupsCount - 1 then
    let divisor := (s.availableRanks * 2).tdiv 3
    if divisor = 0 then { s with stopped := true }
    else
      let randomGroupModifier := Int.tmod (rand i) divisor
      let randomGroupSize := 1 + randomGroupModifier
      let s' := s.assignRange s.nextGroupRank randomGroupSize.toNat i
      { s' with
        availableRanks := s.availableRanks - randomGroupModifier
        nextGroupRank := s.nextGroupRank + randomGroupSize }
  else
    s.assignRange s.nextGroupRank (globalSize - s.nextGroupRank).toNat (groupsCount - 1)

/-- What rank `0` has before the loop; `calloc` has cleared `group_numbers`. -/
def groupsStart (globalSize groupsCount : Int) : Groups where
  availableRanks := globalSize - groupsCount
  nextGroupRank := 0
  groupNumbers := fun _ => 0
  written := []
  stopped := false

/-- The loop of `groupsPrepare` over the groups. -/
def prepareGroups (globalSize groupsCount : Int) (rand : Nat → Nat) : Groups :=
  forLoop groupsCount.toNat (prepareGroup globalSize groupsCount rand)
    (groupsStart globalSize groupsCount)

/-- The variables of rank `0` before iteration `i`. -/
def before (globalSize groupsCount : Int) (rand : Nat → Nat) (i : Nat) : Groups :=
  forLoop i (prepareGroup globalSize groupsCount rand) (groupsStart globalSize groupsCount)

/-- `available_ranks * 2 / 3`, by which an iteration other than the last one divides. -/
def divisor (s : Groups) : Int := (s.availableRanks * 2).tdiv 3

/-- The random part of the size of a group. -/
def modifier (rand : Nat → Nat) (i : Nat) (s : Groups) : Int := Int.tmod (rand i) (divisor s)

/-- Every write has been one into the array. -/
def InRange (globalSize : Int) (s : Groups) : Prop := ∀ k ∈ s.written, 0 ≤ k ∧ k < globalSize

instance (globalSize : Int) (s : Groups) : Decidable (InRange globalSize s) :=
  inferInstanceAs (Decidable (∀ k ∈ s.written, 0 ≤ k ∧ k < globalSize))

/-! ## The inner loops -/

namespace Groups

theorem assignRange_succ (s : Groups) (start : Int) (n : Nat) (v : Int) :
    s.assignRange start (n + 1) v = (s.assignRange start n v).assign (start + n) v :=
  forLoop_succ ..

@[simp] theorem assignRange_stopped (s : Groups) (start : Int) (n : Nat) (v : Int) :
    (s.assignRange start n v).stopped = s.stopped := by
  induction n with
  | zero => rfl
  | succ n ih =>
    rw [assignRange_succ]
    exact ih

theorem assignRange_written (s : Groups) (start : Int) (n : Nat) (v : Int) :
    (s.assignRange start n v).written =
      s.written ++ (List.range n).map fun j : Nat => start + j := by
  induction n with
  | zero => simp [assignRange]
  | succ n ih =>
    rw [assignRange_succ, List.range_succ, List.map_append, ← List.append_assoc, ← ih]
    rfl

theorem assignRange_apply (s : Groups) (start : Int) (n : Nat) (v k : Int) :
    (s.assignRange start n v).groupNumbers k =
      if start ≤ k ∧ k < start + n then v else s.groupNumbers k := by
  induction n with
  | zero =>
    rw [if_neg (by omega)]
    rfl
  | succ n ih =>
    rw [assignRange_succ, assign_apply, ih]
    by_cases hk : k = start + n
    · rw [if_pos hk, if_pos (by omega)]
    · rw [if_neg hk]
      by_cases hlt : start ≤ k ∧ k < start + n
      · rw [if_pos hlt, if_pos (by omega)]
      · rw [if_neg hlt, if_neg (by omega)]

end Groups

section

variable {globalSize groupsCount : Int} {rand : Nat → Nat} {i : Nat} {s : Groups}

/-! ## One iteration -/

theorem prepareGroup_stopped (h : s.stopped = true) :
    (prepareGroup globalSize groupsCount rand i s).stopped = true := by
  rw [prepareGroup, if_pos h]
  exact h

theorem before_succ (globalSize groupsCount : Int) (rand : Nat → Nat) (i : Nat) :
    before globalSize groupsCount rand (i + 1) =
      prepareGroup globalSize groupsCount rand i (before globalSize groupsCount rand i) :=
  forLoop_succ ..

theorem prepareGroup_stop (hs : s.stopped = false) (hi : (i : Int) < groupsCount - 1)
    (hd : divisor s = 0) :
    prepareGroup globalSize groupsCount rand i s = { s with stopped := true } := by
  rw [prepareGroup, if_neg (by simp [hs]), if_pos (show (i : Int) ≠ groupsCount - 1 by omega)]
  exact if_pos hd

/-- An iteration before the last one hands out the next `1 + modifier` ranks. -/
theorem prepareGroup_draw (hs : s.stopped = false) (hi : (i : Int) < groupsCount - 1)
    (hd : divisor s ≠ 0) :
    prepareGroup globalSize groupsCount rand i s =
      { s.assignRange s.nextGroupRank (1 + modifier rand i s).toNat i with
        availableRanks := s.availableRanks - modifier rand i s
        nextGroupRank := s.nextGroupRank + (1 + modifier rand i s) } := by
  rw [prepareGroup, if_neg (by simp [hs]), if_pos (show (i : Int) ≠ groupsCount - 1 by omega)]
  exact if_neg hd

theorem prepareGroup_last (hs : s.stopped = false) (hi : (i : Int) = groupsCount - 1) :
    prepareGroup globalSize groupsCount rand i s =
      s.assignRange s.nextGroupRank (globalSize - s.nextGroupRank).toNat (groupsCount - 1) := by
  rw [prepareGroup, if_neg (by simp [hs]), if_neg (by omega)]

/-- The whole loop is the iterations before the last one, and the last one. -/
theorem prepareGroups_eq (globalSize : Int) (rand : Nat → Nat) (hpos : 1 ≤ groupsCount) :
    ∃ n : Nat, (n : Int) = groupsCount - 1 ∧ prepareGroups globalSize groupsCount rand =
      prepareGroup globalSize groupsCount rand n (before globalSize groupsCount rand n) := by
  refine ⟨(groupsCount - 1).toNat, by omega, ?_⟩
  rw [← before_succ, show (groupsCount - 1).toNat + 1 = groupsCount.toNat by omega]
  rfl

/-- A grouping that has not stopped after `j` iterations had not stopped before. -/
theorem before_not_stopped {i j : Nat}
    (h : (before globalSize groupsCount rand j).stopped = false) (hij : i ≤ j) :
    (before globalSize groupsCount rand i).stopped = false := by
  induction j with
  | zero =>
    obtain rfl : i = 0 := by omega
    exact h
  | succ j ih =>
    rcases Nat.le_succ_iff.mp hij with hlt | rfl
    · apply ih _ hlt
      by_contra hstopped
      rw [before_succ, prepareGroup_stopped (by simpa using hstopped)] at h
      cases h
    · exact h

/-! ## The cells that are not written -/

/-- What has not been written is as `calloc` has left it. -/
def Cleared (s : Groups) : Prop := ∀ k, k ∉ s.written → s.groupNumbers k = 0

theorem Cleared.assignRange (h : Cleared s) (start : Int) (n : Nat) (v : Int) :
    Cleared (s.assignRange start n v) := by
  intro k hk
  rw [Groups.assignRange_written, List.mem_append, not_or] at hk
  rw [Groups.assignRange_apply, if_neg, h k hk.1]
  rintro ⟨hlo, hhi⟩
  exact hk.2 (List.mem_map.mpr ⟨(k - start).toNat, List.mem_range.mpr (by omega), by omega⟩)

theorem Cleared.step (h : Cleared s) (globalSize groupsCount : Int) (rand : Nat → Nat) (i : Nat) :
    Cleared (prepareGroup globalSize groupsCount rand i s) := by
  unfold prepareGroup
  simp only
  split
  · exact h
  split
  · split
    · exact h
    · exact h.assignRange _ _ _
  · exact h.assignRange _ _ _

theorem prepareGroups_cleared (globalSize groupsCount : Int) (rand : Nat → Nat) :
    Cleared (prepareGroups globalSize groupsCount rand) :=
  forLoop_invariant (P := fun _ s => Cleared s) (fun _ _ => rfl)
    fun i _ _ h => h.step globalSize groupsCount rand i

/-! ## The loop over the groups -/

/-- Before iteration `i` of a run that has not stopped: each group has at least one rank
left to take, and each group before `i` has taken a rank below `next_group_rank`. -/
structure GroupsInv (globalSize groupsCount : Int) (i : Nat) (s : Groups) : Prop where
  available : 0 ≤ s.availableRanks
  next : s.nextGroupRank = globalSize - s.availableRanks - (groupsCount - i)
  next_nonneg : 0 ≤ s.nextGroupRank
  occurs : ∀ g : Nat, g < i → ∃ k, 0 ≤ k ∧ k < s.nextGroupRank ∧ s.groupNumbers k = g

theorem groupsInv_start (hle : groupsCount ≤ globalSize) :
    GroupsInv globalSize groupsCount 0 (groupsStart globalSize groupsCount) := by
  refine ⟨?_, ?_, Int.le_refl 0, fun g hg => absurd hg (Nat.not_lt_zero g)⟩
  · show 0 ≤ globalSize - groupsCount
    omega
  · show 0 = globalSize - (globalSize - groupsCount) - (groupsCount - ((0 : Nat) : Int))
    omega

/-- The random part of a group's size is not negative and leaves ranks to spare. -/
theorem modifier_bounds (h : 0 ≤ s.availableRanks) (hd : divisor s ≠ 0) (rand : Nat → Nat)
    (i : Nat) :
    0 ≤ modifier rand i s ∧ modifier rand i s < divisor s ∧ divisor s ≤ s.availableRanks := by
  have hdiv : divisor s = s.availableRanks * 2 / 3 := Int.tdiv_eq_ediv_of_nonneg (by omega)
  have hpos : 0 < divisor s := by omega
  exact ⟨Int.tmod_nonneg _ (Int.natCast_nonneg (rand i)), Int.tmod_lt_of_pos _ hpos, by omega⟩

/-- An iteration before the last one that does not stop takes at least one rank. -/
theorem GroupsInv.step (h : GroupsInv globalSize groupsCount i s) (hi : (i : Int) < groupsCount - 1)
    (hs : s.stopped = false) (hd : divisor s ≠ 0) :
    GroupsInv globalSize groupsCount (i + 1) (prepareGroup globalSize groupsCount rand i s) := by
  obtain ⟨h₀, hlt, hle⟩ := modifier_bounds h.available hd rand i
  rw [prepareGroup_draw hs hi hd]
  generalize modifier rand i s = r at h₀ hlt hle
  have hnext := h.next
  have hpos := h.next_nonneg
  refine ⟨by show 0 ≤ s.availableRanks - r; omega, ?_, ?_, fun g hg => ?_⟩
  · show s.nextGroupRank + (1 + r) =
      globalSize - (s.availableRanks - r) - (groupsCount - ((i + 1 : Nat) : Int))
    omega
  · show 0 ≤ s.nextGroupRank + (1 + r)
    omega
  · show ∃ k, 0 ≤ k ∧ k < s.nextGroupRank + (1 + r) ∧
      (s.assignRange s.nextGroupRank (1 + r).toNat i).groupNumbers k = g
    by_cases hgi : g = i
    · -- the first rank that this iteration hands out
      refine ⟨s.nextGroupRank, hpos, by omega, ?_⟩
      rw [Groups.assignRange_apply, if_pos (by omega), hgi]
    · obtain ⟨k, hk₀, hk, hkg⟩ := h.occurs g (by omega)
      refine ⟨k, hk₀, by omega, ?_⟩
      rw [Groups.assignRange_apply, if_neg (by omega), hkg]

/-- An iteration after which the program has not stopped has not divided by zero. -/
theorem divisor_ne_zero (hi : (i : Int) < groupsCount - 1)
    (hrun : (before globalSize groupsCount rand (i + 1)).stopped = false) :
    divisor (before globalSize groupsCount rand i) ≠ 0 := by
  intro hd
  have hs := before_not_stopped hrun (Nat.le_succ i)
  rw [before_succ, prepareGroup_stop hs hi hd] at hrun
  cases hrun

/-- The invariant before an iteration that is reached. -/
theorem groupsInv_before (hle : groupsCount ≤ globalSize) :
    ∀ i : Nat, (i : Int) ≤ groupsCount - 1 →
      (before globalSize groupsCount rand i).stopped = false →
      GroupsInv globalSize groupsCount i (before globalSize groupsCount rand i) := by
  intro i
  induction i with
  | zero => exact fun _ _ => groupsInv_start hle
  | succ i ih =>
    intro hi hrun
    have hs := before_not_stopped hrun (Nat.le_succ i)
    have hd := divisor_ne_zero (show (i : Int) < groupsCount - 1 by omega) hrun
    rw [before_succ]
    exact (ih (by omega) hs).step (by omega) hs hd

/-- On fewer than `2 ^ 30` processes no `int` of the loop overflows. -/
theorem GroupsInv.fits (h : GroupsInv globalSize groupsCount i s) (hi : (i : Int) < groupsCount)
    (hsize : globalSize < 1073741824) :
    s.availableRanks * 2 < 2147483648 ∧ s.nextGroupRank ≤ globalSize := by
  have hnext := h.next
  have hav := h.available
  have hnn := h.next_nonneg
  omega

/-- **No empty group.** When the grouping completes, every group number is that of some
rank. -/
theorem prepareGroups_occurs (hpos : 1 ≤ groupsCount) (hle : groupsCount ≤ globalSize)
    (hrun : (prepareGroups globalSize groupsCount rand).stopped = false) (g : Nat)
    (hg : (g : Int) < groupsCount) :
    ∃ k, 0 ≤ k ∧ k < globalSize ∧
      (prepareGroups globalSize groupsCount rand).groupNumbers k = g := by
  obtain ⟨n, hn, heq⟩ := prepareGroups_eq globalSize rand hpos
  rw [heq, ← before_succ] at hrun
  have hs := before_not_stopped hrun (Nat.le_succ n)
  have h := groupsInv_before hle n (by omega) hs
  rw [heq, prepareGroup_last hs hn]
  generalize before globalSize groupsCount rand n = s at h
  have hnext := h.next
  have hav := h.available
  have hnn := h.next_nonneg
  by_cases hgn : g = n
  · -- the last group takes the ranks from next_group_rank on
    refine ⟨s.nextGroupRank, hnn, by omega, ?_⟩
    rw [Groups.assignRange_apply, if_pos (by omega), hgn, hn]
  · obtain ⟨k, hk₀, hk, hkg⟩ := h.occurs g (by omega)
    refine ⟨k, hk₀, by omega, ?_⟩
    rw [Groups.assignRange_apply, if_neg (by omega), hkg]

end

end Spolks.Lab6
