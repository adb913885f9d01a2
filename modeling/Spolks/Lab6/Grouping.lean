import Mathlib.Data.List.Nodup
import Spolks.Lab6.Groups

/-!
# The groups partition the ranks

* `divisor_zero_iff`: for which arguments `groupsPrepare` divides by zero. A divisor that is
  positive stays positive: two available ranks never become one.
* `prepareGroups_partition`: a grouping that completes gives every rank a group, in blocks
  of consecutive ranks, and every group a rank.
-/

namespace Spolks.Lab6

open Lib

variable {globalSize groupsCount : Int} {rand : Nat → Nat} {i : Nat} {s : Groups}

/-! ## The divisor -/

theorem divisor_pos (h : 2 ≤ s.availableRanks) : 0 < divisor s := by
  rw [divisor, Int.tdiv_eq_ediv_of_nonneg (by omega)]
  omega

theorem divisor_eq_zero (h₀ : 0 ≤ s.availableRanks) (h : s.availableRanks < 2) :
    divisor s = 0 := by
  rw [divisor, Int.tdiv_eq_ediv_of_nonneg (by omega)]
  omega

/-- A group takes at most two thirds of the ranks to spare, less one. -/
theorem two_le_sub_modifier (h : 2 ≤ s.availableRanks) (rand : Nat → Nat) (i : Nat) :
    2 ≤ s.availableRanks - modifier rand i s := by
  have hd : divisor s = s.availableRanks * 2 / 3 := Int.tdiv_eq_ediv_of_nonneg (by omega)
  have hlt : modifier rand i s < divisor s := Int.tmod_lt_of_pos _ (divisor_pos h)
  omega

/-- With two ranks to spare at the start there are two before every iteration. -/
theorem before_available (rand : Nat → Nat) (h : 2 ≤ globalSize - groupsCount) :
    ∀ i : Nat, (i : Int) ≤ groupsCount - 1 →
      (before globalSize groupsCount rand i).stopped = false ∧
        2 ≤ (before globalSize groupsCount rand i).availableRanks := by
  intro i
  induction i with
  | zero => exact fun _ => ⟨rfl, h⟩
  | succ i ih =>
    intro hi
    obtain ⟨hs, havailable⟩ := ih (by omega)
    have hd := divisor_pos havailable
    rw [before_succ, prepareGroup_draw hs (by omega) (by omega)]
    refine ⟨?_, two_le_sub_modifier havailable rand i⟩
    show (Groups.assignRange _ _ _ _).stopped = false
    rw [Groups.assignRange_stopped, hs]

/-- With one group, or with two ranks to spare, no iteration divides by zero. -/
theorem before_divisor (hne : ¬ (2 ≤ groupsCount ∧
      (globalSize - groupsCount = 0 ∨ globalSize - groupsCount = 1)))
    (hle : groupsCount ≤ globalSize) (i : Nat) (hi : (i : Int) ≤ groupsCount - 1) :
    (before globalSize groupsCount rand i).stopped = false ∧
      ((i : Int) < groupsCount - 1 → 0 < divisor (before globalSize groupsCount rand i)) := by
  by_cases hspare : 2 ≤ globalSize - groupsCount
  · obtain ⟨hs, havailable⟩ := before_available rand hspare i hi
    exact ⟨hs, fun _ => divisor_pos havailable⟩
  · -- a single group, whose loop has no iteration before the last one
    obtain rfl : i = 0 := by omega
    exact ⟨rfl, fun h => absurd h (by omega)⟩

theorem prepareGroups_not_stopped (hne : ¬ (2 ≤ groupsCount ∧
      (globalSize - groupsCount = 0 ∨ globalSize - groupsCount = 1)))
    (hpos : 1 ≤ groupsCount) (hle : groupsCount ≤ globalSize) :
    (prepareGroups globalSize groupsCount rand).stopped = false := by
  obtain ⟨n, hn, heq⟩ := prepareGroups_eq globalSize rand hpos
  obtain ⟨hs, -⟩ := @before_divisor globalSize groupsCount rand hne hle n (by omega)
  rw [heq, prepareGroup_last hs hn, Groups.assignRange_stopped, hs]

/-- **Division by zero.** Some iteration divides by zero exactly when there are two groups or
more and at most one rank to spare; otherwise every divisor is positive and the loop ends. -/
theorem divisor_zero_iff (hpos : 1 ≤ groupsCount) (hle : groupsCount ≤ globalSize) :
    ((∃ i : Nat, (i : Int) < groupsCount - 1 ∧
        (before globalSize groupsCount rand i).stopped = false ∧
        divisor (before globalSize groupsCount rand i) = 0) ↔
      2 ≤ groupsCount ∧ (globalSize - groupsCount = 0 ∨ globalSize - groupsCount = 1)) ∧
    (¬ (2 ≤ groupsCount ∧ (globalSize - groupsCount = 0 ∨ globalSize - groupsCount = 1)) →
      (∀ i : Nat, (i : Int) < groupsCount - 1 →
        (before globalSize groupsCount rand i).stopped = false ∧
          0 < divisor (before globalSize groupsCount rand i)) ∧
      (prepareGroups globalSize groupsCount rand).stopped = false) := by
  refine ⟨⟨?_, ?_⟩, fun hne => ⟨fun i hi => ?_, prepareGroups_not_stopped hne hpos hle⟩⟩
  · rintro ⟨i, hi, -, hzero⟩
    by_contra hne
    have := (@before_divisor globalSize groupsCount rand hne hle i (by omega)).2 hi
    omega
  · rintro ⟨htwo, hspare⟩
    exact ⟨0, by omega, rfl, divisor_eq_zero (s := groupsStart globalSize groupsCount)
      (show 0 ≤ globalSize - groupsCount by omega) (show globalSize - groupsCount < 2 by omega)⟩
  · obtain ⟨hs, hd⟩ := @before_divisor globalSize groupsCount rand hne hle i (by omega)
    exact ⟨hs, hd hi⟩

/-- Three groups on the four processes that the Makefile starts. -/
theorem divisor_zero_threeOfFour : ∃ i : Nat, (i : Int) < 3 - 1 ∧
    (before 4 3 (fun _ => 5) i).stopped = false ∧ divisor (before 4 3 (fun _ => 5) i) = 0 :=
  (divisor_zero_iff (by decide) (by decide)).1.mpr ⟨by decide, Or.inr rfl⟩

/-! ## The partition -/

/-- The first `n` cells have been written, each once and in order; their values are group
numbers below `v` and do not decrease. -/
structure Filled (v : Int) (n : Nat) (s : Groups) : Prop where
  written : s.written = (List.range n).map fun k : Nat => (k : Int)
  bounds : ∀ k : Int, 0 ≤ k → k < n → 0 ≤ s.groupNumbers k ∧ s.groupNumbers k < v
  mono : ∀ j k : Int, 0 ≤ j → j ≤ k → k < n → s.groupNumbers j ≤ s.groupNumbers k

theorem filled_start (globalSize groupsCount : Int) :
    Filled 0 0 (groupsStart globalSize groupsCount) :=
  ⟨rfl, fun k h₀ hk => absurd hk (by omega), fun j k h₀ hjk hk => absurd hk (by omega)⟩

/-- The next `m` cells get the next group number. -/
theorem Filled.assignRange {v : Int} {n : Nat} (h : Filled v n s) (hv : 0 ≤ v) (m : Nat) :
    Filled (v + 1) (n + m) (s.assignRange n m v) := by
  refine ⟨?_, fun k h₀ hk => ?_, fun j k h₀ hjk hk => ?_⟩
  · rw [Groups.assignRange_written, h.written, List.range_add, List.map_append, List.map_map]
    simp
  · rw [Groups.assignRange_apply]
    by_cases hkn : k < n
    · rw [if_neg (by omega)]
      obtain ⟨hlo, hhi⟩ := h.bounds k h₀ hkn
      omega
    · rw [if_pos (by omega)]
      omega
  · rw [Groups.assignRange_apply, Groups.assignRange_apply]
    by_cases hkn : k < n
    · rw [if_neg (by omega), if_neg (by omega)]
      exact h.mono j k h₀ hjk hkn
    · rw [if_pos (show (n : Int) ≤ k ∧ k < n + m by omega)]
      by_cases hjn : j < n
      · rw [if_neg (by omega)]
        exact Int.le_of_lt (h.bounds j h₀ hjn).2
      · rw [if_pos (by omega)]

/-- Before an iteration that is reached, the groups before it fill the ranks below
`next_group_rank`. -/
theorem before_filled (hle : groupsCount ≤ globalSize) :
    ∀ i : Nat, (i : Int) ≤ groupsCount - 1 →
      (before globalSize groupsCount rand i).stopped = false →
      ∃ n : Nat, (before globalSize groupsCount rand i).nextGroupRank = n ∧
        Filled i n (before globalSize groupsCount rand i) := by
  intro i
  induction i with
  | zero => exact fun _ _ => ⟨0, rfl, filled_start globalSize groupsCount⟩
  | succ i ih =>
    intro hi hrun
    have hs := before_not_stopped hrun (Nat.le_succ i)
    have hd := divisor_ne_zero (show (i : Int) < groupsCount - 1 by omega) hrun
    have hinv := groupsInv_before hle i (by omega) hs
    obtain ⟨n, hn, hfilled⟩ := ih (by omega) hs
    obtain ⟨h₀, -, -⟩ := modifier_bounds hinv.available hd rand i
    rw [before_succ, prepareGroup_draw hs (by omega) hd, hn]
    generalize modifier rand i (before globalSize groupsCount rand i) = r at h₀
    have hnext := hfilled.assignRange (Int.natCast_nonneg i) (1 + r).toNat
    refine ⟨n + (1 + r).toNat, ?_, ⟨hnext.written, ?_, ?_⟩⟩
    · show (n : Int) + (1 + r) = ((n + (1 + r).toNat : Nat) : Int)
      omega
    · exact hnext.bounds
    · exact hnext.mono

/-- What a grouping of `globalSize` ranks into `groupsCount` groups has to be. -/
structure Partition (globalSize groupsCount : Int) (s : Groups) : Prop where
  /-- Each index of the array is written, and no other. -/
  written : ∀ k, k ∈ s.written ↔ 0 ≤ k ∧ k < globalSize
  once : s.written.Nodup
  mono : ∀ j k, 0 ≤ j → j ≤ k → k < globalSize → s.groupNumbers j ≤ s.groupNumbers k
  /-- The values in the array are the group numbers. -/
  numbers : ∀ v, (∃ k, 0 ≤ k ∧ k < globalSize ∧ s.groupNumbers k = v) ↔ 0 ≤ v ∧ v < groupsCount

/-- A grouping that does not divide by zero is a partition: the last group takes all the ranks
that are left. -/
theorem prepareGroups_parts (hpos : 1 ≤ groupsCount) (hle : groupsCount ≤ globalSize)
    (hrun : (prepareGroups globalSize groupsCount rand).stopped = false) :
    Partition globalSize groupsCount (prepareGroups globalSize groupsCount rand) := by
  obtain ⟨n, hn, heq⟩ := prepareGroups_eq globalSize rand hpos
  have hrun' : (before globalSize groupsCount rand (n + 1)).stopped = false := by
    rw [before_succ, ← heq, hrun]
  have hs := before_not_stopped hrun' (Nat.le_succ n)
  obtain ⟨m, hm, hfilled⟩ := before_filled hle n (by omega) hs
  have hinv := groupsInv_before hle n (by omega) hs
  have hnext := hinv.next
  have havailable := hinv.available
  have hall := hfilled.assignRange (Int.natCast_nonneg n) (globalSize - m).toNat
  have hlast : prepareGroups globalSize groupsCount rand =
      (before globalSize groupsCount rand n).assignRange m (globalSize - m).toNat n := by
    rw [heq, prepareGroup_last hs hn, hm, hn]
  have hsize : ((m + (globalSize - m).toNat : Nat) : Int) = globalSize := by omega
  rw [← hlast] at hall
  refine ⟨fun k => ?_, ?_, fun j k h₀ hjk hk => hall.mono j k h₀ hjk (by omega), fun v => ?_⟩
  · rw [hall.written]
    simp only [List.mem_map, List.mem_range]
    constructor
    · rintro ⟨j, hj, rfl⟩
      omega
    · rintro ⟨h₀, hk⟩
      exact ⟨k.toNat, by omega, by omega⟩
  · rw [hall.written]
    exact List.nodup_range.map fun _ _ h => Int.ofNat.inj h
  · constructor
    · rintro ⟨k, h₀, hk, rfl⟩
      have := hall.bounds k h₀ (by omega)
      omega
    · rintro ⟨h₀, hv⟩
      obtain ⟨g, rfl⟩ := Int.eq_ofNat_of_zero_le h₀
      exact prepareGroups_occurs hpos hle hrun g hv

theorem Partition.inRange (h : Partition globalSize groupsCount s) : InRange globalSize s :=
  fun k hk => (h.written k).mp hk

/-- **The partition.** A grouping that does not divide by zero writes every index of the
array once, the array does not decrease, exactly the group numbers occur in it, and before
each iteration the ranks not yet handed out are the available ones and one for each group
that is still to come. -/
theorem prepareGroups_partition (hpos : 1 ≤ groupsCount) (hle : groupsCount ≤ globalSize)
    (hrun : (prepareGroups globalSize groupsCount rand).stopped = false) :
    Partition globalSize groupsCount (prepareGroups globalSize groupsCount rand) ∧
      ∀ i : Nat, (i : Int) < groupsCount →
        (before globalSize groupsCount rand i).nextGroupRank =
          globalSize - (before globalSize groupsCount rand i).availableRanks -
            (groupsCount - i) := by
  refine ⟨prepareGroups_parts hpos hle hrun, fun i hi => ?_⟩
  obtain ⟨n, hn, heq⟩ := prepareGroups_eq globalSize rand hpos
  have hrun' : (before globalSize groupsCount rand (n + 1)).stopped = false := by
    rw [before_succ, ← heq, hrun]
  have hs := before_not_stopped hrun' (show i ≤ n + 1 by omega)
  exact (groupsInv_before hle i (by omega) hs).next

/-- Five ranks in three groups. -/
theorem prepareGroups_partition_threeOfFive :
    (prepareGroups 5 3 fun _ => 7).written = [0, 1, 2, 3, 4] ∧
      Partition 5 3 (prepareGroups 5 3 fun _ => 7) :=
  ⟨by decide, (prepareGroups_partition (by decide) (by decide) (by decide)).1⟩

end Spolks.Lab6
