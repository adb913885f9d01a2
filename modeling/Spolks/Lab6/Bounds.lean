import Spolks.Lab6.Groups

/-!
# `groupsPrepare`: where it writes

`main` passes the number of groups on as `atoi` returns it. Here the arithmetic is that of a
32-bit `int`, which wraps.

* `prepareGroupsInt_eq`: up to `2 ^ 30` processes and with no more groups than these, this is
  the grouping with exact integers.
* `written_inRange_iff`: the writes stay in the array as long as there is at most one group
  more than processes.
-/

namespace Spolks.Lab6

open Lib

/-- The value of an `int` to which `x` has been assigned. -/
def wrapInt (x : Int) : Int := x.bmod 4294967296

/-- `n` assignments of `v` from index `start` on, the index being an `int`. -/
def Groups.assignRangeInt (s : Groups) (start : Int) (n : Nat) (v : Int) : Groups :=
  forLoop n (fun j s => s.assign (wrapInt (start + j)) v) s

/-- Iteration `i` of the loop over the groups. -/
def prepareGroupInt (globalSize groupsCount : Int) (rand : Nat → Nat) (i : Nat) (s : Groups) :
    Groups :=
  if s.stopped then s
  else if (i : Int) ≠ groupsCount - 1 then
    let divisor := (wrapInt (s.availableRanks * 2)).tdiv 3
    if divisor = 0 then { s with stopped := true }
    else
      let randomGroupModifier := Int.tmod (rand i) divisor
      let randomGroupSize := wrapInt (1 + randomGroupModifier)
      let s' := s.assignRangeInt s.nextGroupRank randomGroupSize.toNat i
      { s' with
        availableRanks := wrapInt (s.availableRanks - randomGroupModifier)
        nextGroupRank := wrapInt (s.nextGroupRank + randomGroupSize) }
  else
    s.assignRange s.nextGroupRank (globalSize - s.nextGroupRank).toNat (groupsCount - 1)

def groupsStartInt (globalSize groupsCount : Int) : Groups :=
  { groupsStart globalSize groupsCount with availableRanks := wrapInt (globalSize - groupsCount) }

/-- The variables of rank `0` before iteration `i`. -/
def beforeInt (globalSize groupsCount : Int) (rand : Nat → Nat) (i : Nat) : Groups :=
  forLoop i (prepareGroupInt globalSize groupsCount rand) (groupsStartInt globalSize groupsCount)

def prepareGroupsInt (globalSize groupsCount : Int) (rand : Nat → Nat) : Groups :=
  beforeInt globalSize groupsCount rand groupsCount.toNat

/-! ## Machine arithmetic -/

theorem wrapInt_of_fits {x : Int} (hlo : -2147483648 ≤ x) (hhi : x < 2147483648) :
    wrapInt x = x := Int.bmod_eq_of_le (by omega) (by omega)

theorem wrapInt_of_lt {x : Int} (hlo : -4294967296 ≤ x) (hhi : x < -2147483648) :
    wrapInt x = x + 4294967296 := by
  unfold wrapInt
  rw [← Int.add_bmod_right]
  exact Int.bmod_eq_of_le (by omega) (by omega)

theorem wrapInt_of_ge {x : Int} (hlo : 2147483648 ≤ x) (hhi : x < 4294967296) :
    wrapInt x = x - 4294967296 := by
  unfold wrapInt
  rw [← Int.sub_bmod_right]
  exact Int.bmod_eq_of_le (by omega) (by omega)

/-- A draw is not negative, and is smaller than a third of what it is drawn from. -/
theorem draw_bounds (x : Nat) {w : Int} (hd : w.tdiv 3 ≠ 0) :
    0 ≤ Int.tmod x (w.tdiv 3) ∧ 3 * (Int.tmod x (w.tdiv 3) + 1) ≤ w.natAbs := by
  have hpos : 0 ≤ Int.tmod x (w.tdiv 3) := Int.tmod_nonneg _ (Int.natCast_nonneg x)
  have hthird : (w.tdiv 3).natAbs = w.natAbs / 3 := Int.natAbs_tdiv w 3
  have hdraw : (Int.tmod x (w.tdiv 3)).natAbs = x % (w.tdiv 3).natAbs := Int.natAbs_tmod x _
  have hlt : x % (w.tdiv 3).natAbs < (w.tdiv 3).natAbs :=
    Nat.mod_lt x (Int.natAbs_pos.mpr hd)
  omega

theorem tdiv_three_ne_zero {w : Int} (h : 3 ≤ w.natAbs) : w.tdiv 3 ≠ 0 := by
  intro hzero
  have hthird : (w.tdiv 3).natAbs = w.natAbs / 3 := Int.natAbs_tdiv w 3
  rw [hzero] at hthird
  omega

namespace Groups

theorem assignRangeInt_succ (s : Groups) (start : Int) (n : Nat) (v : Int) :
    s.assignRangeInt start (n + 1) v =
      (s.assignRangeInt start n v).assign (wrapInt (start + n)) v := forLoop_succ ..

@[simp] theorem assignRangeInt_stopped (s : Groups) (start : Int) (n : Nat) (v : Int) :
    (s.assignRangeInt start n v).stopped = s.stopped := by
  induction n with
  | zero => rfl
  | succ n ih =>
    rw [assignRangeInt_succ]
    exact ih

theorem assignRangeInt_written (s : Groups) (start : Int) (n : Nat) (v : Int) :
    (s.assignRangeInt start n v).written =
      s.written ++ (List.range n).map fun j : Nat => wrapInt (start + j) := by
  induction n with
  | zero => simp [assignRangeInt]
  | succ n ih =>
    rw [assignRangeInt_succ, List.range_succ, List.map_append, ← List.append_assoc, ← ih]
    rfl

/-- Indices that fit do not wrap. -/
theorem assignRangeInt_eq (s : Groups) {start : Int} {n : Nat} (v : Int) (hlo : 0 ≤ start)
    (hhi : start + n ≤ 2147483648) : s.assignRangeInt start n v = s.assignRange start n v := by
  refine forLoop_congr fun j hj => ?_
  funext s
  rw [wrapInt_of_fits (by omega) (by omega)]

end Groups

section

variable {globalSize groupsCount : Int} {rand : Nat → Nat} {i : Nat} {s : Groups}

/-! ## One iteration -/

theorem beforeInt_succ (globalSize groupsCount : Int) (rand : Nat → Nat) (i : Nat) :
    beforeInt globalSize groupsCount rand (i + 1) =
      prepareGroupInt globalSize groupsCount rand i (beforeInt globalSize groupsCount rand i) :=
  forLoop_succ ..

theorem prepareGroupInt_stopped (h : s.stopped = true) :
    prepareGroupInt globalSize groupsCount rand i s = s := by
  rw [prepareGroupInt, if_pos h]

theorem prepareGroupInt_stop (hs : s.stopped = false) (hi : (i : Int) < groupsCount - 1)
    (hd : (wrapInt (s.availableRanks * 2)).tdiv 3 = 0) :
    prepareGroupInt globalSize groupsCount rand i s = { s with stopped := true } := by
  rw [prepareGroupInt, if_neg (by simp [hs]), if_pos (show (i : Int) ≠ groupsCount - 1 by omega)]
  exact if_pos hd

/-- The random part of the size of a group. -/
def modifierInt (rand : Nat → Nat) (i : Nat) (s : Groups) : Int :=
  Int.tmod (rand i) ((wrapInt (s.availableRanks * 2)).tdiv 3)

theorem prepareGroupInt_draw (hs : s.stopped = false) (hi : (i : Int) < groupsCount - 1)
    (hd : (wrapInt (s.availableRanks * 2)).tdiv 3 ≠ 0) :
    prepareGroupInt globalSize groupsCount rand i s =
      { s.assignRangeInt s.nextGroupRank (wrapInt (1 + modifierInt rand i s)).toNat i with
        availableRanks := wrapInt (s.availableRanks - modifierInt rand i s)
        nextGroupRank := wrapInt (s.nextGroupRank + wrapInt (1 + modifierInt rand i s)) } := by
  rw [prepareGroupInt, if_neg (by simp [hs]), if_pos (show (i : Int) ≠ groupsCount - 1 by omega)]
  exact if_neg hd

theorem prepareGroupInt_last (hs : s.stopped = false) (hi : (i : Int) = groupsCount - 1) :
    prepareGroupInt globalSize groupsCount rand i s =
      s.assignRange s.nextGroupRank (globalSize - s.nextGroupRank).toNat (groupsCount - 1) := by
  rw [prepareGroupInt, if_neg (by simp [hs]), if_neg (by omega)]

/-- Where a drawn group writes. -/
theorem inRange_draw (hs : s.stopped = false) (hi : (i : Int) < groupsCount - 1)
    (hd : (wrapInt (s.availableRanks * 2)).tdiv 3 ≠ 0) :
    InRange globalSize (prepareGroupInt globalSize groupsCount rand i s) ↔
      InRange globalSize s ∧ ∀ j < (wrapInt (1 + modifierInt rand i s)).toNat,
        0 ≤ wrapInt (s.nextGroupRank + (j : Nat)) ∧
          wrapInt (s.nextGroupRank + (j : Nat)) < globalSize := by
  have hwritten : (prepareGroupInt globalSize groupsCount rand i s).written =
      s.written ++ (List.range (wrapInt (1 + modifierInt rand i s)).toNat).map
        fun j : Nat => wrapInt (s.nextGroupRank + j) := by
    rw [prepareGroupInt_draw hs hi hd]
    exact Groups.assignRangeInt_written ..
  unfold InRange
  rw [hwritten, List.forall_mem_append]
  simp only [List.forall_mem_map, List.mem_range]

theorem inRange_last (hs : s.stopped = false) (hi : (i : Int) = groupsCount - 1)
    (h : InRange globalSize s) (hnext : 0 ≤ s.nextGroupRank) :
    InRange globalSize (prepareGroupInt globalSize groupsCount rand i s) := by
  rw [prepareGroupInt_last hs hi]
  unfold InRange
  rw [Groups.assignRange_written, List.forall_mem_append]
  refine ⟨h, fun k hk => ?_⟩
  obtain ⟨j, hj, rfl⟩ := List.mem_map.mp hk
  rw [List.mem_range] at hj
  omega

/-- A write that has missed the array is not taken back. -/
theorem InRange.of_step (hi : (i : Int) ≤ groupsCount - 1)
    (h : InRange globalSize (prepareGroupInt globalSize groupsCount rand i s)) :
    InRange globalSize s := by
  by_cases hs : s.stopped = true
  · rwa [prepareGroupInt_stopped hs] at h
  rw [Bool.not_eq_true] at hs
  rcases Int.lt_or_eq_of_le hi with hlt | hlast
  · by_cases hd : (wrapInt (s.availableRanks * 2)).tdiv 3 = 0
    · rwa [prepareGroupInt_stop hs hlt hd] at h
    · exact ((inRange_draw hs hlt hd).mp h).1
  · intro k hk
    apply h
    rw [prepareGroupInt_last hs hlast, Groups.assignRange_written]
    exact List.mem_append_left _ hk

/-! ## No more groups than processes -/

/-- The writes so far are in the array, and while the program runs the ranks that are left
are those to spare and one for each group still to come. -/
def Within (globalSize groupsCount : Int) (i : Nat) (s : Groups) : Prop :=
  InRange globalSize s ∧ (s.stopped = false →
    0 ≤ s.availableRanks ∧ 0 ≤ s.nextGroupRank ∧
      s.nextGroupRank = globalSize - s.availableRanks - (groupsCount - i))

/-- Doubling the ranks to spare may wrap, but does not make the draw larger than these. -/
theorem modifierInt_le (rand : Nat → Nat) (i : Nat) (hlo : 0 ≤ s.availableRanks)
    (hhi : s.availableRanks ≤ 2147483647) (hd : (wrapInt (s.availableRanks * 2)).tdiv 3 ≠ 0) :
    0 ≤ modifierInt rand i s ∧ modifierInt rand i s ≤ s.availableRanks := by
  obtain ⟨hpos, hdraw⟩ := draw_bounds (rand i) hd
  have hle : ((wrapInt (s.availableRanks * 2)).natAbs : Int) ≤ s.availableRanks * 2 := by
    by_cases hfits : s.availableRanks * 2 < 2147483648
    · rw [wrapInt_of_fits (by omega) hfits]
      omega
    · rw [wrapInt_of_ge (by omega) (by omega)]
      omega
  unfold modifierInt
  omega

theorem Within.step (h : Within globalSize groupsCount i s) (hi : (i : Int) < groupsCount - 1)
    (hsize : globalSize ≤ 2147483647) :
    Within globalSize groupsCount (i + 1) (prepareGroupInt globalSize groupsCount rand i s) := by
  obtain ⟨hrange, hcount⟩ := h
  by_cases hs : s.stopped = true
  · rw [prepareGroupInt_stopped hs]
    refine ⟨hrange, fun hrun => ?_⟩
    rw [hs] at hrun
    cases hrun
  rw [Bool.not_eq_true] at hs
  obtain ⟨havailable, hnonneg, hnext⟩ := hcount hs
  by_cases hd : (wrapInt (s.availableRanks * 2)).tdiv 3 = 0
  · rw [prepareGroupInt_stop hs hi hd]
    refine ⟨hrange, fun hrun => ?_⟩
    cases hrun
  obtain ⟨hdraw, hle⟩ := modifierInt_le rand i havailable (by omega) hd
  have hwrap : wrapInt (1 + modifierInt rand i s) = 1 + modifierInt rand i s :=
    wrapInt_of_fits (by omega) (by omega)
  refine ⟨(inRange_draw hs hi hd).mpr ⟨hrange, fun j hj => ?_⟩, fun _ => ?_⟩
  · rw [hwrap] at hj
    rw [wrapInt_of_fits (by omega) (by omega)]
    omega
  · rw [prepareGroupInt_draw hs hi hd]
    simp only
    rw [hwrap, wrapInt_of_fits (by omega) (by omega), wrapInt_of_fits (by omega) (by omega)]
    omega

theorem beforeInt_within (hle : groupsCount ≤ globalSize) (hsize : globalSize ≤ 2147483647)
    (hpos : 1 ≤ groupsCount) :
    ∀ i : Nat, (i : Int) ≤ groupsCount - 1 →
      Within globalSize groupsCount i (beforeInt globalSize groupsCount rand i) := by
  intro i
  induction i with
  | zero =>
    intro _
    refine ⟨fun k hk => (by cases hk), fun _ => ?_⟩
    show 0 ≤ wrapInt (globalSize - groupsCount) ∧ (0 : Int) ≤ 0 ∧
      0 = globalSize - wrapInt (globalSize - groupsCount) - (groupsCount - ((0 : Nat) : Int))
    rw [wrapInt_of_fits (by omega) (by omega)]
    omega
  | succ i ih =>
    intro hi
    rw [beforeInt_succ]
    exact (ih (by omega)).step (by omega) hsize

/-! ## More groups than processes -/

/-- Either a write has missed the array, or the number of ranks to spare is negative enough
for the next draw to be one from a divisor that is not `0`. -/
def Overruns (globalSize : Int) (i : Nat) (s : Groups) : Prop :=
  ¬ InRange globalSize s ∨
    s.stopped = false ∧ (i : Int) ≤ s.nextGroupRank ∧ s.nextGroupRank ≤ globalSize ∧
      -2147483646 ≤ s.availableRanks ∧ s.availableRanks ≤ -2

/-- A negative number of ranks to spare becomes only more negative, and never reaches the
least `int`. -/
theorem modifierInt_of_neg (rand : Nat → Nat) (i : Nat) (hlo : -2147483646 ≤ s.availableRanks)
    (hhi : s.availableRanks ≤ -2) :
    (wrapInt (s.availableRanks * 2)).tdiv 3 ≠ 0 ∧ 0 ≤ modifierInt rand i s ∧
      modifierInt rand i s ≤ 715827882 ∧ -2147483646 ≤ s.availableRanks - modifierInt rand i s := by
  have hwrap : wrapInt (s.availableRanks * 2) = s.availableRanks * 2 ∧
        -2147483648 ≤ s.availableRanks * 2 ∨
      wrapInt (s.availableRanks * 2) = s.availableRanks * 2 + 4294967296 ∧
        s.availableRanks * 2 < -2147483648 := by
    by_cases hfits : -2147483648 ≤ s.availableRanks * 2
    · exact Or.inl ⟨wrapInt_of_fits hfits (by omega), hfits⟩
    · exact Or.inr ⟨wrapInt_of_lt (by omega) (by omega), by omega⟩
  have hd : (wrapInt (s.availableRanks * 2)).tdiv 3 ≠ 0 := tdiv_three_ne_zero (by omega)
  obtain ⟨hpos, hdraw⟩ := draw_bounds (rand i) hd
  refine ⟨hd, hpos, ?_, ?_⟩
  · unfold modifierInt
    omega
  · unfold modifierInt
    omega

theorem Overruns.step (h : Overruns globalSize i s) (hi : (i : Int) < groupsCount - 1)
    (hsize : globalSize ≤ 2147483647) :
    Overruns globalSize (i + 1) (prepareGroupInt globalSize groupsCount rand i s) := by
  rcases h with hout | ⟨hs, hlo, hhi, hmin, hneg⟩
  · exact Or.inl fun hrange => hout (hrange.of_step (Int.le_of_lt hi))
  obtain ⟨hd, hdraw, hmax, havailable⟩ := modifierInt_of_neg rand i hmin hneg
  have hwrap : wrapInt (1 + modifierInt rand i s) = 1 + modifierInt rand i s :=
    wrapInt_of_fits (by omega) (by omega)
  by_cases hover : s.nextGroupRank + modifierInt rand i s < globalSize
  · right
    rw [prepareGroupInt_draw hs hi hd]
    simp only [Groups.assignRangeInt_stopped]
    rw [hwrap, wrapInt_of_fits (by omega) (by omega), wrapInt_of_fits (by omega) (by omega)]
    exact ⟨hs, by omega⟩
  · -- the group reaches the first index behind the array
    left
    rw [inRange_draw hs hi hd]
    rintro ⟨-, hwrites⟩
    obtain ⟨hge, hlt⟩ := hwrites (globalSize - s.nextGroupRank).toNat (by rw [hwrap]; omega)
    rw [wrapInt_of_fits (by omega) (by omega)] at hlt
    omega

theorem beforeInt_overruns (hmore : globalSize + 2 ≤ groupsCount) (hone : 1 ≤ globalSize)
    (hcount : groupsCount ≤ 2147483647) :
    ∀ i : Nat, (i : Int) ≤ groupsCount - 1 →
      Overruns globalSize i (beforeInt globalSize groupsCount rand i) := by
  intro i
  induction i with
  | zero =>
    intro _
    right
    show false = false ∧ ((0 : Nat) : Int) ≤ 0 ∧ 0 ≤ globalSize ∧
      -2147483646 ≤ wrapInt (globalSize - groupsCount) ∧ wrapInt (globalSize - groupsCount) ≤ -2
    rw [wrapInt_of_fits (by omega) (by omega)]
    exact ⟨rfl, by omega⟩
  | succ i ih =>
    intro hi
    rw [beforeInt_succ]
    exact (ih (by omega)).step (by omega) (by omega)

/-- With one group more than processes the first modulo is one by zero. -/
theorem beforeInt_stops (hmore : groupsCount = globalSize + 1) (hone : 1 ≤ globalSize)
    (rand : Nat → Nat) (i : Nat) :
    beforeInt globalSize groupsCount rand (i + 1) =
      { groupsStartInt globalSize groupsCount with stopped := true } := by
  induction i with
  | zero =>
    rw [beforeInt_succ]
    apply prepareGroupInt_stop rfl
    · show ((0 : Nat) : Int) < groupsCount - 1
      omega
    · show (wrapInt (wrapInt (globalSize - groupsCount) * 2)).tdiv 3 = 0
      rw [show globalSize - groupsCount = -1 by omega]
      decide
  | succ i ih =>
    rw [beforeInt_succ, ih]
    exact prepareGroupInt_stopped rfl

/-! ## Exact integers -/

/-- An iteration that no ranks are missing for computes the same with exact integers. -/
theorem prepareGroupInt_eq (h : GroupsInv globalSize groupsCount i s)
    (hi : (i : Int) ≤ groupsCount - 1) (hs : s.stopped = false) (hsize : globalSize ≤ 1073741824) :
    prepareGroupInt globalSize groupsCount rand i s = prepareGroup globalSize groupsCount rand i s := by
  have havailable := h.available
  have hnonneg := h.next_nonneg
  have hnext := h.next
  rcases Int.lt_or_eq_of_le hi with hlt | hlast
  · have hdouble : wrapInt (s.availableRanks * 2) = s.availableRanks * 2 :=
      wrapInt_of_fits (by omega) (by omega)
    by_cases hd : divisor s = 0
    · rw [prepareGroup_stop hs hlt hd, prepareGroupInt_stop hs hlt (by rw [hdouble]; exact hd)]
    · have hdraw : modifierInt rand i s = modifier rand i s := by
        rw [modifierInt, hdouble]
        rfl
      obtain ⟨hpos, hless, hle⟩ := modifier_bounds havailable hd rand i
      rw [prepareGroup_draw hs hlt hd, prepareGroupInt_draw hs hlt (by rw [hdouble]; exact hd), hdraw]
      generalize modifier rand i s = m at hpos hless
      rw [wrapInt_of_fits (show -2147483648 ≤ 1 + m by omega) (by omega),
        wrapInt_of_fits (show -2147483648 ≤ s.availableRanks - m by omega) (by omega),
        wrapInt_of_fits (show -2147483648 ≤ s.nextGroupRank + (1 + m) by omega) (by omega),
        Groups.assignRangeInt_eq s _ hnonneg (by omega)]
  · rw [prepareGroup_last hs hlast, prepareGroupInt_last hs hlast]

/-- **Exact integers are enough** up to `2 ^ 30` processes and as many groups. -/
theorem prepareGroupsInt_eq (hpos : 1 ≤ groupsCount) (hle : groupsCount ≤ globalSize)
    (hsize : globalSize ≤ 1073741824) (rand : Nat → Nat) :
    prepareGroupsInt globalSize groupsCount rand = prepareGroups globalSize groupsCount rand := by
  have hbefore : ∀ i : Nat, (i : Int) ≤ groupsCount →
      beforeInt globalSize groupsCount rand i = before globalSize groupsCount rand i := by
    intro i
    induction i with
    | zero =>
      intro _
      show groupsStartInt globalSize groupsCount = groupsStart globalSize groupsCount
      rw [groupsStartInt, wrapInt_of_fits (by omega) (by omega)]
      rfl
    | succ i ih =>
      intro hi
      rw [beforeInt_succ, before_succ, ih (by omega)]
      by_cases hs : (before globalSize groupsCount rand i).stopped = true
      · rw [prepareGroupInt_stopped hs, prepareGroup, if_pos hs]
      · rw [Bool.not_eq_true] at hs
        exact prepareGroupInt_eq (groupsInv_before hle i (by omega) hs) (by omega) hs hsize
  exact hbefore groupsCount.toNat (by omega)

theorem prepareGroupsInt_eq_threeInTwo :
    prepareGroupsInt 3 2 (fun _ => 5) = prepareGroups 3 2 fun _ => 5 :=
  prepareGroupsInt_eq (by omega) (by omega) (by omega) _

/-! ## All arguments -/

theorem prepareGroupsInt_last (hpos : 1 ≤ groupsCount) (globalSize : Int) (rand : Nat → Nat) :
    ∃ n : Nat, (n : Int) = groupsCount - 1 ∧ prepareGroupsInt globalSize groupsCount rand =
      prepareGroupInt globalSize groupsCount rand n (beforeInt globalSize groupsCount rand n) := by
  refine ⟨(groupsCount - 1).toNat, by omega, ?_⟩
  have hcount : groupsCount.toNat = (groupsCount - 1).toNat + 1 := by omega
  rw [← beforeInt_succ, prepareGroupsInt, hcount]

theorem inRange_of_le (hpos : 1 ≤ groupsCount) (hle : groupsCount ≤ globalSize)
    (hsize : globalSize ≤ 2147483647) (rand : Nat → Nat) :
    InRange globalSize (prepareGroupsInt globalSize groupsCount rand) := by
  obtain ⟨n, hn, hlast⟩ := prepareGroupsInt_last hpos globalSize rand
  obtain ⟨hrange, hcounts⟩ := @beforeInt_within globalSize groupsCount rand hle hsize hpos n (by omega)
  rw [hlast]
  by_cases hs : (beforeInt globalSize groupsCount rand n).stopped = true
  · rwa [prepareGroupInt_stopped hs]
  · rw [Bool.not_eq_true] at hs
    exact inRange_last hs hn hrange (hcounts hs).2.1

theorem inRange_of_eq (hone : 1 ≤ globalSize) (heq : groupsCount = globalSize + 1)
    (rand : Nat → Nat) : InRange globalSize (prepareGroupsInt globalSize groupsCount rand) := by
  obtain ⟨n, hn⟩ : ∃ n, groupsCount.toNat = n + 1 := ⟨groupsCount.toNat - 1, by omega⟩
  rw [prepareGroupsInt, hn, beforeInt_stops heq hone]
  intro k hk
  cases hk

theorem not_inRange_of_lt (hone : 1 ≤ globalSize) (hmore : globalSize + 1 < groupsCount)
    (hcount : groupsCount ≤ 2147483647) (rand : Nat → Nat) :
    ¬ InRange globalSize (prepareGroupsInt globalSize groupsCount rand) := by
  have hpos : 1 ≤ groupsCount := by omega
  obtain ⟨n, hn, hlast⟩ := prepareGroupsInt_last hpos globalSize rand
  intro hrange
  rw [hlast] at hrange
  rcases @beforeInt_overruns globalSize groupsCount rand (by omega) hone hcount n (by omega) with
    hout | ⟨-, hlo, hhi, -⟩
  · exact hout (hrange.of_step (by omega))
  · -- more groups would have been written than there are ranks
    omega

/-- **Where `groupsPrepare` writes.** Whatever is drawn, every write is one into the array
exactly when there is at most one group more than processes. -/
theorem written_inRange_iff (hone : 1 ≤ globalSize) (hsize : globalSize ≤ 2147483647)
    (hcount : groupsCount ≤ 2147483647) (rand : Nat → Nat) :
    InRange globalSize (prepareGroupsInt globalSize groupsCount rand) ↔
      groupsCount ≤ globalSize + 1 := by
  constructor
  · intro hrange
    by_contra hmore
    exact not_inRange_of_lt hone (by omega) hcount rand hrange
  · intro hle
    by_cases hpos : 1 ≤ groupsCount
    · rcases Int.lt_or_eq_of_le hle with hless | hequal
      · exact inRange_of_le hpos (by omega) hsize rand
      · exact inRange_of_eq hone hequal rand
    · -- the loop makes no iteration
      rw [prepareGroupsInt, show groupsCount.toNat = 0 by omega]
      intro k hk
      cases hk

end

/-- Two processes in three groups and in four. -/
theorem written_inRange_two : InRange 2 (prepareGroupsInt 2 3 fun _ => 5) ∧
    ¬ InRange 2 (prepareGroupsInt 2 4 fun _ => 5) :=
  ⟨(written_inRange_iff (by decide) (by decide) (by decide) _).mpr (by decide),
    fun h => absurd ((written_inRange_iff (by decide) (by decide) (by decide) _).mp h) (by decide)⟩

/-- Four groups on two processes write behind an array of two elements. -/
theorem written_outOfRange :
    (prepareGroupsInt 2 4 fun _ => 5).written = [0, 1, 2] ∧
      ¬ ∀ (globalSize groupsCount : Int) (rand : Nat → Nat), 1 ≤ globalSize →
        globalSize ≤ 2147483647 → groupsCount ≤ 2147483647 →
        InRange globalSize (prepareGroupsInt globalSize groupsCount rand) := by
  have hwritten : (prepareGroupsInt 2 4 fun _ => 5).written = [0, 1, 2] := by decide
  refine ⟨hwritten, fun hall => ?_⟩
  have hrange := hall 2 4 (fun _ => 5) (by decide) (by decide) (by decide) 2
    (by rw [hwritten]; decide)
  omega

end Spolks.Lab6
