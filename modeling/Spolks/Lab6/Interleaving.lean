import Spolks.Lib.Rounds
import Spolks.Lab6.Product

/-!
# The processes of `Lab6/mpi-collective.c` side by side

`Lab6/Collective.lean` runs the collective calls on the memories of all ranks at once. Here
every rank is a process of its own, which makes its eight calls in the order of the source, at
its own pace: `MPI_Barrier`, the broadcast of the group numbers, `MPI_Comm_split`, the
broadcasts of the two matrices, the two `MPI_Scatter` and `MPI_Gatherv`. `program p` is this as
an instance of `Lib.Rounds`; a process knows its communicator, and waits for no rank outside
of it. A call that has no result, at the draws of rank `0` or at the name of a file, aborts the
run.

* `atCall_eight`: the calls made one at a time leave what `run` leaves.
* `interleaving_run`, `interleaving_product`: so does every interleaving, and the product is at
  the root of every group.
-/

namespace Spolks.Lab6

open Lib Spolks.Matrix

/-- The ranks of a communicator, in its order. -/
structure Communicator (n : Nat) where
  ranks : List Nat
  lt : ∀ q ∈ ranks, q < n

/-- `MPI_Comm_split` with equal keys: the ranks of one color, in their order. -/
def Communicator.split (n : Nat) (color : Nat → Int) (g : Int) : Communicator n where
  ranks := (List.range n).filter fun q => color q = g
  lt := fun _ hq => List.mem_range.mp (List.mem_filter.mp hq).1

/-- The global variables of one process and its `group_communicator`. -/
structure Peer (n : Nat) (α : Type*) extends Process α where
  communicator : Communicator n

/-- The rank of member `j` of the communicator that process `r` has. -/
def Peer.member {n : Nat} {α : Type*} (v : Peer n α) (r j : Nat) : Nat :=
  v.communicator.ranks[j]?.getD r

section

variable {α : Type*} {p : Setup α} {w w' : Nat → Peer p.globalSize α} {r : Nat}

/-- A member of a communicator, or the process itself, is one whose data was waited for. -/
theorem member_congr (hself : w r = w' r)
    (h : ∀ q ∈ (w r).communicator.ranks, w q = w' q) (j : Nat) :
    w ((w r).member r j) = w' ((w r).member r j) := by
  unfold Peer.member
  cases hj : (w r).communicator.ranks[j]? with
  | none => exact hself
  | some q => exact h q (List.mem_of_getElem? hj)

theorem root_congr (hself : w r = w' r)
    (h : ∀ q ∈ (w r).communicator.ranks.take 1, w q = w' q) :
    w ((w r).member r 0) = w' ((w r).member r 0) := by
  unfold Peer.member
  cases hranks : (w r).communicator.ranks with
  | nil => exact hself
  | cons q qs =>
    rw [hranks] at h
    exact h q (List.mem_singleton.mpr rfl)

theorem zero_mem_take (hr : r < p.globalSize) : 0 ∈ (List.range p.globalSize).take 1 := by
  obtain ⟨n, hn⟩ : ∃ n, p.globalSize = n + 1 := ⟨p.globalSize - 1, by omega⟩
  rw [hn, List.range_succ_eq_map]
  simp

/-- The memory of every rank, without the communicators. -/
def world (w : Nat → Peer p.globalSize α) : World α := fun r => (w r).toProcess

/-- Every communicator has the members of the group of its process. -/
def Connected (p : Setup α) (w : Nat → Peer p.globalSize α) : Prop :=
  ∀ r, (w r).communicator.ranks = members p (world w) (w r).groupNumber

theorem Connected.member_eq (h : Connected p w) (r j : Nat) :
    (w r).member r j = member p (world w) r j := by
  rw [Peer.member, h r]
  rfl

theorem Connected.congr (h : Connected p w)
    (hcomm : ∀ q, (w' q).communicator = (w q).communicator)
    (hnumber : ∀ q, (w' q).groupNumber = (w q).groupNumber) : Connected p w' := by
  intro q
  have hmembers : ∀ g, members p (world w') g = members p (world w) g := by
    intro g
    apply List.filter_congr
    intro r _
    have hsame : (world w' r).groupNumber = (world w r).groupNumber := hnumber r
    simp only [hsame]
  rw [hcomm, hnumber, hmembers]
  exact h q

end

section

variable {α : Type*} [Zero α] [Add α] [Mul α] (p : Setup α)

/-! ## One process -/

/-- `calloc`, and at rank `0` the drawing of the groups. -/
def groupsDraw (r : Nat) (v : Peer p.globalSize α) : Option (Peer p.globalSize α) :=
  if r = 0 then (drawGroups p).map fun root => { v with groupNumbers := root.groupNumbers }
  else some { v with groupNumbers := fun _ => 0 }

def groupsBcast (r : Nat) (root v : Peer p.globalSize α) : Peer p.globalSize α :=
  { v with groupNumbers := root.groupNumbers, groupNumber := root.groupNumbers r }

/-- `MPI_Comm_split`, `MPI_Comm_size` and `MPI_Comm_rank`. -/
def groupsSplit (r : Nat) (w : Nat → Peer p.globalSize α) : Peer p.globalSize α :=
  let c := Communicator.split p.globalSize (fun q => (w q).groupNumber) (w r).groupNumber
  { w r with communicator := c, groupSize := c.ranks.length, groupRank := c.ranks.idxOf r }

def bcastA (root v : Peer p.globalSize α) : Peer p.globalSize α :=
  { v with A := writeBlock v.A 0 (readBlock root.A 0 (p.N * p.N)) }

/-- The second broadcast, then the allocations and the loop that fills the arrays of a root. -/
def bcastB (r : Nat) (root v : Peer p.globalSize α) : Peer p.globalSize α :=
  { v with
    B := writeBlock v.B 0 (readBlock root.B 0 (p.N * p.N))
    CResult := if v.groupRank = 0 then p.mallocC r else v.CResult
    groupScatterSizes := (scatterArrays p v.toProcess).1
    groupScatterDisplacements := (scatterArrays p v.toProcess).2 }

def scatterSizes (root v : Peer p.globalSize α) : Peer p.globalSize α :=
  { v with scatterSize := root.groupScatterSizes v.groupRank }

/-- The second `MPI_Scatter`, then the calculation of the block. -/
def scatterDisplacements (root v : Peer p.globalSize α) : Peer p.globalSize α :=
  let v' : Peer p.globalSize α :=
    { v with scatterDisplacement := root.groupScatterDisplacements v.groupRank }
  { v' with CBlock := scatterCalculateBlock p v'.toProcess fun _ => 0 }

/-- The block is saved before it is gathered. -/
def saveBlock (r : Nat) (v : Peer p.globalSize α) : Option (Peer p.globalSize α) :=
  (saveBlockToFile p r v.toProcess).map fun _ => v

/-- Every member sends as much as the root asks for. -/
def memberFits (v : Peer p.globalSize α) (r : Nat) (w : Nat → Peer p.globalSize α) : Bool :=
  (List.range v.groupSize).all fun j => (w (v.member r j)).scatterSize = v.groupScatterSizes j

/-- `MPI_Gatherv`: the root stores the members' blocks. -/
def gathervRoot (r : Nat) (w : Nat → Peer p.globalSize α) : Option (Peer p.globalSize α) :=
  let v := w r
  if v.groupRank = 0 then
    if memberFits p v r w then
      some { v with
        CResult := gather v.groupScatterDisplacements
          (fun j => readBlock (w (v.member r j)).CBlock 0 (w (v.member r j)).scatterSize)
          v.groupSize v.CResult }
    else none
  else some v

/-- What process `r` does in call `k` and up to the next one. -/
def act (k r : Nat) (w : Nat → Peer p.globalSize α) : Option (Peer p.globalSize α) :=
  match k with
  | 0 => groupsDraw p r (w r)
  | 1 => some (groupsBcast p r (w 0) (w r))
  | 2 => some (groupsSplit p r w)
  | 3 => some (bcastA p (w 0) (w r))
  | 4 => some (bcastB p r (w 0) (w r))
  | 5 => some (scatterSizes p (w ((w r).member r 0)) (w r))
  | 6 => saveBlock p r (scatterDisplacements p (w ((w r).member r 0)) (w r))
  | _ => gathervRoot p r w

/-- The ranks without which call `k` does not return to process `r`: all for the barrier and
the split, the root for a broadcast or a scatter, and at a root the members for the gather. -/
def deps (k : Nat) (v : Peer p.globalSize α) : List Nat :=
  match k with
  | 0 | 2 => List.range p.globalSize
  | 1 | 3 | 4 => (List.range p.globalSize).take 1
  | 5 | 6 => v.communicator.ranks.take 1
  | _ => if v.groupRank = 0 then v.communicator.ranks else []

variable {p} {w w' : Nat → Peer p.globalSize α} {r : Nat}

theorem act_congr (k : Nat) (hr : r < p.globalSize) (hself : w r = w' r)
    (h : ∀ q ∈ deps p k (w r), w q = w' q) : act p k r w = act p k r w' := by
  match k with
  | 0 => simp only [act, hself]
  | 1 | 3 | 4 =>
    have hroot : w 0 = w' 0 := h 0 (zero_mem_take hr)
    simp only [act, hself, hroot]
  | 2 =>
    have hall : ∀ q < p.globalSize, w q = w' q := fun q hq => h q (List.mem_range.mpr hq)
    have hsplit : ∀ g, Communicator.split p.globalSize (fun q => (w q).groupNumber) g =
        Communicator.split p.globalSize (fun q => (w' q).groupNumber) g := by
      intro g
      simp only [Communicator.split, Communicator.mk.injEq]
      apply List.filter_congr
      intro q hq
      simp only [hall q (List.mem_range.mp hq)]
    simp only [act, groupsSplit, hself, hsplit]
  | 5 | 6 =>
    have hroot := root_congr hself h
    simp only [act, ← hself, hroot]
  | k + 7 =>
    simp only [act, gathervRoot, memberFits, ← hself]
    by_cases hrank : (w r).groupRank = 0
    · have hdeps : ∀ q ∈ (w r).communicator.ranks, w q = w' q := by
        intro q hq
        apply h
        simp only [deps, if_pos hrank]
        exact hq
      simp only [member_congr hself hdeps]
    · simp only [if_neg hrank]

variable (p)

/-- The eight calls of every process. -/
def program : Rounds (Peer p.globalSize α) where
  size := p.globalSize
  rounds := 8
  start := fun r =>
    { start p r with communicator := ⟨List.range p.globalSize, fun _ => List.mem_range.mp⟩ }
  act := act p
  deps := fun k _ v => deps p k v
  deps_lt := by
    intro k _ v _ q hq
    match k with
    | 0 | 2 => exact List.mem_range.mp hq
    | 1 | 3 | 4 => exact List.mem_range.mp (List.mem_of_mem_take hq)
    | 5 | 6 => exact v.communicator.lt q (List.mem_of_mem_take hq)
    | k + 7 =>
      simp only [deps] at hq
      split at hq
      · exact v.communicator.lt q hq
      · cases hq
  act_congr := fun k _ _ _ hr hself h => act_congr k hr hself h

/-! ## The calls in lock step -/

/-- What the processes hold before call `k` when they make their calls one at a time. -/
def atCall (k : Nat) : Nat → Peer p.globalSize α := (program p).lockStep k

variable {p}

theorem atCall_of_act {k : Nat} {v : Peer p.globalSize α}
    (h : act p k r (atCall p k) = some v) : atCall p (k + 1) r = v := Rounds.lockStep_of_act h

theorem atCall_one {root : Groups} (hdraw : drawGroups p = some root) :
    (atCall p 1 0).groupNumbers = root.groupNumbers ∧
      ∀ r, (atCall p 1 r).toProcess =
        { start p r with groupNumbers := (atCall p 1 r).groupNumbers } := by
  have hzero : atCall p 1 0 = { (program p).start 0 with groupNumbers := root.groupNumbers } := by
    apply atCall_of_act
    show groupsDraw p 0 _ = _
    rw [groupsDraw, if_pos rfl, hdraw]
    rfl
  refine ⟨by rw [hzero], fun r => ?_⟩
  by_cases hr : r = 0
  · rw [hr, hzero]
    rfl
  · have hother : atCall p 1 r = { (program p).start r with groupNumbers := fun _ => 0 } := by
      apply atCall_of_act
      show groupsDraw p r _ = _
      rw [groupsDraw, if_neg hr]
      rfl
    rw [hother]
    rfl

/-- The first three calls are `groupsPrepare`. -/
theorem atCall_three {root : Groups} (hdraw : drawGroups p = some root) :
    groupsPrepare p (start p) = some (world (atCall p 3)) ∧ Connected p (atCall p 3) ∧
      ∀ r, (atCall p 3 r).groupNumber = root.groupNumbers r := by
  obtain ⟨hroot, hothers⟩ := atCall_one hdraw
  have htwo : ∀ r, (atCall p 2 r).toProcess = { start p r with
      groupNumbers := root.groupNumbers
      groupNumber := root.groupNumbers r } := by
    intro r
    have hbcast : (atCall p 2 r).toProcess = { (atCall p 1 r).toProcess with
        groupNumbers := (atCall p 1 0).groupNumbers
        groupNumber := (atCall p 1 0).groupNumbers r } := rfl
    rw [hbcast, hothers r, hroot]
  have hworld : world (atCall p 2) = fun r => { start p r with
      groupNumbers := root.groupNumbers
      groupNumber := root.groupNumbers r } := funext htwo
  have hthree : world (atCall p 3) = fun r => { world (atCall p 2) r with
      groupSize := (members p (world (atCall p 2)) (world (atCall p 2) r).groupNumber).length
      groupRank :=
        (members p (world (atCall p 2)) (world (atCall p 2) r).groupNumber).idxOf r } := rfl
  refine ⟨?_, fun _ => rfl, fun r => ?_⟩
  · rw [groupsPrepare, hdraw, hthree, hworld]
    rfl
  · have hnumber : (atCall p 3 r).groupNumber = (atCall p 2 r).groupNumber := rfl
    rw [hnumber, htwo r]

/-- The file names of the ranks fit, and what no rank reads in the array is `0`. -/
theorem atCall_defined (h : p.Defined) :
    groupsPrepare p (start p) = some (world (atCall p 3)) ∧ Connected p (atCall p 3) ∧
      ∀ r, rankNeeds (atCall p 3 r).groupNumber ≤ rankSize := by
  obtain ⟨root, hdraw, hnames⟩ := h
  obtain ⟨hprepare, hconnected, hnumber⟩ := atCall_three hdraw
  refine ⟨hprepare, hconnected, fun r => ?_⟩
  rw [hnumber]
  by_cases hr : r < p.globalSize
  · exact hnames r hr
  · rw [groupNumbers_outside hdraw (by omega)]
    exact (rankNeeds_le_iff 0).mpr (by decide)

/-- The next two calls are `prepareCalculate` and `prepareScatter`. -/
theorem atCall_five :
    world (atCall p 5) = prepareScatter p (prepareCalculate p (world (atCall p 3))) := rfl

theorem connected_five (h : Connected p (atCall p 3)) : Connected p (atCall p 5) :=
  h.congr (fun _ => rfl) fun _ => rfl

omit [Zero α] [Add α] [Mul α] in
theorem saveBlock_eq {v : Peer p.globalSize α} (h : rankNeeds v.groupNumber ≤ rankSize) :
    saveBlock p r v = some v := by
  rw [saveBlock, saveBlockToFile, if_pos h, Option.map_some]

/-- A process that is behind the second `MPI_Scatter` has saved its block. -/
theorem atCall_saved (hnames : ∀ r, rankNeeds (atCall p 3 r).groupNumber ≤ rankSize) (r : Nat) :
    atCall p 7 r = scatterDisplacements p (atCall p 6 ((atCall p 6 r).member r 0))
      (atCall p 6 r) := by
  apply atCall_of_act
  have hnumber : (atCall p 6 r).groupNumber = (atCall p 3 r).groupNumber := rfl
  exact saveBlock_eq (hnumber ▸ hnames r)

theorem connected_seven (hnames : ∀ r, rankNeeds (atCall p 3 r).groupNumber ≤ rankSize)
    (h : Connected p (atCall p 3)) : Connected p (atCall p 7) := by
  refine (connected_five h).congr (fun r => ?_) fun r => ?_
  · rw [atCall_saved hnames]
    rfl
  · rw [atCall_saved hnames]
    rfl

/-- The two `MPI_Scatter` are `scatter` and `calculateBlocks`. -/
theorem atCall_seven (hnames : ∀ r, rankNeeds (atCall p 3 r).groupNumber ≤ rankSize)
    (h : Connected p (atCall p 3)) :
    world (atCall p 7) = calculateBlocks p (scatter p (world (atCall p 5))) := by
  have h5 : Connected p (atCall p 5) := connected_five h
  have h6 : Connected p (atCall p 6) := h5.congr (fun _ => rfl) fun _ => rfl
  ext r
  have hsize : (atCall p 6 r) = scatterSizes p (atCall p 5 ((atCall p 5 r).member r 0))
    (atCall p 5 r) := rfl
  rw [world, atCall_saved hnames, h6.member_eq, hsize, h5.member_eq]
  rfl

/-- Before the gather every member of a group has the size that its root asks for. -/
theorem memberFits_of {v : World α} (h : Connected p w) (hv : Grouped p v)
    (hworld : world w = calculateBlocks p (scatter p (prepareScatter p v)))
    (hr : r < p.globalSize) (hrank : (w r).groupRank = 0) : memberFits p (w r) r w = true := by
  have hfield : ∀ q, (w q).toProcess =
      calculateBlocks p (scatter p (prepareScatter p v)) q := congrFun hworld
  have hrank' : (v r).groupRank = 0 := by
    rw [hfield r] at hrank
    exact hrank
  have hmember : ∀ j, (w r).member r j = member p v r j := by
    intro j
    rw [h.member_eq, hworld]
    rfl
  apply List.all_eq_true.mpr
  intro j hj
  have hj' : j < (v r).groupSize := by
    rw [hfield r] at hj
    exact List.mem_range.mp hj
  obtain ⟨hlt, -⟩ := hv.member_mem hr hj'
  have hsize := (scatter_apply hv hlt).1
  rw [hv.member_size hr hj', hv.member_rank hr hj'] at hsize
  have harray := (scatterArrays_root (p := p) hrank' hj').1
  rw [decide_eq_true_eq, hmember, hfield, hfield r]
  exact hsize.trans harray.symm

theorem memberFits_seven (h : p.Defined) (hr : r < p.globalSize)
    (hrank : (atCall p 7 r).groupRank = 0) : memberFits p (atCall p 7 r) r (atCall p 7) = true := by
  obtain ⟨hprepare, hconnected, hnames⟩ := atCall_defined h
  have hgrouped := (groupsPrepare_grouped hprepare).1
  have hprepared : Grouped p (prepareCalculate p (world (atCall p 3))) :=
    ⟨hgrouped.size, hgrouped.rank⟩
  exact memberFits_of (connected_seven hnames hconnected) hprepared
    (atCall_seven hnames hconnected) hr hrank

omit [Zero α] [Add α] [Mul α] in
/-- The gather at one process. -/
theorem gathervRoot_eq (h : Connected p w)
    (hfits : (w r).groupRank = 0 → memberFits p (w r) r w = true) :
    ∃ v, gathervRoot p r w = some v ∧ v.toProcess = gathered p (world w) r := by
  by_cases hrank : (w r).groupRank = 0
  · simp only [gathervRoot, if_pos hrank, if_pos (hfits hrank), h.member_eq]
    refine ⟨_, rfl, ?_⟩
    have hrank' : (world w r).groupRank = 0 := hrank
    simp only [gathered, if_pos hrank']
    rfl
  · simp only [gathervRoot, if_neg hrank]
    refine ⟨_, rfl, ?_⟩
    have hrank' : ¬ (world w r).groupRank = 0 := hrank
    simp only [gathered, if_neg hrank']
    rfl

theorem act_seven (w : Nat → Peer p.globalSize α) : act p 7 r w = gathervRoot p r w := rfl

/-- **The calls made one at a time are `run`.** -/
theorem atCall_eight (h : p.Defined) :
    ∃ w, run p = some w ∧ ∀ r < p.globalSize, (atCall p 8 r).toProcess = w r := by
  obtain ⟨hprepare, hconnected, hnames⟩ := atCall_defined h
  have hsaving : world (atCall p 7) = saving p (world (atCall p 3)) := by
    rw [atCall_seven hnames hconnected, atCall_five]
    rfl
  have hfit : NamesFit p (world (atCall p 3)) := fun r _ => hnames r
  refine ⟨gathered p (world (atCall p 7)), ?_, fun r hr => ?_⟩
  · rw [hsaving]
    exact run_eq_some_iff.mpr ⟨_, hprepare, hfit, rfl⟩
  · obtain ⟨v, hv, heq⟩ :=
      gathervRoot_eq (r := r) (connected_seven hnames hconnected) (memberFits_seven h hr)
    have hact : act p 7 r (atCall p 7) = some v := by rw [act_seven, hv]
    have hlast : atCall p 8 r = v := atCall_of_act hact
    rw [← heq, ← hlast]

omit [Zero α] [Add α] [Mul α] in
theorem saveBlock_ne_none_iff {v : Peer p.globalSize α} :
    saveBlock p r v ≠ none ↔ rankNeeds v.groupNumber ≤ rankSize := by
  constructor
  · intro hsave
    by_contra hno
    exact hsave (by rw [saveBlock, saveBlockToFile, if_neg hno, Option.map_none])
  · intro hfit
    rw [saveBlock_eq hfit]
    exact Option.some_ne_none _

/-- The seventh call fails where the name of the file does not fit. -/
theorem act_six_ne_none_iff :
    act p 6 r (atCall p 6) ≠ none ↔ rankNeeds (atCall p 3 r).groupNumber ≤ rankSize := by
  have hact : act p 6 r (atCall p 6) = saveBlock p r
      (scatterDisplacements p (atCall p 6 ((atCall p 6 r).member r 0)) (atCall p 6 r)) := rfl
  have hnumber : (scatterDisplacements p (atCall p 6 ((atCall p 6 r).member r 0))
      (atCall p 6 r)).groupNumber = (atCall p 3 r).groupNumber := rfl
  rw [hact, saveBlock_ne_none_iff, hnumber]

theorem safe_act (h : (program p).Safe) {k : Nat} (hk : k < 8) (hr : r < p.globalSize) :
    act p k r (atCall p k) ≠ none := h k hk r hr

/-- No call fails in lock step exactly when `run` has a result: the draws of rank `0` are in the
first call and the file names in the seventh. -/
theorem safe_iff (hpos : 1 ≤ p.globalSize) : (program p).Safe ↔ p.Defined := by
  constructor
  · intro hsafe
    obtain ⟨root, hdraw⟩ : ∃ root, drawGroups p = some root := by
      rw [← Option.ne_none_iff_exists']
      intro hnone
      apply safe_act hsafe (k := 0) (by decide) hpos
      show groupsDraw p 0 _ = none
      rw [groupsDraw, if_pos rfl, hnone, Option.map_none]
    refine ⟨root, hdraw, fun r hr => ?_⟩
    rw [← (atCall_three hdraw).2.2 r, ← act_six_ne_none_iff]
    exact safe_act hsafe (by decide) hr
  · intro h k hk r hr
    obtain ⟨-, hconnected, hnames⟩ := atCall_defined h
    show act p k r (atCall p k) ≠ none
    match k with
    | 0 =>
      obtain ⟨root, hdraw, -⟩ := h
      show groupsDraw p r _ ≠ none
      by_cases hzero : r = 0
      · simp [groupsDraw, hzero, hdraw]
      · simp [groupsDraw, hzero]
    | 1 | 2 | 3 | 4 | 5 => exact Option.some_ne_none _
    | 6 => exact act_six_ne_none_iff.mpr (hnames r)
    | 7 =>
      obtain ⟨v, hv, -⟩ :=
        gathervRoot_eq (r := r) (connected_seven hnames hconnected) (memberFits_seven h hr)
      show gathervRoot p r _ ≠ none
      rw [hv]
      exact Option.some_ne_none _
    | k + 8 =>
      have hlt : k + 8 < 8 := hk
      omega

/-! ## Every interleaving -/

variable {waits : Nat → Nat → List Nat} {es : List Rounds.Event}
  {s : Rounds.State (Peer p.globalSize α)}

/-- **Every interleaving of the processes.** Whatever the order in which the processes make their
calls and in which MPI lets them return, a run has at most sixteen steps for each process and
can be continued to one that cannot go on. Such a run has left what `run` computes at every
rank, or all such runs have been aborted, and then `run` has no result. -/
theorem interleaving_run (hpos : 1 ≤ p.globalSize)
    (hrun : exec ((program p).step waits) (program p).init es = some s) :
    es.length ≤ 16 * p.globalSize ∧
      (∃ fs s', exec ((program p).step waits) s fs = some s' ∧
        Stuck ((program p).step waits) s') ∧
      (Stuck ((program p).step waits) s →
        (∃ w, run p = some w ∧ s.aborted = false ∧ es.length = 16 * p.globalSize ∧
          ∀ r < p.globalSize, (s.mem r 8).toProcess = w r) ∨
        (run p = none ∧ s.aborted = true)) := by
  obtain ⟨hle, hcontinues⟩ := Rounds.ends hrun
  refine ⟨hle, hcontinues, fun hstuck => ?_⟩
  rcases Rounds.complete hrun hstuck with ⟨hsafe, ha, hlen, hmem⟩ | ⟨hfail, ha⟩
  · left
    obtain ⟨w, hw, heq⟩ := atCall_eight ((safe_iff hpos).mp hsafe)
    refine ⟨w, hw, ha, hlen, fun r hr => ?_⟩
    rw [← heq r hr]
    exact congrArg Peer.toProcess (hmem r hr)
  · right
    refine ⟨?_, ha⟩
    rw [Option.eq_none_iff_forall_ne_some]
    intro w hw
    exact hfail ((safe_iff hpos).mpr (exists_run_iff.mp ⟨w, hw⟩))

/-- **The product in every interleaving.** When the grouping completes, an interleaving that
cannot go on has not been aborted exactly when there are at most ten groups, and then every
group has a root, which holds the product. -/
theorem interleaving_product (h : p.Completes)
    (hrun : exec ((program p).step waits) (program p).init es = some s)
    (hstuck : Stuck ((program p).step waits) s) :
    (s.aborted = false ↔ p.groupsCount ≤ 10) ∧
      (p.groupsCount ≤ 10 →
        (∀ g : Nat, (g : Int) < p.groupsCount →
          ∃ r < p.globalSize, (s.mem r 8).groupRank = 0 ∧ (s.mem r 8).groupNumber = g) ∧
        ∀ r < p.globalSize, (s.mem r 8).groupRank = 0 → ∀ c < p.N * p.N,
          (s.mem r 8).CResult c = entry p.N p.A p.B c) := by
  have hpos : 1 ≤ p.globalSize := by
    have h₁ := h.groups
    have h₂ := h.groups_le
    omega
  rw [← h.defined_iff, ← safe_iff hpos]
  rcases Rounds.complete hrun hstuck with ⟨hsafe, ha, -, hmem⟩ | ⟨hfail, ha⟩
  · refine ⟨iff_of_true ha hsafe, fun _ => ?_⟩
    obtain ⟨w, hw, heq⟩ := atCall_eight ((safe_iff hpos).mp hsafe)
    have hlast : ∀ r < p.globalSize, (s.mem r 8).toProcess = w r := by
      intro r hr
      rw [← heq r hr]
      exact congrArg Peer.toProcess (hmem r hr)
    refine ⟨fun g hg => ?_, fun r hr hrank => ?_⟩
    · obtain ⟨q, ⟨hq, hroot⟩, hnum⟩ := exists_groupRoot h hw hg
      refine ⟨q, hq, ?_, ?_⟩
      · rw [hlast q hq]
        exact hroot
      · rw [hlast q hq]
        exact hnum
    · rw [hlast r hr] at hrank ⊢
      exact run_entries h.side hw ⟨hr, hrank⟩
  · refine ⟨iff_of_false (by simp [ha]) hfail, fun hsafe => absurd hsafe hfail⟩

end

/-! ## Two processes in one group -/

def twoInOne : Setup Int where
  globalSize := 2
  groupsCount := 1
  N := 2
  rand := fun _ => 0
  A := fun c => c
  B := fun c => 9 - c
  mallocA := fun _ _ => 7
  mallocB := fun _ _ => 7
  mallocC := fun _ _ => 7

/-- Behind the split the root of the group makes its calls up to the gather without the other
process, then it waits for it. -/
def twoEvents : List Rounds.Event :=
  (List.replicate 3 [.enter 0, .enter 1, .leave 1, .leave 0]).flatten ++
    (List.replicate 4 [.enter 0, .leave 0]).flatten ++ [.enter 0] ++
    (List.replicate 5 [.enter 1, .leave 1]).flatten ++ [.leave 0]

theorem twoEvents_run : (exec ((program twoInOne).step fun _ _ => []) (program twoInOne).init
    twoEvents).isSome = true := by
  decide +kernel

def twoFinal : Rounds.State (Peer 2 Int) :=
  (exec ((program twoInOne).step fun _ _ => []) (program twoInOne).init twoEvents).get
    twoEvents_run

theorem twoFinal_stuck : Stuck ((program twoInOne).step fun _ _ => []) twoFinal :=
  Rounds.stuck_of_length (Option.some_get twoEvents_run).symm rfl

theorem interleaving_run_twoInOne :
    ∃ w, run twoInOne = some w ∧ ∀ r < 2, (twoFinal.mem r 8).toProcess = w r := by
  rcases (interleaving_run (by simp [twoInOne]) (Option.some_get twoEvents_run).symm).2.2
    twoFinal_stuck with ⟨w, hw, -, -, hsame⟩ | ⟨-, ha⟩
  · exact ⟨w, hw, hsame⟩
  · have hno : ¬ twoFinal.aborted = true := by decide +kernel
    exact absurd ha hno

theorem interleaving_product_twoInOne : twoInOne.Completes ∧
    ∃ r < 2, (twoFinal.mem r 8).groupRank = 0 ∧ (twoFinal.mem r 8).groupNumber = (0 : Nat) := by
  have h : twoInOne.Completes := ⟨by decide, by decide, by decide, by decide⟩
  have hall := interleaving_product h (Option.some_get twoEvents_run).symm twoFinal_stuck
  exact ⟨h, (hall.2 (by decide)).1 0 (by decide)⟩

end Spolks.Lab6
