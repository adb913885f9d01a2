import Mathlib.Data.Finset.Max
import Spolks.Lib.Transition

/-!
# Processes that make the same sequence of collective calls

`Rounds` describes `size` processes each of which makes `rounds` collective calls. A call may
return to a process as soon as the processes whose data it needs have made it too (`deps`);
beyond that the implementation is free to make a process wait for others (`waits`). So some
processes can be many calls ahead of others, and what a call reads is what its partners held
when they made it.

`lockStep` runs all processes one call at a time. It decides how every interleaving ends:

* `Inv.of_step`: what a process holds before each of its calls is what it holds in lock step.
* `ends`: a run has at most two steps for each call of each process, and every run can be
  continued to one that cannot go on.
* `complete`: such a run has ended as the lock step does, in every process, unless some process
  fails in lock step; then every such run is aborted.
-/

namespace Spolks.Lib

/-- `act k i w` is what process `i` holds behind call `k` when `w` is what the processes held
as they made it; `none` is an error in process `i`. `deps k i v` are the processes that a
process `i` which holds `v` needs data of. -/
structure Rounds (σ : Type*) where
  size : Nat
  rounds : Nat
  start : Nat → σ
  act : Nat → Nat → (Nat → σ) → Option σ
  deps : Nat → Nat → σ → List Nat
  deps_lt : ∀ k i v, i < size → ∀ q ∈ deps k i v, q < size
  act_congr : ∀ k i w w', i < size → w i = w' i → (∀ q ∈ deps k i (w i), w q = w' q) →
    act k i w = act k i w'

namespace Rounds

variable {σ : Type*} (P : Rounds σ)

/-- What each process holds before call `k` when they make their calls one at a time; a
process that fails keeps what it held. -/
def lockStep : Nat → Nat → σ
  | 0 => P.start
  | k + 1 => fun i => (P.act k i (lockStep k)).getD (lockStep k i)

theorem lockStep_succ (k i : Nat) :
    P.lockStep (k + 1) i = (P.act k i (P.lockStep k)).getD (P.lockStep k i) := rfl

variable {P} in
theorem lockStep_of_act {k i : Nat} {v : σ} (h : P.act k i (P.lockStep k) = some v) :
    P.lockStep (k + 1) i = v := by rw [lockStep_succ, h, Option.getD_some]

/-- No process fails in lock step. -/
def Safe : Prop := ∀ k < P.rounds, ∀ i < P.size, P.act k i (P.lockStep k) ≠ none

/-- `done i` calls have returned to process `i`; `mem i k` is what it holds before call `k`. -/
structure State (σ : Type*) where
  done : Nat → Nat
  inCall : Nat → Bool
  mem : Nat → Nat → σ
  aborted : Bool

inductive Event where
  | enter (i : Nat)
  | leave (i : Nat)
  deriving DecidableEq

/-- Process `q` has made call `k`. -/
def called (s : State σ) (k q : Nat) : Bool := k < s.done q || (k = s.done q && s.inCall q)

/-- The processes that process `i` waits for: those it needs data of, and those that the
implementation makes it wait for. -/
def awaited (waits : Nat → Nat → List Nat) (s : State σ) (i : Nat) : List Nat :=
  P.deps (s.done i) i (s.mem i (s.done i)) ++ (waits (s.done i) i).filter fun q => q < P.size

/-- One step: a process makes its next call, or its call returns. An error aborts them all. -/
def step (waits : Nat → Nat → List Nat) (s : State σ) (e : Event) : Option (State σ) :=
  if s.aborted then none
  else match e with
    | .enter i =>
      if i < P.size ∧ s.inCall i = false ∧ s.done i < P.rounds then
        some { s with inCall := Function.update s.inCall i true }
      else none
    | .leave i =>
      if i < P.size ∧ s.inCall i = true ∧ (P.awaited waits s i).all (called s (s.done i)) then
        match P.act (s.done i) i fun q => s.mem q (s.done i) with
        | some v => some { s with
            done := Function.update s.done i (s.done i + 1)
            inCall := Function.update s.inCall i false
            mem := Function.update s.mem i (Function.update (s.mem i) (s.done i + 1) v) }
        | none => some { s with aborted := true }
      else none

def init : State σ where
  done := fun _ => 0
  inCall := fun _ => false
  mem := fun i _ => P.start i
  aborted := false

/-! ## The invariant -/

/-- What one process has behind it. -/
structure InvAt (s : State σ) (i : Nat) : Prop where
  le : s.done i ≤ P.rounds
  lt : s.inCall i = true → s.done i < P.rounds
  mem : ∀ k ≤ s.done i, s.mem i k = P.lockStep k i
  ok : ∀ k < s.done i, P.act k i (P.lockStep k) ≠ none

/-- Every process has followed the lock step, and only an error in lock step has aborted the
run. -/
structure Inv (s : State σ) : Prop where
  part : ∀ i < P.size, P.InvAt s i
  aborted : s.aborted = true →
    ∃ i < P.size, s.inCall i = true ∧ P.act (s.done i) i (P.lockStep (s.done i)) = none

theorem inv_init : P.Inv P.init where
  part := by
    intro i _
    constructor
    · exact Nat.zero_le _
    · intro h
      cases h
    · intro k hk
      obtain rfl : k = 0 := Nat.le_zero.mp hk
      rfl
    · exact fun k hk => absurd hk (Nat.not_lt_zero k)
  aborted := by
    intro h
    cases h

variable {P} {waits : Nat → Nat → List Nat} {s s' : State σ} {i : Nat}

theorem InvAt.congr (h : P.InvAt s i) (hdone : s'.done i = s.done i)
    (hinCall : s'.inCall i = s.inCall i) (hmem : s'.mem i = s.mem i) : P.InvAt s' i := by
  refine ⟨?_, ?_, ?_, ?_⟩
  · rw [hdone]
    exact h.le
  · rw [hdone, hinCall]
    exact h.lt
  · rw [hdone, hmem]
    exact h.mem
  · rw [hdone]
    exact h.ok

/-- Process `i` leaves a call with what it holds in lock step. -/
theorem InvAt.next (h : P.InvAt s i) (hin : s.inCall i = true) {v : σ}
    (hv : P.act (s.done i) i (P.lockStep (s.done i)) = some v)
    (hdone : s'.done i = s.done i + 1) (hinCall : s'.inCall i = false)
    (hmem : s'.mem i = Function.update (s.mem i) (s.done i + 1) v) : P.InvAt s' i := by
  refine ⟨?_, fun hno => ?_, fun k hk => ?_, fun k hk => ?_⟩
  · rw [hdone]
    exact h.lt hin
  · rw [hinCall] at hno
    cases hno
  · rw [hdone] at hk
    rw [hmem]
    by_cases hkd : k = s.done i + 1
    · rw [hkd, Function.update_self, lockStep_of_act hv]
    · rw [Function.update_of_ne hkd]
      exact h.mem k (by omega)
  · rw [hdone] at hk
    by_cases hkd : k = s.done i
    · rw [hkd, hv]
      exact Option.some_ne_none v
    · exact h.ok k (by omega)

theorem le_of_called {k q : Nat} (h : called s k q = true) : k ≤ s.done q := by
  simp only [called, Bool.or_eq_true, Bool.and_eq_true, decide_eq_true_eq] at h
  omega

/-- A call reads what its partners hold in lock step. -/
theorem Inv.act_eq (h : P.Inv s) (hi : i < P.size)
    (hall : (P.awaited waits s i).all (called s (s.done i)) = true) :
    P.act (s.done i) i (fun q => s.mem q (s.done i)) =
      P.act (s.done i) i (P.lockStep (s.done i)) := by
  have hself : s.mem i (s.done i) = P.lockStep (s.done i) i :=
    (h.part i hi).mem _ (Nat.le_refl _)
  apply P.act_congr _ _ _ _ hi hself
  intro q hq
  have hmem : q ∈ P.awaited waits s i := List.mem_append_left _ hq
  apply (h.part q (P.deps_lt _ _ _ hi q hq)).mem
  exact le_of_called (List.all_eq_true.mp hall q hmem)

theorem Inv.of_step (h : P.Inv s) {e : Event} (hstep : P.step waits s e = some s') :
    P.Inv s' := by
  unfold step at hstep
  split at hstep
  · cases hstep
  rename_i hrun
  cases e with
  | enter i =>
    simp only at hstep
    split at hstep
    · rename_i hguard
      obtain ⟨-, -, hlt⟩ := hguard
      cases hstep
      refine ⟨fun j hj => ?_, fun ha => absurd ha hrun⟩
      have hold := h.part j hj
      by_cases hji : j = i
      · subst hji
        exact ⟨hold.le, fun _ => hlt, hold.mem, hold.ok⟩
      · exact hold.congr rfl (Function.update_of_ne hji ..) rfl
    · cases hstep
  | leave i =>
    simp only at hstep
    split at hstep
    · rename_i hguard
      obtain ⟨hi, hin, hall⟩ := hguard
      have hact := h.act_eq hi hall
      split at hstep
      · rename_i v hv
        cases hstep
        rw [hact] at hv
        refine ⟨fun j hj => ?_, fun ha => absurd ha hrun⟩
        have hold := h.part j hj
        by_cases hji : j = i
        · subst hji
          exact hold.next hin hv (Function.update_self ..) (Function.update_self ..)
            (Function.update_self ..)
        · exact hold.congr (Function.update_of_ne hji ..) (Function.update_of_ne hji ..)
            (Function.update_of_ne hji ..)
      · rename_i hv
        cases hstep
        refine ⟨fun j hj => (h.part j hj).congr rfl rfl rfl, fun _ => ?_⟩
        exact ⟨i, hi, hin, hact ▸ hv⟩
    · cases hstep

theorem inv_of_run {es : List Event} (hrun : exec (P.step waits) P.init es = some s) : P.Inv s :=
  exec_preserves (fun _ _ _ hI hstep => hI.of_step hstep) P.inv_init hrun

/-! ## Progress -/

/-- No two processes wait for each other: of those that are least far, either one can make
its next call or the calls of all of them can return. -/
theorem progress (hrun : s.aborted = false)
    (hopen : ∃ i < P.size, s.done i < P.rounds) : ¬ Stuck (P.step waits) s := by
  obtain ⟨j, hj, hjr⟩ := hopen
  obtain ⟨i, hi, hmin⟩ := Finset.exists_min_image (Finset.range P.size) s.done
    ⟨j, Finset.mem_range.mpr hj⟩
  have hi' : i < P.size := Finset.mem_range.mp hi
  have hlt : s.done i < P.rounds :=
    Nat.lt_of_le_of_lt (hmin j (Finset.mem_range.mpr hj)) hjr
  intro hstuck
  by_cases hout : ∃ q < P.size, s.done q = s.done i ∧ s.inCall q = false
  · obtain ⟨q, hq, hdone, hno⟩ := hout
    have hnone := hstuck (.enter q)
    simp only [step, hrun, Bool.false_eq_true, if_false] at hnone
    rw [if_pos ⟨hq, hno, hdone ▸ hlt⟩] at hnone
    cases hnone
  · have hcalled : ∀ q < P.size, called s (s.done i) q = true := by
      intro q hq
      have hle : s.done i ≤ s.done q := hmin q (Finset.mem_range.mpr hq)
      simp only [called, Bool.or_eq_true, Bool.and_eq_true, decide_eq_true_eq]
      by_cases heq : s.done i = s.done q
      · right
        refine ⟨heq, ?_⟩
        by_contra hno
        exact hout ⟨q, hq, heq.symm, Bool.eq_false_iff.mpr hno⟩
      · left
        omega
    have hin : s.inCall i = true := by
      by_contra hno
      exact hout ⟨i, hi', rfl, Bool.eq_false_iff.mpr hno⟩
    have hall : (P.awaited waits s i).all (called s (s.done i)) = true := by
      apply List.all_eq_true.mpr
      intro q hq
      apply hcalled
      rcases List.mem_append.mp hq with hdep | hwait
      · exact P.deps_lt _ _ _ hi' q hdep
      · simpa using (List.mem_filter.mp hwait).2
    have hnone := hstuck (.leave i)
    simp only [step, hrun, Bool.false_eq_true, if_false] at hnone
    rw [if_pos ⟨hi', hin, hall⟩] at hnone
    split at hnone <;> cases hnone

/-! ## The length of a run -/

def ticksOf (s : State σ) (i : Nat) : Nat := 2 * s.done i + if s.inCall i then 1 else 0

/-- The steps of a run, from its last state. -/
def ticks (P : Rounds σ) (s : State σ) : Nat :=
  ∑ i ∈ Finset.range P.size, ticksOf s i + if s.aborted then 1 else 0

theorem ticks_step {e : Event} (hstep : P.step waits s e = some s') :
    P.ticks s' = P.ticks s + 1 := by
  unfold step at hstep
  split at hstep
  · cases hstep
  rename_i hrun
  cases e with
  | enter i =>
    simp only at hstep
    split at hstep
    · rename_i hguard
      obtain ⟨hi, hno, -⟩ := hguard
      cases hstep
      have hsum := sum_add_one (f := ticksOf s)
        (g := ticksOf { s with inCall := Function.update s.inCall i true }) hi
        (by simp [ticksOf, hno]) fun j hj => by simp [ticksOf, Function.update_of_ne hj]
      simp only [ticks, hsum]
      omega
    · cases hstep
  | leave i =>
    simp only at hstep
    split at hstep
    · rename_i hguard
      obtain ⟨hi, hin, -⟩ := hguard
      split at hstep
      · rename_i v _
        cases hstep
        have hsum := sum_add_one (f := ticksOf s)
          (g := ticksOf { s with
            done := Function.update s.done i (s.done i + 1)
            inCall := Function.update s.inCall i false
            mem := Function.update s.mem i (Function.update (s.mem i) (s.done i + 1) v) }) hi
          (by simp [ticksOf, hin, Nat.mul_add]) fun j hj => by
            simp [ticksOf, Function.update_of_ne hj]
        simp only [ticks, hsum]
        omega
      · cases hstep
        have hsame : ticksOf { s with aborted := true } = ticksOf s := rfl
        simp only [ticks, hsame, hrun]
        rfl
    · cases hstep

theorem InvAt.ticksOf_le (h : P.InvAt s i) : ticksOf s i ≤ 2 * P.rounds := by
  have hle := h.le
  have hlt := h.lt
  unfold ticksOf
  split
  · rename_i hin
    have := hlt hin
    omega
  · omega

theorem Inv.ticks_le (h : P.Inv s) : P.ticks s ≤ 2 * P.rounds * P.size := by
  unfold ticks
  split
  · rename_i ha
    obtain ⟨i, hi, hin, -⟩ := h.aborted ha
    have hshort : ticksOf s i < 2 * P.rounds := by
      have hlt := (h.part i hi).lt hin
      simp only [ticksOf, hin, if_true]
      omega
    exact sum_range_lt (fun j hj => (h.part j hj).ticksOf_le) hi hshort
  · exact sum_range_le fun j hj => (h.part j hj).ticksOf_le

theorem length_eq_ticks {es : List Event} (hrun : exec (P.step waits) P.init es = some s) :
    es.length = P.ticks s := by
  have hzero : P.ticks P.init = 0 := by simp [ticks, ticksOf, init]
  rw [exec_ticks (I := fun _ => True) (fun _ _ _ _ _ => trivial)
    (fun _ _ _ _ hstep => ticks_step hstep) trivial hrun, hzero, Nat.zero_add]

/-- **Every run ends.** -/
theorem ends {es : List Event} (hrun : exec (P.step waits) P.init es = some s) :
    es.length ≤ 2 * P.rounds * P.size ∧
      ∃ fs s', exec (P.step waits) s fs = some s' ∧ Stuck (P.step waits) s' := by
  constructor
  · rw [length_eq_ticks hrun]
    exact (inv_of_run hrun).ticks_le
  · exact exists_stuck (fun _ _ _ hI hstep => hI.of_step hstep)
      (fun _ _ _ _ hstep => ticks_step hstep) (fun _ hI => hI.ticks_le) (inv_of_run hrun)

/-- A run of full length cannot go on. -/
theorem stuck_of_length {es : List Event} (hrun : exec (P.step waits) P.init es = some s)
    (hlen : es.length = 2 * P.rounds * P.size) : Stuck (P.step waits) s := by
  intro e
  by_contra hne
  obtain ⟨s', hs'⟩ := Option.ne_none_iff_exists'.mp hne
  have hle := ((inv_of_run hrun).of_step hs').ticks_le
  rw [ticks_step hs', ← length_eq_ticks hrun, hlen] at hle
  omega

/-- **All interleavings end alike.** -/
theorem complete {es : List Event} (hrun : exec (P.step waits) P.init es = some s)
    (hstuck : Stuck (P.step waits) s) :
    (P.Safe ∧ s.aborted = false ∧ es.length = 2 * P.rounds * P.size ∧
        ∀ i < P.size, s.mem i P.rounds = P.lockStep P.rounds i) ∨
      (¬ P.Safe ∧ s.aborted = true) := by
  have h : P.Inv s := inv_of_run hrun
  cases ha : s.aborted with
  | true =>
    obtain ⟨i, hi, hin, hnone⟩ := h.aborted ha
    exact Or.inr ⟨fun hsafe => hsafe _ ((h.part i hi).lt hin) i hi hnone, rfl⟩
  | false =>
    have hall : ∀ i < P.size, s.done i = P.rounds := by
      intro i hi
      apply Nat.le_antisymm (h.part i hi).le
      by_contra hlt
      exact progress ha ⟨i, hi, Nat.lt_of_not_le hlt⟩ hstuck
    have hin : ∀ i < P.size, s.inCall i = false := by
      intro i hi
      by_contra hno
      have hlt := (h.part i hi).lt (by simpa using hno)
      rw [hall i hi] at hlt
      exact absurd hlt (Nat.lt_irrefl _)
    refine Or.inl ⟨fun k hk i hi => ?_, rfl, ?_, fun i hi => ?_⟩
    · exact (h.part i hi).ok k (by rwa [hall i hi])
    · rw [length_eq_ticks hrun]
      simp only [ticks, ha]
      exact sum_range_const fun i hi => by simp [ticksOf, hall i hi, hin i hi]
    · exact (h.part i hi).mem _ (by rw [hall i hi])

end Rounds

end Spolks.Lib
