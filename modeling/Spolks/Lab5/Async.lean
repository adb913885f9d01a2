import Spolks.Lab5.Sync

/-!
# The asynchronous mode

Every `MPI_Isend` of the first loop is given the address of the same variable, and MPI may
read it as late as `MPI_Waitall`. A block size that is read after the loop has gone on is
that of a later worker. This shows exactly when the last worker's block differs from the
others, that is when the number of workers does not divide the number of rows
(`async_agrees_iff`).
-/

namespace Spolks.Lab5

open Lib Spolks.Matrix

section

variable {α : Type*} [Zero α] [Add α] [Mul α] {p : Setup α} {s : State α}

/-- Each worker that has received its block size holds the number of rows that the master
sends to it and receives from it. -/
def BlockSizesAgree (p : Setup α) (s : State α) : Prop :=
  ∀ i < p.workersCount, WorkerPc.recvSize.idx < (s.worker i).pc.idx →
    (s.worker i).blockSize = workerBlockSize p i

/-- What the asynchronous mode is meant to guarantee in a state of a run: the block sizes
agree, and a finished master has the `C` of the synchronous mode. -/
def AsyncOK (p : Setup α) (s : State α) : Prop :=
  BlockSizesAgree p s ∧
    (s.pc = .finished → ∀ s', Reached { p with async := false } s' →
      ResultsReceived { p with async := false } s' → ∀ c < p.N * p.N, s.C c = s'.C c)

theorem asyncOK_of_dvd (hN : 0 < p.N) (hw : 0 < p.workersCount) (hdvd : p.workersCount ∣ p.N)
    (h : Reached p s) : AsyncOK p s := by
  have hI := inv_of_reached hN hw (Or.inr hdvd) h
  refine ⟨fun i hi hidx => (hI.worker i hi).size hidx, fun hpc s' hs' hr c hc => ?_⟩
  have hI' := inv_of_reached (p := { p with async := false }) hN hw (Or.inl rfl) hs'
  rw [hI.result_eq hw (Or.inl hpc) hc, hI'.result_eq hw hr hc]

/-! ## A run that reads the first block size after the loop -/

/-- The state of the bad run after `k` sends: every process is inside `MPI_Bcast` or
behind it, and no buffer has been read. -/
structure Unread (p : Setup α) (k : Nat) (s : State α) : Prop where
  reached : Reached p s
  running : s.aborted = false
  pc : s.pc = .loop .size k
  worker : ∀ i < p.workersCount, (s.worker i).pc = .inBcast
  posted : ∀ i < k, s.net ⟨.size, i⟩ = [none]
  empty : ∀ i, k ≤ i → s.net ⟨.size, i⟩ = []
  buffer : 0 < k → s.currentWorkerBlockSize = workerBlockSize p (k - 1)

theorem step_master (h : s.aborted = false) : step p s .master = masterStep p s := by
  simp [step, h]

theorem step_worker (h : s.aborted = false) {i : Nat} (hi : i < p.workersCount) :
    step p s (.worker i) = workerStep p s i := by
  simp [step, h, hi]

theorem step_read (h : s.aborted = false) (c : Chan) : step p s (.read c) = readStep p s c := by
  simp [step, h]

/-- The master and the first `k` workers call `MPI_Bcast`. -/
theorem enter_bcast {k : Nat} (hk : k ≤ p.workersCount) :
    ∃ s, Reached p s ∧ s.aborted = false ∧ s.pc = .inBcast ∧ s.net = (init p).net ∧
      ∀ i, (s.worker i).pc = if i < k then .inBcast else .bcast := by
  induction k with
  | zero =>
    refine ⟨{ init p with pc := .inBcast }, ?_, rfl, rfl, rfl, fun i => rfl⟩
    exact Reachable.tail (Reachable.refl (s := init p) rfl) (step_master rfl)
  | succ k ih =>
    obtain ⟨s, hs, hrun, hpc, hnet, hworker⟩ := ih (by omega)
    have hk' : (s.worker k).pc = .bcast := by rw [hworker, if_neg (by omega)]
    refine ⟨setWorker s k { s.worker k with pc := .inBcast }, ?_, hrun, hpc, hnet, fun i => ?_⟩
    · apply hs.tail (e := .worker k)
      rw [step_worker hrun (show k < p.workersCount by omega)]
      simp only [workerStep, hk']
    · show (Function.update s.worker k _ i).pc = _
      by_cases hik : i = k
      · rw [hik, Function.update_self, if_pos (by omega)]
      · rw [Function.update_of_ne hik, hworker]
        by_cases hlt : i < k
        · rw [if_pos hlt, if_pos (by omega)]
        · rw [if_neg hlt, if_neg (by omega)]

theorem unread_zero : ∃ s, Unread p 0 s := by
  obtain ⟨s, hs, hrun, hpc, hnet, hworker⟩ := enter_bcast (p := p) (Nat.le_refl _)
  have hin : ∀ i < p.workersCount, (s.worker i).pc = .inBcast :=
    fun i hi => by rw [hworker, if_pos hi]
  have hreturns := bcastReturns_of_entered (p := p) (by rw [hpc]; simp)
    (fun i hi => by rw [hin i hi]; simp) 0
  refine ⟨{ s with pc := .loop .size 0 }, ?_, hrun, rfl, hin, fun i hi => by omega,
    fun i _ => by simp only [hnet]; rfl, fun h => absurd h (Nat.lt_irrefl 0)⟩
  apply hs.tail (e := .master)
  rw [step_master hrun]
  simp only [masterStep, hpc, hreturns, if_true]

/-- One more iteration of the loop, with no buffer read in between. -/
theorem Unread.succ (ha : p.async = true) {k : Nat} (hk : k < p.workersCount) (h : Unread p k s) :
    ∃ s', Unread p (k + 1) s' := by
  refine ⟨{ masterCall p s .size k with pc := .loop .size (k + 1) }, ?_, h.running, rfl, h.worker,
    fun i hi => ?_, fun i hi => ?_, fun _ => rfl⟩
  · apply h.reached.tail (e := .master)
    rw [step_master h.running]
    simp only [masterStep, h.pc, if_pos hk, ha, if_true]
  · show s.net.post ⟨.size, k⟩ ⟨.size, i⟩ = [none]
    by_cases hik : i = k
    · rw [hik, Net.post_self, h.empty k (Nat.le_refl k), List.nil_append]
    · rw [Net.post_of_ne _ fun he => hik (congrArg Chan.worker he), h.posted i (by omega)]
  · show s.net.post ⟨.size, k⟩ ⟨.size, i⟩ = []
    rw [Net.post_of_ne _ fun he => absurd (congrArg Chan.worker he) (by simp only; omega),
      h.empty i (by omega)]

theorem exists_unread (ha : p.async = true) {k : Nat} (hk : k ≤ p.workersCount) :
    ∃ s, Unread p k s := by
  induction k with
  | zero => exact unread_zero
  | succ k ih =>
    obtain ⟨s, hs⟩ := ih (by omega)
    exact hs.succ ha (by omega)

/-- Read after the whole loop, the first worker's block size is the last worker's. -/
theorem exists_late_read (ha : p.async = true) (hw : 0 < p.workersCount) :
    ∃ s, Reached p s ∧ (s.worker 0).pc = .recvRows ∧
      (s.worker 0).blockSize = workerBlockSize p (p.workersCount - 1) := by
  obtain ⟨s, hs⟩ := exists_unread ha (Nat.le_refl p.workersCount)
  have hq : s.net ⟨.size, 0⟩ = [none] := hs.posted 0 hw
  have hbuffer : sendBuffer p s ⟨.size, 0⟩ =
      ⟨tagBlockSize, .int (workerBlockSize p (p.workersCount - 1))⟩ := by
    simp only [sendBuffer, hs.buffer hw]
  -- MPI reads the variable
  let s₁ : State α := { s with net := s.net.read ⟨.size, 0⟩ (sendBuffer p s ⟨.size, 0⟩) }
  have h₁ : step p s (.read ⟨.size, 0⟩) = some s₁ := by
    rw [step_read hs.running]
    exact if_pos (unread_of_eq hq)
  -- the first worker returns from MPI_Bcast
  let w₁ : Worker α :=
    { s.worker 0 with
      pc := .recvSize, B := writeBlock (s.worker 0).B 0 (readBlock p.B 0 (p.N * p.N)) }
  let s₂ : State α := setWorker s₁ 0 w₁
  have hreturns : bcastReturns p s₁ (0 + 1) = true :=
    bcastReturns_of_entered (by show s.pc ≠ _; rw [hs.pc]; simp)
      (fun i hi => by show (s.worker i).pc ≠ _; rw [hs.worker i hi]; simp) _
  have h₂ : step p s₁ (.worker 0) = some s₂ := by
    rw [step_worker (s := s₁) hs.running hw]
    have hpc : (s₁.worker 0).pc = .inBcast := hs.worker 0 hw
    simp only [workerStep, hpc, hreturns, if_true]
    rfl
  -- and receives what was read
  have hpc₂ : (s₂.worker 0).pc = .recvSize := by rw [setWorker_self]
  have hm : matched p s₂ ⟨.size, 0⟩ =
      some (⟨tagBlockSize, 1⟩, ⟨tagBlockSize, .int (workerBlockSize p (p.workersCount - 1))⟩) := by
    have hfront : s₂.net.front ⟨.size, 0⟩ = some (sendBuffer p s ⟨.size, 0⟩) := by
      show (s.net.read ⟨.size, 0⟩ (sendBuffer p s ⟨.size, 0⟩) ⟨.size, 0⟩).head?.join = _
      rw [Net.read_self, hq]
      rfl
    have hr : receiving p s₂ ⟨.size, 0⟩ = some ⟨tagBlockSize, 1⟩ := by
      simp only [receiving, hpc₂, if_true]
    rw [matched, hr, Option.bind_some, hfront, Option.map_some, hbuffer]
  let w₂ : Worker α :=
    { s₂.worker 0 with
      pc := .recvRows, blockSize := workerBlockSize p (p.workersCount - 1)
      A := p.mallocA 0, C := fun _ => 0 }
  have h₃ : step p s₂ (.worker 0) =
      some (setWorker { s₂ with net := s₂.net.take ⟨.size, 0⟩ } 0 w₂) := by
    rw [step_worker (s := s₂) hs.running hw]
    simp only [workerStep, hpc₂, hm, Data.count]
    rfl
  refine ⟨_, ((hs.reached.tail h₁).tail h₂).tail h₃, ?_⟩
  rw [setWorker_self]
  exact ⟨rfl, rfl⟩

/-- **When the asynchronous mode is right.** It meets its guarantee in every reachable
state exactly when the number of workers divides the number of rows. -/
theorem async_agrees_iff (ha : p.async = true) (hN : 1 ≤ p.N) (hw : 1 ≤ p.workersCount) :
    (∀ s, Reached p s → AsyncOK p s) ↔ p.workersCount ∣ p.N := by
  refine ⟨fun hall => ?_, fun hdvd s hs => asyncOK_of_dvd hN hw hdvd hs⟩
  obtain ⟨s, hs, hpc, hsize⟩ := exists_late_read ha hw
  have hagree := (hall s hs).1 0 hw (by rw [hpc]; decide)
  rw [hsize] at hagree
  by_cases hone : p.workersCount = 1
  · rw [hone]
    exact Nat.one_dvd _
  · have hfirst : workerBlockSize p 0 = p.N / p.workersCount := blockRows_of_lt (by omega)
    exact (blockRows_last_eq_div_iff hw).mp (hagree.trans hfirst)

end

/-! ## Three rows and two workers -/

theorem async_agrees_threeByTwo :
    (∀ s, Reached (threeByTwo true) s → AsyncOK (threeByTwo true) s) ↔ 2 ∣ 3 :=
  async_agrees_iff rfl (by decide) (by decide)

/-- MPI reads the first worker's block size when the loop is over; the worker then asks for
two rows and gets one, and its result is longer than the master's receive. -/
def asyncEvents : List Event :=
  [.master, .worker 0, .worker 1, .master, .master, .master, .read ⟨.size, 0⟩, .worker 0,
    .worker 0, .read ⟨.size, 1⟩, .master, .master, .master, .read ⟨.rows, 0⟩, .worker 0,
    .worker 0, .worker 0, .read ⟨.rows, 1⟩, .master, .master, .master, .read ⟨.result, 0⟩]

theorem asyncEvents_run :
    (exec (step (threeByTwo true)) (init (threeByTwo true)) asyncEvents).isSome = true := by
  decide +kernel

def asyncFinal : State Int :=
  (exec (step (threeByTwo true)) (init (threeByTwo true)) asyncEvents).get asyncEvents_run

theorem asyncFinal_reached : Reached (threeByTwo true) asyncFinal :=
  ⟨_, rfl, asyncEvents, (Option.some_get _).symm⟩

/-- The first worker holds two rows where the master has one, and the next step of MPI, the
matching of its result, ends the run with an error. -/
theorem async_disagrees : ¬ (∀ s, Reached (threeByTwo true) s → AsyncOK (threeByTwo true) s) ∧
    (asyncFinal.worker 0).blockSize = 2 ∧ workerBlockSize (threeByTwo true) 0 = 1 ∧
    (step (threeByTwo true) asyncFinal (.deliver 0)).map State.aborted = some true := by
  have hsize : (asyncFinal.worker 0).blockSize = 2 := by decide +kernel
  have hrows : workerBlockSize (threeByTwo true) 0 = 1 := by decide
  refine ⟨fun hall => ?_, hsize, hrows, by decide +kernel⟩
  have hagree := (hall asyncFinal asyncFinal_reached).1 0 (by decide) (by decide +kernel)
  rw [hsize, hrows] at hagree
  cases hagree

end Spolks.Lab5
