import Spolks.Lab5.FailStop

/-!
# Every run ends

`ticks p s` counts the steps of a run from its last state alone: what the master and each
worker have behind them, the buffers that MPI has read, the results it has matched. Each step
takes it up by one (`ticks_of_moves`) and it cannot pass `stepsCount p`, so no run is longer
than that. A run that ends before is one that MPI has aborted; a run of full length has ended
in every process and has left the product.

* `complete_run`: how a run that cannot go on has ended.
* `run_ends`: no run is longer than `stepsCount`, and every run can be continued to such a one.
* `settled_run`: with the right block sizes all runs that cannot go on are of full length.
-/

namespace Spolks.Lab5

open Lib Spolks.Matrix

section Counts

variable {α : Type*} (p : Setup α)

/-- The steps of the master in one iteration: the call, and the wait for it. -/
def callSteps : Nat := if p.async then 1 else 2

/-- The steps of the master in one loop. -/
def loopSteps : Nat := callSteps p * p.workersCount + 1

/-- The loops before this one. -/
def Phase.order : Phase → Nat
  | .size => 0
  | .rows => 1
  | .result => 2

def masterTicks : MasterPc → Nat
  | .bcast => 0
  | .inBcast => 1
  | .loop t i => 2 + t.order * loopSteps p + callSteps p * i
  | .wait t i => 2 + t.order * loopSteps p + callSteps p * i + 1
  | .finished => 2 + 3 * loopSteps p

/-- A receive stands for two steps: that of the worker, and that in which its message was
read. -/
def WorkerPc.ticks : WorkerPc → Nat
  | .bcast => 0
  | .inBcast => 1
  | .recvSize => 2
  | .recvRows => 4
  | .calculate => 6
  | .sendResult => 7
  | .waitResult => 8
  | .finished => 9

/-- The buffers of worker `i` that have been read and not received. -/
def inFlight (net : Net Chan (Msg α)) (i : Nat) : Nat :=
  reads (net ⟨.size, i⟩) + reads (net ⟨.rows, i⟩) + reads (net ⟨.result, i⟩)

def workerTicks (s : State α) (i : Nat) : Nat :=
  (s.worker i).pc.ticks + (if s.received i then 2 else 0) + inFlight s.net i

def ticks (s : State α) : Nat :=
  masterTicks p s.pc + ∑ i ∈ Finset.range p.workersCount, workerTicks s i +
    if s.aborted then 1 else 0

/-- The steps of a run that is not aborted: two calls to `MPI_Bcast` and three loops, and for
each worker its seven calls, the reading of three buffers and the matching of its result. -/
def stepsCount : Nat := 2 + 3 * loopSteps p + 11 * p.workersCount

variable {p} {s s' : State α}

theorem masterTicks_after (t : Phase) (i : Nat) :
    masterTicks p (if p.async then .loop t (i + 1) else .wait t i) =
      masterTicks p (.loop t i) + 1 := by
  cases ha : p.async
  · rfl
  · simp only [masterTicks, callSteps, ha, if_true, Nat.one_mul]
    omega

theorem masterTicks_waited (ha : p.async = false) (t : Phase) (i : Nat) :
    masterTicks p (.loop t (i + 1)) = masterTicks p (.wait t i) + 1 := by
  simp only [masterTicks, callSteps, ha, Bool.false_eq_true, if_false]
  omega

theorem masterTicks_next (t : Phase) :
    masterTicks p t.next = masterTicks p (.loop t p.workersCount) + 1 := by
  cases t <;> simp only [masterTicks, Phase.next, Phase.order, loopSteps] <;> omega

/-- Two states of the channels that differ in one channel of worker `i`. -/
theorem inFlight_of (net net' : Net Chan (Msg α)) (t : Phase) (i : Nat)
    (h : ∀ u, u ≠ t → net' ⟨u, i⟩ = net ⟨u, i⟩) :
    inFlight net' i + reads (net ⟨t, i⟩) = inFlight net i + reads (net' ⟨t, i⟩) := by
  cases t with
  | size =>
    simp only [inFlight, h .rows (by simp), h .result (by simp)]
    omega
  | rows =>
    simp only [inFlight, h .size (by simp), h .result (by simp)]
    omega
  | result =>
    simp only [inFlight, h .size (by simp), h .rows (by simp)]
    omega

/-- A step that is about worker `i` only. -/
theorem ticks_of_part {i : Nat} (hi : i < p.workersCount) (hpc : s'.pc = s.pc)
    (ha : s'.aborted = s.aborted) (hself : workerTicks s' i = workerTicks s i + 1)
    (hworker : ∀ j, j ≠ i → s'.worker j = s.worker j)
    (hreceived : ∀ j, j ≠ i → s'.received j = s.received j)
    (hnet : ∀ c : Chan, c.worker ≠ i → s'.net c = s.net c) : ticks p s' = ticks p s + 1 := by
  have hsum := sum_add_one hi hself fun j hj => by
    simp only [workerTicks, inFlight, hworker j hj, hreceived j hj, hnet ⟨.size, j⟩ hj,
      hnet ⟨.rows, j⟩ hj, hnet ⟨.result, j⟩ hj]
  simp only [ticks, hpc, ha, hsum]
  omega

/-- A step of the master that makes no call. -/
theorem ticks_setPc {pc : MasterPc} (h : masterTicks p pc = masterTicks p s.pc + 1) :
    ticks p { s with pc := pc } = ticks p s + 1 := by
  have hworkers : workerTicks { s with pc := pc } = workerTicks s := rfl
  simp only [ticks, h, hworkers]
  omega

theorem inFlight_take {net : Net Chan (Msg α)} {t : Phase} {i : Nat} {m : Msg α}
    (hq : net ⟨t, i⟩ = [some m]) : inFlight net i = inFlight (net.take ⟨t, i⟩) i + 1 := by
  have h := inFlight_of net (net.take ⟨t, i⟩) t i
    fun u hu => Net.take_of_ne _ fun he => hu (congrArg Chan.phase he)
  rw [Net.take_self, hq] at h
  exact h.symm

theorem inFlight_post (net : Net Chan (Msg α)) (t : Phase) (i : Nat) :
    inFlight (net.post ⟨t, i⟩) i = inFlight net i := by
  have h := inFlight_of net (net.post ⟨t, i⟩) t i
    fun u hu => Net.post_of_ne _ fun he => hu (congrArg Chan.phase he)
  rw [Net.post_self, reads_post] at h
  exact Nat.add_right_cancel h

theorem inFlight_read {net : Net Chan (Msg α)} {t : Phase} {i : Nat}
    (hq : net ⟨t, i⟩ = [none]) (m : Msg α) :
    inFlight (net.read ⟨t, i⟩ m) i = inFlight net i + 1 := by
  have h := inFlight_of net (net.read ⟨t, i⟩ m) t i
    fun u hu => Net.read_of_ne _ _ fun he => hu (congrArg Chan.phase he)
  rw [Net.read_self, hq] at h
  exact h

/-- A call of the master posts a buffer that has not been read. -/
theorem ticks_call {t : Phase} {i : Nat} (hpc : s.pc = .loop t i)
    (hcall : IsCall (p := p) t i s s') : ticks p s' = ticks p s + 1 := by
  have hreads : ∀ c, reads (s'.net c) = reads (s.net c) := by
    intro c
    by_cases hother : c ≠ ⟨t, i⟩ ∨ t = .result
    · rw [hcall.other c hother]
    · obtain ⟨hsame, ht⟩ := not_or.mp hother
      rw [Classical.not_not.mp hsame, hcall.posted ht, reads_post]
  have hworkers : workerTicks s' = workerTicks s := by
    ext i
    simp only [workerTicks, inFlight, hcall.worker, hcall.received, hreads]
  simp only [ticks, hcall.pc, masterTicks_after, hpc, hcall.aborted, hworkers]
  omega

theorem masterTicks_lt {pc : MasterPc} (h : PcOK p pc) (hne : pc ≠ .finished) :
    masterTicks p pc < 2 + 3 * loopSteps p := by
  have hcall : 0 < callSteps p := by
    unfold callSteps
    split <;> omega
  cases pc with
  | bcast | inBcast =>
    simp only [masterTicks]
    omega
  | loop t i =>
    have hi : callSteps p * i ≤ callSteps p * p.workersCount := Nat.mul_le_mul_left _ h
    cases t <;> simp only [masterTicks, Phase.order, loopSteps] <;> omega
  | wait t i =>
    have hi : callSteps p * (i + 1) ≤ callSteps p * p.workersCount := Nat.mul_le_mul_left _ h.1
    have hk : callSteps p = 2 := by simp [callSteps, h.2]
    rw [hk] at hi
    cases t <;> simp only [masterTicks, Phase.order, loopSteps, hk] <;> omega
  | finished => exact absurd rfl hne

theorem masterTicks_le {pc : MasterPc} (h : PcOK p pc) :
    masterTicks p pc ≤ 2 + 3 * loopSteps p := by
  by_cases hpc : pc = .finished
  · rw [hpc]
    exact Nat.le_refl _
  · exact Nat.le_of_lt (masterTicks_lt h hpc)

end Counts

section

variable {α : Type*} [Zero α] [Add α] [Mul α] {p : Setup α} {s s' : State α}

/-! ## One step -/

theorem WorkerMove.ticks_quiet {i : Nat} {w w' : Worker α} (h : WorkerMove p i w .nothing w') :
    w'.pc.ticks = w.pc.ticks + 1 := by
  cases h with
  | enter hpc | leave hpc | calculate hpc | sent hpc =>
    rw [hpc]
    rfl

theorem WorkerMove.ticks_post {i : Nat} {w w' : Worker α} (h : WorkerMove p i w .posts w') :
    w'.pc.ticks = w.pc.ticks + 1 := by
  cases h with
  | post hpc =>
    rw [hpc]
    rfl

theorem WorkerMove.ticks_receive {i : Nat} {w w' : Worker α} {t : Phase} {m : Msg α}
    (h : WorkerMove p i w (.receives t m) w') : w'.pc.ticks = w.pc.ticks + 2 := by
  cases h with
  | size hpc | rows hpc _ =>
    rw [hpc]
    rfl

/-- **What every step adds.** -/
theorem ticks_of_moves (h : Sound p s) (hrun : s.aborted = false) {e : Event}
    (hmove : Moves p s e s') : ticks p s' = ticks p s + 1 := by
  cases hmove with
  | enter hpc =>
    apply ticks_setPc
    rw [hpc]
    rfl
  | leave hpc =>
    apply ticks_setPc
    rw [hpc]
    simp [masterTicks, Phase.order]
  | call hpc _ hcall => exact ticks_call hpc hcall
  | @next t i hpc hi _ =>
    have hle := h.pc
    rw [hpc] at hle
    obtain rfl : i = p.workersCount := Nat.le_antisymm hle hi
    apply ticks_setPc
    rw [hpc, masterTicks_next]
  | waited hpc _ =>
    have hok := h.pc
    rw [hpc] at hok
    apply ticks_setPc
    rw [hpc, masterTicks_waited hok.2]
  | @quiet i w hi hw =>
    refine ticks_of_part hi rfl rfl ?_ (fun j hj => Function.update_of_ne hj ..) (fun _ _ => rfl)
      fun _ _ => rfl
    have hnet : (setWorker s i w).net = s.net := rfl
    have hreceived : (setWorker s i w).received = s.received := rfl
    simp only [workerTicks, setWorker_self, hw.ticks_quiet, hnet, hreceived]
    omega
  | @receive i t m w hi hfront hw =>
    obtain ⟨-, -, hq⟩ := ((h.part i hi).chan t).front hfront
    refine ticks_of_part hi rfl rfl ?_ (fun j hj => Function.update_of_ne hj ..) (fun _ _ => rfl)
      fun c hc => Net.take_of_ne _ fun he => hc (by rw [he])
    simp only [workerTicks, setWorker_self, hw.ticks_receive, inFlight_take hq]
    show _ + 2 + (if s.received i then 2 else 0) + inFlight (s.net.take ⟨t, i⟩) i = _
    omega
  | @post i w hi hw =>
    refine ticks_of_part hi rfl rfl ?_ (fun j hj => Function.update_of_ne hj ..) (fun _ _ => rfl)
      fun c hc => Net.post_of_ne _ fun he => hc (by rw [he])
    simp only [workerTicks, setWorker_self, hw.ticks_post]
    show _ + 1 + (if s.received i then 2 else 0) + inFlight (s.net.post ⟨.result, i⟩) i = _
    rw [inFlight_post]
    omega
  | @read c hunread =>
    obtain ⟨hc, hq⟩ := h.unread_eq hunread
    refine ticks_of_part hc rfl rfl ?_ (fun _ _ => rfl) (fun _ _ => rfl)
      fun d hd => Net.read_of_ne _ _ fun he => hd (by rw [he])
    simp only [workerTicks]
    rw [inFlight_read (t := c.phase) hq]
    omega
  | @deliver i tag xs _ hnew hfront _ =>
    have hi : i < p.workersCount := h.worker_lt hfront
    obtain ⟨-, -, hq⟩ := ((h.part i hi).chan .result).front hfront
    refine ticks_of_part hi rfl rfl ?_ (fun _ _ => rfl)
      (fun j hj => Function.update_of_ne hj ..) fun c hc => Net.take_of_ne _ fun he => hc (by rw [he])
    simp only [workerTicks, Function.update_self, hnew, inFlight_take hq]
    show _ + 2 + _ = _ + 0 + _ + 1
    omega
  | abort _ _ =>
    simp only [ticks, hrun]
    rfl

/-! ## The bound -/

/-- A worker has at most its calls behind it, and a result that has been received or only
read. -/
theorem SoundAt.workerTicks_le {i : Nat} (h : SoundAt p s i) :
    workerTicks s i ≤ if s.received i then 11 else 10 := by
  have hsize := (h.chan .size).reads_le
  have hrows := (h.chan .rows).reads_le
  have hresult := (h.chan .result).reads_le
  have hsize' : 2 < (s.worker i).pc.idx → reads (s.net ⟨.size, i⟩) = 0 :=
    (h.chan .size).reads_of_taken
  have hrows' : 3 < (s.worker i).pc.idx → reads (s.net ⟨.rows, i⟩) = 0 :=
    (h.chan .rows).reads_of_taken
  have hposted : ¬ 5 < (s.worker i).pc.idx → reads (s.net ⟨.result, i⟩) = 0 :=
    (h.chan .result).reads_of_not_posted
  have htaken : s.received i = true → reads (s.net ⟨.result, i⟩) = 0 :=
    (h.chan .result).reads_of_taken
  simp only [workerTicks, inFlight]
  split
  · rename_i hr
    have hidx := h.posted hr
    rw [htaken hr, hsize' (by omega), hrows' (by omega)]
    cases hpc : (s.worker i).pc <;> simp [WorkerPc.ticks]
  · cases hpc : (s.worker i).pc <;>
      simp only [hpc, WorkerPc.idx, WorkerPc.ticks] at hsize' hrows' hposted ⊢ <;> omega

theorem SoundAt.workerTicks_le_eleven {i : Nat} (h : SoundAt p s i) : workerTicks s i ≤ 11 := by
  have hle := h.workerTicks_le
  split at hle <;> omega

theorem Sound.ticks_le_of_running (h : Sound p s) (hrun : s.aborted = false) :
    ticks p s ≤ stepsCount p := by
  have hmaster := masterTicks_le h.pc
  have hsum : ∑ i ∈ Finset.range p.workersCount, workerTicks s i ≤ 11 * p.workersCount :=
    sum_range_le fun i hi => (h.part i hi).workerTicks_le_eleven
  simp only [ticks, stepsCount, hrun, Bool.false_eq_true, if_false]
  omega

/-- A worker with a wrong block size never delivers its result, so an aborted run is short. -/
theorem Sound.ticks_lt_of_disagree (h : Sound p s) (hwrong : ¬ BlockSizesAgree p s) :
    ticks p s < stepsCount p := by
  obtain ⟨i, hi, hmissing⟩ : ∃ i < p.workersCount, s.received i = false := by
    by_contra hall
    refine hwrong fun i hi _ => ?_
    apply (h.part i hi).size
    by_contra hne
    exact hall ⟨i, hi, Bool.eq_false_iff.mpr hne⟩
  have hmaster : masterTicks p s.pc < 2 + 3 * loopSteps p := by
    apply masterTicks_lt h.pc
    intro hpc
    have hreceived := h.results i (by rwa [hpc])
    rw [hmissing] at hreceived
    cases hreceived
  have hlt : workerTicks s i < 11 := by
    have hle := (h.part i hi).workerTicks_le
    rw [hmissing] at hle
    exact Nat.lt_succ_of_le hle
  have hsum : ∑ i ∈ Finset.range p.workersCount, workerTicks s i < 11 * p.workersCount :=
    sum_range_lt (fun j hj => (h.part j hj).workerTicks_le_eleven) hi hlt
  simp only [ticks, stepsCount]
  split <;> omega

theorem Sound.ticks_le (h : Sound p s) : ticks p s ≤ stepsCount p := by
  cases hrun : s.aborted
  · exact h.ticks_le_of_running hrun
  · exact Nat.le_of_lt (h.ticks_lt_of_disagree (h.aborted hrun))

/-! ## Runs -/

theorem Sound.live (h : Sound p s) (hrun : s.aborted = false) : Live p s where
  running := hrun
  pc := h.pc
  results := h.results
  chan := by
    intro c hc
    apply ((h.part c.worker hc).chan c.phase).congr Iff.rfl Iff.rfl
    intro _ m hm
    obtain ⟨t, i⟩ := c
    cases t with
    | size =>
      obtain ⟨v, rfl⟩ := hm
      exact ⟨v, rfl⟩
    | rows | result =>
      obtain rfl : m = _ := hm
      exact ⟨_, rfl⟩

theorem Sound.of_step (hN : 0 < p.N) (s : State α) (e : Event) (s' : State α) (h : Sound p s)
    (hstep : step p s e = some s') : Sound p s' :=
  h.of_moves hN (moves_of_step hstep).1 (moves_of_step hstep).2

theorem Sound.ticks_step (s : State α) (e : Event) (s' : State α) (h : Sound p s)
    (hstep : step p s e = some s') : ticks p s' = ticks p s + 1 :=
  ticks_of_moves h (moves_of_step hstep).1 (moves_of_step hstep).2

variable {es : List Event}

/-- A run is as long as its last state says. -/
theorem length_eq_ticks (hN : 0 < p.N) (hrun : exec (step p) (init p) es = some s) :
    es.length = ticks p s := by
  have hzero : ticks p (init p) = 0 := by
    simp [ticks, init, masterTicks, workerTicks, inFlight, WorkerPc.ticks]
  have h := exec_ticks (Sound.of_step hN) Sound.ticks_step (sound_init p) hrun
  rw [h, hzero, Nat.zero_add]

theorem Sound.received_of_finished (h : Sound p s) (hf : Finished p s) {i : Nat}
    (hi : i < p.workersCount) : s.received i = true :=
  h.results i (ResultsReceived.lt_returned (Or.inl hf.1) hi)

/-- When every process has finished, no message is in flight. -/
theorem Sound.net_eq_nil (h : Sound p s) (hf : Finished p s) (c : Chan) : s.net c = [] := by
  by_cases hc : c.worker < p.workersCount
  · apply ((h.part c.worker hc).chan c.phase).empty
    right
    obtain ⟨t, i⟩ := c
    cases t with
    | size | rows => simp [Taken, hf.2 i hc, WorkerPc.idx, Phase.threshold]
    | result => exact h.received_of_finished hf hc
  · exact h.idle c (Nat.le_of_not_lt hc)

theorem Sound.agree_of_finished (h : Sound p s) (hf : Finished p s) : BlockSizesAgree p s :=
  fun i hi _ => (h.part i hi).size (h.received_of_finished hf hi)

theorem Sound.ticks_of_finished (h : Sound p s) (hrun : s.aborted = false) (hf : Finished p s) :
    ticks p s = stepsCount p := by
  have hworker : ∀ i < p.workersCount, workerTicks s i = 11 := by
    intro i hi
    simp only [workerTicks, inFlight, hf.2 i hi, h.received_of_finished hf hi, h.net_eq_nil hf]
    rfl
  have hpc := hf.1
  simp only [ticks, hpc, hrun, sum_range_const hworker]
  rfl

/-- A run of full length cannot go on. -/
theorem stuck_of_length (hN : 0 < p.N) (hrun : exec (step p) (init p) es = some s)
    (hlen : es.length = stepsCount p) : Stuck (step p) s := by
  intro e
  by_contra hne
  obtain ⟨s', hs'⟩ := Option.ne_none_iff_exists'.mp hne
  have hS : Sound p s := sound_of_reached hN ⟨_, rfl, es, hrun⟩
  have hle := (Sound.of_step hN s e s' hS hs').ticks_le
  rw [Sound.ticks_step s e s' hS hs', ← length_eq_ticks hN hrun, hlen] at hle
  omega

/-- **Every run ends.** No run has more than `stepsCount p` steps, and every run can be continued
to one that cannot go on. -/
theorem run_ends (hN : 1 ≤ p.N) (hrun : exec (step p) (init p) es = some s) :
    es.length ≤ stepsCount p ∧ ∃ fs s', exec (step p) s fs = some s' ∧ Stuck (step p) s' := by
  have hS : Sound p s := sound_of_reached hN ⟨_, rfl, es, hrun⟩
  constructor
  · rw [length_eq_ticks hN hrun]
    exact hS.ticks_le
  · exact exists_stuck (Sound.of_step hN) Sound.ticks_step (fun _ h => h.ticks_le) hS

/-- **How a run ends.** A run that cannot go on is of full length, with every process finished,
every message received and the sequential product in `C`, or MPI has aborted it before, and
then some worker has been told a wrong block size. -/
theorem complete_run (hN : 1 ≤ p.N) (hw : 1 ≤ p.workersCount)
    (hrun : exec (step p) (init p) es = some s) (hstuck : Stuck (step p) s) :
    (s.aborted = false ∧ BlockSizesAgree p s ∧ es.length = stepsCount p ∧ Finished p s ∧
        (∀ c, s.net c = []) ∧
        ∀ c < p.N * p.N, s.C c = masterCalculateOnSelf p.N p.A p.B (fun _ => 0) c) ∨
      (s.aborted = true ∧ ¬ BlockSizesAgree p s ∧ es.length < stepsCount p) := by
  have hS : Sound p s := sound_of_reached hN ⟨_, rfl, es, hrun⟩
  cases ha : s.aborted with
  | false =>
    left
    have hf : Finished p s := by
      by_contra hnf
      obtain ⟨e, s', hstep⟩ := (hS.live ha).progress hnf
      rw [hstuck e] at hstep
      cases hstep
    refine ⟨rfl, hS.agree_of_finished hf, ?_, hf, hS.net_eq_nil hf, ?_⟩
    · rw [length_eq_ticks hN hrun, hS.ticks_of_finished ha hf]
    · intro c hc
      rw [masterCalculateOnSelf_apply p.N p.A p.B hc]
      exact hS.result_eq hw (Or.inl hf.1) hc
  | true =>
    right
    refine ⟨rfl, hS.aborted ha, ?_⟩
    rw [length_eq_ticks hN hrun]
    exact hS.ticks_lt_of_disagree (hS.aborted ha)

/-- **Total correctness.** In the synchronous mode, and in the asynchronous mode when the number
of workers divides the number of rows, every run can be continued, and however it is
continued it comes to the product after `stepsCount p` steps in all. -/
theorem settled_run (hN : 1 ≤ p.N) (hw : 1 ≤ p.workersCount) (hs : SizesSettled p)
    (hrun : exec (step p) (init p) es = some s) :
    (es.length < stepsCount p → CanStep p s) ∧
      (es.length = stepsCount p → Finished p s ∧
        ∀ c < p.N * p.N, s.C c = masterCalculateOnSelf p.N p.A p.B (fun _ => 0) c) := by
  have hI : Inv p s := inv_of_reached hN hw hs ⟨_, rfl, es, hrun⟩
  have hS : Sound p s := sound_of_reached hN ⟨_, rfl, es, hrun⟩
  constructor
  · intro hlt
    apply hI.progress
    intro hf
    rw [length_eq_ticks hN hrun, hS.ticks_of_finished hI.running hf] at hlt
    exact absurd hlt (Nat.lt_irrefl _)
  · intro hlen
    have hf : Finished p s := by
      by_contra hnf
      obtain ⟨e, s', hstep⟩ := hI.progress hnf
      rw [stuck_of_length hN hrun hlen e] at hstep
      cases hstep
    exact ⟨hf, fun c hc => hI.result_eq hw (Or.inl hf.1) hc⟩

end

/-! ## Three rows and two workers -/

theorem run_ends_threeByTwo : asyncEvents.length ≤ 33 ∧
    ∃ fs s', exec (step (threeByTwo true)) asyncFinal fs = some s' ∧
      Stuck (step (threeByTwo true)) s' :=
  run_ends (by simp [threeByTwo]) (Option.some_get asyncEvents_run).symm

/-- The result of the worker with the wrong block size is too long for its receive. -/
def lateEvents : List Event := asyncEvents ++ [.deliver 0]

theorem lateEvents_run :
    (exec (step (threeByTwo true)) (init (threeByTwo true)) lateEvents).isSome = true := by
  decide +kernel

def lateFinal : State Int :=
  (exec (step (threeByTwo true)) (init (threeByTwo true)) lateEvents).get lateEvents_run

theorem complete_run_threeByTwo : Stuck (step (threeByTwo true)) lateFinal ∧
    ¬ BlockSizesAgree (threeByTwo true) lateFinal := by
  have ha : lateFinal.aborted = true := by decide +kernel
  have hstuck : Stuck (step (threeByTwo true)) lateFinal := by
    intro e
    simp [step, ha]
  refine ⟨hstuck, ?_⟩
  rcases complete_run (by simp [threeByTwo]) (by simp [threeByTwo])
    (Option.some_get lateEvents_run).symm hstuck with ⟨hrunning, -⟩ | ⟨-, hwrong, -⟩
  · have hno : lateFinal.aborted = false := hrunning
    rw [ha] at hno
    cases hno
  · exact hwrong

theorem settled_run_threeByTwo : Finished (threeByTwo false) syncFinal :=
  ((settled_run (by simp [threeByTwo]) (by simp [threeByTwo]) (Or.inl rfl)
    (Option.some_get syncEvents_run).symm).2 rfl).1

end Spolks.Lab5
