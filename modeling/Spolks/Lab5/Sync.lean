import Spolks.Lab5.Invariant

/-!
# The distributed product is the sequential one

* `sync_result`: when the master has its last result, `C` is the matrix that
  `masterCalculateOnSelf` computes, in every interleaving.
* `sync_safe`: no reachable state is a deadlock, whatever MPI does with each send; every
  matched receive asks for exactly the message it gets; and nothing is left in flight.

The invariant gives both for the asynchronous mode as well when the block sizes are
settled; `Lab5/Async.lean` needs this.
-/

namespace Spolks.Lab5

open Lib Spolks.Matrix

theorem Phase.before_trans {t u v : Phase} (h : u.before t = true)
    (hv : v = t ∨ t.before v = true) : v ≠ u ∧ u.before v = true := by
  cases t <;> cases u <;> cases h <;> cases v <;> simp_all [before]

theorem called_of_before {α : Type*} {p : Setup α} {t u : Phase} (hut : u.before t = true)
    {pc : MasterPc} {i : Nat} (hi : i < p.workersCount) (h : i < called p t pc) :
    i < called p u pc := by
  cases pc with
  | bcast | inBcast => exact absurd h (Nat.not_lt_zero i)
  | loop v j | wait v j =>
    have hv : v = t ∨ t.before v = true := by
      by_contra hno
      obtain ⟨hne, hnot⟩ := not_or.mp hno
      simp only [called, if_neg hne, if_neg hnot] at h
      exact absurd h (Nat.not_lt_zero i)
    obtain ⟨hne, hbefore⟩ := Phase.before_trans hut hv
    simp only [called, if_neg hne, if_pos hbefore]
    exact hi
  | finished => exact h

theorem completed_of_nil {α : Type*} {p : Setup α} {s : State α} {t : Phase} {i : Nat}
    (ht : t ≠ .result) (h : s.net ⟨t, i⟩ = []) : completed p s t i = true := by
  cases t with
  | size | rows => exact sendDone_of_nil h
  | result => exact absurd rfl ht

/-- `MPI_Bcast` returns everywhere once every process has called it. -/
theorem bcastReturns_of_entered {α : Type*} {p : Setup α} {s : State α} (hm : s.pc ≠ .bcast)
    (hworkers : ∀ i < p.workersCount, (s.worker i).pc ≠ .bcast) (r : Nat) :
    bcastReturns p s r = true := by
  have hentered : ∀ q < p.workersCount + 1, entered s q = true := by
    intro q hq
    cases q with
    | zero => simpa [entered] using hm
    | succ i => simpa [entered] using hworkers i (by omega)
  simp only [bcastReturns, Bool.and_eq_true, List.all_eq_true, List.mem_range, Bool.or_eq_true]
  exact ⟨hentered 0 (by omega), fun q hq => Or.inr (hentered q hq)⟩

section

variable {α : Type*} [Zero α] [Add α] [Mul α] {p : Setup α} {s : State α}

/-- The master has returned from its last result receive. -/
def ResultsReceived (p : Setup α) (s : State α) : Prop :=
  s.pc = .finished ∨ (p.async = false ∧ s.pc = .loop .result p.workersCount)

/-- Every process has made its last call. -/
def Finished (p : Setup α) (s : State α) : Prop :=
  s.pc = .finished ∧ ∀ i < p.workersCount, (s.worker i).pc = .finished

/-- Some process can go on. What MPI does by itself, the reading of a posted buffer and the
matching of a posted receive, it does inside the calls of the processes. -/
def CanStep (p : Setup α) (s : State α) : Prop := ∃ e s', step p s e = some s'

theorem masterCalculateOnSelf_apply (N : Nat) (A B : Nat → α) {c : Nat} (hc : c < N * N) :
    masterCalculateOnSelf N A B (fun _ => 0) c = entry N A B c := by
  rw [masterCalculateOnSelf, multiplyRows_apply, if_pos hc, entry]

/-! ## The result -/

omit [Zero α] [Add α] [Mul α] in
theorem ResultsReceived.lt_returned (hr : ResultsReceived p s) {i : Nat}
    (hi : i < p.workersCount) : i < returned p .result s.pc := by
  rcases hr with hpc | ⟨ha, hpc⟩
  · rwa [hpc]
  · rw [hpc]
    simpa [returned, ha] using hi

theorem Inv.received_of_results (h : Inv p s) (hr : ResultsReceived p s) {i : Nat}
    (hi : i < p.workersCount) : s.received i = true := h.calls .result i (hr.lt_returned hi)

/-- The workers' blocks tile the matrix, so every cell has been received. -/
theorem Inv.result_eq (h : Inv p s) (hw : 0 < p.workersCount) (hr : ResultsReceived p s) {c : Nat}
    (hc : c < p.N * p.N) : s.C c = masterCalculateOnSelf p.N p.A p.B (fun _ => 0) c := by
  obtain ⟨i, hi, hle, hlt⟩ := exists_part p.N hw hc
  have hcell : workerOffset p i + (c - workerOffset p i) = c := Nat.add_sub_cancel' hle
  have hk : c - workerOffset p i < workerBlockSize p i * p.N := by
    have : c < workerOffset p i + workerBlockSize p i * p.N := hlt
    omega
  have h' := h.result i hi (h.received_of_results hr hi) _ hk
  rw [hcell] at h'
  rw [h', masterCalculateOnSelf_apply p.N p.A p.B hc]

/-! ## Progress -/

/-- A message of the type that its receive asks for. -/
def Chan.Typed (c : Chan) (m : Msg α) : Prop :=
  match c.phase with
  | .size => ∃ v, m.data = .int v
  | .rows | .result => ∃ xs, m.data = .doubles xs

/-- What progress rests on: it is not used which block size a worker has been sent. -/
structure Live (p : Setup α) (s : State α) : Prop where
  running : s.aborted = false
  pc : PcOK p s.pc
  results : ∀ i, i < returned p .result s.pc → s.received i = true
  chan : ∀ c : Chan, c.worker < p.workersCount →
    Carries (Posted p s c) (Taken s c) (s.net c) c.Typed

theorem Inv.live (h : Inv p s) : Live p s where
  running := h.running
  pc := h.pc
  results := h.calls .result
  chan := by
    intro c hc
    refine (h.chan c hc).carries.congr Iff.rfl Iff.rfl fun _ m hm => ?_
    obtain ⟨t, i⟩ := c
    rw [hm]
    cases t <;> exact ⟨_, rfl⟩

theorem Live.canStep_of_master (h : Live p s) (hs : (masterStep p s).isSome) : CanStep p s := by
  obtain ⟨s', hs⟩ := Option.isSome_iff_exists.mp hs
  refine ⟨.master, s', ?_⟩
  rw [step, if_neg (by rw [h.running]; decide)]
  exact hs

theorem Live.canStep_of_worker (h : Live p s) {i : Nat} (hi : i < p.workersCount)
    (hs : (workerStep p s i).isSome) : CanStep p s := by
  obtain ⟨s', hs⟩ := Option.isSome_iff_exists.mp hs
  refine ⟨.worker i, s', ?_⟩
  rw [step, if_neg (by rw [h.running]; decide)]
  simp only [if_pos hi]
  exact hs

/-- A process whose receive has its message posted can go on: MPI can read the buffer, or
the message can be received. -/
theorem Live.canStep_of_receiving (h : Live p s) {c : Chan} (hc : c.worker < p.workersCount)
    {r : Recv} (hr : receiving p s c = some r) (hP : Posted p s c) (hT : ¬ Taken s c) :
    CanStep p s := by
  have hrun : ¬ s.aborted = true := by rw [h.running]; decide
  by_cases hq : s.net c = [none]
  · refine ⟨.read c, { s with net := s.net.read c (sendBuffer p s c) }, ?_⟩
    rw [step, if_neg hrun]
    exact if_pos (unread_of_eq hq)
  · obtain ⟨m, htyped, hfront⟩ := (h.chan c hc).front_of_read hP hT hq
    have hm : matched p s c = some (r, m) := by
      rw [matched, hr, Option.bind_some, Net.front, hfront, Option.map_some]
    obtain ⟨t, i⟩ := c
    obtain ⟨tag, data⟩ := m
    cases t with
    | size =>
      obtain ⟨v, rfl⟩ := htyped
      have hpc : (s.worker i).pc = .recvSize := by
        by_contra hne
        simp [receiving, hne] at hr
      apply h.canStep_of_worker hc
      simp only [workerStep, hpc, hm]
      split <;> rfl
    | rows =>
      obtain ⟨xs, rfl⟩ := htyped
      have hpc : (s.worker i).pc = .recvRows := by
        by_contra hne
        simp [receiving, hne] at hr
      apply h.canStep_of_worker hc
      simp only [workerStep, hpc, hm]
      split <;> rfl
    | result =>
      obtain ⟨xs, rfl⟩ := htyped
      obtain ⟨s', hs'⟩ : ∃ s', deliverStep p s i = some s' := by
        simp only [deliverStep, hm]
        split <;> exact ⟨_, rfl⟩
      refine ⟨.deliver i, s', ?_⟩
      rw [step, if_neg hrun]
      exact hs'

/-- The program counters at which a worker can be blocked once all have called `MPI_Bcast`. -/
def WorkerPc.Blocking : WorkerPc → Prop
  | .recvSize | .recvRows | .waitResult | .finished => True
  | _ => False

theorem WorkerPc.Blocking.cases {pc : WorkerPc} (h : pc.Blocking) :
    (pc = .recvSize ∨ pc = .recvRows) ∨ pc = .waitResult ∨ pc = .finished := by
  cases pc with
  | recvSize => exact Or.inl (Or.inl rfl)
  | recvRows => exact Or.inl (Or.inr rfl)
  | waitResult => exact Or.inr (Or.inl rfl)
  | finished => exact Or.inr (Or.inr rfl)
  | bcast | inBcast | calculate | sendResult => cases h

theorem Live.canStep_of_not_blocking (h : Live p s) (hreturns : ∀ r, bcastReturns p s r = true)
    {i : Nat} (hi : i < p.workersCount) (hpc : ¬ (s.worker i).pc.Blocking) : CanStep p s := by
  apply h.canStep_of_worker hi
  cases hw : (s.worker i).pc with
  | bcast | calculate | sendResult =>
    simp only [workerStep, hw]
    rfl
  | inBcast =>
    simp only [workerStep, hw, hreturns, if_true]
    rfl
  | recvSize | recvRows | waitResult | finished =>
    rw [hw] at hpc
    exact absurd trivial hpc

/-- A worker that waits for the master's block size or rows finds them posted. -/
theorem Live.canStep_of_recv (h : Live p s) {i : Nat} (hi : i < p.workersCount)
    (hsize : i < called p .size s.pc) (hrows : i < called p .rows s.pc)
    (hpc : (s.worker i).pc = .recvSize ∨ (s.worker i).pc = .recvRows) : CanStep p s := by
  rcases hpc with hpc | hpc
  · refine h.canStep_of_receiving (c := ⟨.size, i⟩) hi (by simp only [receiving, hpc]; rfl) hsize ?_
    simp [Taken, hpc, WorkerPc.idx, Phase.threshold]
  · refine h.canStep_of_receiving (c := ⟨.rows, i⟩) hi (by simp only [receiving, hpc]; rfl) hrows ?_
    simp [Taken, hpc, WorkerPc.idx, Phase.threshold]

/-- While a call of the master is not complete, the worker it is about can go on. -/
theorem Live.canStep_of_called (h : Live p s) {t : Phase} {i : Nat} (hi : i < p.workersCount)
    (hcalled : i < called p t s.pc) (hblock : (s.worker i).pc.Blocking)
    (hopen : completed p s t i = false) : CanStep p s := by
  have hwait : t ≠ .result → ¬ Taken s ⟨t, i⟩ := by
    intro ht hT
    rw [completed_of_nil ht ((h.chan ⟨t, i⟩ hi).empty (Or.inr hT))] at hopen
    cases hopen
  cases t with
  | size =>
    have hidx := hwait (by simp)
    simp only [Taken, Phase.threshold] at hidx
    rcases hblock.cases with (hpc | hpc) | hpc | hpc
    · exact h.canStep_of_receiving (c := ⟨.size, i⟩) hi (by simp only [receiving, hpc]; rfl)
        hcalled (hwait (by simp))
    all_goals exact absurd (by rw [hpc]; decide) hidx
  | rows =>
    have hidx := hwait (by simp)
    simp only [Taken, Phase.threshold] at hidx
    have hsize := called_of_before (u := .size) rfl hi hcalled
    rcases hblock.cases with hrecv | hpc | hpc
    · exact h.canStep_of_recv hi hsize hcalled hrecv
    all_goals exact absurd (by rw [hpc]; decide) hidx
  | result =>
    have hsize := called_of_before (u := .size) rfl hi hcalled
    have hrows := called_of_before (u := .rows) rfl hi hcalled
    rcases hblock.cases with hrecv | hsent
    · exact h.canStep_of_recv hi hsize hrows hrecv
    · have hreceived : s.received i = false := hopen
      have hposted : Posted p s ⟨.result, i⟩ := by
        simp only [Posted]
        rcases hsent with hpc | hpc
        · rw [hpc]
          decide
        · rw [hpc]
          decide
      exact h.canStep_of_receiving (c := ⟨.result, i⟩) hi
        (by simp only [receiving, hcalled, hreceived]; rfl) hposted (by simp [Taken, hreceived])

/-- Behind the master's last loop a worker that has not finished can go on. -/
theorem Live.canStep_of_finished (h : Live p s) (hpc : s.pc = .finished) {i : Nat}
    (hi : i < p.workersCount) (hblock : (s.worker i).pc.Blocking)
    (hne : (s.worker i).pc ≠ .finished) : CanStep p s := by
  rcases hblock.cases with hrecv | hwait | hfinished
  · exact h.canStep_of_recv hi (by rwa [hpc]) (by rwa [hpc]) hrecv
  · -- the master has this worker's result, so the worker's send is complete
    have htaken : Taken s ⟨.result, i⟩ := h.results i (ResultsReceived.lt_returned (Or.inl hpc) hi)
    have hdone : s.net.sendDone p.eager ⟨.result, i⟩ = true :=
      sendDone_of_nil ((h.chan ⟨.result, i⟩ hi).empty (Or.inr htaken))
    exact h.canStep_of_worker hi (by simp only [workerStep, hwait, hdone, if_true]; rfl)
  · exact absurd hfinished hne

/-- No such state is a deadlock. -/
theorem Live.progress (h : Live p s) (hnf : ¬ Finished p s) : CanStep p s := by
  by_cases hm : s.pc = .bcast
  · exact h.canStep_of_master (by rw [masterStep, hm]; rfl)
  by_cases hstart : ∃ i < p.workersCount, (s.worker i).pc = .bcast
  · obtain ⟨i, hi, hpc⟩ := hstart
    exact h.canStep_of_worker hi (by simp only [workerStep, hpc]; rfl)
  -- from here on every process has called MPI_Bcast
  have hreturns := bcastReturns_of_entered (p := p) hm fun i hi hpc => hstart ⟨i, hi, hpc⟩
  by_cases hb : s.pc = .inBcast
  · exact h.canStep_of_master (by simp only [masterStep, hb, hreturns, if_true]; rfl)
  by_cases hgo : ∃ i < p.workersCount, ¬ (s.worker i).pc.Blocking
  · obtain ⟨i, hi, hpc⟩ := hgo
    exact h.canStep_of_not_blocking hreturns hi hpc
  have hblock : ∀ i < p.workersCount, (s.worker i).pc.Blocking :=
    fun i hi => Classical.not_not.mp fun hne => hgo ⟨i, hi, hne⟩
  have hcall : ∀ t i, i < p.workersCount → i < called p t s.pc → completed p s t i = false →
      CanStep p s := fun t i hi hc ho => h.canStep_of_called hi hc (hblock i hi) ho
  cases hpc : s.pc with
  | bcast => exact absurd hpc hm
  | inBcast => exact absurd hpc hb
  | loop t i =>
    have hile : i ≤ p.workersCount := by
      have := h.pc
      rwa [hpc] at this
    by_cases hi : i < p.workersCount
    · exact h.canStep_of_master (by simp only [masterStep, hpc, if_pos hi]; rfl)
    · by_cases hdone : ∃ j < p.workersCount, completed p s t j = false
      · obtain ⟨j, hj, ho⟩ := hdone
        exact hcall t j hj (by rw [hpc, called_loop_self]; omega) ho
      · have hall : (!p.async || (List.range p.workersCount).all fun j => completed p s t j) = true := by
          rw [Bool.or_eq_true, List.all_eq_true]
          refine Or.inr fun j hj => ?_
          by_contra hne
          exact hdone ⟨j, List.mem_range.mp hj, by simpa using hne⟩
        exact h.canStep_of_master (by simp only [masterStep, hpc, if_neg hi, hall, if_true]; rfl)
  | wait t i =>
    have hi : i < p.workersCount := by
      have := h.pc
      rw [hpc] at this
      exact this.1
    by_cases hdone : completed p s t i = true
    · exact h.canStep_of_master (by simp only [masterStep, hpc, hdone, if_true]; rfl)
    · exact hcall t i hi (by rw [hpc]; simp [called]) (by simpa using hdone)
  | finished =>
    obtain ⟨i, hi, hne⟩ : ∃ i < p.workersCount, (s.worker i).pc ≠ .finished := by
      by_contra hall
      refine hnf ⟨hpc, fun i hi => ?_⟩
      by_contra hne
      exact hall ⟨i, hi, hne⟩
    exact h.canStep_of_finished hpc hi (hblock i hi) hne

/-- No state that meets the invariant is a deadlock. -/
theorem Inv.progress (h : Inv p s) (hnf : ¬ Finished p s) : CanStep p s := h.live.progress hnf

/-- When every process has finished, every message has been received. -/
theorem Inv.net_eq_nil (h : Inv p s) (hf : Finished p s) (c : Chan) : s.net c = [] := by
  by_cases hc : c.worker < p.workersCount
  · refine (h.chan c hc).empty (Or.inr ?_)
    obtain ⟨t, i⟩ := c
    cases t with
    | size | rows =>
      simp only [Taken, hf.2 i hc]
      exact of_decide_eq_true rfl
    | result => exact h.received_of_results (Or.inl hf.1) hc
  · exact h.idle c (Nat.le_of_not_lt hc)

/-! ## The synchronous mode -/

/-- **The distributed product.** In every reachable state in which the master has
completed its last result receive, `C` is the product that `masterCalculateOnSelf`
computes from the same `A` and `B`. -/
theorem sync_result (hsync : p.async = false) (hN : 1 ≤ p.N) (hw : 1 ≤ p.workersCount)
    (h : Reached p s) (hr : ResultsReceived p s) :
    ∀ c < p.N * p.N, s.C c = masterCalculateOnSelf p.N p.A p.B (fun _ => 0) c :=
  fun _ hc => (inv_of_reached hN hw (Or.inl hsync) h).result_eq hw hr hc

/-- **Safety of the synchronous mode.** In every reachable state some process can go on
unless all have finished, a matched receive asks for the tag and the number of elements
of its message, and when all have finished no message is in flight. -/
theorem sync_safe (hsync : p.async = false) (hN : 1 ≤ p.N) (hw : 1 ≤ p.workersCount)
    (h : Reached p s) :
    (¬ Finished p s → CanStep p s) ∧
      (∀ c r m, matched p s c = some (r, m) → r.tag = m.tag ∧ r.count = m.data.count) ∧
      (Finished p s → ∀ c, s.net c = []) := by
  have hI := inv_of_reached hN hw (Or.inl hsync) h
  refine ⟨hI.progress, fun c r m hm => ?_, hI.net_eq_nil⟩
  obtain ⟨-, -, hr, -⟩ := hI.matched_eq hm
  rw [hr]
  exact ⟨rfl, rfl⟩

end

/-! ## A run with three rows and two workers -/

/-- Three rows and two workers: the second one has two rows. -/
def threeByTwo (async : Bool) : Setup Int where
  N := 3
  workersCount := 2
  async := async
  A := fun c => c
  B := fun c => 9 - c
  eager := fun _ => true
  bcastWaits := fun _ _ => false
  mallocA := fun _ _ => 7
  mallocB := fun _ _ => 7

/-- The calls of worker `i` from its first to its last, with MPI reading its result. -/
def workerEvents (i : Nat) : List Event :=
  List.replicate 6 (.worker i) ++ [.read ⟨.result, i⟩, .worker i]

/-- A blocking send of the master to worker `i`. -/
def sendEvents (t : Phase) (i : Nat) : List Event := [.master, .read ⟨t, i⟩, .master]

/-- The master sends everything, the workers compute one after the other, and the master
receives both results. -/
def syncEvents : List Event :=
  [.master, .master] ++ sendEvents .size 0 ++ sendEvents .size 1 ++ [.master] ++
    sendEvents .rows 0 ++ sendEvents .rows 1 ++ [.master] ++ workerEvents 0 ++ workerEvents 1 ++
    [.master, .deliver 0, .master, .master, .deliver 1, .master, .master]

theorem syncEvents_run :
    (exec (step (threeByTwo false)) (init (threeByTwo false)) syncEvents).isSome = true := by
  decide +kernel

/-- The state at the end of the run. -/
def syncFinal : State Int :=
  (exec (step (threeByTwo false)) (init (threeByTwo false)) syncEvents).get syncEvents_run

theorem syncFinal_reached : Reached (threeByTwo false) syncFinal :=
  ⟨_, rfl, syncEvents, (Option.some_get _).symm⟩

theorem sync_result_threeByTwo :
    ResultsReceived (threeByTwo false) syncFinal ∧ ∀ c < 3 * 3, syncFinal.C c =
      masterCalculateOnSelf 3 (threeByTwo false).A (threeByTwo false).B (fun _ => 0) c := by
  have hr : ResultsReceived (threeByTwo false) syncFinal := Or.inl (by decide +kernel)
  exact ⟨hr, sync_result rfl (by decide) (by decide) syncFinal_reached hr⟩

theorem sync_safe_threeByTwo :
    Finished (threeByTwo false) syncFinal ∧ ∀ c, syncFinal.net c = [] := by
  have hf : Finished (threeByTwo false) syncFinal := by
    refine ⟨by decide +kernel, fun i hi => ?_⟩
    change i < 2 at hi
    obtain rfl | rfl : i = 0 ∨ i = 1 := by omega
    · decide +kernel
    · decide +kernel
  exact ⟨hf, (sync_safe rfl (by decide) (by decide) syncFinal_reached).2.2 hf⟩

end Spolks.Lab5
