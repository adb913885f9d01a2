import Spolks.Lab5.Peer

/-!
# The invariant of the master and its workers

`Inv p s` relates the master's program counter to each worker's phase and to the state of
each channel. Every channel carries one message in a run (`Lib.Once`); which one is
`expected`, and `posted` and `taken` say from the program counters alone how far it is.
The only place where the two modes differ is `Inv.buffer`: a block size that MPI has not
read yet is still in the variable. In the synchronous mode this is because the master
waits for each send, in the asynchronous mode it needs all block sizes to be equal, that
is `workersCount ∣ N` (`SizesSettled`).

* `Inv.of_step`: every step preserves the invariant.
* `inv_of_reached`: it holds in every state that some interleaving reaches.
-/

namespace Spolks.Lab5

open Lib Spolks.Matrix

/-- The number of calls a worker has behind it. -/
def WorkerPc.idx : WorkerPc → Nat
  | .bcast => 0
  | .inBcast => 1
  | .recvSize => 2
  | .recvRows => 3
  | .calculate => 4
  | .sendResult => 5
  | .waitResult => 6
  | .finished => 7

/-- A worker with more calls than this behind it has received its message of the loop, or
posted its result. -/
def Phase.threshold : Phase → Nat
  | .size => 2
  | .rows => 3
  | .result => 5

section Counters

variable {α : Type*} {p : Setup α} {s : State α}

@[simp] theorem setWorker_self (s : State α) (i : Nat) (w : Worker α) :
    (setWorker s i w).worker i = w := Function.update_self ..

theorem called_next (t u : Phase) : called p u t.next = called p u (.loop t p.workersCount) := by
  cases t <;> cases u <;> simp [called, Phase.next, Phase.before]

theorem called_loop_self (t : Phase) (i : Nat) : called p t (.loop t i) = i := if_pos rfl

theorem called_loop_of_ne {t u : Phase} (h : t ≠ u) (i j : Nat) :
    called p u (.loop t i) = called p u (.loop t j) := by
  simp only [called, if_neg h]

/-- The program counter behind the call of iteration `i`, in both modes. -/
theorem called_after (t u : Phase) (i : Nat) :
    called p u (if p.async then .loop t (i + 1) else .wait t i) = called p u (.loop t (i + 1)) := by
  split <;> rfl

/-- Iterations of loop `t` whose MPI call the master knows to be complete. -/
def returned (p : Setup α) (t : Phase) : MasterPc → Nat
  | .bcast | .inBcast => 0
  | .loop u i =>
    if u = t then (if p.async then 0 else i) else if t.before u then p.workersCount else 0
  | .wait u i => if u = t then i else if t.before u then p.workersCount else 0
  | .finished => p.workersCount

theorem returned_next (t u : Phase) :
    returned p u t.next = if u = t ∨ u.before t = true then p.workersCount else 0 := by
  cases t <;> cases u <;> simp [returned, Phase.next, Phase.before]

theorem returned_of_before {t u : Phase} (h : u.before t = true) (i : Nat) :
    returned p u (.loop t i) = p.workersCount := by
  cases t <;> cases u <;> simp_all [returned, Phase.before]

/-- At the head of a loop of the synchronous mode all calls have returned. -/
theorem returned_loop (ha : p.async = false) {t u : Phase} {i : Nat} :
    returned p u (.loop t i) = called p u (.loop t i) := by
  simp only [returned, called, ha, Bool.false_eq_true, if_false]

/-- What the call of iteration `i` of loop `t` does to the state. -/
structure IsCall (t : Phase) (i : Nat) (s s' : State α) : Prop where
  pc : s'.pc = if p.async then .loop t (i + 1) else .wait t i
  aborted : s'.aborted = s.aborted
  worker : s'.worker = s.worker
  received : s'.received = s.received
  c : s'.C = s.C
  other : ∀ c : Chan, c ≠ ⟨t, i⟩ ∨ t = .result → s'.net c = s.net c
  posted : t ≠ .result → s'.net ⟨t, i⟩ = s.net ⟨t, i⟩ ++ [none]
  buffer : s'.currentWorkerBlockSize =
    if t = .size then workerBlockSize p i else s.currentWorkerBlockSize

theorem masterCall_isCall (s : State α) (t : Phase) (i : Nat) :
    IsCall (p := p) t i s
      { masterCall p s t i with pc := if p.async then .loop t (i + 1) else .wait t i } := by
  cases t with
  | size | rows =>
    exact ⟨rfl, rfl, rfl, rfl, rfl, fun c hc => Net.post_of_ne _ (hc.resolve_right (by simp)),
      fun _ => Net.post_self .., rfl⟩
  | result => exact ⟨rfl, rfl, rfl, rfl, rfl, fun _ _ => rfl, fun h => absurd rfl h, rfl⟩

theorem IsCall.called {t : Phase} {i : Nat} {s s' : State α} (hc : IsCall (p := p) t i s s')
    (hpc : s.pc = .loop t i) (u : Phase) :
    Lab5.called p u s'.pc = if u = t then i + 1 else Lab5.called p u s.pc := by
  rw [hc.pc, called_after, hpc]
  split
  · rename_i hut
    rw [hut, called_loop_self]
  · rename_i hut
    exact called_loop_of_ne (Ne.symm hut) _ _

theorem IsCall.called_iff {t u : Phase} {i j : Nat} {s s' : State α}
    (hc : IsCall (p := p) t i s s') (hpc : s.pc = .loop t i) (hne : (⟨u, j⟩ : Chan) ≠ ⟨t, i⟩) :
    j < Lab5.called p u s.pc ↔ j < Lab5.called p u s'.pc := by
  rw [hc.called hpc]
  split
  · rename_i hut
    subst hut
    have hji : j ≠ i := fun he => hne (by rw [he])
    rw [hpc, called_loop_self]
    omega
  · exact Iff.rfl

/-- Completion depends on the state only through the channel or the receive asked about. -/
theorem completed_congr {s s' : State α} {t : Phase} {i : Nat}
    (hr : t = .result → s'.received i = s.received i)
    (hn : t ≠ .result → s'.net ⟨t, i⟩ = s.net ⟨t, i⟩ ∨ s'.net ⟨t, i⟩ = [])
    (h : completed p s t i = true) : completed p s' t i = true := by
  have key : ∀ t, (s'.net ⟨t, i⟩ = s.net ⟨t, i⟩ ∨ s'.net ⟨t, i⟩ = []) →
      s.net.sendDone p.eager ⟨t, i⟩ = true → s'.net.sendDone p.eager ⟨t, i⟩ = true := by
    intro t hn hd
    rcases hn with hn | hn
    · simpa only [Net.sendDone, hn] using hd
    · exact sendDone_of_nil hn
  cases t with
  | size | rows => exact key _ (hn (by simp)) h
  | result =>
    show s'.received i = true
    rw [hr rfl]
    exact h

end Counters

section

variable {α : Type*} [Zero α] [Add α] [Mul α] (p : Setup α)

/-- The program counters that `masterCalculateOnSlaves` can have. -/
def PcOK : MasterPc → Prop
  | .loop _ i => i ≤ p.workersCount
  | .wait _ i => i < p.workersCount ∧ p.async = false
  | _ => True

/-- The message that channel `c` carries. -/
def expected (c : Chan) : Msg α :=
  match c.phase with
  | .size => ⟨tagBlockSize, .int (workerBlockSize p c.worker)⟩
  | .rows => ⟨tagMatrixFirst, .doubles
      (readBlock p.A (workerOffset p c.worker) (workerBlockSize p c.worker * p.N))⟩
  | .result => ⟨tagMatrixResult, .doubles
      (readBlock (entry p.N p.A p.B) (workerOffset p c.worker)
        (workerBlockSize p c.worker * p.N))⟩

/-- The send of channel `c` has been posted. -/
def Posted (s : State α) (c : Chan) : Prop :=
  match c.phase with
  | .size => c.worker < called p .size s.pc
  | .rows => c.worker < called p .rows s.pc
  | .result => Phase.result.threshold < (s.worker c.worker).pc.idx

/-- The message of channel `c` has been received. -/
def Taken (s : State α) (c : Chan) : Prop :=
  match c.phase with
  | .size => Phase.size.threshold < (s.worker c.worker).pc.idx
  | .rows => Phase.rows.threshold < (s.worker c.worker).pc.idx
  | .result => s.received c.worker = true

/-- What worker `i` holds after each of its calls. -/
structure WorkerOK (i : Nat) (w : Worker α) : Prop where
  b : 1 < w.pc.idx → ∀ c < p.N * p.N, w.B c = p.B c
  size : 2 < w.pc.idx → w.blockSize = workerBlockSize p i
  zero : 2 < w.pc.idx → w.pc.idx < 5 → ∀ k, w.C k = 0
  rows : 3 < w.pc.idx → ∀ k < workerBlockSize p i * p.N, w.A k = p.A (workerOffset p i + k)
  product : 4 < w.pc.idx → ∀ k < workerBlockSize p i * p.N,
    w.C k = entry p.N p.A p.B (workerOffset p i + k)

/-- A block size read late is still the one that was sent. -/
def SizesSettled : Prop := p.async = false ∨ p.workersCount ∣ p.N

structure Inv (s : State α) : Prop where
  running : s.aborted = false
  pc : PcOK p s.pc
  calls : ∀ t i, i < returned p t s.pc → completed p s t i = true
  chan : ∀ c : Chan, c.worker < p.workersCount →
    Once (Posted p s c) (Taken s c) (s.net c) (expected p c)
  idle : ∀ c : Chan, p.workersCount ≤ c.worker → s.net c = []
  buffer : ∀ i, s.net ⟨.size, i⟩ = [none] → s.currentWorkerBlockSize = workerBlockSize p i
  worker : ∀ i < p.workersCount, WorkerOK p i (s.worker i)
  received : ∀ i, s.received i = true → i < called p .result s.pc
  result : ∀ i < p.workersCount, s.received i = true → ∀ k < workerBlockSize p i * p.N,
    s.C (workerOffset p i + k) = entry p.N p.A p.B (workerOffset p i + k)

/-! ## The initial state and the frame lemmas -/

theorem inv_init : Inv p (init p) where
  running := rfl
  pc := trivial
  calls := fun t i hi => absurd hi (Nat.not_lt_zero i)
  chan := by
    intro c _
    refine Once.init _ ?_ ?_ <;> obtain ⟨t, i⟩ := c <;> cases t <;>
      simp [Posted, Taken, init, called, WorkerPc.idx, Phase.threshold]
  idle := fun _ _ => rfl
  buffer := fun _ h => by cases h
  worker := fun i _ => by constructor <;> intro h <;> simp [init, WorkerPc.idx] at h
  received := fun _ h => by cases h
  result := fun _ _ h => by cases h

variable {p} {s : State α}

/-- A step of the master that makes no call keeps the invariant. -/
theorem Inv.setPc (h : Inv p s) {pc : MasterPc} (hpc : PcOK p pc)
    (hcalled : ∀ t, called p t pc = called p t s.pc)
    (hret : ∀ t i, i < returned p t pc → completed p s t i = true) :
    Inv p { s with pc := pc } where
  running := h.running
  pc := hpc
  calls := fun t i hi => by cases t <;> exact hret _ i hi
  chan := by
    intro c hc
    refine (h.chan c hc).congr ?_ Iff.rfl
    unfold Posted
    split
    · rw [hcalled]
    · rw [hcalled]
    · exact Iff.rfl
  idle := h.idle
  buffer := h.buffer
  worker := h.worker
  received := by
    intro i hi
    show i < called p .result pc
    rw [hcalled]
    exact h.received i hi
  result := h.result

/-! ## Steps of the master -/

/-- In the synchronous mode no size is unread at the head of a loop: the master would still
wait for it. -/
theorem Inv.size_ne_unread (h : Inv p s) (ha : p.async = false) {t : Phase} {i : Nat}
    (hpc : s.pc = .loop t i) (j : Nat) : s.net ⟨.size, j⟩ ≠ [none] := by
  intro hj
  have hjw : j < p.workersCount := by
    by_contra hge
    rw [h.idle _ (Nat.le_of_not_lt hge)] at hj
    cases hj
  have hposted : j < called p .size s.pc := by
    by_contra hnot
    rw [(h.chan ⟨.size, j⟩ hjw).empty (Or.inl hnot)] at hj
    cases hj
  have hdone : completed p s .size j = true := by
    apply h.calls .size j
    rwa [hpc, returned_loop ha, ← hpc]
  exact ne_unread_of_sendDone hdone hj

/-- The call of one iteration keeps the invariant. -/
theorem Inv.call (h : Inv p s) (hs : SizesSettled p) (hw : 0 < p.workersCount) {t : Phase}
    {i : Nat} {s' : State α} (hpc : s.pc = .loop t i) (hi : i < p.workersCount)
    (hc : IsCall (p := p) t i s s') : Inv p s' := by
  have hself : called p t s.pc = i := by rw [hpc, called_loop_self]
  have hcalled := hc.called hpc
  refine ⟨hc.aborted ▸ h.running, ?_, ?_, ?_, ?_, ?_, ?_, ?_, ?_⟩
  · rw [hc.pc]
    cases ha : p.async
    · exact ⟨hi, ha⟩
    · exact hi
  · intro u j hj
    rw [hc.pc] at hj
    have hlt : j < returned p u s.pc := by
      rw [hpc]
      by_cases hut : t = u <;> cases ha : p.async <;> simp_all [returned]
    refine completed_congr (fun _ => by rw [hc.received]) (fun _ => Or.inl (hc.other _ ?_))
      (h.calls u j hlt)
    left
    rintro ⟨rfl, rfl⟩
    cases ha : p.async <;> simp [returned, ha] at hj
  · intro c hcw
    by_cases hct : c ≠ ⟨t, i⟩ ∨ t = .result
    · rw [hc.other c hct]
      refine (h.chan c hcw).congr ?_ ?_
      · obtain ⟨u, j⟩ := c
        cases u with
        | size | rows => exact hc.called_iff hpc (by rcases hct with hne | rfl <;> simp_all)
        | result => simp only [Posted, hc.worker]
      · simp only [Taken, hc.worker, hc.received]
    · obtain ⟨hct, ht⟩ := not_or.mp hct
      obtain rfl := Classical.not_not.mp hct
      rw [hc.posted ht]
      have hnot : ¬ i < called p t s.pc := by omega
      have hnow : i < called p t s'.pc := by
        rw [hcalled, if_pos rfl]
        omega
      cases t with
      | size | rows => exact (h.chan _ hcw).post hnot hnow (by simp only [Taken, hc.worker])
      | result => exact absurd rfl ht
  · intro c hcw
    rw [hc.other c (Or.inl fun he => by simp only [he] at hcw; omega), h.idle c hcw]
  · intro j hj
    rw [hc.buffer]
    split
    · rename_i ht
      subst ht
      by_cases hji : j = i
      · rw [hji]
      · rw [hc.other _ (Or.inl fun he => hji (congrArg Chan.worker he))] at hj
        rcases hs with ha | hdvd
        · exact absurd hj (h.size_ne_unread ha hpc j)
        · exact (blockRows_of_dvd hw hdvd i).trans (blockRows_of_dvd hw hdvd j).symm
    · rename_i ht
      rw [hc.other _ (Or.inl fun he => ht (congrArg Chan.phase he).symm)] at hj
      exact h.buffer j hj
  · rw [hc.worker]
    exact h.worker
  · intro j hj
    rw [hc.received] at hj
    have hlt := h.received j hj
    rw [hcalled]
    split
    · rename_i hut
      rw [hut, hself] at hlt
      omega
    · exact hlt
  · rw [hc.received, hc.c]
    exact h.result

/-- The end of a loop, which in the asynchronous mode has waited for all of its calls. -/
theorem Inv.next (h : Inv p s) {t : Phase} (hpc : s.pc = .loop t p.workersCount)
    (hdone : p.async = false ∨ ∀ j < p.workersCount, completed p s t j = true) :
    Inv p { s with pc := t.next } := by
  refine h.setPc ?_ (fun u => by rw [hpc, called_next]) (fun u j hj => ?_)
  · cases t
    · exact Nat.zero_le _
    · exact Nat.zero_le _
    · trivial
  · rw [returned_next] at hj
    split at hj
    · rename_i hut
      rcases hut with rfl | hbefore
      · rcases hdone with ha | hall
        · apply h.calls u j
          rwa [hpc, returned_loop ha, called_loop_self]
        · exact hall j hj
      · exact h.calls u j (by rwa [hpc, returned_of_before hbefore])
    · exact absurd hj (Nat.not_lt_zero j)

/-- The end of a blocking call. -/
theorem Inv.waited (h : Inv p s) {t : Phase} {i : Nat} (hpc : s.pc = .wait t i)
    (hdone : completed p s t i = true) : Inv p { s with pc := .loop t (i + 1) } := by
  obtain ⟨hi, ha⟩ : i < p.workersCount ∧ p.async = false := by
    have := h.pc
    rwa [hpc] at this
  refine h.setPc hi (fun u => by rw [hpc]; rfl) (fun u j hj => ?_)
  by_cases hold : j < returned p u s.pc
  · exact h.calls u j hold
  · -- the only new iteration is the one whose wait has just ended
    obtain ⟨rfl, rfl⟩ : t = u ∧ j = i := by
      rw [hpc] at hold
      by_cases hut : t = u
      · refine ⟨hut, ?_⟩
        simp only [returned, hut, ha, if_true, Bool.false_eq_true, if_false] at hj hold
        omega
      · simp only [returned, hut, if_false] at hj hold
        omega
    exact hdone

/-- Every step of the master keeps the invariant. -/
theorem Inv.of_masterStep (h : Inv p s) (hs : SizesSettled p) (hw : 0 < p.workersCount)
    {s' : State α} (hstep : masterStep p s = some s') : Inv p s' := by
  unfold masterStep at hstep
  cases hpc : s.pc with
  | bcast =>
    rw [hpc] at hstep
    cases hstep
    refine h.setPc trivial (fun t => by rw [hpc]; rfl) ?_
    exact fun t i hi => absurd hi (Nat.not_lt_zero i)
  | inBcast =>
    simp only [hpc] at hstep
    split at hstep
    · cases hstep
      refine h.setPc (Nat.zero_le _) (fun t => ?_) ?_
      · rw [hpc]
        cases t <;> rfl
      · intro t i hi
        cases t <;> simp [returned, Phase.before] at hi
    · cases hstep
  | loop t i =>
    simp only [hpc] at hstep
    have hile : i ≤ p.workersCount := by
      have := h.pc
      rwa [hpc] at this
    split at hstep
    · rename_i hi
      cases hstep
      exact h.call hs hw hpc hi (masterCall_isCall s t i)
    · rename_i hi
      split at hstep
      · rename_i hdone
        cases hstep
        obtain rfl : i = p.workersCount := by omega
        simp only [Bool.or_eq_true, Bool.not_eq_true', List.all_eq_true, List.mem_range] at hdone
        exact h.next hpc hdone
      · cases hstep
  | wait t i =>
    simp only [hpc] at hstep
    split at hstep
    · rename_i hdone
      cases hstep
      exact h.waited hpc hdone
    · cases hstep
  | finished =>
    rw [hpc] at hstep
    cases hstep

/-! ## Matched receives -/

/-- A receive is matched only with the message its channel is meant to carry, and asks for
exactly this tag and this number of elements. -/
theorem Inv.matched_eq (h : Inv p s) {c : Chan} {r : Recv} {m : Msg α}
    (hm : matched p s c = some (r, m)) :
    c.worker < p.workersCount ∧ m = expected p c ∧ r = ⟨m.tag, m.data.count⟩ ∧
      s.net.front c = some m := by
  obtain ⟨r', hr, hmap⟩ := Option.bind_eq_some_iff.mp hm
  obtain ⟨m', hfront, he⟩ := Option.map_eq_some_iff.mp hmap
  cases he
  have hc : c.worker < p.workersCount := by
    by_contra hge
    rw [Net.front, h.idle c (Nat.le_of_not_lt hge)] at hfront
    cases hfront
  obtain ⟨rfl, -⟩ := (h.chan c hc).front hfront
  refine ⟨hc, rfl, ?_, hfront⟩
  obtain ⟨t, i⟩ := c
  have hWorker := h.worker i hc
  cases t with
  | size =>
    simp only [receiving] at hr
    split at hr
    · cases hr
      rfl
    · cases hr
  | rows =>
    simp only [receiving] at hr
    split at hr
    · rename_i hpc
      cases hr
      simp only [expected, Data.count, readBlock_length]
      rw [hWorker.size (by rw [hpc]; decide)]
    · cases hr
  | result =>
    simp only [receiving] at hr
    split at hr
    · cases hr
      simp only [expected, Data.count, readBlock_length]
    · cases hr

/-! ## Steps of a worker -/

/-- A step of worker `i` keeps the invariant when it keeps what the worker must hold and
leaves the worker's three channels in the state that its new program counter asks for. -/
theorem Inv.of_setWorker (h : Inv p s) {i : Nat} {w : Worker α} {net : Net Chan (Msg α)}
    (hw : WorkerOK p i w) (hother : ∀ c : Chan, c.worker ≠ i → net c = s.net c)
    (hnet : ∀ t, t ≠ .result → net ⟨t, i⟩ = s.net ⟨t, i⟩ ∨ net ⟨t, i⟩ = [])
    (hi : i < p.workersCount)
    (hchan : ∀ t, Once (Posted p (setWorker { s with net := net } i w) ⟨t, i⟩)
      (Taken (setWorker { s with net := net } i w) ⟨t, i⟩) (net ⟨t, i⟩)
      (expected p ⟨t, i⟩)) : Inv p (setWorker { s with net := net } i w) where
  running := h.running
  pc := h.pc
  calls := by
    intro t j hj
    refine completed_congr (s := s) (fun _ => rfl) (fun ht => ?_) (h.calls t j hj)
    by_cases hji : j = i
    · rw [hji]
      exact hnet t ht
    · exact Or.inl (hother ⟨t, j⟩ hji)
  chan := by
    intro c hc
    by_cases hci : c.worker = i
    · obtain ⟨t, j⟩ := c
      obtain rfl : j = i := hci
      exact hchan t
    · show Once _ _ (net c) _
      rw [hother c hci]
      have hget : (setWorker { s with net := net } i w).worker c.worker =
          s.worker c.worker := Function.update_of_ne hci ..
      refine (h.chan c hc).congr ?_ ?_
      · unfold Posted
        rw [hget]
        rfl
      · unfold Taken
        rw [hget]
        rfl
  idle := by
    intro c hc
    show net c = []
    rw [hother c (by omega)]
    exact h.idle c hc
  buffer := by
    intro j hj
    apply h.buffer j
    by_cases hji : j = i
    · subst hji
      rcases hnet .size (by simp) with he | he
      · exact he ▸ hj
      · rw [show (setWorker { s with net := net } j w).net ⟨.size, j⟩ = [] from he] at hj
        cases hj
    · exact (hother ⟨.size, j⟩ hji) ▸ hj
  worker := by
    intro j hj
    by_cases hji : j = i
    · subst hji
      show WorkerOK p j (Function.update s.worker j w j)
      rw [Function.update_self]
      exact hw
    · show WorkerOK p j (Function.update s.worker i w j)
      rw [Function.update_of_ne hji]
      exact h.worker j hj
  received := h.received
  result := h.result

/-- Between these two program counters a worker uses no channel of loop `t`. -/
def Phase.SameSide (t : Phase) (pc pc' : WorkerPc) : Prop :=
  t.threshold < pc.idx ↔ t.threshold < pc'.idx

instance (t : Phase) (pc pc' : WorkerPc) : Decidable (t.SameSide pc pc') :=
  inferInstanceAs (Decidable (_ ↔ _))

/-- A channel of worker `i` that a step of the worker leaves alone. -/
theorem Inv.chan_setWorker (h : Inv p s) {i : Nat} (hi : i < p.workersCount) {w : Worker α}
    {net : Net Chan (Msg α)} {t : Phase} (hnet : net ⟨t, i⟩ = s.net ⟨t, i⟩)
    (hside : t.SameSide (s.worker i).pc w.pc) :
    Once (Posted p (setWorker { s with net := net } i w) ⟨t, i⟩)
      (Taken (setWorker { s with net := net } i w) ⟨t, i⟩) (net ⟨t, i⟩)
      (expected p ⟨t, i⟩) := by
  rw [hnet]
  refine (h.chan ⟨t, i⟩ hi).congr ?_ ?_
  · cases t with
    | size | rows => exact Iff.rfl
    | result =>
      simp only [Posted, setWorker_self]
      exact hside
  · cases t with
    | size | rows =>
      simp only [Taken, setWorker_self]
      exact hside
    | result => exact Iff.rfl

/-- A step of worker `i` that touches no channel. -/
theorem Inv.setWorker_quiet (h : Inv p s) {i : Nat} {w : Worker α} {pc : WorkerPc}
    (hi : i < p.workersCount) (hpc : (s.worker i).pc = pc) (hw : WorkerOK p i w)
    (hside : ∀ t : Phase, t.SameSide pc w.pc) : Inv p (setWorker s i w) := by
  refine h.of_setWorker hw (fun _ _ => rfl) (fun _ _ => Or.inl rfl) hi fun t => ?_
  exact h.chan_setWorker hi rfl (hpc ▸ hside t)

/-- A step of worker `i` that uses its channel of loop `t`. -/
theorem Inv.setWorker_chan (h : Inv p s) {i : Nat} {w : Worker α} {pc : WorkerPc}
    (hi : i < p.workersCount) (hpc : (s.worker i).pc = pc) (t : Phase)
    {net : Net Chan (Msg α)} (hw : WorkerOK p i w)
    (hother : ∀ c : Chan, c ≠ ⟨t, i⟩ → net c = s.net c) (hnet : t ≠ .result → net ⟨t, i⟩ = [])
    (hside : ∀ u, u ≠ t → u.SameSide pc w.pc)
    (hchan : Once (Posted p (setWorker { s with net := net } i w) ⟨t, i⟩)
      (Taken (setWorker { s with net := net } i w) ⟨t, i⟩) (net ⟨t, i⟩)
      (expected p ⟨t, i⟩)) : Inv p (setWorker { s with net := net } i w) := by
  have hne : ∀ u : Phase, u ≠ t → (⟨u, i⟩ : Chan) ≠ ⟨t, i⟩ :=
    fun u hut he => hut (congrArg Chan.phase he)
  refine h.of_setWorker hw (fun c hc => hother c fun he => hc (congrArg Chan.worker he))
    (fun u hu => ?_) hi fun u => ?_
  · by_cases hut : u = t
    · subst hut
      exact Or.inr (hnet hu)
    · exact Or.inl (hother _ (hne u hut))
  · by_cases hut : u = t
    · subst hut
      exact hchan
    · exact h.chan_setWorker hi (hother _ (hne u hut)) (hpc ▸ hside u hut)

/-- A worker's receive of its message of loop `t` keeps the invariant. -/
theorem Inv.receive (h : Inv p s) {i : Nat} {w : Worker α} {pc : WorkerPc} {t : Phase} {r : Recv}
    {m : Msg α} (ht : t ≠ .result) (hm : matched p s ⟨t, i⟩ = some (r, m))
    (hpc : (s.worker i).pc = pc) (hw : WorkerOK p i w) (hnow : t.threshold < w.pc.idx)
    (hside : ∀ u, u ≠ t → u.SameSide pc w.pc) :
    Inv p (setWorker { s with net := s.net.take ⟨t, i⟩ } i w) := by
  obtain ⟨hi, -, -, hfront⟩ := h.matched_eq hm
  have hOnce := h.chan ⟨t, i⟩ hi
  have hself : (setWorker { s with net := s.net.take ⟨t, i⟩ } i w).worker i = w :=
    Function.update_self ..
  refine h.setWorker_chan hi hpc t hw (fun c hc => Net.take_of_ne _ hc) (fun _ => ?_) hside ?_
  · rw [Net.take_self, (hOnce.front hfront).2.2.2]
    rfl
  · rw [Net.take_self]
    cases t with
    | size | rows => exact hOnce.take hfront Iff.rfl (by simp only [Taken, hself]; exact hnow)
    | result => exact absurd rfl ht

/-- A worker that goes on without changing its memory still holds what it must hold. -/
theorem WorkerOK.advance {i : Nat} {w : Worker α} (h : WorkerOK p i w) {pc pc' : WorkerPc}
    (hpc : w.pc = pc) (hge : ∀ k < 5, 0 < k → k < pc'.idx → k < pc.idx)
    (hlt : pc'.idx < 5 → pc.idx < 5) : WorkerOK p i { w with pc := pc' } := by
  subst hpc
  exact ⟨fun h₁ => h.b (hge 1 (by decide) (by decide) h₁),
    fun h₂ => h.size (hge 2 (by decide) (by decide) h₂),
    fun h₂ h₅ => h.zero (hge 2 (by decide) (by decide) h₂) (hlt h₅),
    fun h₃ => h.rows (hge 3 (by decide) (by decide) h₃),
    fun h₄ => h.product (hge 4 (by decide) (by decide) h₄)⟩

/-- `MPI_Bcast` leaves the second matrix. -/
theorem WorkerOK.bcast {i : Nat} {w : Worker α} : WorkerOK p i
    { w with pc := .recvSize, B := writeBlock w.B 0 (readBlock p.B 0 (p.N * p.N)) } := by
  refine ⟨fun _ c hc => ?_, ?_, ?_, ?_, ?_⟩
  · show writeBlock _ 0 _ c = _
    rw [writeBlock_readBlock _ _ (Nat.zero_le c) (by omega), Nat.sub_zero, Nat.zero_add]
  all_goals intro hlt; simp [WorkerPc.idx] at hlt

theorem WorkerOK.recvSize {i : Nat} {w : Worker α} (h : WorkerOK p i w) (hpc : w.pc = .recvSize)
    (A : Nat → α) : WorkerOK p i
      { w with pc := .recvRows, blockSize := workerBlockSize p i, A := A, C := fun _ => 0 } := by
  refine ⟨fun _ => h.b (by rw [hpc]; decide), fun _ => rfl, fun _ _ _ => rfl, ?_, ?_⟩
  all_goals intro hlt; simp [WorkerPc.idx] at hlt

theorem WorkerOK.recvRows {i : Nat} {w : Worker α} (h : WorkerOK p i w) (hpc : w.pc = .recvRows) :
    WorkerOK p i { w with
      pc := .calculate
      A := writeBlock w.A 0 (readBlock p.A (workerOffset p i) (workerBlockSize p i * p.N)) } := by
  refine ⟨fun _ => h.b (by rw [hpc]; decide), fun _ => h.size (by rw [hpc]; decide),
    fun _ _ => h.zero (by rw [hpc]; decide) (by rw [hpc]; decide), fun _ k hk => ?_, fun hlt => ?_⟩
  · show writeBlock _ 0 _ k = _
    rw [writeBlock_readBlock _ _ (Nat.zero_le k) (by rwa [Nat.zero_add]), Nat.sub_zero]
  · simp [WorkerPc.idx] at hlt

/-- The rows that a worker has received, times the second matrix, are its part of the
product. -/
theorem WorkerOK.calculate {i : Nat} {w : Worker α} (h : WorkerOK p i w) (hN : 0 < p.N)
    (hpc : w.pc = .calculate) : WorkerOK p i
      { w with pc := .sendResult, C := multiplyRows w.blockSize p.N w.A w.B w.C } := by
  have hsize : w.blockSize = workerBlockSize p i := h.size (by rw [hpc]; decide)
  refine ⟨fun _ => h.b (by rw [hpc]; decide), fun _ => hsize, fun _ hlt => ?_,
    fun _ => h.rows (by rw [hpc]; decide), fun _ k hk => ?_⟩
  · simp [WorkerPc.idx] at hlt
  · have hrow : workerOffset p i = i * (p.N / p.workersCount) * p.N := offset_eq_row ..
    show multiplyRows w.blockSize p.N w.A w.B w.C k = _
    rw [hsize, hrow]
    refine multiplyRows_shift hN (fun l hl => ?_) (h.b (by rw [hpc]; decide))
      (fun l _ => h.zero (by rw [hpc]; decide) (by rw [hpc]; decide) l) hk
    rw [← hrow]
    exact h.rows (by rw [hpc]; decide) l hl

/-- Every step of a worker keeps the invariant. -/
theorem Inv.of_workerStep (h : Inv p s) (hN : 0 < p.N) {i : Nat} (hi : i < p.workersCount)
    {s' : State α} (hstep : workerStep p s i = some s') : Inv p s' := by
  have hWorker := h.worker i hi
  unfold workerStep at hstep
  cases hpc : (s.worker i).pc with
  | bcast =>
    simp only [hpc] at hstep
    cases hstep
    exact h.setWorker_quiet hi hpc (hWorker.advance hpc (by decide) (by decide))
      fun t => by cases t <;> exact of_decide_eq_true rfl
  | inBcast =>
    simp only [hpc] at hstep
    split at hstep
    · cases hstep
      exact h.setWorker_quiet hi hpc .bcast fun t => by cases t <;> exact of_decide_eq_true rfl
    · cases hstep
  | recvSize =>
    simp only [hpc] at hstep
    split at hstep
    · rename_i r m hm
      obtain ⟨-, rfl, hr, -⟩ := h.matched_eq hm
      rw [if_neg (by rw [hr]; exact Nat.lt_irrefl _)] at hstep
      cases hstep
      refine h.receive (by simp) hm hpc (hWorker.recvSize hpc _) (of_decide_eq_true rfl)
        fun u hu => ?_
      cases u <;> first | exact absurd rfl hu | exact of_decide_eq_true rfl
    · cases hstep
  | recvRows =>
    simp only [hpc] at hstep
    split at hstep
    · rename_i r m hm
      obtain ⟨-, rfl, hr, -⟩ := h.matched_eq hm
      rw [if_neg (by rw [hr]; exact Nat.lt_irrefl _)] at hstep
      cases hstep
      refine h.receive (by simp) hm hpc (hWorker.recvRows hpc) (of_decide_eq_true rfl)
        fun u hu => ?_
      cases u <;> first | exact absurd rfl hu | exact of_decide_eq_true rfl
    · cases hstep
  | calculate =>
    simp only [hpc] at hstep
    cases hstep
    exact h.setWorker_quiet hi hpc (hWorker.calculate hN hpc)
      fun t => by cases t <;> exact of_decide_eq_true rfl
  | sendResult =>
    simp only [hpc] at hstep
    cases hstep
    refine h.setWorker_chan hi hpc .result (hWorker.advance hpc (by decide) (by decide))
      (fun c hc => Net.post_of_ne _ hc) (fun ht => absurd rfl ht) (fun u hu => ?_) ?_
    · cases u <;> first | exact absurd rfl hu | exact of_decide_eq_true rfl
    · rw [Net.post_self]
      refine (h.chan ⟨.result, i⟩ hi).post ?_ ?_ Iff.rfl
      · simp only [Posted, hpc]
        decide
      · show Phase.result.threshold < (Function.update s.worker i _ i).pc.idx
        rw [Function.update_self]
        exact of_decide_eq_true rfl
  | waitResult =>
    simp only [hpc] at hstep
    split at hstep
    · cases hstep
      exact h.setWorker_quiet hi hpc (hWorker.advance hpc (by decide) (by decide))
        fun t => by cases t <;> exact of_decide_eq_true rfl
    · cases hstep
  | finished =>
    simp only [hpc] at hstep
    cases hstep

/-! ## Steps of MPI -/

/-- A buffer that is still to be read holds the message that the channel is meant to carry. -/
theorem Inv.sendBuffer_eq (h : Inv p s) {c : Chan} (hc : c.worker < p.workersCount)
    (hq : s.net c = [none]) : sendBuffer p s c = expected p c := by
  obtain ⟨t, i⟩ := c
  have hP : Posted p s ⟨t, i⟩ := by
    by_contra hnot
    rw [(h.chan _ hc).empty (Or.inl hnot)] at hq
    cases hq
  cases t with
  | size => simp only [sendBuffer, expected, h.buffer i hq]
  | rows => rfl
  | result =>
    have hWorker := h.worker i hc
    have hidx : 5 < (s.worker i).pc.idx := hP
    simp only [sendBuffer, expected, hWorker.size (by omega)]
    congr 2
    refine readBlock_congr fun k hk => ?_
    rw [Nat.zero_add]
    exact hWorker.product (by omega) k hk

/-- A buffer can be read only while its channel holds this one send. -/
theorem Inv.unread_eq (h : Inv p s) {c : Chan} (hunread : s.net.unread c = true) :
    c.worker < p.workersCount ∧ s.net c = [none] := by
  have hc : c.worker < p.workersCount := by
    by_contra hge
    rw [Net.unread, h.idle c (Nat.le_of_not_lt hge)] at hunread
    cases hunread
  refine ⟨hc, ?_⟩
  by_contra hne
  have hread : ∀ q : List (Option (Msg α)), q = [] ∨ q = [some (expected p c)] →
      q.any Option.isNone = false := by
    rintro q (rfl | rfl) <;> rfl
  have hq : s.net c = [] ∨ s.net c = [some (expected p c)] := by
    by_cases hPT : Posted p s c ∧ ¬ Taken s c
    · exact Or.inr (((h.chan c hc).waiting hPT.1 hPT.2).resolve_left hne)
    · exact Or.inl ((h.chan c hc).empty (by tauto))
  rw [Net.unread, hread _ hq] at hunread
  cases hunread

theorem Inv.of_readStep (h : Inv p s) {c : Chan} {s' : State α}
    (hstep : readStep p s c = some s') : Inv p s' := by
  unfold readStep at hstep
  split at hstep
  · rename_i hunread
    cases hstep
    obtain ⟨hc, hq⟩ := h.unread_eq hunread
    have hfill : ∀ d : Chan, d.worker < p.workersCount →
        Once (Posted p s d) (Taken s d) (s.net.read c (sendBuffer p s c) d) (expected p d) := by
      intro d hd
      by_cases hdc : d = c
      · subst hdc
        rw [Net.read_self, h.sendBuffer_eq hc hq]
        exact (h.chan d hd).fill
      · rw [Net.read_of_ne _ _ hdc]
        exact h.chan d hd
    refine ⟨h.running, h.pc, fun t i hi => ?_, hfill, fun d hd => ?_, fun i hi => ?_, h.worker,
      h.received, h.result⟩
    · have hold := h.calls t i hi
      refine completed_congr (s := s) (fun _ => rfl) (fun ht => Or.inl ?_) hold
      refine Net.read_of_ne _ _ fun he => ?_
      -- a complete send has been read, so this is another channel
      have hdone : s.net.sendDone p.eager ⟨t, i⟩ = true := by
        cases t with
        | size | rows => exact hold
        | result => exact absurd rfl ht
      exact ne_unread_of_sendDone hdone (he ▸ hq)
    · show s.net.read c _ d = []
      rw [Net.read_of_ne _ _ (by rintro rfl; omega)]
      exact h.idle d hd
    · apply h.buffer i
      by_cases hic : (⟨.size, i⟩ : Chan) = c
      · rw [hic]
        exact hq
      · rw [← hi]
        exact (Net.read_of_ne _ _ hic).symm
  · cases hstep

/-- Storing the block of worker `i` leaves the blocks that have been received. -/
theorem Inv.result_store (h : Inv p s) {i : Nat} (hi : i < p.workersCount) :
    ∀ j < p.workersCount, j = i ∨ s.received j = true → ∀ k < workerBlockSize p j * p.N,
      writeBlock s.C (workerOffset p i)
          (readBlock (entry p.N p.A p.B) (workerOffset p i) (workerBlockSize p i * p.N))
          (workerOffset p j + k) =
        entry p.N p.A p.B (workerOffset p j + k) := by
  intro j hjw hj k hk
  by_cases hji : j = i
  · subst hji
    rw [writeBlock_readBlock _ _ (Nat.le_add_right ..) (by simpa using hk), Nat.add_sub_cancel_left]
  · rw [writeBlock_outside, h.result j hjw (hj.resolve_left hji) k hk]
    rw [readBlock_length]
    -- the blocks of two workers do not overlap
    rcases Nat.lt_or_gt_of_ne hji with hlt | hgt
    · have := part_le (N := p.N) hi hlt
      left
      exact Nat.lt_of_lt_of_le (Nat.add_lt_add_left hk _) this
    · have := part_le (N := p.N) hjw hgt
      right
      exact Nat.le_trans this (Nat.le_add_right ..)

/-- A delivery takes a result that has not been received before from its channel and stores
it. -/
theorem Inv.deliverStep_eq (h : Inv p s) {i : Nat} {s' : State α}
    (hstep : deliverStep p s i = some s') :
    i < p.workersCount ∧ i < called p .result s.pc ∧ s.received i = false ∧
      s.net.front ⟨.result, i⟩ = some (expected p ⟨.result, i⟩) ∧
      s' = { s with
        net := s.net.take ⟨.result, i⟩
        C := writeBlock s.C (workerOffset p i)
          (readBlock (entry p.N p.A p.B) (workerOffset p i) (workerBlockSize p i * p.N))
        received := Function.update s.received i true } := by
  unfold deliverStep at hstep
  split at hstep
  · rename_i r m hm
    obtain ⟨hi, rfl, hr, hfront⟩ := h.matched_eq hm
    rw [if_neg (by rw [hr]; exact Nat.lt_irrefl _)] at hstep
    cases hstep
    obtain ⟨r', hrecv, -⟩ := Option.bind_eq_some_iff.mp hm
    simp only [receiving] at hrecv
    split at hrecv
    · rename_i hc
      exact ⟨hi, hc.1, hc.2, hfront, rfl⟩
    · cases hrecv
  · cases hstep

theorem Inv.of_deliverStep (h : Inv p s) {i : Nat} {s' : State α}
    (hstep : deliverStep p s i = some s') : Inv p s' := by
  obtain ⟨hi, hposted, -, hfront, rfl⟩ := h.deliverStep_eq hstep
  have hupdate : ∀ j, Function.update s.received i true j = true ↔ j = i ∨ s.received j = true := by
    intro j
    by_cases hji : j = i
    · simp [hji]
    · simp [hji]
  have htake : ∀ t j, t ≠ .result → s.net.take ⟨.result, i⟩ ⟨t, j⟩ = s.net ⟨t, j⟩ :=
    fun t j ht => Net.take_of_ne _ fun he => ht (congrArg Chan.phase he)
  have hOnce := h.chan ⟨.result, i⟩ hi
  refine ⟨h.running, h.pc, fun t j hj => ?_, fun c hc => ?_, fun c hc => ?_, fun j hj => ?_,
    h.worker, fun j hj => ?_, fun j hjw hj k hk => ?_⟩
  · have hold := h.calls t j hj
    cases t with
    | size | rows =>
      exact completed_congr (s := s) (fun ht => by cases ht) (fun ht => Or.inl (htake _ j ht)) hold
    | result => exact (hupdate j).mpr (Or.inr hold)
  · by_cases hci : c = ⟨.result, i⟩
    · subst hci
      show Once _ _ (s.net.take ⟨.result, i⟩ ⟨.result, i⟩) _
      rw [Net.take_self]
      exact hOnce.take hfront Iff.rfl ((hupdate i).mpr (Or.inl rfl))
    · show Once _ _ (s.net.take ⟨.result, i⟩ c) _
      rw [Net.take_of_ne _ hci]
      apply (h.chan c hc).congr Iff.rfl
      obtain ⟨t, j⟩ := c
      cases t with
      | size | rows => exact Iff.rfl
      | result =>
        have hji : j ≠ i := fun he => hci (by rw [he])
        simp only [Taken, hupdate, hji, false_or]
  · show s.net.take ⟨.result, i⟩ c = []
    rw [Net.take_of_ne _ (by rintro rfl; exact absurd hi (Nat.not_lt_of_le hc))]
    exact h.idle c hc
  · apply h.buffer j
    rw [← hj]
    exact (htake .size j (by simp)).symm
  · rcases (hupdate j).mp hj with rfl | hold
    · exact hposted
    · exact h.received j hold
  · exact h.result_store hi j hjw ((hupdate j).mp hj) k hk

/-! ## Runs -/

variable (hN : 0 < p.N) (hw : 0 < p.workersCount) (hs : SizesSettled p)

include hN hw hs

theorem Inv.of_step (h : Inv p s) {e : Event} {s' : State α} (hstep : step p s e = some s') :
    Inv p s' := by
  unfold step at hstep
  rw [if_neg (by rw [h.running]; decide)] at hstep
  cases e with
  | master => exact h.of_masterStep hs hw hstep
  | worker i =>
    simp only at hstep
    split at hstep
    · rename_i hi
      exact h.of_workerStep hN hi hstep
    · cases hstep
  | read c => exact h.of_readStep hstep
  | deliver i => exact h.of_deliverStep hstep

theorem inv_of_reached (h : Reached p s) : Inv p s :=
  h.invariant (fun _ he => he ▸ inv_init p) fun _ _ _ hI hstep => hI.of_step hN hw hs hstep

end

end Spolks.Lab5
