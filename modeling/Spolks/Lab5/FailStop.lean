import Spolks.Lab5.Moves
import Spolks.Lab5.Async

/-!
# No run returns a wrong product

In the asynchronous mode a worker may be told the block size of another worker. `Sound p s`
is what holds all the same, in both modes and for every number of rows and workers. A worker
that has been told too small a size posts a receive that is shorter than the rows the master
sends to it, one that has been told too large a size sends a result that is longer than the
receive the master has posted, and MPI aborts the run either way. Only a worker with the
right size gets as far as `masterCalculateOnSlaves` storing its block.

* `Sound.of_moves`: every step preserves this.
* `result_of_reached`: once the master has its last result, `C` is the sequential product.
* `Sound.disagrees`: nothing but a wrong block size aborts a run.
-/

namespace Spolks.Lab5

open Lib Spolks.Matrix

section

variable {α : Type*} [Zero α] [Add α] [Mul α] (p : Setup α)

/-- What a channel can carry: any block size, but only the rows and results that are there. -/
def Allowed (s : State α) (c : Chan) (m : Msg α) : Prop :=
  match c.phase with
  | .size => ∃ v, m = ⟨tagBlockSize, .int v⟩
  | .rows | .result => m = sendBuffer p s c

/-- What worker `i` holds after each of its calls, whatever block size it has been told. -/
structure WorkerSound (i : Nat) (w : Worker α) : Prop where
  b : 1 < w.pc.idx → ∀ c < p.N * p.N, w.B c = p.B c
  zero : 2 < w.pc.idx → w.pc.idx < 5 → ∀ k, w.C k = 0
  fits : 3 < w.pc.idx → workerBlockSize p i * p.N ≤ w.blockSize * p.N
  rows : 3 < w.pc.idx → ∀ k < workerBlockSize p i * p.N, w.A k = p.A (workerOffset p i + k)
  product : 4 < w.pc.idx → ∀ k < workerBlockSize p i * p.N,
    w.C k = entry p.N p.A p.B (workerOffset p i + k)

/-- The part of a state that is about worker `i`. -/
structure SoundAt (s : State α) (i : Nat) : Prop where
  chan : ∀ t : Phase, Carries (Posted p s ⟨t, i⟩) (Taken s ⟨t, i⟩) (s.net ⟨t, i⟩)
    (Allowed p s ⟨t, i⟩)
  worker : WorkerSound p i (s.worker i)
  received : s.received i = true → i < called p .result s.pc
  size : s.received i = true → (s.worker i).blockSize = workerBlockSize p i
  stored : s.received i = true → ∀ k < workerBlockSize p i * p.N,
    s.C (workerOffset p i + k) = entry p.N p.A p.B (workerOffset p i + k)

structure Sound (s : State α) : Prop where
  pc : PcOK p s.pc
  results : ∀ i, i < returned p .result s.pc → s.received i = true
  part : ∀ i < p.workersCount, SoundAt p s i
  idle : ∀ c : Chan, p.workersCount ≤ c.worker → s.net c = []
  aborted : s.aborted = true → ¬ BlockSizesAgree p s

theorem sound_init : Sound p (init p) where
  pc := trivial
  results := fun i hi => absurd hi (Nat.not_lt_zero i)
  part := by
    intro i _
    constructor
    · intro t
      apply Carries.init
      · cases t <;> simp [Posted, init, called, WorkerPc.idx]
      · cases t <;> simp [Taken, init, WorkerPc.idx]
    · constructor <;> intro h <;> simp [init, WorkerPc.idx] at h
    all_goals intro h; cases h
  idle := fun _ _ => rfl
  aborted := fun h => by cases h

variable {p} {s s' : State α}

/-! ## One worker by itself -/

section WorkerMove

variable {i : Nat} {w w' : Worker α} {o : Use α} {t u : Phase} {m : Msg α}

theorem WorkerMove.idx (h : WorkerMove p i w o w') : w'.pc.idx = w.pc.idx + 1 := by
  cases h with
  | enter hpc | leave hpc | size hpc | rows hpc _ | calculate hpc | post hpc | sent hpc =>
    rw [hpc]
    rfl

theorem WorkerMove.threshold_ne (h : WorkerMove p i w .nothing w') (t : Phase) :
    t.threshold ≠ w.pc.idx := by
  cases h with
  | enter hpc | leave hpc | calculate hpc | sent hpc =>
    rw [hpc]
    cases t <;> simp [Phase.threshold, WorkerPc.idx]

theorem WorkerMove.threshold_eq (h : WorkerMove p i w (.receives t m) w') :
    t.threshold = w.pc.idx := by
  cases h with
  | size hpc | rows hpc _ =>
    rw [hpc]
    rfl

theorem WorkerMove.idx_of_posts (h : WorkerMove p i w .posts w') : w.pc.idx = 5 := by
  cases h with
  | post hpc =>
    rw [hpc]
    rfl

/-- A result is posted when all receives are over. -/
theorem WorkerMove.ne_result (h : WorkerMove p i w (.receives t m) w') : t ≠ .result := by
  cases h <;> simp

theorem Phase.threshold_ne_of_ne (h : u ≠ t) : u.threshold ≠ t.threshold := by
  cases u <;> cases t <;> simp_all [threshold]

/-- A worker uses the channel of a loop only where it crosses its threshold. -/
theorem WorkerMove.sameSide (h : WorkerMove p i w o w') (hne : t.threshold ≠ w.pc.idx) :
    t.SameSide w.pc w'.pc := by
  have hidx : w'.pc.idx = w.pc.idx + 1 := h.idx
  simp only [Phase.SameSide, hidx]
  omega

/-- A worker leaves a result that it has posted. -/
theorem WorkerMove.result_kept (h : WorkerMove p i w o w') (h5 : 5 < w.pc.idx) :
    w'.C = w.C ∧ w'.blockSize = w.blockSize := by
  cases h with
  | enter hpc | leave hpc | size hpc | rows hpc _ | calculate hpc | post hpc =>
    rw [hpc] at h5
    simp [WorkerPc.idx] at h5
  | sent hpc => exact ⟨rfl, rfl⟩

/-- A worker with at least its own rows computes at least its own part of the product. -/
theorem WorkerSound.multiply (h : WorkerSound p i w) (hN : 0 < p.N) (hpc : w.pc = .calculate)
    {k : Nat} (hk : k < workerBlockSize p i * p.N) :
    multiplyRows w.blockSize p.N w.A w.B w.C k = entry p.N p.A p.B (workerOffset p i + k) := by
  have hfits : workerBlockSize p i * p.N ≤ w.blockSize * p.N :=
    h.fits (by rw [hpc]; simp [WorkerPc.idx])
  have hrow : workerOffset p i = i * (p.N / p.workersCount) * p.N := offset_eq_row ..
  have hcut : multiplyRows w.blockSize p.N w.A w.B w.C k =
      multiplyRows (workerBlockSize p i) p.N w.A w.B w.C k := by
    rw [multiplyRows_apply, multiplyRows_apply, if_pos hk, if_pos (by omega)]
  rw [hcut, hrow]
  apply multiplyRows_shift hN
  · rw [← hrow]
    exact h.rows (by rw [hpc]; simp [WorkerPc.idx])
  · exact h.b (by rw [hpc]; simp [WorkerPc.idx])
  · exact fun l _ => h.zero (by rw [hpc]; simp [WorkerPc.idx]) (by rw [hpc]; simp [WorkerPc.idx]) l
  · exact hk

theorem WorkerSound.of_move (h : WorkerSound p i w) (hN : 0 < p.N) (hmove : WorkerMove p i w o w')
    (hrows : ∀ m, o = .receives .rows m → m = sendBuffer p s ⟨.rows, i⟩) : WorkerSound p i w' := by
  cases hmove with
  | enter hpc => constructor <;> intro hlt <;> simp [WorkerPc.idx] at hlt
  | leave hpc =>
    refine ⟨fun _ c hc => ?_, ?_, ?_, ?_, ?_⟩
    · show writeBlock _ 0 _ c = _
      rw [writeBlock_readBlock _ _ (Nat.zero_le c) (by omega), Nat.sub_zero, Nat.zero_add]
    all_goals intro hlt; simp [WorkerPc.idx] at hlt
  | size hpc =>
    refine ⟨fun _ => h.b (by rw [hpc]; simp [WorkerPc.idx]), fun _ _ _ => rfl, ?_, ?_, ?_⟩
    all_goals intro hlt; simp [WorkerPc.idx] at hlt
  | @rows hpc tag xs hle =>
    have hxs : xs = readBlock p.A (workerOffset p i) (workerBlockSize p i * p.N) := by
      have hm := hrows _ rfl
      simp only [sendBuffer, Msg.mk.injEq, Data.doubles.injEq] at hm
      exact hm.2
    refine ⟨fun _ => h.b (by rw [hpc]; simp [WorkerPc.idx]), fun _ _ =>
      h.zero (by rw [hpc]; simp [WorkerPc.idx]) (by rw [hpc]; simp [WorkerPc.idx]), fun _ => ?_,
      fun _ k hk => ?_, fun hlt => ?_⟩
    · rwa [hxs, readBlock_length] at hle
    · show writeBlock _ 0 xs k = _
      rw [hxs, writeBlock_readBlock _ _ (Nat.zero_le k) (by rwa [Nat.zero_add]), Nat.sub_zero]
    · simp [WorkerPc.idx] at hlt
  | calculate hpc =>
    refine ⟨fun _ => h.b (by rw [hpc]; simp [WorkerPc.idx]), fun _ hlt => ?_,
      fun _ => h.fits (by rw [hpc]; simp [WorkerPc.idx]),
      fun _ => h.rows (by rw [hpc]; simp [WorkerPc.idx]), fun _ k hk => h.multiply hN hpc hk⟩
    simp [WorkerPc.idx] at hlt
  | post hpc | sent hpc =>
    refine ⟨fun _ => h.b ?_, fun _ hlt => ?_, fun _ => h.fits ?_, fun _ => h.rows ?_,
      fun _ => h.product ?_⟩
    on_goal 2 => simp [WorkerPc.idx] at hlt
    all_goals rw [hpc]; simp [WorkerPc.idx]

end WorkerMove

/-! ## The parts of the other workers -/

omit [Zero α] [Add α] [Mul α] in
theorem posted_congr {c : Chan}
    (hcalled : ∀ t, c.worker < called p t s'.pc ↔ c.worker < called p t s.pc)
    (hworker : s'.worker c.worker = s.worker c.worker) : Posted p s' c ↔ Posted p s c := by
  obtain ⟨t, i⟩ := c
  cases t with
  | size | rows => exact hcalled _
  | result => simp only [Posted, hworker]

omit [Zero α] [Add α] [Mul α] in
theorem taken_congr {c : Chan} (hworker : s'.worker c.worker = s.worker c.worker)
    (hreceived : s'.received c.worker = s.received c.worker) : Taken s' c ↔ Taken s c := by
  simp only [Taken, hworker, hreceived]

omit [Zero α] [Add α] [Mul α] in
/-- The posted rows and results depend on the state only through their worker's result. -/
theorem Allowed.congr {c : Chan} {m : Msg α} (h : Allowed p s c m)
    (hkept : c.phase = .result → (s'.worker c.worker).C = (s.worker c.worker).C ∧
      (s'.worker c.worker).blockSize = (s.worker c.worker).blockSize) : Allowed p s' c m := by
  obtain ⟨t, i⟩ := c
  cases t with
  | size | rows => exact h
  | result =>
    obtain ⟨hC, hsize⟩ := hkept rfl
    simp only [Allowed, sendBuffer] at h ⊢
    rw [h, hC, hsize]

theorem SoundAt.congr {i : Nat} (h : SoundAt p s i)
    (hcalled : ∀ t, i < called p t s'.pc ↔ i < called p t s.pc)
    (hnet : ∀ t, s'.net ⟨t, i⟩ = s.net ⟨t, i⟩) (hworker : s'.worker i = s.worker i)
    (hreceived : s'.received i = s.received i)
    (hC : ∀ k < workerBlockSize p i * p.N,
      s'.C (workerOffset p i + k) = s.C (workerOffset p i + k)) : SoundAt p s' i where
  chan := by
    intro t
    rw [hnet]
    apply (h.chan t).congr (posted_congr hcalled hworker).symm (taken_congr hworker hreceived).symm
    exact fun _ m hm => hm.congr fun _ => by rw [hworker]; exact ⟨rfl, rfl⟩
  worker := by
    rw [hworker]
    exact h.worker
  received := by
    rw [hreceived, hcalled]
    exact h.received
  size := by
    rw [hreceived, hworker]
    exact h.size
  stored := by
    intro hr k hk
    rw [hC k hk]
    exact h.stored (hreceived ▸ hr) k hk

/-- A worker whose result has been received has posted it. -/
theorem SoundAt.posted {i : Nat} (h : SoundAt p s i) (hr : s.received i = true) :
    5 < (s.worker i).pc.idx := (h.chan .result).posted_of_taken hr

/-! ## The moves of the master -/

theorem Sound.setPc (h : Sound p s) (hrun : s.aborted = false) {pc : MasterPc} (hpc : PcOK p pc)
    (hcalled : ∀ t, called p t pc = called p t s.pc)
    (hret : ∀ i, i < returned p .result pc → s.received i = true) : Sound p { s with pc := pc } where
  pc := hpc
  results := hret
  part := fun i hi => (h.part i hi).congr (fun t => by rw [hcalled]) (fun _ => rfl) rfl rfl
    fun _ _ => rfl
  idle := h.idle
  aborted := fun ha => absurd ha (by rw [hrun]; simp)

/-- The call of an iteration posts on its own channel only. -/
theorem SoundAt.call {i j : Nat} {t : Phase} (h : SoundAt p s j) (hpc : s.pc = .loop t i)
    (hcall : IsCall (p := p) t i s s') : SoundAt p s' j := by
  have hself : called p t s.pc = i := by rw [hpc, called_loop_self]
  have hcalled := hcall.called hpc
  have hreceived : s'.received j = s.received j := by rw [hcall.received]
  have hworker : s'.worker j = s.worker j := by rw [hcall.worker]
  refine ⟨fun u => ?_, ?_, fun hr => ?_, ?_, ?_⟩
  · by_cases hother : (⟨u, j⟩ : Chan) ≠ ⟨t, i⟩ ∨ t = .result
    · rw [hcall.other _ hother]
      apply (h.chan u).congr _ (taken_congr hworker hreceived).symm
      · exact fun _ m hm => hm.congr fun _ => by rw [hworker]; exact ⟨rfl, rfl⟩
      · cases u with
        | size | rows => exact hcall.called_iff hpc (by rcases hother with hne | rfl <;> simp_all)
        | result => simp only [Posted, hworker]
    · obtain ⟨hsame, ht⟩ := not_or.mp hother
      cases Classical.not_not.mp hsame
      rw [hcall.posted ht]
      have hnot : ¬ i < called p t s.pc := by omega
      have hnow : i < called p t s'.pc := by
        rw [hcalled, if_pos rfl]
        omega
      cases t with
      | size | rows => exact (h.chan _).post hnot hnow (taken_congr hworker hreceived)
      | result => exact absurd rfl ht
  · rw [hworker]
    exact h.worker
  · have hlt := h.received (hreceived ▸ hr)
    rw [hcalled]
    split
    · rename_i ht
      rw [ht, hself] at hlt
      omega
    · exact hlt
  · rw [hreceived, hworker]
    exact h.size
  · rw [hreceived, hcall.c]
    exact h.stored

theorem Sound.call (h : Sound p s) (hrun : s.aborted = false) {t : Phase} {i : Nat}
    (hpc : s.pc = .loop t i) (hi : i < p.workersCount) (hcall : IsCall (p := p) t i s s') :
    Sound p s' where
  pc := by
    rw [hcall.pc]
    cases ha : p.async
    · exact ⟨hi, ha⟩
    · exact hi
  results := by
    intro j hj
    rw [hcall.received]
    apply h.results
    rw [hcall.pc] at hj
    rw [hpc]
    by_cases ht : t = .result <;> cases ha : p.async <;> simp_all [returned]
  part := fun j hj => (h.part j hj).call hpc hcall
  idle := by
    intro c hc
    rw [hcall.other c (Or.inl _), h.idle c hc]
    intro he
    rw [he] at hc
    exact absurd hi (Nat.not_lt_of_le hc)
  aborted := fun ha => absurd ha (by rw [hcall.aborted, hrun]; simp)

theorem Sound.next (h : Sound p s) (hrun : s.aborted = false) {t : Phase} {i : Nat}
    (hpc : s.pc = .loop t i) (hi : p.workersCount ≤ i)
    (hdone : p.async = false ∨ ∀ j < p.workersCount, completed p s t j = true) :
    Sound p { s with pc := t.next } := by
  obtain rfl : i = p.workersCount := by
    have hle := h.pc
    rw [hpc] at hle
    exact Nat.le_antisymm hle hi
  apply h.setPc hrun
  · cases t
    · exact Nat.zero_le _
    · exact Nat.zero_le _
    · trivial
  · intro u
    rw [hpc, called_next]
  · intro j hj
    rw [returned_next] at hj
    cases t with
    | size | rows => exact absurd hj (by simp [Phase.before])
    | result =>
      rw [if_pos (Or.inl rfl)] at hj
      rcases hdone with ha | hall
      · apply h.results
        rwa [hpc, returned_loop ha, called_loop_self]
      · exact hall j hj

theorem Sound.waited (h : Sound p s) (hrun : s.aborted = false) {t : Phase} {i : Nat}
    (hpc : s.pc = .wait t i) (hdone : completed p s t i = true) :
    Sound p { s with pc := .loop t (i + 1) } := by
  obtain ⟨hi, ha⟩ : i < p.workersCount ∧ p.async = false := by
    have hok := h.pc
    rwa [hpc] at hok
  apply h.setPc hrun
  · exact hi
  · intro u
    rw [hpc]
    rfl
  · intro j hj
    by_cases hold : j < returned p .result s.pc
    · exact h.results j hold
    · obtain ⟨rfl, rfl⟩ : t = .result ∧ j = i := by
        rw [hpc] at hold
        by_cases ht : t = .result
        · refine ⟨ht, ?_⟩
          simp only [returned, ht, ha, if_true, Bool.false_eq_true, if_false] at hj hold
          omega
        · simp only [returned, ht, if_false] at hj hold
          omega
      exact hdone

/-! ## The moves of a worker -/

/-- A channel of worker `i` that a move of this worker leaves alone. -/
theorem SoundAt.chan_move {i : Nat} {w : Worker α} {o : Use α}
    {net : Net Chan (Msg α)} {t : Phase} (h : SoundAt p s i)
    (hmove : WorkerMove p i (s.worker i) o w) (hnet : net ⟨t, i⟩ = s.net ⟨t, i⟩)
    (hne : t.threshold ≠ (s.worker i).pc.idx) :
    Carries (Posted p (setWorker { s with net := net } i w) ⟨t, i⟩)
      (Taken (setWorker { s with net := net } i w) ⟨t, i⟩) (net ⟨t, i⟩)
      (Allowed p (setWorker { s with net := net } i w) ⟨t, i⟩) := by
  have hside : t.SameSide (s.worker i).pc w.pc := hmove.sameSide hne
  rw [hnet]
  apply (h.chan t).congr
  · cases t with
    | size | rows => exact Iff.rfl
    | result =>
      simp only [Posted, setWorker_self]
      exact hside
  · cases t with
    | size | rows =>
      simp only [Taken, setWorker_self]
      exact hside
    | result => exact Iff.rfl
  · intro hposted m hm
    apply hm.congr
    intro ht
    obtain rfl : t = .result := ht
    simp only [setWorker_self]
    exact hmove.result_kept hposted

/-- What a move of worker `i` keeps of its own part: all but the channels. -/
theorem SoundAt.of_move {i : Nat} {w : Worker α} {o : Use α}
    {net : Net Chan (Msg α)} (h : SoundAt p s i) (hmove : WorkerMove p i (s.worker i) o w)
    (hw : WorkerSound p i w)
    (hchan : ∀ t, Carries (Posted p (setWorker { s with net := net } i w) ⟨t, i⟩)
      (Taken (setWorker { s with net := net } i w) ⟨t, i⟩) (net ⟨t, i⟩)
      (Allowed p (setWorker { s with net := net } i w) ⟨t, i⟩)) :
    SoundAt p (setWorker { s with net := net } i w) i where
  chan := hchan
  worker := by
    rw [setWorker_self]
    exact hw
  received := h.received
  size := by
    intro hr
    rw [setWorker_self, (hmove.result_kept (h.posted hr)).2]
    exact h.size hr
  stored := h.stored

/-- A move of worker `i` that leaves the channels of the others. -/
theorem Sound.setWorker (h : Sound p s) (hrun : s.aborted = false) {i : Nat}
    (hi : i < p.workersCount) {w : Worker α} {net : Net Chan (Msg α)}
    (hnet : ∀ c : Chan, c.worker ≠ i → net c = s.net c)
    (hpart : SoundAt p (setWorker { s with net := net } i w) i) :
    Sound p (setWorker { s with net := net } i w) where
  pc := h.pc
  results := h.results
  part := by
    intro j hj
    by_cases hji : j = i
    · rw [hji]
      exact hpart
    · exact (h.part j hj).congr (fun _ => Iff.rfl) (fun t => hnet ⟨t, j⟩ hji)
        (Function.update_of_ne hji ..) rfl fun _ _ => rfl
  idle := by
    intro c hc
    show net c = []
    rw [hnet c (by omega)]
    exact h.idle c hc
  aborted := fun ha => absurd ha (by show ¬ s.aborted = true; rw [hrun]; simp)

theorem Sound.quiet (h : Sound p s) (hN : 0 < p.N) (hrun : s.aborted = false) {i : Nat}
    (hi : i < p.workersCount) {w : Worker α} (hmove : WorkerMove p i (s.worker i) .nothing w) :
    Sound p (Lab5.setWorker s i w) := by
  have hpart := h.part i hi
  apply h.setWorker hrun hi (fun _ _ => rfl)
  apply hpart.of_move hmove
  · exact hpart.worker.of_move (s := s) hN hmove fun m he => by cases he
  · exact fun t => hpart.chan_move hmove rfl (hmove.threshold_ne t)

theorem Sound.receive (h : Sound p s) (hN : 0 < p.N) (hrun : s.aborted = false) {i : Nat}
    (hi : i < p.workersCount) {t : Phase} {m : Msg α} {w : Worker α}
    (hfront : s.net.front ⟨t, i⟩ = some m)
    (hmove : WorkerMove p i (s.worker i) (.receives t m) w) :
    Sound p (Lab5.setWorker { s with net := s.net.take ⟨t, i⟩ } i w) := by
  have hpart := h.part i hi
  apply h.setWorker hrun hi fun c hc => Net.take_of_ne _ fun he => hc (by rw [he])
  apply hpart.of_move hmove
  · apply hpart.worker.of_move (s := s) hN hmove
    intro m' he
    cases he
    exact ((hpart.chan .rows).front hfront).1
  · intro u
    by_cases hut : u = t
    · subst hut
      rw [Net.take_self]
      have hnow : u.threshold < w.pc.idx := by
        rw [hmove.idx, hmove.threshold_eq]
        exact Nat.lt_succ_self _
      cases u with
      | size | rows =>
        apply (hpart.chan _).take hfront Iff.rfl
        simp only [Taken, setWorker_self]
        exact hnow
      | result => exact absurd rfl hmove.ne_result
    · apply hpart.chan_move hmove
      · exact Net.take_of_ne _ fun he => hut (congrArg Chan.phase he)
      · rw [← hmove.threshold_eq]
        exact Phase.threshold_ne_of_ne hut

theorem Sound.post (h : Sound p s) (hN : 0 < p.N) (hrun : s.aborted = false) {i : Nat}
    (hi : i < p.workersCount) {w : Worker α} (hmove : WorkerMove p i (s.worker i) .posts w) :
    Sound p (Lab5.setWorker { s with net := s.net.post ⟨.result, i⟩ } i w) := by
  have hpart := h.part i hi
  have hidx : (s.worker i).pc.idx = 5 := hmove.idx_of_posts
  apply h.setWorker hrun hi fun c hc => Net.post_of_ne _ fun he => hc (by rw [he])
  apply hpart.of_move hmove
  · exact hpart.worker.of_move (s := s) hN hmove fun m he => by cases he
  · intro t
    by_cases ht : t = .result
    · subst ht
      rw [Net.post_self]
      apply (hpart.chan .result).post
      · simp only [Posted, hidx, Phase.threshold]
        omega
      · simp only [Posted, setWorker_self, hmove.idx, hidx, Phase.threshold]
        omega
      · exact Iff.rfl
    · apply hpart.chan_move hmove
      · exact Net.post_of_ne _ fun he => ht (congrArg Chan.phase he)
      · rw [hidx]
        exact Phase.threshold_ne_of_ne ht

/-! ## The moves of MPI -/

theorem Sound.worker_lt (h : Sound p s) {c : Chan} {m : Msg α} (hfront : s.net.front c = some m) :
    c.worker < p.workersCount := by
  by_contra hge
  rw [Net.front, h.idle c (Nat.le_of_not_lt hge)] at hfront
  cases hfront

/-- An unread buffer is the only send on its channel. -/
theorem Sound.unread_eq (h : Sound p s) {c : Chan} (hunread : s.net.unread c = true) :
    c.worker < p.workersCount ∧ s.net c = [none] := by
  have hc : c.worker < p.workersCount := by
    by_contra hge
    rw [Net.unread, h.idle c (Nat.le_of_not_lt hge)] at hunread
    cases hunread
  exact ⟨hc, (((h.part c.worker hc).chan c.phase).eq_of_unread hunread).2⟩

theorem Sound.read (h : Sound p s) (hrun : s.aborted = false) {c : Chan}
    (hunread : s.net.unread c = true) :
    Sound p { s with net := s.net.read c (sendBuffer p s c) } := by
  obtain ⟨hc, hq⟩ := h.unread_eq hunread
  refine ⟨h.pc, h.results, fun j hj => ?_, fun d hd => ?_, fun ha => absurd ha (by rw [hrun]; simp)⟩
  · have hpart := h.part j hj
    refine ⟨fun t => ?_, hpart.worker, hpart.received, hpart.size, hpart.stored⟩
    by_cases hct : (⟨t, j⟩ : Chan) = c
    · subst hct
      show Carries _ _ (s.net.read ⟨t, j⟩ _ ⟨t, j⟩) _
      rw [Net.read_self]
      apply (hpart.chan t).fill hq
      cases t with
      | size => exact ⟨s.currentWorkerBlockSize, rfl⟩
      | rows | result => rfl
    · show Carries _ _ (s.net.read c _ ⟨t, j⟩) _
      rw [Net.read_of_ne _ _ hct]
      exact hpart.chan t
  · show s.net.read c _ d = []
    rw [Net.read_of_ne _ _ _, h.idle d hd]
    intro he
    rw [he] at hd
    exact absurd hc (Nat.not_lt_of_le hd)

/-- A result that the master's receive is long enough for comes from a worker with the right
block size. -/
theorem Sound.result_fits (h : Sound p s) (hN : 0 < p.N) {i tag : Nat} {xs : List α}
    (hfront : s.net.front ⟨.result, i⟩ = some ⟨tag, .doubles xs⟩)
    (hle : xs.length ≤ workerBlockSize p i * p.N) :
    i < p.workersCount ∧ (s.worker i).blockSize = workerBlockSize p i ∧
      xs = readBlock (entry p.N p.A p.B) (workerOffset p i) (workerBlockSize p i * p.N) := by
  have hi : i < p.workersCount := h.worker_lt hfront
  have hpart := h.part i hi
  obtain ⟨hm, ⟨hposted, -⟩, -⟩ := (hpart.chan .result).front hfront
  have hxs : xs = readBlock (s.worker i).C 0 ((s.worker i).blockSize * p.N) := by
    simp only [Allowed, sendBuffer, Msg.mk.injEq, Data.doubles.injEq] at hm
    exact hm.2
  have hidx : 5 < (s.worker i).pc.idx := hposted
  have hsize : (s.worker i).blockSize = workerBlockSize p i := by
    apply Nat.eq_of_mul_eq_mul_right hN
    apply Nat.le_antisymm
    · rwa [hxs, readBlock_length] at hle
    · exact hpart.worker.fits (by omega)
  refine ⟨hi, hsize, ?_⟩
  rw [hxs, hsize]
  apply readBlock_congr
  intro k hk
  rw [Nat.zero_add]
  exact hpart.worker.product (by omega) k hk

theorem Sound.deliver (h : Sound p s) (hN : 0 < p.N) (hrun : s.aborted = false) {i tag : Nat}
    {xs : List α} (hcalled : i < called p .result s.pc) (hnew : s.received i = false)
    (hfront : s.net.front ⟨.result, i⟩ = some ⟨tag, .doubles xs⟩)
    (hle : xs.length ≤ workerBlockSize p i * p.N) :
    Sound p { s with
      net := s.net.take ⟨.result, i⟩
      C := writeBlock s.C (workerOffset p i) xs
      received := Function.update s.received i true } := by
  obtain ⟨hi, hsize, hxs⟩ := h.result_fits hN hfront hle
  have hupdate : ∀ j, j ≠ i → Function.update s.received i true j = s.received j :=
    fun j hj => Function.update_of_ne hj ..
  have htake : ∀ c : Chan, c ≠ ⟨.result, i⟩ → s.net.take ⟨.result, i⟩ c = s.net c :=
    fun c hc => Net.take_of_ne _ hc
  refine ⟨h.pc, fun j hj => ?_, fun j hj => ?_, fun c hc => ?_,
    fun ha => absurd ha (by rw [hrun]; simp)⟩
  · show Function.update s.received i true j = true
    by_cases hji : j = i
    · rw [hji, Function.update_self]
    · rw [hupdate j hji]
      exact h.results j hj
  · have hpart := h.part j hj
    by_cases hji : j = i
    · subst hji
      refine ⟨fun t => ?_, hpart.worker, fun _ => hcalled, fun _ => hsize, fun _ k hk => ?_⟩
      · by_cases ht : t = .result
        · subst ht
          show Carries _ _ (s.net.take _ _) _
          rw [Net.take_self]
          apply (hpart.chan .result).take hfront Iff.rfl
          simp only [Taken, Function.update_self]
        · show Carries _ _ (s.net.take _ ⟨t, j⟩) _
          rw [htake _ fun he => ht (congrArg Chan.phase he)]
          cases t with
          | size | rows => exact (hpart.chan _).congr Iff.rfl Iff.rfl fun _ m hm => hm
          | result => exact absurd rfl ht
      · show writeBlock s.C (workerOffset p j) xs _ = _
        rw [hxs, writeBlock_readBlock _ _ (Nat.le_add_right ..) (Nat.add_lt_add_left hk _),
          Nat.add_sub_cancel_left]
    · refine hpart.congr (fun _ => Iff.rfl) (fun t => ?_) rfl (hupdate j hji) fun k hk => ?_
      · exact htake _ fun he => hji (congrArg Chan.worker he)
      · show writeBlock s.C (workerOffset p i) xs _ = _
        rw [writeBlock_outside]
        rw [hxs, readBlock_length]
        -- the blocks of two workers do not overlap
        rcases Nat.lt_or_gt_of_ne hji with hlt | hgt
        · have hend : workerOffset p j + workerBlockSize p j * p.N ≤ workerOffset p i :=
            part_le hi hlt
          exact Or.inl (by omega)
        · have hend : workerOffset p i + workerBlockSize p i * p.N ≤ workerOffset p j :=
            part_le hj hgt
          exact Or.inr (by omega)
  · show s.net.take ⟨.result, i⟩ c = []
    rw [htake c fun he => by rw [he] at hc; exact absurd hi (Nat.not_lt_of_le hc), h.idle c hc]

/-- A message that is longer than its receive is about a worker with a wrong block size. -/
theorem Sound.disagrees (h : Sound p s) {c : Chan} {r : Recv} {m : Msg α}
    (hm : matched p s c = some (r, m)) (hlt : r.count < m.data.count) :
    ¬ BlockSizesAgree p s := by
  obtain ⟨hr, hfront⟩ := matched_iff.mp hm
  obtain ⟨t, i⟩ := c
  have hi : i < p.workersCount := h.worker_lt hfront
  obtain ⟨hallowed, ⟨hposted, -⟩, -⟩ := ((h.part i hi).chan t).front hfront
  intro hagree
  cases t with
  | size =>
    obtain ⟨v, rfl⟩ := hallowed
    simp only [receiving] at hr
    split at hr <;> cases hr
    exact absurd hlt (Nat.lt_irrefl 1)
  | rows =>
    simp only [receiving] at hr
    split at hr <;> cases hr
    rename_i hpc
    have hsize := hagree i hi (by rw [hpc]; simp [WorkerPc.idx])
    simp only [Allowed, sendBuffer] at hallowed
    rw [hallowed, hsize] at hlt
    simp only [Data.count, readBlock_length] at hlt
    exact absurd hlt (Nat.lt_irrefl _)
  | result =>
    simp only [receiving] at hr
    split at hr <;> cases hr
    have hidx : 5 < (s.worker i).pc.idx := hposted
    have hsize := hagree i hi (Nat.lt_trans (by simp [WorkerPc.idx]) hidx)
    simp only [Allowed, sendBuffer] at hallowed
    rw [hallowed, hsize] at hlt
    simp only [Data.count, readBlock_length] at hlt
    exact absurd hlt (Nat.lt_irrefl _)

/-! ## Runs -/

theorem Sound.of_moves (h : Sound p s) (hN : 0 < p.N) (hrun : s.aborted = false) {e : Event}
    (hmove : Moves p s e s') : Sound p s' := by
  cases hmove with
  | enter hpc =>
    have hok : PcOK p .inBcast := trivial
    apply h.setPc hrun hok
    · intro t
      rw [hpc]
      rfl
    · exact fun i hi => absurd hi (Nat.not_lt_zero i)
  | leave hpc =>
    have hok : PcOK p (.loop .size 0) := Nat.zero_le _
    apply h.setPc hrun hok
    · intro t
      rw [hpc]
      cases t <;> rfl
    · exact fun i hi => absurd hi (by simp [returned, Phase.before])
  | call hpc hi hcall => exact h.call hrun hpc hi hcall
  | next hpc hi hdone => exact h.next hrun hpc hi hdone
  | waited hpc hdone => exact h.waited hrun hpc hdone
  | quiet hi hw => exact h.quiet hN hrun hi hw
  | receive hi hfront hw => exact h.receive hN hrun hi hfront hw
  | post hi hw => exact h.post hN hrun hi hw
  | read hunread => exact h.read hrun hunread
  | deliver hcalled hnew hfront hle => exact h.deliver hN hrun hcalled hnew hfront hle
  | abort hm hlt =>
    refine ⟨h.pc, h.results, fun i hi => ?_, h.idle, fun _ => h.disagrees hm hlt⟩
    exact (h.part i hi).congr (fun _ => Iff.rfl) (fun _ => rfl) rfl rfl fun _ _ => rfl

theorem sound_of_reached (hN : 0 < p.N) (h : Reached p s) : Sound p s := by
  refine h.invariant (fun _ he => he ▸ sound_init p) fun _ _ _ hI hstep => ?_
  obtain ⟨hrun, hmove⟩ := moves_of_step hstep
  exact hI.of_moves hN hrun hmove

/-- The blocks of the workers tile the matrix, and a result that has been taken is the product
of its block. -/
theorem Sound.result_eq (h : Sound p s) (hw : 0 < p.workersCount) (hr : ResultsReceived p s)
    {c : Nat} (hc : c < p.N * p.N) : s.C c = entry p.N p.A p.B c := by
  obtain ⟨i, hi, hle, hlt⟩ := exists_part p.N hw hc
  have hcell : workerOffset p i + (c - workerOffset p i) = c := Nat.add_sub_cancel' hle
  have hend : c < workerOffset p i + workerBlockSize p i * p.N := hlt
  have hstored := (h.part i hi).stored (h.results i (hr.lt_returned hi)) (c - workerOffset p i)
    (by omega)
  rwa [hcell] at hstored

/-- A worker whose result has been received has been told the right block size. -/
theorem Sound.size_of_results (h : Sound p s) (hr : ResultsReceived p s) {i : Nat}
    (hi : i < p.workersCount) : (s.worker i).blockSize = workerBlockSize p i :=
  (h.part i hi).size (h.results i (hr.lt_returned hi))

/-- **No run returns a wrong product.** In either mode, as soon as the master has its last
result, every worker has been told its own block size, the run has not been aborted, and `C` is
the product that `masterCalculateOnSelf` computes. -/
theorem result_of_reached (hN : 1 ≤ p.N) (hw : 1 ≤ p.workersCount) (h : Reached p s)
    (hr : ResultsReceived p s) :
    (∀ i < p.workersCount, (s.worker i).blockSize = workerBlockSize p i) ∧ s.aborted = false ∧
      ∀ c < p.N * p.N, s.C c = masterCalculateOnSelf p.N p.A p.B (fun _ => 0) c := by
  have hS := sound_of_reached hN h
  refine ⟨fun i hi => hS.size_of_results hr hi, ?_, fun c hc => ?_⟩
  · by_contra haborted
    rw [Bool.not_eq_false] at haborted
    exact hS.aborted haborted fun i hi _ => hS.size_of_results hr hi
  · rw [masterCalculateOnSelf_apply p.N p.A p.B hc]
    exact hS.result_eq hw hr hc

end

/-! ## Three rows and two workers, every buffer read at once -/

/-- The calls of worker `i` behind `MPI_Bcast`, with MPI reading its result. -/
def timelyWorker (i : Nat) : List Event :=
  List.replicate 5 (.worker i) ++ [.read ⟨.result, i⟩, .worker i]

def timelyEvents : List Event :=
  [.master, .worker 0, .worker 1, .master] ++
    [.master, .read ⟨.size, 0⟩, .master, .read ⟨.size, 1⟩, .master] ++
    [.master, .read ⟨.rows, 0⟩, .master, .read ⟨.rows, 1⟩, .master] ++
    timelyWorker 0 ++ timelyWorker 1 ++ [.master, .master, .deliver 1, .deliver 0, .master]

theorem timelyEvents_run :
    (exec (step (threeByTwo true)) (init (threeByTwo true)) timelyEvents).isSome = true := by
  decide +kernel

def timelyFinal : State Int :=
  (exec (step (threeByTwo true)) (init (threeByTwo true)) timelyEvents).get timelyEvents_run

theorem timelyFinal_reached : Reached (threeByTwo true) timelyFinal :=
  ⟨_, rfl, timelyEvents, (Option.some_get _).symm⟩

/-- A run of the asynchronous mode in which the numbers of rows are not equal. -/
theorem result_of_reached_threeByTwo :
    ResultsReceived (threeByTwo true) timelyFinal ∧ (timelyFinal.worker 1).blockSize = 2 ∧
      ∀ c < 3 * 3, timelyFinal.C c =
        masterCalculateOnSelf 3 (threeByTwo true).A (threeByTwo true).B (fun _ => 0) c := by
  have hr : ResultsReceived (threeByTwo true) timelyFinal := Or.inl (by decide +kernel)
  obtain ⟨hsizes, -, hproduct⟩ := result_of_reached (by simp [threeByTwo]) (by simp [threeByTwo])
    timelyFinal_reached hr
  exact ⟨hr, hsizes 1 (by simp [threeByTwo]), hproduct⟩

end Spolks.Lab5
