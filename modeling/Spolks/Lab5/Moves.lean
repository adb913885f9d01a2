import Spolks.Lab5.Invariant

/-!
# What a step can do

`Moves p s e s'` says once, for every event, what a step changes and under which guards:
`moves_of_step`. It holds in both modes and without any invariant, so it also describes the
runs in which a worker has received a wrong block size.
-/

namespace Spolks.Lab5

open Lib Spolks.Matrix

/-- What a matched receive is matched with. -/
theorem matched_iff {α : Type*} {p : Setup α} {s : State α} {c : Chan} {r : Recv} {m : Msg α} :
    matched p s c = some (r, m) ↔ receiving p s c = some r ∧ s.net.front c = some m := by
  rw [matched, Option.bind_eq_some_iff]
  constructor
  · rintro ⟨r', hr, hmap⟩
    obtain ⟨m', hfront, he⟩ := Option.map_eq_some_iff.mp hmap
    cases he
    exact ⟨hr, hfront⟩
  · rintro ⟨hr, hfront⟩
    exact ⟨r, hr, by rw [hfront, Option.map_some]⟩

/-- The channel that a worker uses in a step: none, that of the message it receives, or that
of its result. -/
inductive Use (α : Type*) where
  | nothing
  | receives (t : Phase) (m : Msg α)
  | posts

section

variable {α : Type*} [Zero α] [Add α] [Mul α] (p : Setup α)

/-- What worker `i` does to its own record in one step, and which channel it uses for it. -/
inductive WorkerMove (i : Nat) (w : Worker α) : Use α → Worker α → Prop
  | enter (hpc : w.pc = .bcast) : WorkerMove i w .nothing { w with pc := .inBcast }
  | leave (hpc : w.pc = .inBcast) : WorkerMove i w .nothing
      { w with pc := .recvSize, B := writeBlock w.B 0 (readBlock p.B 0 (p.N * p.N)) }
  | size (hpc : w.pc = .recvSize) {tag v : Nat} : WorkerMove i w (.receives .size ⟨tag, .int v⟩)
      { w with pc := .recvRows, blockSize := v, A := p.mallocA i, C := fun _ => 0 }
  | rows (hpc : w.pc = .recvRows) {tag : Nat} {xs : List α} (hle : xs.length ≤ w.blockSize * p.N) :
      WorkerMove i w (.receives .rows ⟨tag, .doubles xs⟩)
        { w with pc := .calculate, A := writeBlock w.A 0 xs }
  | calculate (hpc : w.pc = .calculate) : WorkerMove i w .nothing
      { w with pc := .sendResult, C := multiplyRows w.blockSize p.N w.A w.B w.C }
  | post (hpc : w.pc = .sendResult) : WorkerMove i w .posts { w with pc := .waitResult }
  | sent (hpc : w.pc = .waitResult) : WorkerMove i w .nothing { w with pc := .finished }

/-- One step of the system. -/
inductive Moves (s : State α) : Event → State α → Prop
  | enter (hpc : s.pc = .bcast) : Moves s .master { s with pc := .inBcast }
  | leave (hpc : s.pc = .inBcast) : Moves s .master { s with pc := .loop .size 0 }
  | call {t : Phase} {i : Nat} {s' : State α} (hpc : s.pc = .loop t i) (hi : i < p.workersCount)
      (hcall : IsCall (p := p) t i s s') : Moves s .master s'
  | next {t : Phase} {i : Nat} (hpc : s.pc = .loop t i) (hi : p.workersCount ≤ i)
      (hdone : p.async = false ∨ ∀ j < p.workersCount, completed p s t j = true) :
      Moves s .master { s with pc := t.next }
  | waited {t : Phase} {i : Nat} (hpc : s.pc = .wait t i) (hdone : completed p s t i = true) :
      Moves s .master { s with pc := .loop t (i + 1) }
  | quiet {i : Nat} {w : Worker α} (hi : i < p.workersCount)
      (hw : WorkerMove p i (s.worker i) .nothing w) : Moves s (.worker i) (setWorker s i w)
  | receive {i : Nat} {t : Phase} {m : Msg α} {w : Worker α} (hi : i < p.workersCount)
      (hfront : s.net.front ⟨t, i⟩ = some m)
      (hw : WorkerMove p i (s.worker i) (.receives t m) w) :
      Moves s (.worker i) (setWorker { s with net := s.net.take ⟨t, i⟩ } i w)
  | post {i : Nat} {w : Worker α} (hi : i < p.workersCount)
      (hw : WorkerMove p i (s.worker i) .posts w) :
      Moves s (.worker i) (setWorker { s with net := s.net.post ⟨.result, i⟩ } i w)
  | read {c : Chan} (hunread : s.net.unread c = true) :
      Moves s (.read c) { s with net := s.net.read c (sendBuffer p s c) }
  | deliver {i tag : Nat} {xs : List α} (hcalled : i < called p .result s.pc)
      (hnew : s.received i = false)
      (hfront : s.net.front ⟨.result, i⟩ = some ⟨tag, .doubles xs⟩)
      (hle : xs.length ≤ workerBlockSize p i * p.N) : Moves s (.deliver i)
        { s with
          net := s.net.take ⟨.result, i⟩
          C := writeBlock s.C (workerOffset p i) xs
          received := Function.update s.received i true }
  | abort {e : Event} {c : Chan} {r : Recv} {m : Msg α} (hm : matched p s c = some (r, m))
      (hlt : r.count < m.data.count) : Moves s e { s with aborted := true }

variable {p} {s s' : State α}

theorem moves_of_masterStep (hstep : masterStep p s = some s') : Moves p s .master s' := by
  unfold masterStep at hstep
  split at hstep
  · rename_i hpc
    cases hstep
    exact .enter hpc
  · rename_i hpc
    split at hstep
    · cases hstep
      exact .leave hpc
    · cases hstep
  · rename_i t i hpc
    split at hstep
    · rename_i hi
      cases hstep
      exact .call hpc hi (masterCall_isCall s t i)
    · rename_i hi
      split at hstep
      · rename_i hdone
        cases hstep
        simp only [Bool.or_eq_true, Bool.not_eq_true', List.all_eq_true, List.mem_range] at hdone
        exact .next hpc (Nat.le_of_not_lt hi) hdone
      · cases hstep
  · rename_i t i hpc
    split at hstep
    · rename_i hdone
      cases hstep
      exact .waited hpc hdone
    · cases hstep
  · cases hstep

theorem moves_of_workerStep {i : Nat} (hi : i < p.workersCount)
    (hstep : workerStep p s i = some s') : Moves p s (.worker i) s' := by
  unfold workerStep at hstep
  cases hpc : (s.worker i).pc with
  | bcast =>
    simp only [hpc] at hstep
    cases hstep
    exact .quiet hi (.enter hpc)
  | inBcast =>
    simp only [hpc] at hstep
    split at hstep
    · cases hstep
      exact .quiet hi (.leave hpc)
    · cases hstep
  | recvSize =>
    simp only [hpc] at hstep
    split at hstep
    · rename_i r m hm
      split at hstep
      · rename_i hlt
        cases hstep
        exact .abort hm hlt
      · obtain ⟨tag, data⟩ := m
        cases data with
        | int v =>
          cases hstep
          exact .receive hi (matched_iff.mp hm).2 (.size hpc)
        | doubles xs => cases hstep
    · cases hstep
  | recvRows =>
    simp only [hpc] at hstep
    split at hstep
    · rename_i r m hm
      obtain ⟨hr, hfront⟩ := matched_iff.mp hm
      split at hstep
      · rename_i hlt
        cases hstep
        exact .abort hm hlt
      · rename_i hle
        obtain ⟨tag, data⟩ := m
        cases data with
        | int v => cases hstep
        | doubles xs =>
          cases hstep
          have hcount : r.count = (s.worker i).blockSize * p.N := by
            rw [receiving, if_pos hpc] at hr
            cases hr
            rfl
          rw [hcount] at hle
          exact .receive hi hfront (.rows hpc (Nat.le_of_not_lt hle))
    · cases hstep
  | calculate =>
    simp only [hpc] at hstep
    cases hstep
    exact .quiet hi (.calculate hpc)
  | sendResult =>
    simp only [hpc] at hstep
    cases hstep
    exact .post hi (.post hpc)
  | waitResult =>
    simp only [hpc] at hstep
    split at hstep
    · cases hstep
      exact .quiet hi (.sent hpc)
    · cases hstep
  | finished =>
    simp only [hpc] at hstep
    cases hstep

theorem moves_of_deliverStep {i : Nat} (hstep : deliverStep p s i = some s') :
    Moves p s (.deliver i) s' := by
  unfold deliverStep at hstep
  split at hstep
  · rename_i r m hm
    obtain ⟨hr, hfront⟩ := matched_iff.mp hm
    split at hstep
    · rename_i hlt
      cases hstep
      exact .abort hm hlt
    · rename_i hle
      obtain ⟨tag, data⟩ := m
      cases data with
      | int v => cases hstep
      | doubles xs =>
        cases hstep
        simp only [receiving] at hr
        split at hr
        · rename_i hposted
          cases hr
          exact .deliver hposted.1 hposted.2 hfront (Nat.le_of_not_lt hle)
        · cases hr
  · cases hstep

/-- Only a system that has not been aborted takes steps, and each of them is one of these. -/
theorem moves_of_step {e : Event} (hstep : step p s e = some s') :
    s.aborted = false ∧ Moves p s e s' := by
  unfold step at hstep
  split at hstep
  · cases hstep
  rename_i hrun
  refine ⟨Bool.eq_false_iff.mpr hrun, ?_⟩
  cases e with
  | master => exact moves_of_masterStep hstep
  | worker i =>
    simp only at hstep
    split at hstep
    · rename_i hi
      exact moves_of_workerStep hi hstep
    · cases hstep
  | read c =>
    simp only [readStep] at hstep
    split at hstep
    · rename_i hunread
      cases hstep
      exact .read hunread
    · cases hstep
  | deliver i => exact moves_of_deliverStep hstep

end

end Spolks.Lab5
