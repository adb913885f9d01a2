import Spolks.Lib.Transition
import Spolks.Lib.Channel
import Spolks.Matrix.Product
import Spolks.Matrix.Partition

/-!
# `Lab5/mpi-peer.c`: a master and its workers

The master (rank `0`) runs `masterCalculateOnSlaves`, worker `i` (rank `i + 1`) runs
`slavePrepareMemory` and then `slaveCalculateBlock`. A state holds where each process
stands, its memory, and the sends on each channel; an event lets one process take its
next step, or lets MPI read the buffer of a posted send or match the master's receive.

A blocking call is its non-blocking form followed by the wait for it: `MPI_Send` posts
its send and then waits until the send is complete, `MPI_Recv` posts its receive and then
waits until it has been matched. The two modes differ only in where the master waits:
after each call (`async == 0`), or after the whole loop (`MPI_Waitall`).

What MPI is free to do is a parameter of a run: `eager c` says whether a send on channel
`c` is complete as soon as MPI has read its buffer or only when it is matched, and
`bcastWaits p q` whether rank `p` returns from `MPI_Bcast` only after rank `q` has called
it. Integers are exact here.
-/

namespace Spolks.Lab5

open Lib Spolks.Matrix

/-! ## Messages -/

def tagBlockSize : Nat := 2
def tagMatrixFirst : Nat := 3
def tagMatrixResult : Nat := 4

/-- What a send carries: one `MPI_INT` or a block of `MPI_DOUBLE`. -/
inductive Data (α : Type*) where
  | int (v : Nat)
  | doubles (xs : List α)
  deriving DecidableEq

def Data.count {α : Type*} : Data α → Nat
  | .int _ => 1
  | .doubles xs => xs.length

structure Msg (α : Type*) where
  tag : Nat
  data : Data α
  deriving DecidableEq

/-- The three loops of `masterCalculateOnSlaves`. -/
inductive Phase where
  | size
  | rows
  | result
  deriving DecidableEq

/-- The channel of loop `phase` between the master and worker `worker`. -/
structure Chan where
  phase : Phase
  worker : Nat
  deriving DecidableEq

namespace Chan

def source (c : Chan) : Nat :=
  match c.phase with
  | .size | .rows => 0
  | .result => c.worker + 1

def dest (c : Chan) : Nat :=
  match c.phase with
  | .size | .rows => c.worker + 1
  | .result => 0

def tag (c : Chan) : Nat :=
  match c.phase with
  | .size => tagBlockSize
  | .rows => tagMatrixFirst
  | .result => tagMatrixResult

/-- A channel is determined by its source, its destination and its tag. -/
theorem ext_of_envelope {c d : Chan} (hs : c.source = d.source) (hd : c.dest = d.dest)
    (ht : c.tag = d.tag) : c = d := by
  obtain ⟨cp, cw⟩ := c
  obtain ⟨dp, dw⟩ := d
  cases cp <;> cases dp <;>
    simp_all [source, dest, tag, tagBlockSize, tagMatrixFirst, tagMatrixResult]

end Chan

/-! ## States -/

/-- Where the master stands: before or inside `MPI_Bcast`, at the head of a loop with
index `i`, inside the blocking call of iteration `i`, or behind the last loop. -/
inductive MasterPc where
  | bcast
  | inBcast
  | loop (t : Phase) (i : Nat)
  | wait (t : Phase) (i : Nat)
  | finished
  deriving DecidableEq

/-- Where a worker stands: its calls in the order of `slavePrepareMemory` and
`slaveCalculateBlock`; `waitResult` is inside its blocking send of the result. -/
inductive WorkerPc where
  | bcast
  | inBcast
  | recvSize
  | recvRows
  | calculate
  | sendResult
  | waitResult
  | finished
  deriving DecidableEq

structure Worker (α : Type*) where
  pc : WorkerPc
  blockSize : Nat
  A : Nat → α
  B : Nat → α
  C : Nat → α

structure State (α : Type*) where
  pc : MasterPc
  /-- The automatic variable of the first loop, whose address `MPI_Isend` is given. -/
  currentWorkerBlockSize : Nat
  C : Nat → α
  /-- The master's result receives that have been matched. -/
  received : Nat → Bool
  worker : Nat → Worker α
  net : Net Chan (Msg α)
  /-- A message was longer than the receive it was matched with. -/
  aborted : Bool

/-- The command line, the master's matrices, and everything the run is free to choose:
MPI's decisions and the contents of the memory that `malloc` returns to worker `i`. -/
structure Setup (α : Type*) where
  N : Nat
  workersCount : Nat
  async : Bool
  A : Nat → α
  B : Nat → α
  eager : Chan → Bool
  bcastWaits : Nat → Nat → Bool
  mallocA : Nat → Nat → α
  mallocB : Nat → Nat → α

section Sequential

variable {α : Type*} [Add α] [Mul α]

/-- The sequential product; `masterInitMatrix` has set `C_self` to zero. -/
def masterCalculateOnSelf (N : Nat) (A B CSelf : Nat → α) : Nat → α := multiplyRows N N A B CSelf

end Sequential

/-! ## Steps -/

section Steps

variable {α : Type*} [Zero α] [Add α] [Mul α] (p : Setup α)

/-- The block size that `masterCalculateOnSlaves` uses for worker `i`: `block_size`, or
`last_worker_block_size` when `i == workers_count - 1`. -/
def workerBlockSize (i : Nat) : Nat := blockRows p.N p.workersCount i

/-- The cell `N * i * block_size` where the rows of worker `i` start. -/
def workerOffset (i : Nat) : Nat := p.N * i * (p.N / p.workersCount)

def Phase.next : Phase → MasterPc
  | .size => .loop .rows 0
  | .rows => .loop .result 0
  | .result => .finished

/-- Whether loop `t` comes before loop `u`. -/
def Phase.before : Phase → Phase → Bool
  | .size, .rows | .size, .result | .rows, .result => true
  | _, _ => false

/-- How many iterations of loop `t` have made their MPI call. -/
def called (t : Phase) : MasterPc → Nat
  | .bcast | .inBcast => 0
  | .loop u i => if u = t then i else if t.before u then p.workersCount else 0
  | .wait u i => if u = t then i + 1 else if t.before u then p.workersCount else 0
  | .finished => p.workersCount

/-- A posted receive: the tag and the number of elements it asks for. -/
structure Recv where
  tag : Nat
  count : Nat
  deriving DecidableEq

/-- The receive posted on a channel, if any. -/
def receiving (s : State α) (c : Chan) : Option Recv :=
  let w := s.worker c.worker
  match c.phase with
  | .size => if w.pc = .recvSize then some ⟨tagBlockSize, 1⟩ else none
  | .rows => if w.pc = .recvRows then some ⟨tagMatrixFirst, w.blockSize * p.N⟩ else none
  | .result =>
    if c.worker < called p .result s.pc ∧ s.received c.worker = false then
      some ⟨tagMatrixResult, workerBlockSize p c.worker * p.N⟩
    else none

/-- A receive and the message it is matched with: both are there on the same channel. -/
def matched (s : State α) (c : Chan) : Option (Recv × Msg α) :=
  (receiving p s c).bind fun r => (s.net.front c).map fun m => (r, m)

/-- What MPI finds in the buffer of the send posted on a channel when it reads it now. -/
def sendBuffer (s : State α) (c : Chan) : Msg α :=
  match c.phase with
  | .size => ⟨tagBlockSize, .int s.currentWorkerBlockSize⟩
  | .rows => ⟨tagMatrixFirst, .doubles
      (readBlock p.A (workerOffset p c.worker) (workerBlockSize p c.worker * p.N))⟩
  | .result => ⟨tagMatrixResult, .doubles
      (readBlock (s.worker c.worker).C 0 ((s.worker c.worker).blockSize * p.N))⟩

/-- Whether the MPI call of iteration `i` of loop `t` is complete. -/
def completed (s : State α) (t : Phase) (i : Nat) : Bool :=
  match t with
  | .result => s.received i
  | t => s.net.sendDone p.eager ⟨t, i⟩

/-- Whether rank `r` has called `MPI_Bcast`. -/
def entered (s : State α) (r : Nat) : Bool :=
  match r with
  | 0 => s.pc ≠ .bcast
  | i + 1 => (s.worker i).pc ≠ .bcast

/-- Whether `MPI_Bcast` may return in rank `r`: the root has called it, and so have the
ranks that MPI makes `r` wait for. -/
def bcastReturns (s : State α) (r : Nat) : Bool :=
  entered s 0 && (List.range (p.workersCount + 1)).all fun q => !p.bcastWaits r q || entered s q

/-- The body of iteration `i` of loop `t` up to and including the MPI call. -/
def masterCall (s : State α) (t : Phase) (i : Nat) : State α :=
  match t with
  | .size => { s with currentWorkerBlockSize := workerBlockSize p i, net := s.net.post ⟨.size, i⟩ }
  | .rows => { s with net := s.net.post ⟨.rows, i⟩ }
  | .result => s

def masterStep (s : State α) : Option (State α) :=
  match s.pc with
  | .bcast => some { s with pc := .inBcast }
  | .inBcast => if bcastReturns p s 0 then some { s with pc := .loop .size 0 } else none
  | .loop t i =>
    if i < p.workersCount then
      some { masterCall p s t i with pc := if p.async then .loop t (i + 1) else .wait t i }
    else if !p.async || (List.range p.workersCount).all fun j => completed p s t j then
      some { s with pc := t.next }
    else none
  | .wait t i => if completed p s t i then some { s with pc := .loop t (i + 1) } else none
  | .finished => none

def setWorker (s : State α) (i : Nat) (w : Worker α) : State α :=
  { s with worker := Function.update s.worker i w }

def workerStep (s : State α) (i : Nat) : Option (State α) :=
  let w := s.worker i
  match w.pc with
  | .bcast => some (setWorker s i { w with pc := .inBcast })
  | .inBcast =>
    if bcastReturns p s (i + 1) then
      some (setWorker s i
        { w with pc := .recvSize, B := writeBlock w.B 0 (readBlock p.B 0 (p.N * p.N)) })
    else none
  | .recvSize =>
    match matched p s ⟨.size, i⟩ with
    | some (r, m) =>
      if r.count < m.data.count then some { s with aborted := true }
      else match m.data with
        | .int v =>
          some (setWorker { s with net := s.net.take ⟨.size, i⟩ } i
            { w with pc := .recvRows, blockSize := v, A := p.mallocA i, C := fun _ => 0 })
        | .doubles _ => none
    | none => none
  | .recvRows =>
    match matched p s ⟨.rows, i⟩ with
    | some (r, m) =>
      if r.count < m.data.count then some { s with aborted := true }
      else match m.data with
        | .doubles xs =>
          some (setWorker { s with net := s.net.take ⟨.rows, i⟩ } i
            { w with pc := .calculate, A := writeBlock w.A 0 xs })
        | .int _ => none
    | none => none
  | .calculate =>
    some (setWorker s i { w with pc := .sendResult, C := multiplyRows w.blockSize p.N w.A w.B w.C })
  | .sendResult =>
    some (setWorker { s with net := s.net.post ⟨.result, i⟩ } i { w with pc := .waitResult })
  | .waitResult =>
    if s.net.sendDone p.eager ⟨.result, i⟩ then some (setWorker s i { w with pc := .finished })
    else none
  | .finished => none

/-- MPI reads the buffer of a posted send. -/
def readStep (s : State α) (c : Chan) : Option (State α) :=
  if s.net.unread c then some { s with net := s.net.read c (sendBuffer p s c) } else none

/-- MPI matches the master's receive number `i` and stores the result. -/
def deliverStep (s : State α) (i : Nat) : Option (State α) :=
  match matched p s ⟨.result, i⟩ with
  | some (r, m) =>
    if r.count < m.data.count then some { s with aborted := true }
    else match m.data with
      | .doubles xs =>
        some { s with
          net := s.net.take ⟨.result, i⟩
          C := writeBlock s.C (workerOffset p i) xs
          received := Function.update s.received i true }
      | .int _ => none
  | none => none

inductive Event where
  | master
  | worker (i : Nat)
  | read (c : Chan)
  | deliver (i : Nat)
  deriving DecidableEq

/-- One step of the system; an error in MPI aborts all processes. -/
def step (s : State α) (e : Event) : Option (State α) :=
  if s.aborted then none
  else match e with
    | .master => masterStep p s
    | .worker i => if i < p.workersCount then workerStep p s i else none
    | .read c => readStep p s c
    | .deliver i => deliverStep p s i

/-- Before the first call: `masterInitMatrix` has set `C` to zero, nothing is in flight. -/
def init : State α where
  pc := .bcast
  currentWorkerBlockSize := 0
  C := fun _ => 0
  received := fun _ => false
  worker := fun i =>
    { pc := .bcast, blockSize := 0, A := p.mallocA i, B := p.mallocB i, C := fun _ => 0 }
  net := fun _ => []
  aborted := false

/-- A state that some interleaving of the processes and of MPI leads to. -/
def Reached (s : State α) : Prop := Reachable (step p) (· = init p) s

end Steps

end Spolks.Lab5
