import Spolks.Lib.Memory
import Spolks.Lib.Loop

/-!
# `lab3/netsender.c` and `lab4/netsender.c`: sending and receiving a file

The body of each loop takes the results of its system calls; `none` is a result of `-1`.
A read or receive of `n` bytes moves the next `n` bytes of the file or of the stream to the
start of the buffer, a send or write of `n` bytes takes the first `n` bytes of the buffer
(and of the memory behind it, when more are asked for than it has). The destination file
is `none` while it does not exist. The byte counters are 32 bits wide and wrap.

Messages are not modelled, and neither is `close`. A `send` on a connection that the other side
has reset may end the process by `SIGPIPE`. Where this is the `send` of data, the loop is not
left, as when the calls run out; the urgent `send` of lab4 is made after a failure as well.
-/

namespace Spolks

open Lib

namespace Transfer

def BUFFSIZE : Nat := 1024

/-- The `int` that a call leaves in the variable its result is assigned to. -/
def returned : Option Nat → Int
  | some n => n
  | none => -1

/-- The value an `int` holds after `x` has been assigned to it. -/
def wrap32 (x : Int) : Int := x.bmod 4294967296

/-! ## What both labs share -/

/-- A sender's file from its read position on, its buffer, and the bytes that the socket
has accepted. -/
structure Outgoing where
  rest : List UInt8
  dataToSend : Nat → UInt8
  accepted : List UInt8

namespace Outgoing

def read (s : Outgoing) : Option Nat → Outgoing
  | some n => { s with rest := s.rest.drop n, dataToSend := writeBlock s.dataToSend 0 (s.rest.take n) }
  | none => s

def send (s : Outgoing) : Option Nat → Outgoing
  | some n => { s with accepted := s.accepted ++ readBlock s.dataToSend 0 n }
  | none => s

end Outgoing

/-- A receiver: the bytes of the stream that it has not read, its buffer, its counter and
the destination file. -/
structure Receiver where
  stream : List UInt8
  recievedData : Nat → UInt8
  totalReceivedBytes : Int
  file : Option (List UInt8)

namespace Receiver

def recv (s : Receiver) : Option Nat → Receiver
  | some n =>
    { s with stream := s.stream.drop n, recievedData := writeBlock s.recievedData 0 (s.stream.take n) }
  | none => s

def write (s : Receiver) : Option Nat → Receiver
  | some n => { s with file := s.file.map (· ++ readBlock s.recievedData 0 n) }
  | none => s

@[simp] theorem recv_stream (s : Receiver) (n : Nat) :
    (s.recv (some n)).stream = s.stream.drop n := rfl

@[simp] theorem recv_file (s : Receiver) (r : Option Nat) : (s.recv r).file = s.file := by
  cases r <;> rfl

@[simp] theorem write_none (s : Receiver) : s.write none = s := rfl

end Receiver

/-- The results of `recv` and of `write` (`fwrite` in lab4) in one iteration. -/
structure RecvCalls where
  recv : Option Nat
  write : Option Nat

/-- The body of the loop of `recieveFile`, which is the same in both labs. -/
def recieveBody (s : Receiver) (c : RecvCalls) : Receiver × Option Int :=
  let recievedBytes := returned c.recv
  let s := s.recv c.recv
  let s := { s with totalReceivedBytes := wrap32 (s.totalReceivedBytes + recievedBytes) }
  if recievedBytes = -1 then (s, some (-1))
  else if recievedBytes = 0 then (s, some 1)
  else (s.write c.write, if recievedBytes < BUFFSIZE then some 1 else none)

/-- At the end of the stream the loop is left. -/
theorem recieveBody_zero (s : Receiver) (w : Option Nat) :
    recieveBody s ⟨some 0, w⟩ =
      ({ s.recv (some 0) with totalReceivedBytes := wrap32 s.totalReceivedBytes }, some 1) := by
  simp [recieveBody, returned, Receiver.recv]

/-- What has been received is stored, and a buffer that is not full ends the loop. -/
theorem recieveBody_pos (s : Receiver) {n : Nat} (hn : n ≠ 0) (w : Option Nat) :
    recieveBody s ⟨some n, w⟩ =
      (({ s.recv (some n) with
          totalReceivedBytes := wrap32 (s.totalReceivedBytes + n) } : Receiver).write w,
        if n < BUFFSIZE then some 1 else none) := by
  have hne : returned (some n) ≠ -1 := by
    show (n : Int) ≠ -1
    omega
  have hne' : returned (some n) ≠ 0 := by
    show (n : Int) ≠ 0
    omega
  have hlt : (returned (some n) < BUFFSIZE) = (n < BUFFSIZE) := by
    show ((n : Int) < BUFFSIZE) = _
    rw [Int.ofNat_lt]
  rw [recieveBody, if_neg hne, if_neg hne']
  simp only [hlt]
  rfl

/-- A receive that does not fail ends the loop when it has not filled the buffer. -/
theorem recieveBody_leaves (s : Receiver) {c : RecvCalls} {n : Nat} (h : c.recv = some n) :
    (recieveBody s c).2 = if n < BUFFSIZE then some 1 else none := by
  obtain ⟨crecv, cwrite⟩ := c
  cases h
  by_cases hzero : n = 0
  · subst hzero
    rw [recieveBody_zero]
    rfl
  · rw [recieveBody_pos s hzero]

/-- The receiver before the first call, with what the destination holds. -/
def Receiver.start (stack : Nat → UInt8) (stream : List UInt8) (file : Option (List UInt8)) :
    Receiver where
  stream := stream
  recievedData := stack
  totalReceivedBytes := 0
  file := file

end Transfer

open Transfer

/-! ## lab3 -/

namespace Lab3

/-- The results of `read` and of `send` in one iteration. -/
structure SendCalls where
  read : Option Nat
  send : Option Nat

structure Sender extends Outgoing where
  totalSentBytes : Int

def Sender.start (stack : Nat → UInt8) (file : List UInt8) : Sender where
  rest := file
  dataToSend := stack
  accepted := []
  totalSentBytes := 0

/-- The body of the loop of `sendFile`. -/
def sendBody (s : Sender) (c : SendCalls) : Sender × Option Int :=
  let bytesToSend := returned c.read
  let sentBytes := returned c.send
  let s : Sender :=
    { toOutgoing := (s.toOutgoing.read c.read).send c.send
      totalSentBytes := wrap32 (s.totalSentBytes + sentBytes) }
  (s, if sentBytes = -1 then some (-1) else if bytesToSend < BUFFSIZE then some 1 else none)

/-- `file` is `none` when it cannot be opened. -/
def sendFile (fileName : Option String) (file : Option (List UInt8)) (stack : Nat → UInt8)
    (calls : List SendCalls) : Option (Int × Sender) :=
  match fileName, file with
  | some _, some content => callLoop sendBody (Sender.start stack content) calls
  | _, _ => some (-1, Sender.start stack [])

/-- `prior` is what the destination holds; `open` creates or truncates it. -/
def recieveFile (fileName : Option String) (opened : Bool) (prior : Option (List UInt8))
    (stack : Nat → UInt8) (stream : List UInt8) (calls : List RecvCalls) : Option (Int × Receiver) :=
  match fileName with
  | none => some (-1, Receiver.start stack stream prior)
  | some _ =>
    if opened then callLoop recieveBody (Receiver.start stack stream (some [])) calls
    else some (-1, Receiver.start stack stream prior)

end Lab3

/-! ## lab4 -/

namespace Lab4

/-- The results of `fread`, which is a count, and of `send` in one iteration; that of the
urgent `send` is not looked at. -/
structure SendCalls where
  fread : Nat
  send : Option Nat
  /-- The urgent `send` raises `SIGPIPE`. -/
  sigpipe : Bool

structure Sender extends Outgoing where
  /-- The values that have been sent as an urgent byte and printed. -/
  percents : List Int

def Sender.start (stack : Nat → UInt8) (file : List UInt8) : Sender where
  rest := file
  dataToSend := stack
  accepted := []
  percents := []

/-- How the loop of `sendFile` is left. -/
inductive Exit where
  | returned (r : Int)
  | divisionByZero
  /-- The process is ended by `SIGPIPE`. -/
  | brokenPipe
  deriving DecidableEq

/-- The body of the loop of `sendFile`; `stSize` is the size that `stat` has reported. -/
def sendBody (stSize : Int) (s : Sender) (c : SendCalls) : Sender × Option Exit :=
  let bytesToSend : Int := c.fread
  let s := { s with toOutgoing := s.toOutgoing.read (some c.fread) }
  if stSize = 0 then (s, some .divisionByZero)
  else
    let percent := (bytesToSend * 100).tdiv stSize
    let sentBytes := Transfer.returned c.send
    let s := { s with toOutgoing := s.toOutgoing.send c.send }
    if c.sigpipe then (s, some .brokenPipe)
    else
      ({ s with percents := s.percents ++ [percent] },
        if sentBytes = -1 then some (.returned (-1))
        else if bytesToSend < BUFFSIZE then some (.returned 1) else none)

/-- An iteration in which the urgent `send` returns. -/
theorem sendBody_returns {stSize : Int} (hsize : stSize ≠ 0) (s : Sender) {c : SendCalls}
    (h : c.sigpipe = false) :
    sendBody stSize s c =
      ({ toOutgoing := (s.toOutgoing.read (some c.fread)).send c.send
         percents := s.percents ++ [((c.fread : Int) * 100).tdiv stSize] },
        if Transfer.returned c.send = -1 then some (.returned (-1))
        else if (c.fread : Int) < BUFFSIZE then some (.returned 1) else none) := by
  simp only [sendBody, if_neg hsize, h, Bool.false_eq_true, if_false]

def sendFile (fileName : Option String) (file : Option (List UInt8)) (stSize : Int)
    (stack : Nat → UInt8) (calls : List SendCalls) : Option (Exit × Sender) :=
  match fileName, file with
  | some _, some content => callLoop (sendBody stSize) (Sender.start stack content) calls
  | _, _ => some (.returned (-1), Sender.start stack [])

/-- `owned` is whether `fcntl` accepts the process as the owner of the socket. -/
def recieveFile (fileName : Option String) (opened owned : Bool) (prior : Option (List UInt8))
    (stack : Nat → UInt8) (stream : List UInt8) (calls : List RecvCalls) : Option (Int × Receiver) :=
  match fileName with
  | none => some (-1, Receiver.start stack stream prior)
  | some _ =>
    if opened then
      if owned then callLoop recieveBody (Receiver.start stack stream (some [])) calls
      else some (-1, Receiver.start stack stream (some []))
    else some (-1, Receiver.start stack stream prior)

end Lab4

end Spolks
