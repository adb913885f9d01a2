import Spolks.Lib.Transition
import Spolks.Ping.Packet

/-!
# `ping`: the receive loop and the alarm handler

The main loop waits in `recvfrom`, prints a line, and arms the alarm. The alarm may go off
at any point of it and runs `pinger` in the handler, and while the handler runs the loop
does not. Datagrams arrive at the raw socket at any time.

`recvfrom` blocks until a datagram is there and goes on waiting after the handler has run.
A failure of it (`recvError`) is possible in any state. `heard` and `reports` are not
variables of the program: they record the datagram that was last taken from the socket and
what has been printed for each one.
-/

namespace Spolks.Ping

open Lib Sockcore

/-! ## Datagrams -/

def byteAt (bytes : List UInt8) (k : Nat) : UInt8 := bytes.getD k 0

/-- A datagram that the raw socket delivers: an IP header of 5 to 15 words (the length is
in four bits) and at least an ICMP header behind it. -/
structure Datagram where
  bytes : List UInt8
  ihl_ge : 5 ≤ (byteAt bytes 0 &&& 0x0f).toNat
  length_ge : 4 * (byteAt bytes 0 &&& 0x0f).toNat + 8 ≤ bytes.length

namespace Datagram

/-- The number of words of the IP header. -/
def ihl (d : Datagram) : Nat := (byteAt d.bytes 0 &&& 0x0f).toNat

def source (d : Datagram) : InAddr :=
  ⟨byteAt d.bytes 12, byteAt d.bytes 13, byteAt d.bytes 14, byteAt d.bytes 15⟩

/-- Byte `k` of the ICMP header. -/
def icmp (d : Datagram) (k : Nat) : UInt8 := byteAt d.bytes (4 * d.ihl + k)

def type (d : Datagram) : UInt8 := d.icmp 0

def ident (order : Order) (d : Datagram) : Nat := word order (d.icmp 4) (d.icmp 5)

def sequence (order : Order) (d : Datagram) : Nat := word order (d.icmp 6) (d.icmp 7)

end Datagram

/-! ## States -/

inductive Pc where
  | recvfrom
  | report
  | rearm
  deriving DecidableEq

/-- A packet handed to `sendto` and the address it is sent to. -/
structure Sent where
  bytes : List UInt8
  addr : SockAddrIn

/-- The bytes of the IP header that hold the destination. -/
def Sent.daddr (pkt : Sent) : List UInt8 := (pkt.bytes.drop 16).take 4

/-- The 16-bit sequence of a request. -/
def Sent.sequence (order : Order) (pkt : Sent) : Nat :=
  word order (byteAt pkt.bytes 26) (byteAt pkt.bytes 27)

/-- The values in a reply line. -/
structure Line where
  response : Int
  host : InAddr
  icmpReq : Nat
  id : Nat
  ttl : Nat
  deriving DecidableEq

/-- What was printed for a datagram, and the requests that had been sent by then. -/
structure Report where
  datagram : Datagram
  line : Option Line
  requests : List Nat

structure State where
  pc : Pc
  dstAddr : SockAddrIn
  srcAddr : SockAddrIn
  ident : Int
  sequence : Int
  /-- An alarm is pending. -/
  armed : Bool
  /-- The handler is running. -/
  handling : Bool
  /-- The datagrams that wait in the socket. -/
  queue : List Datagram
  buffer : Nat → UInt8
  response : Int
  sent : List Sent
  heard : Option Datagram
  reports : List Report

/-- The argument of `ping` and its surroundings. -/
structure Setup where
  order : Order
  resolver : Resolver
  pid : Int
  dst : CString
  /-- What `getip` returns. -/
  src : CString
  malloc : Nat → UInt8

/-- What a global `struct sockaddr_in` holds at the start. -/
def zeroAddr : SockAddrIn := ⟨0, 0, ⟨0, 0, 0, 0⟩⟩

inductive Event where
  /-- The alarm goes off and the handler is entered. -/
  | alarm
  /-- `pinger` sends its packet, built in the memory `junk`, and the handler returns. -/
  | sendto (junk : Nat → UInt8)
  | arrive (d : Datagram)
  | recvfrom
  | recvError
  | report
  /-- The new buffer is allocated and the alarm is armed. -/
  | rearm (junk : Nat → UInt8)

/-! ## Steps -/

section

variable (p : Setup)

/-- `ping` up to its loop; the results of `addr_from_hostname` are not looked at. -/
def init : State where
  pc := .recvfrom
  dstAddr := (addrFromHostname p.resolver zeroAddr p.dst none).2
  srcAddr := (addrFromHostname p.resolver zeroAddr p.src none).2
  ident := u16 p.pid
  sequence := 0
  armed := true
  handling := false
  queue := []
  buffer := p.malloc
  response := 0
  sent := []
  heard := none
  reports := []

def State.request (s : State) : Request where
  pid := p.pid
  ident := s.ident
  sequence := s.sequence
  srcAddr := s.srcAddr.addr
  dstAddr := s.dstAddr.addr

/-- `recvfrom` stores the first 28 bytes of the datagram and its sender in `dst_addr`. -/
def State.receive (s : State) (d : Datagram) (q : List Datagram) : State :=
  { s with
    pc := .report
    dstAddr := ⟨AF_INET, 0, d.source⟩
    queue := q
    buffer := writeBlock s.buffer 0 (d.bytes.take 28)
    response := (d.bytes.take 28).length
    heard := some d }

/-- The line that is printed from the buffer. -/
def State.line (s : State) : Line where
  response := s.response
  host := s.srcAddr.addr
  icmpReq := word p.order (s.buffer 26) (s.buffer 27)
  id := word .big (s.buffer 4) (s.buffer 5)
  ttl := (s.buffer 8).toNat

def State.requests (s : State) : List Nat := s.sent.map (Sent.sequence p.order)

/-- The record of the line printed for the datagram that was last received. -/
def State.newReport (s : State) : List Report :=
  match s.heard with
  | some d => [⟨d, some (s.line p), s.requests p⟩]
  | none => []

def step (s : State) : Event → Option State
  | .alarm =>
    if s.armed ∧ ¬ s.handling then some { s with armed := false, handling := true } else none
  | .sendto junk =>
    if s.handling then
      (pinger p.order (s.request p) junk).map fun packet =>
        { s with
          handling := false
          sequence := s.sequence + 1
          sent := s.sent ++ [⟨packet, s.dstAddr⟩] }
    else none
  | .arrive d => some { s with queue := s.queue ++ [d] }
  | .recvfrom =>
    match s.queue with
    | d :: q => if s.pc = .recvfrom ∧ ¬ s.handling then some (s.receive d q) else none
    | [] => none
  | .recvError =>
    if s.pc = .recvfrom ∧ ¬ s.handling then some { s with pc := .report, response := -1 } else none
  | .report =>
    if s.pc = .report ∧ ¬ s.handling then
      if s.response = -1 then some { s with pc := .rearm }
      else some { s with pc := .rearm, reports := s.reports ++ s.newReport p }
    else none
  | .rearm junk =>
    if s.pc = .rearm ∧ ¬ s.handling then some { s with pc := .recvfrom, buffer := junk, armed := true }
    else none

/-! ## What each event needs and does -/

variable {p} {s t : State}

theorem step_alarm_iff : step p s .alarm = some t ↔
    (s.armed = true ∧ s.handling = false) ∧ { s with armed := false, handling := true } = t := by
  simp [step]

theorem step_sendto_iff {junk : Nat → UInt8} : step p s (.sendto junk) = some t ↔
    s.handling = true ∧ ∃ packet, pinger p.order (s.request p) junk = some packet ∧
      { s with
        handling := false
        sequence := s.sequence + 1
        sent := s.sent ++ [⟨packet, s.dstAddr⟩] } = t := by
  simp [step]

theorem step_arrive_iff {d : Datagram} : step p s (.arrive d) = some t ↔
    { s with queue := s.queue ++ [d] } = t := by
  simp [step]

theorem step_recvfrom_iff : step p s .recvfrom = some t ↔
    (s.pc = .recvfrom ∧ s.handling = false) ∧ ∃ d q, s.queue = d :: q ∧ s.receive d q = t := by
  cases hq : s.queue with
  | nil => simp [step, hq]
  | cons d q => simp [step, hq]

theorem step_recvError_iff : step p s .recvError = some t ↔
    (s.pc = .recvfrom ∧ s.handling = false) ∧ { s with pc := .report, response := -1 } = t := by
  simp [step]

theorem step_report_iff : step p s .report = some t ↔
    (s.pc = .report ∧ s.handling = false) ∧
      { s with
        pc := .rearm
        reports := if s.response = -1 then s.reports else s.reports ++ s.newReport p } = t := by
  by_cases hr : s.response = -1
  · simp [step, hr]
  · simp [step, hr]

theorem step_rearm_iff {junk : Nat → UInt8} : step p s (.rearm junk) = some t ↔
    (s.pc = .rearm ∧ s.handling = false) ∧
      { s with pc := .recvfrom, buffer := junk, armed := true } = t := by
  simp [step]

end

/-! ## A ping of `10.0.0.2` -/

/-- Process `7` of the host `10.0.0.1` pings `10.0.0.2`. -/
def pingTwo : Setup where
  order := .little
  resolver :=
    { inetAddr := fun a =>
        if a = "10.0.0.2".toUTF8.toList then ⟨10, 0, 0, 2⟩
        else if a = "10.0.0.1".toUTF8.toList then ⟨10, 0, 0, 1⟩
        else inaddrNone
      gethostbyname := fun _ => none }
  pid := 7
  dst := "10.0.0.2".toUTF8.toList
  src := "10.0.0.1".toUTF8.toList
  malloc := fun _ => 0

/-- An ICMP message from the host `10.0.0.host`, without IP options. -/
def message (host type ident sequence : UInt8) : Datagram where
  bytes := [0x45, 0, 28, 0, 0, 1, 0, 0, 64, 1, 0, 0, 10, 0, 0, host, 10, 0, 0, 1,
    type, 0, 0, 0, ident, 0, sequence, 0]
  ihl_ge := by simp [byteAt]
  length_ge := by simp [byteAt]

/-- One iteration of the loop that begins with the arrival of a datagram. -/
def iteration (d : Datagram) : List Event := [.arrive d, .recvfrom, .report, .rearm fun _ => 0]

/-- One run of the handler. -/
def request : List Event := [.alarm, .sendto fun _ => 0]

end Spolks.Ping
