import Spolks.Ping.Run

/-!
# Does `ping` keep its target?

`recvfrom` stores the sender of every datagram in `dst_addr`, which is also where the next
request goes. So a request goes to the sender of the last datagram, and to the resolved
address only as long as nothing has been heard (`target_kept_iff`).
-/

namespace Spolks.Ping

open Lib Sockcore

/-- The address that the destination resolved to. -/
def target (p : Setup) : InAddr := (addrFromHostname p.resolver zeroAddr p.dst none).2.addr

/-- The packet and its `sendto` address name the target. -/
def KeepsTarget (p : Setup) (pkt : Sent) : Prop :=
  pkt.daddr = (target p).bytes ∧ pkt.addr.addr = target p

/-- The datagram last taken from the socket, if any, was sent by the target. -/
def HeardTarget (p : Setup) (s : State) : Prop := ∀ d, s.heard = some d → d.source = target p

/-- At every request the last datagram was one of the target. -/
def SendsAfterTarget (p : Setup) (s : State) : Event → Prop
  | .sendto _ => HeardTarget p s
  | _ => True

/-- `dst_addr` is the sender of the last datagram, and before that the target. -/
def DstInv (p : Setup) (s : State) : Prop :=
  s.dstAddr.addr = (s.heard.map Datagram.source).getD (target p)

section

variable {p : Setup} {s t : State} {e : Event}

theorem DstInv.iff_heard (h : DstInv p s) : s.dstAddr.addr = target p ↔ HeardTarget p s := by
  rw [DstInv] at h
  rw [h, HeardTarget]
  cases s.heard with
  | none => simp
  | some d => simp

/-- What a step does to `dst_addr`, to the last datagram and to the packets sent: only a
received datagram changes the first two, and only the handler sends. -/
theorem step_target (hstep : step p s e = some t) :
    (∃ d q, e = .recvfrom ∧ t = s.receive d q) ∨
      (∃ junk packet, e = .sendto junk ∧ pinger p.order (s.request p) junk = some packet ∧
        t.dstAddr = s.dstAddr ∧ t.heard = s.heard ∧ t.sent = s.sent ++ [⟨packet, s.dstAddr⟩]) ∨
      ((∀ junk, e ≠ .sendto junk) ∧ t.dstAddr = s.dstAddr ∧ t.heard = s.heard ∧
        t.sent = s.sent) := by
  cases e with
  | recvfrom =>
    obtain ⟨-, d, q, -, rfl⟩ := step_recvfrom_iff.mp hstep
    exact Or.inl ⟨d, q, rfl, rfl⟩
  | sendto junk =>
    obtain ⟨-, packet, hpacket, rfl⟩ := step_sendto_iff.mp hstep
    exact Or.inr (Or.inl ⟨junk, packet, rfl, hpacket, rfl, rfl, rfl⟩)
  | alarm =>
    obtain ⟨-, rfl⟩ := step_alarm_iff.mp hstep
    exact Or.inr (Or.inr ⟨fun _ h => (by cases h), rfl, rfl, rfl⟩)
  | arrive d =>
    obtain rfl := step_arrive_iff.mp hstep
    exact Or.inr (Or.inr ⟨fun _ h => (by cases h), rfl, rfl, rfl⟩)
  | recvError =>
    obtain ⟨-, rfl⟩ := step_recvError_iff.mp hstep
    exact Or.inr (Or.inr ⟨fun _ h => (by cases h), rfl, rfl, rfl⟩)
  | report =>
    obtain ⟨-, rfl⟩ := step_report_iff.mp hstep
    exact Or.inr (Or.inr ⟨fun _ h => (by cases h), rfl, rfl, rfl⟩)
  | rearm junk =>
    obtain ⟨-, rfl⟩ := step_rearm_iff.mp hstep
    exact Or.inr (Or.inr ⟨fun _ h => (by cases h), rfl, rfl, rfl⟩)

theorem dstInv_init (p : Setup) : DstInv p (init p) := rfl

theorem DstInv.step (h : DstInv p s) (hstep : step p s e = some t) : DstInv p t := by
  rcases step_target hstep with ⟨d, q, -, rfl⟩ | ⟨_, _, -, -, hdst, hheard, -⟩ |
    ⟨-, hdst, hheard, -⟩
  · exact rfl
  · rw [DstInv, hdst, hheard]
    exact h
  · rw [DstInv, hdst, hheard]
    exact h

/-- The packet that `pinger` builds names `dst_addr`. -/
theorem keepsTarget_iff {junk : Nat → UInt8} {packet : List UInt8}
    (hpacket : pinger p.order (s.request p) junk = some packet) :
    KeepsTarget p ⟨packet, s.dstAddr⟩ ↔ s.dstAddr.addr = target p := by
  obtain ⟨m, hrun, hdaddr, -⟩ := pinger_fields p.order (s.request p) junk
  rw [hrun] at hpacket
  cases hpacket
  have hbytes : Sent.daddr ⟨readBlock m 0 28, s.dstAddr⟩ = s.dstAddr.addr.bytes := by
    rw [Sent.daddr, take_drop_readBlock m (by decide), hdaddr]
    rfl
  rw [KeepsTarget, hbytes, InAddr.bytes_inj, and_self]

/-- Each packet that a step sends keeps the target exactly when the guard holds. -/
theorem sent_step (h : DstInv p s) (hstep : step p s e = some t) :
    ∃ new, t.sent = s.sent ++ new ∧
      ((∀ pkt ∈ new, KeepsTarget p pkt) ↔ SendsAfterTarget p s e) := by
  rcases step_target hstep with ⟨d, q, rfl, rfl⟩ | ⟨junk, packet, rfl, hpacket, -, -, hsent⟩ |
    ⟨hne, -, -, hsent⟩
  · exact ⟨[], (List.append_nil _).symm, by simp [SendsAfterTarget]⟩
  · refine ⟨_, hsent, ?_⟩
    rw [List.forall_mem_singleton, keepsTarget_iff hpacket, h.iff_heard]
    exact Iff.rfl
  · refine ⟨[], by rw [hsent, List.append_nil], ?_⟩
    cases e with
    | sendto junk => exact absurd rfl (hne junk)
    | _ => simp [SendsAfterTarget]

/-- **When `ping` keeps its target.** In a run every packet goes to the address that the
destination resolved to exactly when, at each request, the datagram last taken from the
socket had been sent by that address. -/
theorem target_kept_iff {es : List Event} (hrun : exec (step p) (init p) es = some s) :
    (∀ pkt ∈ s.sent, KeepsTarget p pkt) ↔ Guarded (step p) (SendsAfterTarget p) (init p) es := by
  have h := exec_log_iff_guarded (fun _ _ _ => DstInv.step) (fun _ _ _ => sent_step)
    (dstInv_init p) hrun
  rw [h]
  simp [init]

end

/-! ## A foreign datagram -/

instance (p : Setup) (pkt : Sent) : Decidable (KeepsTarget p pkt) :=
  inferInstanceAs (Decidable (_ ∧ _))

/-- A datagram of `10.0.0.9` comes in before the second request. -/
def foreignEvents : List Event := request ++ iteration (message 9 8 1 1) ++ request

theorem foreignEvents_run : (exec (step pingTwo) (init pingTwo) foreignEvents).isSome = true := by
  decide +kernel

def foreignFinal : State :=
  (exec (step pingTwo) (init pingTwo) foreignEvents).get foreignEvents_run

theorem foreign_exec : exec (step pingTwo) (init pingTwo) foreignEvents = some foreignFinal :=
  (Option.some_get _).symm

theorem target_kept_foreign :
    ¬ Guarded (step pingTwo) (SendsAfterTarget pingTwo) (init pingTwo) foreignEvents :=
  fun h => absurd ((target_kept_iff foreign_exec).mpr h) (by decide +kernel)

/-- The destination has been resolved to `10.0.0.2`, and in a reachable state a request has
gone to `10.0.0.9`. -/
theorem target_lost :
    ((addrFromHostname pingTwo.resolver zeroAddr pingTwo.dst none).1 = 1 ∧
      target pingTwo = ⟨10, 0, 0, 2⟩ ∧
      foreignFinal.sent.map (fun pkt => (pkt.daddr, pkt.addr.addr)) =
        [([10, 0, 0, 2], ⟨10, 0, 0, 2⟩), ([10, 0, 0, 9], ⟨10, 0, 0, 9⟩)]) ∧
      ¬ (∀ s, Reachable (step pingTwo) (· = init pingTwo) s →
        ∀ pkt ∈ s.sent, KeepsTarget pingTwo pkt) := by
  refine ⟨by decide +kernel, ?_⟩
  intro hall
  have hkept := hall foreignFinal ⟨_, rfl, foreignEvents, foreign_exec⟩
  revert hkept
  decide +kernel

end Spolks.Ping
