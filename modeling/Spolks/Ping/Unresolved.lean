import Spolks.Ping.Target

/-!
# `ping` of a host that cannot be resolved

`addr_from_hostname` fails with the failure value of `inet_addr` already stored in the
destination, and `ping` does not look at the result: it arms the alarm, and the handler
sends to that address.

* `sent_eq_nil_iff`: a run sends nothing exactly when its handler never gets to `sendto`.
* `unresolved_sends`: this cannot be said of all runs for any such destination.
-/

namespace Spolks.Ping

open Lib Sockcore

/-- The destination is neither an address nor a known name. -/
def Unresolved (p : Setup) : Prop := (addrFromHostname p.resolver zeroAddr p.dst none).1 = -1

instance (p : Setup) : Decidable (Unresolved p) := inferInstanceAs (Decidable (_ = _))

/-- No run hands a packet to `sendto`. -/
def NeverSends (p : Setup) : Prop := ∀ s, Reachable (step p) (· = init p) s → s.sent = []

/-- The handler does not get to `sendto`. -/
def NoSendto (_ : State) (e : Event) : Prop := ∀ junk, e ≠ .sendto junk

section

variable {p : Setup} {s t : State} {e : Event}

/-- Each `sendto` of a run is the handler's. -/
theorem sent_step_iff (hstep : step p s e = some t) :
    ∃ new, t.sent = s.sent ++ new ∧ ((∀ pkt ∈ new, False) ↔ NoSendto s e) := by
  rcases step_target hstep with ⟨d, q, rfl, rfl⟩ | ⟨junk, packet, rfl, -, -, -, hsent⟩ |
    ⟨hne, -, -, hsent⟩
  · refine ⟨[], (List.append_nil _).symm, iff_of_true (fun pkt hpkt => ?_) fun junk h => ?_⟩
    · cases hpkt
    · cases h
  · refine ⟨_, hsent, iff_of_false (fun hall => ?_) fun h => h junk rfl⟩
    exact hall _ List.mem_cons_self
  · refine ⟨[], by rw [hsent, List.append_nil], iff_of_true (fun pkt hpkt => ?_) hne⟩
    cases hpkt

theorem sent_eq_nil_iff {es : List Event} (hrun : exec (step p) (init p) es = some s) :
    s.sent = [] ↔ Guarded (step p) NoSendto (init p) es := by
  have h := exec_log_iff_guarded (I := fun _ => True) (fun _ _ _ _ _ => trivial)
    (fun _ _ _ _ => sent_step_iff) trivial hrun
  rw [List.eq_nil_iff_forall_not_mem]
  rw [show (∀ pkt ∈ (init p).sent, False) ↔ True by simp [init], true_and] at h
  exact h

/-- The failure value of `inet_addr` stays in the destination. -/
theorem target_of_unresolved (h : Unresolved p) : target p = inaddrNone := by
  have haddr : p.resolver.inetAddr p.dst = inaddrNone := by
    by_contra hne
    unfold Unresolved at h
    simp only [addrFromHostname, addrOfHost] at h
    rw [if_neg hne] at h
    cases h
  have hname : p.resolver.gethostbyname p.dst = none := by
    unfold Unresolved at h
    simp only [addrFromHostname, addrOfHost] at h
    rw [if_pos haddr] at h
    cases hhost : p.resolver.gethostbyname p.dst with
    | none => rfl
    | some hp =>
      rw [hhost] at h
      cases h
  unfold target
  simp only [addrFromHostname, addrOfHost]
  rw [if_pos haddr, hname]
  exact haddr

/-- The first alarm sends a packet to the destination as it is stored. -/
theorem exec_request (p : Setup) : ∃ s pkt, exec (step p) (init p) request = some s ∧
    s.sent = [pkt] ∧ KeepsTarget p pkt := by
  let s₁ : State := { init p with armed := false, handling := true }
  obtain ⟨m, hpacket, -⟩ := pinger_fields p.order (s₁.request p) fun _ => 0
  have halarm : step p (init p) .alarm = some s₁ := step_alarm_iff.mpr ⟨⟨rfl, rfl⟩, rfl⟩
  refine ⟨_, _, exec_cons_iff.mpr ⟨s₁, halarm, exec_cons_iff.mpr ⟨_,
    step_sendto_iff.mpr ⟨rfl, _, hpacket, rfl⟩, rfl⟩⟩, rfl, ?_⟩
  exact (keepsTarget_iff hpacket).mpr rfl

/-- **A destination that is not resolved.** For none of them `ping` keeps from sending: its
first alarm hands `sendto` a packet to `255.255.255.255`. -/
theorem unresolved_sends (h : Unresolved p) :
    ¬ NeverSends p ∧
      ∃ s pkt, exec (step p) (init p) request = some s ∧ s.sent = [pkt] ∧
        pkt.daddr = inaddrNone.bytes ∧ pkt.addr.addr = inaddrNone := by
  obtain ⟨s, pkt, hrun, hsent, hdaddr, haddr⟩ := exec_request p
  rw [target_of_unresolved h] at hdaddr haddr
  refine ⟨fun hnever => ?_, s, pkt, hrun, hsent, hdaddr, haddr⟩
  have hnil := hnever s ⟨_, rfl, _, hrun⟩
  rw [hsent] at hnil
  cases hnil

end

/-- The host `10.0.0.1` pings a name that nobody knows. -/
def pingNobody : Setup where
  order := .little
  resolver :=
    { inetAddr := fun a =>
        if a = "10.0.0.1".toUTF8.toList then ⟨10, 0, 0, 1⟩ else inaddrNone
      gethostbyname := fun _ => none }
  pid := 7
  dst := "nobody".toUTF8.toList
  src := "10.0.0.1".toUTF8.toList
  malloc := fun _ => 0

theorem unresolved_sends_nobody : Unresolved pingNobody ∧ ¬ NeverSends pingNobody := by
  have h : Unresolved pingNobody := by decide +kernel
  exact ⟨h, (unresolved_sends h).1⟩

/-- One alarm after the start a packet has been sent. -/
theorem unresolved_not_silent : ¬ ∀ p, Unresolved p → NeverSends p := by
  intro hall
  have h : Unresolved pingNobody := by decide +kernel
  obtain ⟨s, pkt, hrun, hsent, -⟩ := exec_request pingNobody
  have hnil := hall pingNobody h s ⟨_, rfl, _, hrun⟩
  rw [hsent] at hnil
  cases hnil

end Spolks.Ping
