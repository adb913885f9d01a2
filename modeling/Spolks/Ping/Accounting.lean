import Spolks.Ping.Replies

/-!
# What `ping` makes of the datagrams

The loop takes the datagrams from the socket one at a time and prints one line for each, which
depends on the datagram alone. An alarm is armed only after `recvfrom` has returned, so the
handler runs at most once more than that.

* `output_eq`: the lines of a run in terms of the datagrams that have arrived, and how many
  requests have been sent.
-/

namespace Spolks.Ping

open Lib Sockcore

/-- The datagram that comes in with an event. -/
def Event.arrival : Event → Option Datagram
  | .arrive d => some d
  | _ => none

/-- `recvfrom` returns. -/
def Event.returns : Event → Bool
  | .recvfrom | .recvError => true
  | _ => false

/-- The datagrams that have come in, in their order. -/
def arrivals (es : List Event) : List Datagram := es.filterMap Event.arrival

/-- How often `recvfrom` has returned. -/
def returns (es : List Event) : Nat := es.countP Event.returns

/-- The line for a datagram. It names the host that `ping` runs on. -/
def lineOf (p : Setup) (d : Datagram) : Line where
  response := 28
  host := (init p).srcAddr.addr
  icmpReq := word p.order (byteAt d.bytes 26) (byteAt d.bytes 27)
  id := word .big (byteAt d.bytes 4) (byteAt d.bytes 5)
  ttl := (byteAt d.bytes 8).toNat

/-- The datagram whose line is to be printed next. -/
def State.taken (s : State) : List Datagram :=
  if s.pc = .report ∧ s.response ≠ -1 then s.heard.toList else []

/-- What the events so far have made of the datagrams. -/
structure Accounts (p : Setup) (es : List Event) (s : State) : Prop where
  host : s.srcAddr = (init p).srcAddr
  conserved : arrivals es = s.reports.map Report.datagram ++ (s.taken ++ s.queue)
  lines : ∀ rep ∈ s.reports, rep.line = some (lineOf p rep.datagram)
  /-- The line to be printed next. -/
  next : s.pc = .report → s.response ≠ -1 →
    ∃ d, s.heard = some d ∧ s.response = 28 ∧ ∀ k < 28, s.buffer k = byteAt d.bytes k

section

variable {p : Setup} {s t : State} {e : Event} {es : List Event}

theorem arrivals_append (es : List Event) (e : Event) :
    arrivals (es ++ [e]) = arrivals es ++ e.arrival.toList := filterMap_concat ..

theorem returns_append (es : List Event) (e : Event) :
    returns (es ++ [e]) = returns es + if e.returns then 1 else 0 := by
  rw [returns, returns, List.countP_append, List.countP_singleton]

theorem taken_report (hpc : s.pc = .report) (hr : s.response ≠ -1) {d : Datagram}
    (hheard : s.heard = some d) : s.taken = [d] := by
  rw [State.taken, if_pos ⟨hpc, hr⟩, hheard]
  rfl

theorem taken_of_ne (hpc : s.pc ≠ .report) : s.taken = [] := if_neg fun h => hpc h.1

theorem taken_error (hr : s.response = -1) : s.taken = [] := if_neg fun h => h.2 hr

/-- No datagram is shorter than the buffer. -/
theorem receive_response (s : State) (d : Datagram) (q : List Datagram) :
    (s.receive d q).response = 28 := by
  have h₁ := d.ihl_ge
  have h₂ := d.length_ge
  have hlen : (d.bytes.take 28).length = 28 := List.length_take_of_le (by omega)
  rw [State.receive, hlen]
  rfl

/-- The line that is printed is that of the datagram in the buffer. -/
theorem Accounts.line_eq (h : Accounts p es s) (hr : s.response = 28) {d : Datagram}
    (hbuffer : ∀ k < 28, s.buffer k = byteAt d.bytes k) : s.line p = lineOf p d := by
  rw [State.line, lineOf, hr, h.host, hbuffer 26 (by omega), hbuffer 27 (by omega),
    hbuffer 4 (by omega), hbuffer 5 (by omega), hbuffer 8 (by omega)]

/-- The steps that leave the loop where it is, and at most add to the queue. -/
theorem Accounts.keep (h : Accounts p es s) (hloop : t.pc = s.pc ∧ t.response = s.response)
    (hbuffer : t.buffer = s.buffer ∧ t.heard = s.heard) (hreports : t.reports = s.reports)
    (hhost : t.srcAddr = s.srcAddr) (hqueue : t.queue = s.queue ++ e.arrival.toList) :
    Accounts p (es ++ [e]) t := by
  have htaken : t.taken = s.taken := by
    rw [State.taken, State.taken, hloop.1, hloop.2, hbuffer.2]
  constructor
  · exact hhost.trans h.host
  · rw [arrivals_append, h.conserved, hreports, htaken, hqueue]
    simp only [List.append_assoc]
  · rw [hreports]
    exact h.lines
  · rw [hloop.1, hloop.2, hbuffer.1, hbuffer.2]
    exact h.next

theorem accounts_step (h : Accounts p es s) (hstep : step p s e = some t) :
    Accounts p (es ++ [e]) t := by
  cases e with
  | alarm =>
    obtain ⟨-, rfl⟩ := step_alarm_iff.mp hstep
    exact h.keep ⟨rfl, rfl⟩ ⟨rfl, rfl⟩ rfl rfl (List.append_nil _).symm
  | sendto junk =>
    obtain ⟨-, packet, -, rfl⟩ := step_sendto_iff.mp hstep
    exact h.keep ⟨rfl, rfl⟩ ⟨rfl, rfl⟩ rfl rfl (List.append_nil _).symm
  | arrive d =>
    obtain rfl := step_arrive_iff.mp hstep
    exact h.keep ⟨rfl, rfl⟩ ⟨rfl, rfl⟩ rfl rfl rfl
  | recvfrom =>
    obtain ⟨⟨hpc, -⟩, d, q, hqueue, rfl⟩ := step_recvfrom_iff.mp hstep
    have hbefore : s.taken = [] := taken_of_ne (by rw [hpc]; exact Pc.noConfusion)
    have hresponse := receive_response s d q
    have hne : (s.receive d q).response ≠ -1 := by
      rw [hresponse]
      omega
    refine ⟨h.host, ?_, h.lines, fun _ _ => ⟨d, rfl, hresponse, fun k => receive_buffer s d q⟩⟩
    rw [arrivals_append, h.conserved, hbefore, hqueue, taken_report rfl hne rfl]
    exact List.append_nil _
  | recvError =>
    obtain ⟨⟨hpc, -⟩, rfl⟩ := step_recvError_iff.mp hstep
    have hbefore : s.taken = [] := taken_of_ne (by rw [hpc]; exact Pc.noConfusion)
    refine ⟨h.host, ?_, h.lines, fun _ hne => absurd rfl hne⟩
    rw [arrivals_append, h.conserved, hbefore, taken_error rfl]
    exact List.append_nil _
  | report =>
    obtain ⟨⟨hpc, -⟩, rfl⟩ := step_report_iff.mp hstep
    by_cases hr : s.response = -1
    · simp only [if_pos hr]
      refine ⟨h.host, ?_, h.lines, fun hpc => by cases hpc⟩
      rw [arrivals_append, h.conserved, taken_error hr, taken_of_ne Pc.noConfusion]
      exact List.append_nil _
    · obtain ⟨d, hheard, hresponse, hbuffer⟩ := h.next hpc hr
      have hnew : s.newReport p = [⟨d, some (lineOf p d), s.requests p⟩] := by
        rw [State.newReport, hheard, ← h.line_eq hresponse hbuffer]
      simp only [if_neg hr, hnew]
      refine ⟨h.host, ?_, ?_, fun hpc => by cases hpc⟩
      · rw [arrivals_append, h.conserved, taken_report hpc hr hheard, taken_of_ne Pc.noConfusion]
        simp only [Event.arrival, Option.toList_none, List.map_append, List.map_cons, List.map_nil,
          List.append_assoc, List.append_nil, List.nil_append]
      · exact List.forall_mem_append.mpr ⟨h.lines, List.forall_mem_singleton.mpr rfl⟩
  | rearm junk =>
    obtain ⟨⟨hpc, -⟩, rfl⟩ := step_rearm_iff.mp hstep
    have hbefore : s.taken = [] := taken_of_ne (by rw [hpc]; exact Pc.noConfusion)
    refine ⟨h.host, ?_, h.lines, fun hpc => by cases hpc⟩
    rw [arrivals_append, h.conserved, hbefore, taken_of_ne Pc.noConfusion]
    exact List.append_nil _

/-! ## The requests -/

/-- The requests that have been sent, or for which an alarm has been armed. -/
def State.requested (s : State) : Nat :=
  s.sent.length + s.armed.toNat + s.handling.toNat

/-- A new alarm is armed when the loop gets back to `recvfrom`. -/
def Paced (es : List Event) (s : State) : Prop :=
  s.requested + (if s.pc = .recvfrom then 0 else 1) ≤ returns es + 1

theorem paced_step (h : Paced es s) (hstep : step p s e = some t) : Paced (es ++ [e]) t := by
  rw [Paced, returns_append]
  rw [Paced, State.requested] at h
  cases e with
  | alarm =>
    obtain ⟨⟨harmed, hidle⟩, rfl⟩ := step_alarm_iff.mp hstep
    rw [harmed, hidle] at h
    exact h
  | sendto junk =>
    obtain ⟨hhandling, packet, -, rfl⟩ := step_sendto_iff.mp hstep
    rw [hhandling] at h
    simp only [State.requested, List.length_append, List.length_singleton, Bool.toNat_true,
      Bool.toNat_false, Event.returns] at h ⊢
    omega
  | arrive d =>
    obtain rfl := step_arrive_iff.mp hstep
    exact h
  | recvfrom =>
    obtain ⟨⟨hpc, -⟩, d, q, -, rfl⟩ := step_recvfrom_iff.mp hstep
    rw [if_pos hpc] at h
    exact Nat.add_le_add_right h 1
  | recvError =>
    obtain ⟨⟨hpc, -⟩, rfl⟩ := step_recvError_iff.mp hstep
    rw [if_pos hpc] at h
    exact Nat.add_le_add_right h 1
  | report =>
    obtain ⟨⟨hpc, -⟩, rfl⟩ := step_report_iff.mp hstep
    rw [hpc] at h
    exact h
  | rearm junk =>
    obtain ⟨⟨hpc, hidle⟩, rfl⟩ := step_rearm_iff.mp hstep
    rw [hpc, hidle] at h
    have harmed := Bool.toNat_le s.armed
    simp only [State.requested, hidle, Event.returns, Bool.toNat_true, Bool.toNat_false, reduceCtorEq,
      Bool.false_eq_true, if_true, if_false] at h ⊢
    omega

/-- **The output of a run.** The datagrams that have come in are, in their order, those whose
lines have been printed, the one whose line is printed next, and those that wait in the socket;
each line is that of its datagram; and at most one request more has been sent than `recvfrom` has
returned. -/
theorem output_eq (hrun : exec (step p) (init p) es = some s) :
    arrivals es = s.reports.map Report.datagram ++ (s.taken ++ s.queue) ∧ s.taken.length ≤ 1 ∧
      s.reports.map Report.line = (s.reports.map Report.datagram).map (fun d => some (lineOf p d)) ∧
      s.sent.length ≤ returns es + 1 := by
  have haccounts : Accounts p es s :=
    exec_history (fun _ _ _ _ => accounts_step)
      ⟨rfl, rfl, fun rep h => absurd h List.not_mem_nil, fun hpc => by cases hpc⟩ hrun
  have hstart : Paced [] (init p) := Nat.le_refl 1
  have hpaced : Paced es s := exec_history (fun _ _ _ _ => paced_step) hstart hrun
  refine ⟨haccounts.conserved, ?_, ?_, ?_⟩
  · unfold State.taken
    split
    · cases s.heard with
      | none => exact Nat.zero_le 1
      | some d => exact Nat.le_refl 1
    · exact Nat.zero_le 1
  · rw [List.map_map]
    exact List.map_congr_left haccounts.lines
  · rw [Paced, State.requested] at hpaced
    omega

end

theorem output_eq_other : [message 2 0 8 0] =
    otherFinal.reports.map Report.datagram ++ (otherFinal.taken ++ otherFinal.queue) ∧
      otherFinal.sent.length ≤ 2 := by
  obtain ⟨harrived, -, -, hsent⟩ := output_eq other_exec
  exact ⟨harrived, hsent⟩

end Spolks.Ping
