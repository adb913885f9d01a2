import Spolks.Ping.Run

/-!
# Does `ping` report only its own answers?

The loop prints a line for every datagram, and takes the sequence number from the place
where it is in an IP header without options. `reports_iff` says for which datagrams this is
right.
-/

namespace Spolks.Ping

open Lib Sockcore

/-- An ICMP echo reply that carries the `ident` of this process. -/
def IsAnswer (p : Setup) (d : Datagram) : Prop := d.type = 0 ∧ d.ident p.order = u16 p.pid

instance (p : Setup) (d : Datagram) : Decidable (IsAnswer p d) :=
  inferInstanceAs (Decidable (_ ∧ _))

/-- A line is printed for an answer and for nothing else, and its `icmp_req` is the
sequence number of the datagram and of a request sent before. -/
def ReportOK (p : Setup) (rep : Report) : Prop :=
  (rep.line.isSome = true ↔ IsAnswer p rep.datagram) ∧
    ∀ line ∈ rep.line,
      line.icmpReq = rep.datagram.sequence p.order ∧ line.icmpReq ∈ rep.requests

instance (p : Setup) (rep : Report) : Decidable (ReportOK p rep) :=
  inferInstanceAs (Decidable ((_ ↔ _) ∧ ∀ line ∈ rep.line, _))

/-- The datagram answers one of the requests, and the word at byte 26 of it, where a header
without options ends its ICMP header, is its sequence number. -/
def AnswersRequest (p : Setup) (d : Datagram) (requests : List Nat) : Prop :=
  IsAnswer p d ∧ word p.order (byteAt d.bytes 26) (byteAt d.bytes 27) = d.sequence p.order ∧
    d.sequence p.order ∈ requests

/-- Each datagram that is reported answers one of the requests sent before. -/
def ReportsAnswers (p : Setup) (s : State) : Event → Prop
  | .report => s.response ≠ -1 → ∀ d, s.heard = some d → AnswersRequest p d (s.requests p)
  | _ => True

section

variable {p : Setup} {s t : State} {e : Event}

/-! ## The requests -/

/-- The requests are numbered from `0` on, in 16 bits. -/
def Numbered (p : Setup) (s : State) : Prop :=
  s.sequence = s.sent.length ∧ s.requests p = (List.range s.sent.length).map (· % 65536)

theorem pinger_sequence {junk : Nat → UInt8} {packet : List UInt8} {r : Request}
    (hpacket : pinger p.order r junk = some packet) (a : SockAddrIn) :
    Sent.sequence p.order ⟨packet, a⟩ = u16 r.sequence := by
  obtain ⟨m, hrun, -, hseq⟩ := pinger_fields p.order r junk
  rw [hrun] at hpacket
  cases hpacket
  have hlt : u16 r.sequence < 65536 := by
    unfold u16
    omega
  have hword := wordSum_storeWord p.order hlt
  rw [← hseq] at hword
  exact hword

theorem Numbered.sendto (h : Numbered p s) {junk : Nat → UInt8}
    (hstep : step p s (.sendto junk) = some t) : Numbered p t := by
  obtain ⟨-, packet, hpacket, rfl⟩ := step_sendto_iff.mp hstep
  obtain ⟨hnext, hall⟩ := h
  refine ⟨?_, ?_⟩
  · show s.sequence + 1 = ((s.sent ++ [_]).length : Int)
    rw [hnext, List.length_append]
    rfl
  · have hlast : Sent.sequence p.order ⟨packet, s.dstAddr⟩ = s.sent.length % 65536 := by
      rw [pinger_sequence hpacket, show (s.request p).sequence = s.sequence from rfl, hnext]
      unfold u16
      omega
    show (s.sent ++ [_]).map (Sent.sequence p.order) = (List.range (s.sent ++ [_]).length).map _
    rw [List.map_append, List.length_append, List.length_singleton, List.range_succ,
      List.map_append, ← hall, List.map_singleton, List.map_singleton, hlast]
    rfl

/-- **The requests of a run.** In every reachable state the `k`-th packet that has been sent
carries the sequence number `k` modulo `65536`. -/
theorem numbered_of_reachable (h : Reachable (step p) (· = init p) s) : Numbered p s := by
  apply h.invariant
  · rintro s rfl
    exact ⟨rfl, rfl⟩
  · intro s e t hs hstep
    cases e with
    | sendto junk => exact hs.sendto hstep
    | alarm =>
      obtain ⟨-, rfl⟩ := step_alarm_iff.mp hstep
      exact hs
    | arrive d =>
      obtain rfl := step_arrive_iff.mp hstep
      exact hs
    | recvfrom =>
      obtain ⟨-, d, q, -, rfl⟩ := step_recvfrom_iff.mp hstep
      exact hs
    | recvError =>
      obtain ⟨-, rfl⟩ := step_recvError_iff.mp hstep
      exact hs
    | report =>
      obtain ⟨-, rfl⟩ := step_report_iff.mp hstep
      exact hs
    | rearm junk =>
      obtain ⟨-, rfl⟩ := step_rearm_iff.mp hstep
      exact hs

/-! ## The buffer -/

/-- Before a line is printed, the buffer holds the first 28 bytes of the datagram. -/
def BufferInv (s : State) : Prop :=
  s.pc = .report → s.response ≠ -1 →
    ∃ d, s.heard = some d ∧ ∀ k < 28, s.buffer k = byteAt d.bytes k

theorem bufferInv_init (p : Setup) : BufferInv (init p) := by
  intro hpc
  cases hpc

/-- `recvfrom` fills the buffer, for no datagram is shorter than it. -/
theorem receive_buffer (s : State) (d : Datagram) (q : List Datagram) {k : Nat} (hk : k < 28) :
    (s.receive d q).buffer k = byteAt d.bytes k := by
  have hlen : 28 ≤ d.bytes.length := by
    have h₁ := d.ihl_ge
    have h₂ := d.length_ge
    omega
  have hk' : k < d.bytes.length := by omega
  simp [State.receive, writeBlock, byteAt, hk, hk']

theorem BufferInv.step (h : BufferInv s) (hstep : step p s e = some t) : BufferInv t := by
  intro hpc hresponse
  cases e with
  | recvfrom =>
    obtain ⟨-, d, q, -, rfl⟩ := step_recvfrom_iff.mp hstep
    exact ⟨d, rfl, fun k hk => receive_buffer s d q hk⟩
  | alarm =>
    obtain ⟨-, rfl⟩ := step_alarm_iff.mp hstep
    exact h hpc hresponse
  | sendto junk =>
    obtain ⟨-, packet, -, rfl⟩ := step_sendto_iff.mp hstep
    exact h hpc hresponse
  | arrive d =>
    obtain rfl := step_arrive_iff.mp hstep
    exact h hpc hresponse
  | recvError =>
    obtain ⟨-, rfl⟩ := step_recvError_iff.mp hstep
    exact absurd rfl hresponse
  | report =>
    obtain ⟨-, rfl⟩ := step_report_iff.mp hstep
    cases hpc
  | rearm junk =>
    obtain ⟨-, rfl⟩ := step_rearm_iff.mp hstep
    cases hpc

/-! ## The reports -/

/-- The line is printed whatever the datagram is. -/
theorem reportOK_iff {d : Datagram} {line : Line} {requests : List Nat}
    (hline : line.icmpReq = word p.order (byteAt d.bytes 26) (byteAt d.bytes 27)) :
    ReportOK p ⟨d, some line, requests⟩ ↔ AnswersRequest p d requests := by
  constructor
  · rintro ⟨hiff, hall⟩
    obtain ⟨hseq, hmem⟩ := hall line rfl
    exact ⟨hiff.mp rfl, hline ▸ hseq, hseq ▸ hmem⟩
  · rintro ⟨hanswer, hseq, hmem⟩
    refine ⟨⟨fun _ => hanswer, fun _ => rfl⟩, ?_⟩
    intro l hl
    cases hl
    exact ⟨hline.trans hseq, (hline.trans hseq) ▸ hmem⟩

/-- What a step adds to the reports is right exactly when the guard holds. -/
theorem reports_step (h : BufferInv s) (hstep : step p s e = some t) :
    ∃ new, t.reports = s.reports ++ new ∧
      ((∀ rep ∈ new, ReportOK p rep) ↔ ReportsAnswers p s e) := by
  cases e with
  | report =>
    obtain ⟨⟨hpc, -⟩, rfl⟩ := step_report_iff.mp hstep
    by_cases hr : s.response = -1
    · refine ⟨[], ?_, ?_⟩
      · simp [hr]
      · simp [ReportsAnswers, hr]
    · obtain ⟨d, hheard, hbuffer⟩ := h hpc hr
      refine ⟨s.newReport p, by simp [hr], ?_⟩
      have hline : (s.line p).icmpReq = word p.order (byteAt d.bytes 26) (byteAt d.bytes 27) := by
        rw [← hbuffer 26 (by decide), ← hbuffer 27 (by decide)]
        rfl
      have hnew : s.newReport p = [⟨d, some (s.line p), s.requests p⟩] := by
        rw [State.newReport, hheard]
      rw [hnew, List.forall_mem_singleton, reportOK_iff hline]
      constructor
      · intro hanswers _ d' hd'
        obtain rfl : d = d' := Option.some.inj (hheard.symm.trans hd')
        exact hanswers
      · intro hguard
        exact hguard hr d hheard
  | alarm =>
    obtain ⟨-, rfl⟩ := step_alarm_iff.mp hstep
    exact ⟨[], (List.append_nil _).symm, by simp [ReportsAnswers]⟩
  | sendto junk =>
    obtain ⟨-, packet, -, rfl⟩ := step_sendto_iff.mp hstep
    exact ⟨[], (List.append_nil _).symm, by simp [ReportsAnswers]⟩
  | arrive d =>
    obtain rfl := step_arrive_iff.mp hstep
    exact ⟨[], (List.append_nil _).symm, by simp [ReportsAnswers]⟩
  | recvfrom =>
    obtain ⟨-, d, q, -, rfl⟩ := step_recvfrom_iff.mp hstep
    exact ⟨[], (List.append_nil _).symm, by simp [ReportsAnswers]⟩
  | recvError =>
    obtain ⟨-, rfl⟩ := step_recvError_iff.mp hstep
    exact ⟨[], (List.append_nil _).symm, by simp [ReportsAnswers]⟩
  | rearm junk =>
    obtain ⟨-, rfl⟩ := step_rearm_iff.mp hstep
    exact ⟨[], (List.append_nil _).symm, by simp [ReportsAnswers]⟩

/-- **When the reports are right.** In a run every report is that of an answer to one of
its requests, with the sequence number of the answer, exactly when every datagram that it
takes from the socket is such an answer and has its sequence number at byte 26. -/
theorem reports_iff {es : List Event} (hrun : exec (step p) (init p) es = some s) :
    (∀ rep ∈ s.reports, ReportOK p rep) ↔ Guarded (step p) (ReportsAnswers p) (init p) es := by
  have h := exec_log_iff_guarded (fun _ _ _ => BufferInv.step) (fun _ _ _ => reports_step)
    (bufferInv_init p) hrun
  rw [h]
  simp [init]

end

/-! ## An answer to another process -/

/-- One request of process `7`, and an echo reply to process `8`. -/
def otherEvents : List Event := request ++ iteration (message 2 0 8 0)

theorem otherEvents_run : (exec (step pingTwo) (init pingTwo) otherEvents).isSome = true := by
  decide +kernel

def otherFinal : State := (exec (step pingTwo) (init pingTwo) otherEvents).get otherEvents_run

theorem other_exec : exec (step pingTwo) (init pingTwo) otherEvents = some otherFinal :=
  (Option.some_get _).symm

theorem numbered_of_reachable_other : Numbered pingTwo otherFinal :=
  numbered_of_reachable ⟨_, rfl, otherEvents, other_exec⟩

theorem reports_iff_other :
    ¬ Guarded (step pingTwo) (ReportsAnswers pingTwo) (init pingTwo) otherEvents :=
  fun h => absurd ((reports_iff other_exec).mpr h) (by decide +kernel)

/-- In a reachable state a line has been printed for a datagram that is not an answer to
this process. -/
theorem reports_other :
    otherFinal.reports.map (fun rep => (rep.line, decide (IsAnswer pingTwo rep.datagram))) =
        [(some ⟨28, ⟨10, 0, 0, 1⟩, 0, 1, 64⟩, false)] ∧
      ¬ (∀ s, Reachable (step pingTwo) (· = init pingTwo) s →
        ∀ rep ∈ s.reports, ReportOK pingTwo rep) := by
  refine ⟨by decide +kernel, ?_⟩
  intro hall
  have hok := hall otherFinal ⟨_, rfl, otherEvents, other_exec⟩
  revert hok
  decide +kernel

end Spolks.Ping
