import Spolks.Ping.Run

/-!
# Does `ping` go on?

Only the loop arms the alarm, only the alarm sends, and the loop waits for a datagram. When
the handler returns while the loop waits and no datagram is there, nothing that `ping`
does itself can happen any more (`live_iff_canStep`). `never_wedges_iff` says that this is
the only way into such a state.
-/

namespace Spolks.Ping

open Lib

/-- The loop is not waiting, or an alarm is pending, or the handler is running, or a
datagram waits in the socket. -/
def Live (s : State) : Prop :=
  s.pc = .recvfrom → s.armed = true ∨ s.handling = true ∨ s.queue ≠ []

/-- What the process and its alarm do, as opposed to the network and the errors of the kernel. -/
def Event.Own : Event → Prop
  | .arrive _ | .recvError => False
  | _ => True

/-- When the handler returns to a loop that waits, a datagram is there. -/
def ReturnsToDatagram (s : State) : Event → Prop
  | .sendto _ => s.pc = .recvfrom → s.queue ≠ []
  | _ => True

/-- The alarm that has entered the handler is the only one. -/
def AlarmInv (s : State) : Prop := s.handling = true → s.armed = false

section

variable {p : Setup} {s t : State} {e : Event}

theorem AlarmInv.step (h : AlarmInv s) (hstep : step p s e = some t) : AlarmInv t := by
  intro hhandling
  cases e with
  | alarm =>
    obtain ⟨-, rfl⟩ := step_alarm_iff.mp hstep
    rfl
  | sendto junk =>
    obtain ⟨-, packet, -, rfl⟩ := step_sendto_iff.mp hstep
    cases hhandling
  | arrive d =>
    obtain rfl := step_arrive_iff.mp hstep
    exact h hhandling
  | recvfrom =>
    obtain ⟨-, d, q, -, rfl⟩ := step_recvfrom_iff.mp hstep
    exact h hhandling
  | recvError =>
    obtain ⟨-, rfl⟩ := step_recvError_iff.mp hstep
    exact h hhandling
  | report =>
    obtain ⟨-, rfl⟩ := step_report_iff.mp hstep
    exact h hhandling
  | rearm junk =>
    obtain ⟨⟨-, hidle⟩, rfl⟩ := step_rearm_iff.mp hstep
    rw [show s.handling = true from hhandling] at hidle
    cases hidle

/-- A step leads to a live state exactly when the guard holds. -/
theorem live_step (hI : AlarmInv s) (hstep : step p s e = some t) :
    Live t ↔ ReturnsToDatagram s e := by
  cases e with
  | sendto junk =>
    obtain ⟨hhandling, packet, -, rfl⟩ := step_sendto_iff.mp hstep
    have harmed := hI hhandling
    constructor
    · intro hlive hpc
      rcases hlive hpc with harmed' | hhandling' | hqueue
      · rw [show s.armed = true from harmed'] at harmed
        cases harmed
      · cases hhandling'
      · exact hqueue
    · intro hguard hpc
      exact Or.inr (Or.inr (hguard hpc))
  | alarm =>
    obtain ⟨-, rfl⟩ := step_alarm_iff.mp hstep
    exact ⟨fun _ => trivial, fun _ _ => Or.inr (Or.inl rfl)⟩
  | arrive d =>
    obtain rfl := step_arrive_iff.mp hstep
    exact ⟨fun _ => trivial, fun _ _ => Or.inr (Or.inr (by simp))⟩
  | recvfrom =>
    obtain ⟨-, d, q, -, rfl⟩ := step_recvfrom_iff.mp hstep
    exact ⟨fun _ => trivial, fun _ hpc => (by cases hpc)⟩
  | recvError =>
    obtain ⟨-, rfl⟩ := step_recvError_iff.mp hstep
    exact ⟨fun _ => trivial, fun _ hpc => (by cases hpc)⟩
  | report =>
    obtain ⟨-, rfl⟩ := step_report_iff.mp hstep
    exact ⟨fun _ => trivial, fun _ hpc => (by cases hpc)⟩
  | rearm junk =>
    obtain ⟨-, rfl⟩ := step_rearm_iff.mp hstep
    exact ⟨fun _ => trivial, fun _ _ => Or.inl rfl⟩

/-- A state is live exactly when the process or its alarm can do something in it. -/
theorem live_iff_canStep (p : Setup) (s : State) :
    Live s ↔ ∃ e t, e.Own ∧ step p s e = some t := by
  constructor
  · intro h
    by_cases hhandling : s.handling = true
    · obtain ⟨m, hrun, -, -⟩ := pinger_fields p.order (s.request p) fun _ => 0
      exact ⟨.sendto fun _ => 0, _, trivial, step_sendto_iff.mpr ⟨hhandling, _, hrun, rfl⟩⟩
    have hidle : s.handling = false := by simpa using hhandling
    cases hpc : s.pc with
    | recvfrom =>
      rcases h hpc with harmed | hhandling' | hqueue
      · exact ⟨.alarm, _, trivial, step_alarm_iff.mpr ⟨⟨harmed, hidle⟩, rfl⟩⟩
      · exact absurd hhandling' hhandling
      · obtain ⟨d, q, hq⟩ := List.exists_cons_of_ne_nil hqueue
        exact ⟨.recvfrom, _, trivial, step_recvfrom_iff.mpr ⟨⟨hpc, hidle⟩, d, q, hq, rfl⟩⟩
    | report => exact ⟨.report, _, trivial, step_report_iff.mpr ⟨⟨hpc, hidle⟩, rfl⟩⟩
    | rearm =>
      exact ⟨.rearm fun _ => 0, _, trivial, step_rearm_iff.mpr ⟨⟨hpc, hidle⟩, rfl⟩⟩
  · rintro ⟨e, t, hown, hstep⟩ hpc
    cases e with
    | arrive _ | recvError => exact absurd hown id
    | alarm => exact Or.inl (step_alarm_iff.mp hstep).1.1
    | sendto junk => exact Or.inr (Or.inl (step_sendto_iff.mp hstep).1)
    | recvfrom =>
      obtain ⟨-, d, q, hq, -⟩ := step_recvfrom_iff.mp hstep
      exact Or.inr (Or.inr (by simp [hq]))
    | report =>
      rw [(step_report_iff.mp hstep).1.1] at hpc
      cases hpc
    | rearm junk =>
      rw [(step_rearm_iff.mp hstep).1.1] at hpc
      cases hpc

/-- **When `ping` goes on.** Every state of a run is live exactly when, each time the
handler returns to a loop that waits in `recvfrom`, a datagram already waits there. -/
theorem never_wedges_iff {es : List Event} (hrun : exec (step p) (init p) es = some s) :
    Throughout (step p) Live (init p) es ↔ Guarded (step p) ReturnsToDatagram (init p) es := by
  have hinit : AlarmInv (init p) := fun h => by cases h
  have hlive : Live (init p) := fun _ => Or.inl rfl
  exact throughout_iff_guarded (fun _ _ _ => AlarmInv.step) (fun _ _ _ hI _ => live_step hI) hinit
    hlive hrun

end

/-! ## A lost reply -/

/-- The first request is sent and no answer is there. -/
theorem request_run : (exec (step pingTwo) (init pingTwo) request).isSome = true := by
  decide +kernel

def lostFinal : State := (exec (step pingTwo) (init pingTwo) request).get request_run

theorem lost_exec : exec (step pingTwo) (init pingTwo) request = some lostFinal :=
  (Option.some_get _).symm

theorem never_wedges_iff_request :
    Throughout (step pingTwo) Live (init pingTwo) request ↔
      Guarded (step pingTwo) ReturnsToDatagram (init pingTwo) request :=
  never_wedges_iff lost_exec

theorem lostFinal_waits : lostFinal.pc = .recvfrom ∧ lostFinal.armed = false ∧
    lostFinal.handling = false ∧ lostFinal.queue.length = 0 := by
  decide +kernel

/-- After it, `ping` waits with no alarm pending, outside the handler and without a
datagram, and can do nothing but wait. -/
theorem wedged_after_request :
    ¬ (∀ s, Reachable (step pingTwo) (· = init pingTwo) s → Live s) ∧
      ∀ e t, e.Own → step pingTwo lostFinal e ≠ some t := by
  have hdead : ¬ Live lostFinal := by
    obtain ⟨hpc, harmed, hhandling, hqueue⟩ := lostFinal_waits
    intro hlive
    rcases hlive hpc with h | h | h
    · rw [harmed] at h
      cases h
    · rw [hhandling] at h
      cases h
    · exact h (List.eq_nil_of_length_eq_zero hqueue)
  refine ⟨?_, ?_⟩
  · intro hall
    exact hdead (hall lostFinal ⟨_, rfl, request, lost_exec⟩)
  · intro e t hown hstep
    exact hdead ((live_iff_canStep pingTwo lostFinal).mpr ⟨e, t, hown, hstep⟩)

end Spolks.Ping
