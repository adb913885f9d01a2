import Spolks.Transfer.Connection

/-!
# How a transfer ends

Every step takes something away: a byte is taken and received once, a block is sent once, and
each side returns once. So every order of the steps comes to an end, and what remains is who
waits for whom there. The events other than `kill` and `reset` are calm.

* `blocked_iff`: the states in which no call can go on.
* `transfer_ends`: the bound, and that the calls lead to such a state.
-/

namespace Spolks.Lab3

open Lib Transfer

namespace Connection

variable {content : List UInt8} {room : Nat} {s t : Connection} {e : Event}

/-! ## The end of a run -/

/-- What the sender has still to do, each byte being taken and received. -/
def todo (s : Connection) : Nat :=
  if s.ended = none then
    2 * (s.sender.rest.length - s.taken) + s.sender.rest.length / BUFFSIZE + 1
  else 0

def cost (s : Connection) : Nat :=
  s.todo + s.receiver.stream.length + (if s.result = none then 1 else 0) +
    if s.isReset = true then 0 else 1

theorem todo_running (h : s.ended = none) :
    s.todo = 2 * (s.sender.rest.length - s.taken) + s.sender.rest.length / BUFFSIZE + 1 :=
  if_pos h

theorem todo_ended (h : s.ended ≠ none) : s.todo = 0 := if_neg h

/-- A `send` that returns ends a block or the loop. -/
theorem todo_sent (htaken : s.taken ≤ s.block) (hrun : s.ended = none)
    (hrest : t.sender.rest = s.sender.rest.drop s.block) (hzero : t.taken = 0)
    (hnext : t.ended = none → s.block = BUFFSIZE) : t.todo < s.todo := by
  have hle := s.block_le_rest
  rw [todo_running hrun]
  by_cases hended : t.ended = none
  · have hfull := hnext hended
    rw [todo_running hended, hrest, hzero, List.length_drop]
    rw [hfull] at hle htaken ⊢
    unfold BUFFSIZE at hle htaken ⊢
    omega
  · rw [todo_ended hended]
    exact Nat.succ_pos _

theorem todo_pos (h : s.ended = none) : 0 < s.todo := by
  rw [todo_running h]
  exact Nat.succ_pos _

theorem todo_take {k : Nat} (hrun : s.ended = none) (hblock : s.taken + k ≤ s.block)
    (ht : t.ended = s.ended) (hsender : t.sender = s.sender) (htaken : t.taken = s.taken + k) :
    t.todo + 2 * k = s.todo := by
  have hle := s.block_le_rest
  rw [todo_running hrun, todo_running (ht.trans hrun), hsender, htaken]
  generalize s.sender.rest.length / BUFFSIZE = blocks
  omega

/-- A step after which the sender has less to do, or the connection holds less. -/
theorem cost_lt (htodo : t.todo + t.receiver.stream.length < s.todo + s.receiver.stream.length)
    (hresult : t.result = none → s.result = none) (hreset : t.isReset = s.isReset) :
    t.cost < s.cost := by
  have hwaits : (if t.result = none then 1 else 0) ≤ (if s.result = none then 1 else 0) := by
    by_cases h : t.result = none
    · rw [if_pos h, if_pos (hresult h)]
    · rw [if_neg h]
      exact Nat.zero_le _
  simp only [cost, hreset]
  omega

/-- The step with which the receiver returns. -/
theorem cost_returned (htodo : t.todo = s.todo)
    (hstream : t.receiver.stream.length ≤ s.receiver.stream.length) (hrun : s.result = none)
    (hresult : t.result ≠ none) (hreset : t.isReset = s.isReset) : t.cost < s.cost := by
  rw [cost, cost, htodo, hreset, if_pos hrun, if_neg hresult]
  omega

theorem cost_step (h : Inv content room s) (hmoves : Moves room s e t) : t.cost < s.cost := by
  have htaken := h.sender.taken_le
  cases hmoves with
  | @take k hrun hup hk hblock hroom =>
    refine cost_lt ?_ id rfl
    have htodo := @todo_take s { s with
      taken := s.taken + k
      receiver := { s.receiver with
        stream := s.receiver.stream ++ (s.sender.rest.drop s.taken).take k } }
      k hrun hblock rfl rfl rfl
    rw [List.length_append, List.length_take, List.length_drop]
    omega
  | @sent o hrun hreturns ho =>
    refine cost_lt (Nat.add_lt_add_right (todo_sent htaken hrun ?_ rfl ?_) _) id rfl
    · rw [← ho]
      rfl
    · exact fun hnext => eq_of_next s.block_le_buffer hnext
  | failed hrun hreset hzero ho =>
    refine cost_lt (Nat.add_lt_add_right ?_ _) id rfl
    rw [todo_ended fun hnext => by cases hnext]
    exact todo_pos hrun
  | @chunk n got hrun hn hbuf hlen hgot =>
    obtain ⟨hstream, -⟩ := recieveBody_take hn hlen h.isOpen
    rw [hgot] at hstream
    refine cost_lt (Nat.add_lt_add_left ?_ _) (fun _ => hrun) rfl
    rw [hstream, List.length_drop]
    omega
  | @eof got hrun hnil hended hgot =>
    obtain ⟨hstream, -⟩ := recieveBody_quiet h.isOpen (Or.inl rfl)
    rw [hgot] at hstream
    exact cost_returned rfl (congrArg List.length hstream).le hrun (fun hnext => by cases hnext) rfl
  | @lost got hrun hreset hgot =>
    obtain ⟨hstream, -⟩ := recieveBody_quiet h.isOpen (Or.inr rfl)
    rw [hgot] at hstream
    exact cost_returned rfl (congrArg List.length hstream).le hrun (fun hnext => by cases hnext) rfl
  | kill hrun =>
    refine cost_lt (Nat.add_lt_add_right ?_ _) id rfl
    rw [todo_ended fun hnext => by cases hnext]
    exact todo_pos hrun
  | reset hup hrun =>
    have hsame : s.cost = s.todo + s.receiver.stream.length + (if s.result = none then 1 else 0) + 1 := by
      rw [cost, hup]
      rfl
    rw [hsame]
    exact Nat.lt_succ_self _

/-! ## Who waits -/

/-- The events that are not a fault. -/
def Event.Calm (e : Event) : Prop := e ≠ .kill ∧ e ≠ .reset

/-- No call can go on: only a fault can end the run. -/
def Blocked (room : Nat) (s : Connection) : Prop := ∀ e, Event.Calm e → s.step room e = none

theorem take_enabled {k : Nat} (hrun : s.ended = none) (hup : s.isReset = false) (hk : 0 < k)
    (hblock : s.taken + k ≤ s.block) (hroom : s.receiver.stream.length + k ≤ room) :
    s.step room (.take k) ≠ none := by
  rw [step, if_pos ⟨hrun, hup, hk, hblock, hroom⟩]
  exact Option.some_ne_none _

theorem sent_enabled {r : Option Nat} (hrun : s.ended = none) (hreturns : s.SendReturns r) :
    s.step room (.sent r) ≠ none := by
  rw [step, if_pos ⟨hrun, hreturns⟩]
  exact Option.some_ne_none _

theorem recv_enabled {r : Option Nat} (hrun : s.result = none) (hreturns : s.RecvReturns r) :
    s.step room (.recv r) ≠ none := by
  rw [step, if_pos ⟨hrun, hreturns⟩]
  exact Option.some_ne_none _

/-- Some `send` returns when the connection is reset or the block has been taken. -/
theorem exists_sendReturns (h : s.isReset = true ∨ s.taken = s.block) : ∃ r, s.SendReturns r := by
  by_cases hreset : s.isReset = true
  · by_cases hzero : s.taken = 0
    · exact ⟨none, hreset, hzero⟩
    · exact ⟨some s.taken, rfl, Or.inl ⟨hreset, Nat.pos_of_ne_zero hzero⟩⟩
  · exact ⟨some s.taken, rfl, Or.inr ⟨Bool.eq_false_of_not_eq_true hreset, h.resolve_left hreset⟩⟩

/-- A sender that cannot go on waits for room in the buffers. -/
theorem Blocked.waits (h : Blocked room s) (hinv : Inv content room s) (hrun : s.ended = none) :
    s.isReset = false ∧ s.taken < s.block ∧ s.receiver.stream.length = room := by
  have hsend : ¬ (s.isReset = true ∨ s.taken = s.block) := by
    intro hreturns
    obtain ⟨r, hr⟩ := exists_sendReturns hreturns
    exact sent_enabled hrun hr (h (.sent r) (by constructor <;> simp))
  obtain ⟨hup, hne⟩ := not_or.mp hsend
  have hup := Bool.eq_false_of_not_eq_true hup
  have hlt : s.taken < s.block := Nat.lt_of_le_of_ne hinv.sender.taken_le hne
  refine ⟨hup, hlt, Nat.le_antisymm hinv.held ?_⟩
  by_contra hfree
  exact take_enabled hrun hup Nat.one_pos hlt (by omega) (h (.take 1) (by constructor <;> simp))

/-- A receiver can always go on while the buffers hold anything at all. -/
theorem Blocked.received (h : Blocked room s) (hinv : Inv content room s) (hroom : 0 < room) :
    s.result ≠ none := by
  intro hrun
  have hrecv : ∀ r, ¬ s.RecvReturns r := fun r hr =>
    recv_enabled hrun hr (h (.recv r) (by constructor <;> simp))
  by_cases hnil : s.receiver.stream = []
  · by_cases hended : s.ended = none
    · obtain ⟨-, -, hfull⟩ := h.waits hinv hended
      rw [hnil] at hfull
      exact absurd hfull hroom.ne
    · exact hrecv (some 0) ⟨hnil, hended⟩
  · exact hrecv (some 1) ⟨by decide, List.length_pos_iff.mpr hnil⟩

/-- A transfer comes to a halt when both sides have left, or when the receiver has and what is
left of a block does not fit into the buffers. -/
theorem blocked_iff (hinv : Inv content room s) (hroom : 0 < room) :
    Blocked room s ↔ s.result ≠ none ∧ (s.ended ≠ none ∨
      s.isReset = false ∧ s.taken < s.block ∧ s.receiver.stream.length = room) := by
  constructor
  · intro h
    refine ⟨h.received hinv hroom, ?_⟩
    by_cases hended : s.ended = none
    · exact Or.inr (h.waits hinv hended)
    · exact Or.inl hended
  · rintro ⟨hresult, hsender⟩ e ⟨hkill, hreset⟩
    cases e with
    | take k =>
      refine if_neg fun ⟨hrun, _, hk, _, hfree⟩ => ?_
      rcases hsender with hended | ⟨-, -, hfull⟩
      · exact hended hrun
      · omega
    | sent r =>
      refine if_neg fun ⟨hrun, hreturns⟩ => ?_
      rcases hsender with hended | ⟨hup, hlt, -⟩
      · exact hended hrun
      · cases r with
        | none => exact Bool.false_ne_true (hup.symm.trans hreturns.1)
        | some n =>
          rcases hreturns.2 with ⟨hdown, -⟩ | ⟨-, hall⟩
          · exact Bool.false_ne_true (hup.symm.trans hdown)
          · exact absurd (hreturns.1.symm.trans hall) hlt.ne
    | recv r => exact if_neg fun ⟨hrun, _⟩ => hresult hrun
    | kill => exact absurd rfl hkill
    | reset => exact absurd rfl hreset

theorem cost_start (content : List UInt8) (sendStack recvStack : Nat → UInt8) :
    (start content sendStack recvStack).cost =
      2 * content.length + content.length / BUFFSIZE + 3 := rfl

end Connection

open Connection

variable {content : List UInt8} {room : Nat} {sendStack recvStack : Nat → UInt8} {es : List Event}
  {s : Connection}

/-- **Every order of the steps comes to an end.** The number of steps is bounded by the length
of the file, and without a further fault the calls go on until the receiver has returned and
the sender has ended, or waits for room in the buffers that the receiver will not make. -/
theorem transfer_ends (hroom : 0 < room)
    (hrun : exec (step room) (start content sendStack recvStack) es = some s) :
    es.length ≤ 2 * content.length + content.length / BUFFSIZE + 3 ∧
      (Blocked room s ↔ s.result ≠ none ∧ (s.ended ≠ none ∨
        s.isReset = false ∧ s.taken < s.block ∧ s.receiver.stream.length = room)) ∧
      ∃ t, Leads (step room) Event.Calm s t ∧ Blocked room t := by
  have hstep : ∀ s e t, Inv content room s → step room s e = some t → Inv content room t :=
    fun _ _ _ h h' => inv_step h h'
  have hcost : ∀ s e t, Inv content room s → step room s e = some t → t.cost < s.cost :=
    fun _ _ _ h h' => cost_step h (moves_of_step h')
  have h := inv_of_run hrun
  refine ⟨?_, blocked_iff h hroom, ?_⟩
  · have hle := exec_cost hstep hcost (inv_start sendStack recvStack) hrun
    rw [cost_start] at hle
    omega
  · refine exists_leads_of_cost hstep hcost (fun s _ hgo => ?_) h
    obtain ⟨e, he⟩ := not_forall.mp hgo
    exact ⟨e, Classical.not_imp.mp he⟩

theorem transfer_ends_early : Blocked 4 earlyFinal := by
  obtain ⟨-, hblocked, -⟩ :=
    transfer_ends (by decide) (Option.some_get earlyEvents_run).symm
  exact hblocked.mpr ⟨by decide +kernel, Or.inl (by decide +kernel)⟩

end Spolks.Lab3
