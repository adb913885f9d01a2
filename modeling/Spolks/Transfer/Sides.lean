import Spolks.Transfer.Complete
import Spolks.Transfer.Connection

/-!
# Each side runs its function

Whatever the order of the steps, the sender has executed iterations of the loop of `sendFile`
and the receiver iterations of the loop of `recieveFile`, with results that their calls can
have. The receiver's stream is what the socket has taken until the end, so its iterations do
not depend on the bytes that came after them.

* `transfer_refines`: the results of both sides are results of the two functions.
-/

namespace Spolks.Lab3

open Lib Transfer

namespace Connection

variable {content : List UInt8} {room : Nat} {sendStack recvStack : Nat → UInt8}
  {s t : Connection} {e : Event}

/-- A receiver whose stream goes on with `x`. -/
def extend (r : Receiver) (x : List UInt8) : Receiver := { r with stream := r.stream ++ x }

/-- What `sendFile` has returned, `none` while it has not. -/
def returnValue : Option Ended → Option Int
  | some (.returned r) => some r
  | _ => none

/-- Bytes that come after those that are received make no difference. -/
theorem recieveBody_extend {r : Receiver} {c : RecvCalls} (h : PossibleReceive r c)
    (x : List UInt8) :
    recieveBody (extend r x) c = (extend (recieveBody r c).1 x, (recieveBody r c).2) := by
  obtain ⟨crecv, cwrite⟩ := c
  cases crecv with
  | none => rfl
  | some n =>
    obtain ⟨-, hlen, -⟩ := h n rfl
    have hrecv : (extend r x).recv (some n) = extend (r.recv (some n)) x := by
      simp only [extend, Receiver.recv, List.take_append_of_le_length hlen,
        List.drop_append_of_le_length hlen]
    by_cases hzero : n = 0
    · subst hzero
      rw [recieveBody_zero, recieveBody_zero, hrecv]
      rfl
    · rw [recieveBody_pos _ hzero, recieveBody_pos _ hzero, hrecv]
      cases cwrite <;> rfl

theorem PossibleReceive.extend {r : Receiver} {c : RecvCalls} (h : PossibleReceive r c)
    (x : List UInt8) : PossibleReceive (extend r x) c := by
  intro n hn
  obtain ⟨hbuf, hlen, hwrite⟩ := h n hn
  refine ⟨hbuf, hlen.trans ?_, hwrite⟩
  show r.stream.length ≤ (r.stream ++ x).length
  rw [List.length_append]
  exact Nat.le_add_right ..

/-- The results of the calls of `send` in a run. -/
def sends (es : List Event) : List (Option Nat) :=
  es.filterMap fun
    | .sent r => some r
    | _ => none

/-- The results of the calls of `sendFile` in a run, the file having `n` bytes. -/
def sendCalls (n : Nat) (es : List Event) : List SendCalls :=
  (sends es).mapIdx fun k r => ⟨some (min BUFFSIZE (n - BUFFSIZE * k)), r⟩

/-- The results of the calls of `recieveFile` in a run. -/
def recvCalls (es : List Event) : List RecvCalls :=
  es.filterMap fun
    | .recv r => some ⟨r, r⟩
    | _ => none

section

variable {n : Nat} {es : List Event}

theorem sends_sent (r : Option Nat) : sends (es ++ [.sent r]) = sends es ++ [r] :=
  filterMap_concat ..

theorem sends_other (h : ∀ r, e ≠ .sent r) : sends (es ++ [e]) = sends es := by
  rw [sends, filterMap_concat]
  cases e with
  | sent r => exact absurd rfl (h r)
  | take => exact List.append_nil _
  | recv => exact List.append_nil _
  | kill => exact List.append_nil _
  | reset => exact List.append_nil _

theorem sendCalls_sent (r : Option Nat) : sendCalls n (es ++ [.sent r]) =
    sendCalls n es ++ [⟨some (min BUFFSIZE (n - BUFFSIZE * (sends es).length)), r⟩] := by
  rw [sendCalls, sends_sent, List.mapIdx_concat]
  rfl

theorem recvCalls_recv (r : Option Nat) : recvCalls (es ++ [.recv r]) = recvCalls es ++ [⟨r, r⟩] :=
  filterMap_concat ..

theorem recvCalls_other (h : ∀ r, e ≠ .recv r) : recvCalls (es ++ [e]) = recvCalls es := by
  rw [recvCalls, filterMap_concat]
  cases e with
  | recv r => exact absurd rfl (h r)
  | take => exact List.append_nil _
  | sent => exact List.append_nil _
  | kill => exact List.append_nil _
  | reset => exact List.append_nil _

end

/-- Both sides have executed iterations of their loops, with the results in the run. -/
structure Sides (content : List UInt8) (sendStack recvStack : Nat → UInt8) (es : List Event)
    (s : Connection) : Prop where
  unread : s.sender.rest.length = content.length - BUFFSIZE * (sends es).length
  sender : Ran sendBody PossibleSend (Sender.start sendStack content)
    (sendCalls content.length es) (returnValue s.ended) s.sender
  receiver : ∀ x, Ran recieveBody PossibleReceive
    (Receiver.start recvStack (s.delivered ++ x) (some [])) (recvCalls es) s.result
    (extend s.receiver x)

theorem sides_start : Sides content sendStack recvStack [] (start content sendStack recvStack) where
  unread := rfl
  sender := .nil _
  receiver _ := .nil _

theorem possibleSend_block {r : Option Nat} (hr : ∀ n, r = some n → n ≤ s.block) :
    PossibleSend s.sender ⟨some s.block, r⟩ := by
  refine ⟨fun n hn => ?_, hr⟩
  cases hn
  exact ⟨s.block_le_buffer, s.block_le_rest⟩

theorem possibleReceive_all {n : Nat} (hbuf : n ≤ BUFFSIZE) (hlen : n ≤ s.receiver.stream.length) :
    PossibleReceive s.receiver ⟨some n, some n⟩ := by
  intro m hm
  cases hm
  refine ⟨hbuf, hlen, fun w hw => ?_⟩
  cases hw
  exact Nat.le_refl _

variable {es : List Event}

/-- The sender executes one more iteration. -/
theorem Sides.send (h : Sides content sendStack recvStack es s) (hrun : s.ended = none)
    {r : Option Nat} (hr : ∀ n, r = some n → n ≤ s.block) :
    (sendBody s.sender ⟨some s.block, r⟩).1.rest.length =
        content.length - BUFFSIZE * (sends (es ++ [.sent r])).length ∧
      Ran sendBody PossibleSend (Sender.start sendStack content)
        (sendCalls content.length (es ++ [.sent r])) (sendBody s.sender ⟨some s.block, r⟩).2
        (sendBody s.sender ⟨some s.block, r⟩).1 := by
  have hblock : s.block = min BUFFSIZE (content.length - BUFFSIZE * (sends es).length) := by
    rw [← h.unread]
    rfl
  constructor
  · have hrest : (sendBody s.sender ⟨some s.block, r⟩).1.rest = s.sender.rest.drop s.block := by
      cases r <;> rfl
    rw [hrest, List.length_drop, h.unread, sends_sent, List.length_append, List.length_singleton,
      Nat.mul_succ]
    omega
  · have hsender := h.sender
    rw [hrun] at hsender
    rw [sendCalls_sent, ← hblock]
    exact hsender.next (possibleSend_block hr)

/-- The receiver executes one more iteration. -/
theorem Sides.recv (h : Sides content sendStack recvStack es s) (hrun : s.result = none)
    {r : Option Nat} (hr : PossibleReceive s.receiver ⟨r, r⟩) (x : List UInt8) :
    Ran recieveBody PossibleReceive (Receiver.start recvStack (s.delivered ++ x) (some []))
      (recvCalls (es ++ [.recv r])) (recieveBody s.receiver ⟨r, r⟩).2
      (extend (recieveBody s.receiver ⟨r, r⟩).1 x) := by
  have hnext := (hrun ▸ h.receiver x).next (PossibleReceive.extend hr x)
  rw [recieveBody_extend hr x] at hnext
  rw [recvCalls_recv]
  exact hnext

/-- An event of the other side leaves what the sender has executed. -/
theorem Sides.keeps_sender (h : Sides content sendStack recvStack es s) (he : ∀ r, e ≠ .sent r)
    (hsender : t.sender = s.sender) (hended : returnValue t.ended = returnValue s.ended) :
    t.sender.rest.length = content.length - BUFFSIZE * (sends (es ++ [e])).length ∧
      Ran sendBody PossibleSend (Sender.start sendStack content)
        (sendCalls content.length (es ++ [e])) (returnValue t.ended) t.sender := by
  rw [sendCalls, sends_other he, hsender, hended]
  exact ⟨h.unread, h.sender⟩

/-- An event of the other side leaves what the receiver has executed. -/
theorem Sides.keeps_receiver (h : Sides content sendStack recvStack es s) (he : ∀ r, e ≠ .recv r)
    (hdel : t.delivered = s.delivered) (hresult : t.result = s.result)
    (hreceiver : t.receiver = s.receiver) (x : List UInt8) :
    Ran recieveBody PossibleReceive (Receiver.start recvStack (t.delivered ++ x) (some []))
      (recvCalls (es ++ [e])) t.result (extend t.receiver x) := by
  rw [recvCalls_other he, hdel, hresult, hreceiver]
  exact h.receiver x

theorem sides_step (hinv : Inv content room s) (h : Sides content sendStack recvStack es s)
    (hstep : s.step room e = some t) : Sides content sendStack recvStack (es ++ [e]) t := by
  cases moves_of_step hstep with
  | @take k hrun hup hk hblock hroom =>
    obtain ⟨hunread, hsender⟩ := h.keeps_sender
      (t := { s with
        taken := s.taken + k
        receiver := { s.receiver with
          stream := s.receiver.stream ++ (s.sender.rest.drop s.taken).take k } })
      (e := .take k) (fun _ he => by cases he) rfl rfl
    refine ⟨hunread, hsender, fun x => ?_⟩
    have hbefore := h.receiver ((s.sender.rest.drop s.taken).take k ++ x)
    rw [← List.append_assoc, ← delivered_take] at hbefore
    rw [recvCalls_other fun _ he => by cases he]
    simp only [extend, List.append_assoc] at hbefore ⊢
    exact hbefore
  | @sent o hrun hreturns ho =>
    have hvalue : (sendBody s.sender ⟨some s.block, some s.taken⟩).2 =
        returnValue (if s.block < BUFFSIZE then some (.returned 1) else none) := by
      rw [sendBody_sent]
      split <;> rfl
    obtain ⟨hunread, hsender⟩ := h.send hrun (r := some s.taken) fun n hn => by
      cases hn
      exact hinv.sender.taken_le
    rw [ho] at hunread hsender
    rw [hvalue] at hsender
    refine ⟨hunread, hsender, h.keeps_receiver (fun _ he => by cases he) ?_ rfl rfl⟩
    show o.accepted ++ [] = s.delivered
    rw [List.append_nil, ← ho, delivered_sent hinv.sender.taken_le]
  | @failed o hrun hreset hzero ho =>
    obtain ⟨hunread, hsender⟩ := h.send hrun (r := none) fun n hn => by cases hn
    rw [ho] at hunread hsender
    refine ⟨hunread, hsender, h.keeps_receiver (fun _ he => by cases he) ?_ rfl rfl⟩
    rw [delivered, delivered, hzero, ← ho]
    rfl
  | @chunk n got hrun hn hbuf hlen hgot =>
    obtain ⟨hunread, hsender⟩ := h.keeps_sender
      (e := .recv (some n)) (fun _ he => by cases he) rfl rfl
    have hnext := h.recv hrun (possibleReceive_all hbuf hlen)
    rw [hgot, recieveBody_pos _ hn.ne'] at hnext
    exact ⟨hunread, hsender, hnext⟩
  | @eof got hrun hnil hended hgot =>
    obtain ⟨hunread, hsender⟩ := h.keeps_sender
      (e := .recv (some 0)) (fun _ he => by cases he) rfl rfl
    have hnext := h.recv hrun (possibleReceive_all (Nat.zero_le _) (Nat.zero_le _))
    rw [hgot, recieveBody_zero] at hnext
    exact ⟨hunread, hsender, hnext⟩
  | @lost got hrun hreset hgot =>
    obtain ⟨hunread, hsender⟩ := h.keeps_sender
      (e := .recv none) (fun _ he => by cases he) rfl rfl
    have hpossible : PossibleReceive s.receiver ⟨none, none⟩ := fun m hm => by cases hm
    have hnext := h.recv hrun hpossible
    rw [hgot] at hnext
    exact ⟨hunread, hsender, hnext⟩
  | kill hrun =>
    obtain ⟨hunread, hsender⟩ := h.keeps_sender (t := { s with ended := some .killed })
      (e := .kill) (fun _ he => by cases he) rfl (by rw [hrun]; rfl)
    exact ⟨hunread, hsender, h.keeps_receiver (fun _ he => by cases he) rfl rfl rfl⟩
  | reset hup hrun =>
    obtain ⟨hunread, hsender⟩ := h.keeps_sender
      (e := .reset) (fun _ he => by cases he) rfl rfl
    exact ⟨hunread, hsender, h.keeps_receiver (fun _ he => by cases he) rfl rfl rfl⟩

theorem sides_of_run (hrun : exec (step room) (start content sendStack recvStack) es = some s) :
    Sides content sendStack recvStack es s := by
  refine (exec_history (I := fun es s => Inv content room s ∧ Sides content sendStack recvStack es s)
    (fun es s e t h hstep => ?_) ⟨inv_start sendStack recvStack, sides_start⟩ hrun).2
  exact ⟨inv_step h.1 hstep, sides_step h.1 h.2 hstep⟩

end Connection

open Connection

variable {content : List UInt8} {room : Nat} {sendStack recvStack : Nat → UInt8} {es : List Event}
  {s : Connection}

/-- **Each side runs its function.** When the sender has returned, its state and its result are
those of a run of `sendFile` on the file; when the receiver has, those of a run of `recieveFile`
on all that the socket has taken. The calls have results that they can have. -/
theorem transfer_refines (sName rName : String) (prior : Option (List UInt8))
    (hrun : exec (step room) (start content sendStack recvStack) es = some s) :
    (∀ r, s.ended = some (.returned r) →
      ∃ calls, Along sendBody PossibleSend (Sender.start sendStack content) calls ∧
        sendFile (some sName) (some content) sendStack calls = some (r, s.sender)) ∧
    (∀ r, s.result = some r →
      ∃ calls, Along recieveBody PossibleReceive
          (Receiver.start recvStack s.delivered (some [])) calls ∧
        recieveFile (some rName) true prior recvStack s.delivered calls = some (r, s.receiver)) := by
  have h := sides_of_run hrun
  refine ⟨fun r hr => ?_, fun r hr => ?_⟩
  · have hsender := h.sender
    rw [hr] at hsender
    exact ⟨_, hsender.along, hsender.ends⟩
  · have hreceiver := h.receiver []
    rw [List.append_nil, hr, extend, List.append_nil] at hreceiver
    exact ⟨_, hreceiver.along, hreceiver.ends⟩

theorem transfer_refines_early : ∃ calls,
    sendFile (some "a") (some [65, 66]) (fun _ => 0) calls = some (1, earlyFinal.sender) := by
  obtain ⟨hsender, -⟩ := transfer_refines "a" "b" none (Option.some_get earlyEvents_run).symm
  obtain ⟨calls, -, hrun⟩ := hsender 1 (by decide +kernel)
  exact ⟨calls, hrun⟩

end Spolks.Lab3
