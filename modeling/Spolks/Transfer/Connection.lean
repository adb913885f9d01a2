import Spolks.Lib.Transition
import Spolks.Transfer.Broken

/-!
# A transfer while both sides run

`sendFile` runs on one side and `recieveFile` on the other, over a connection whose buffers
hold at most `room` bytes. The socket takes the bytes of a `send` in pieces before the call
returns, and the receiver gets them in pieces of its own, in any order of the steps. The
sender can be killed, and the connection can be reset. No read of the sender's file fails or
falls short, and the receiver's `write` stores what it is given.

* `transfer_safe`: what is stored in any order of the steps, and what the results mean.
-/

namespace Spolks.Lab3

open Lib Transfer

/-- How `sendFile` has ended. -/
inductive Ended where
  | returned (r : Int)
  | killed
  deriving DecidableEq

/-- Both sides. `receiver.stream` is what the connection holds, and `taken` counts the bytes
of the present `send` that the socket has taken. -/
structure Connection where
  sender : Sender
  taken : Nat
  ended : Option Ended
  receiver : Receiver
  result : Option Int
  isReset : Bool

/-- The socket takes `k` more bytes; a `send` or a `recv` returns, `none` being `-1`; the
sender is killed; the connection is reset. -/
inductive Event where
  | take (k : Nat)
  | sent (r : Option Nat)
  | recv (r : Option Nat)
  | kill
  | reset
  deriving DecidableEq

namespace Connection

/-- What the present `send` was given. -/
def block (s : Connection) : Nat := readCount s.sender.toOutgoing

/-- A `send` returns when the socket has taken everything. When the connection is reset, it
returns what has been taken by then, and fails if that is nothing. -/
def SendReturns (s : Connection) : Option Nat → Prop
  | some n => n = s.taken ∧ (s.isReset = true ∧ 0 < n ∨ s.isReset = false ∧ n = s.block)
  | none => s.isReset = true ∧ s.taken = 0

instance (s : Connection) : DecidablePred s.SendReturns
  | some n => inferInstanceAs
      (Decidable (n = s.taken ∧ (s.isReset = true ∧ 0 < n ∨ s.isReset = false ∧ n = s.block)))
  | none => inferInstanceAs (Decidable (s.isReset = true ∧ s.taken = 0))

/-- A `recv` returns some of the bytes that are there, `0` when the sender has ended and none
are left, and may fail when the connection is reset. -/
def RecvReturns (s : Connection) : Option Nat → Prop
  | some 0 => s.receiver.stream = [] ∧ s.ended ≠ none
  | some (n + 1) => n + 1 ≤ BUFFSIZE ∧ n + 1 ≤ s.receiver.stream.length
  | none => s.isReset = true

instance (s : Connection) : DecidablePred s.RecvReturns
  | some 0 => inferInstanceAs (Decidable (s.receiver.stream = [] ∧ s.ended ≠ none))
  | some (n + 1) => inferInstanceAs
      (Decidable (n + 1 ≤ BUFFSIZE ∧ n + 1 ≤ s.receiver.stream.length))
  | none => inferInstanceAs (Decidable (s.isReset = true))

/-- One step; the bodies of the two loops are executed when their last call returns. -/
def step (room : Nat) (s : Connection) : Event → Option Connection
  | .take k =>
    if s.ended = none ∧ s.isReset = false ∧ 0 < k ∧ s.taken + k ≤ s.block ∧
        s.receiver.stream.length + k ≤ room then
      let bytes := readBlock (s.sender.read (some s.block)).dataToSend s.taken k
      some { s with
        taken := s.taken + k
        receiver := { s.receiver with stream := s.receiver.stream ++ bytes } }
    else none
  | .sent r =>
    if s.ended = none ∧ s.SendReturns r then
      let body := sendBody s.sender ⟨some s.block, r⟩
      some { s with sender := body.1, taken := 0, ended := body.2.map .returned }
    else none
  | .recv r =>
    if s.result = none ∧ s.RecvReturns r then
      let body := recieveBody s.receiver ⟨r, r⟩
      some { s with receiver := body.1, result := body.2 }
    else none
  | .kill => if s.ended = none then some { s with ended := some .killed } else none
  | .reset =>
    if s.isReset = false ∧ (s.ended = none ∨ s.result = none) then some { s with isReset := true }
    else none

/-- Both loops are about to be entered. -/
def start (content : List UInt8) (sendStack recvStack : Nat → UInt8) : Connection where
  sender := Sender.start sendStack content
  taken := 0
  ended := none
  receiver := Receiver.start recvStack [] (some [])
  result := none
  isReset := false

/-- Everything that the socket has taken. -/
def delivered (s : Connection) : List UInt8 := s.sender.accepted ++ s.sender.rest.take s.taken

/-- What the destination file holds. -/
def stored (s : Connection) : List UInt8 := s.receiver.file.getD []

/-! ## What a step can do -/

/-- The steps in terms of the bytes that they move. -/
inductive Moves (room : Nat) (s : Connection) : Event → Connection → Prop
  | take {k : Nat} (hrun : s.ended = none) (hup : s.isReset = false) (hk : 0 < k)
      (hblock : s.taken + k ≤ s.block) (hroom : s.receiver.stream.length + k ≤ room) :
      Moves room s (.take k) { s with
        taken := s.taken + k
        receiver := { s.receiver with
          stream := s.receiver.stream ++ (s.sender.rest.drop s.taken).take k } }
  | sent {sender : Sender} (hrun : s.ended = none) (hreturns : s.SendReturns (some s.taken))
      (hsender : (sendBody s.sender ⟨some s.block, some s.taken⟩).1 = sender) :
      Moves room s (.sent (some s.taken)) { s with
        sender := sender
        taken := 0
        ended := if s.block < BUFFSIZE then some (.returned 1) else none }
  | failed {sender : Sender} (hrun : s.ended = none) (hreset : s.isReset = true)
      (htaken : s.taken = 0) (hsender : (sendBody s.sender ⟨some s.block, none⟩).1 = sender) :
      Moves room s (.sent none) { s with
        sender := sender, taken := 0, ended := some (.returned (-1)) }
  | chunk {n : Nat} {receiver : Receiver} (hrun : s.result = none) (hn : 0 < n)
      (hbuf : n ≤ BUFFSIZE) (hlen : n ≤ s.receiver.stream.length)
      (hreceiver : (recieveBody s.receiver ⟨some n, some n⟩).1 = receiver) :
      Moves room s (.recv (some n)) { s with
        receiver := receiver, result := if n < BUFFSIZE then some 1 else none }
  | eof {receiver : Receiver} (hrun : s.result = none) (hnil : s.receiver.stream = [])
      (hended : s.ended ≠ none)
      (hreceiver : (recieveBody s.receiver ⟨some 0, some 0⟩).1 = receiver) :
      Moves room s (.recv (some 0)) { s with receiver := receiver, result := some 1 }
  | lost {receiver : Receiver} (hrun : s.result = none) (hreset : s.isReset = true)
      (hreceiver : (recieveBody s.receiver ⟨none, none⟩).1 = receiver) :
      Moves room s (.recv none) { s with receiver := receiver, result := some (-1) }
  | kill (hrun : s.ended = none) : Moves room s .kill { s with ended := some .killed }
  | reset (hup : s.isReset = false) (hrun : s.ended = none ∨ s.result = none) :
      Moves room s .reset { s with isReset := true }

variable {room : Nat} {s t : Connection} {e : Event}

theorem block_le_rest (s : Connection) : s.block ≤ s.sender.rest.length := Nat.min_le_right ..

theorem block_le_buffer (s : Connection) : s.block ≤ BUFFSIZE := Nat.min_le_left ..

/-- The bytes of the buffer that the socket takes are the next bytes of the file. -/
theorem readBlock_block {k : Nat} (h : s.taken + k ≤ s.block) :
    readBlock (s.sender.read (some s.block)).dataToSend s.taken k =
      (s.sender.rest.drop s.taken).take k := by
  have hlen : s.taken + k ≤ (s.sender.rest.take s.block).length := by
    rw [List.length_take_of_le s.block_le_rest]
    exact h
  have hread : readBlock (s.sender.read (some s.block)).dataToSend 0 (s.taken + k) =
      s.sender.rest.take (s.taken + k) := by
    rw [Outgoing.read, readBlock_writeBlock_take _ _ hlen, List.take_take, Nat.min_eq_left h]
  have htake := take_drop_readBlock (s.sender.read (some s.block)).dataToSend
    (Nat.le_refl (s.taken + k))
  rw [hread, List.drop_take, Nat.add_sub_cancel_left, List.take_take, Nat.min_self] at htake
  exact htake.symm

/-- The loop goes on after a full block and is left after another one. -/
theorem sendBody_sent (o : Sender) (n m : Nat) :
    (sendBody o ⟨some n, some m⟩).2 = if n < BUFFSIZE then some 1 else none := by
  have hne : ¬ ((m : Int) = -1) := by omega
  simp only [sendBody, returned, if_neg hne, Int.ofNat_lt]

theorem ended_sent (s : Connection) (m : Nat) :
    (sendBody s.sender ⟨some s.block, some m⟩).2.map Ended.returned =
      if s.block < BUFFSIZE then some (.returned 1) else none := by
  rw [sendBody_sent]
  split <;> rfl

theorem moves_of_step (h : s.step room e = some t) : Moves room s e t := by
  cases e with
  | take k =>
    obtain ⟨⟨hrun, hup, hk, hblock, hroom⟩, ht⟩ := Option.ite_none_right_eq_some.mp h
    cases ht
    rw [readBlock_block hblock]
    exact .take hrun hup hk hblock hroom
  | sent r =>
    obtain ⟨⟨hrun, hreturns⟩, ht⟩ := Option.ite_none_right_eq_some.mp h
    cases ht
    cases r with
    | none => exact .failed hrun hreturns.1 hreturns.2 rfl
    | some n =>
      obtain rfl := hreturns.1
      rw [ended_sent]
      exact .sent hrun hreturns rfl
  | recv r =>
    obtain ⟨⟨hrun, hreturns⟩, ht⟩ := Option.ite_none_right_eq_some.mp h
    cases ht
    match r, hreturns with
    | none, hreset => exact .lost hrun hreset rfl
    | some 0, ⟨hnil, hended⟩ => exact .eof hrun hnil hended rfl
    | some (n + 1), ⟨hbuf, hlen⟩ =>
      rw [show (recieveBody s.receiver ⟨some (n + 1), some (n + 1)⟩).2 =
        if n + 1 < BUFFSIZE then some 1 else none by rw [recieveBody_pos _ (Nat.succ_ne_zero n)]]
      exact .chunk hrun (Nat.succ_pos n) hbuf hlen rfl
  | kill =>
    obtain ⟨hrun, ht⟩ := Option.ite_none_right_eq_some.mp h
    cases ht
    exact .kill hrun
  | reset =>
    obtain ⟨⟨hup, hrun⟩, ht⟩ := Option.ite_none_right_eq_some.mp h
    cases ht
    exact .reset hup hrun

/-- The loops go on after a full block only. -/
theorem eq_of_next {β : Type*} {n : Nat} {x : β} (hle : n ≤ BUFFSIZE)
    (hnext : (if n < BUFFSIZE then some x else none) = none) : n = BUFFSIZE := by
  by_contra hne
  rw [if_pos (Nat.lt_of_le_of_ne hle hne)] at hnext
  cases hnext

/-! ## The invariant -/

/-- All but the rest of the file has been sent, in full blocks. -/
structure OnTrack (content : List UInt8) (o : Sender) : Prop where
  whole : o.accepted ++ o.rest = content
  blocks : BUFFSIZE ∣ o.accepted.length

/-- What the sender's side says about the bytes that the socket has taken. -/
structure SenderInv (content : List UInt8) (s : Connection) : Prop where
  taken_le : s.taken ≤ s.block
  isPrefix : s.delivered <+: content
  /-- After a short `send` the next one fails. -/
  sending : s.ended = none → OnTrack content s.sender ∨ s.isReset = true ∧ s.taken = 0
  returned : ∀ r, s.ended = some (.returned r) →
    r = 1 ∧ (s.delivered = content ∨ s.isReset = true ∧ ¬ BUFFSIZE ∣ s.delivered.length) ∨
      r = -1 ∧ s.isReset = true

/-- What the receiver's side says about the bytes that it has stored. -/
structure ReceiverInv (s : Connection) : Prop where
  receiving : s.result = none → BUFFSIZE ∣ s.stored.length
  received : ∀ r, s.result = some r →
    r = 1 ∧ (¬ BUFFSIZE ∣ s.stored.length ∨ s.receiver.stream = [] ∧ s.ended ≠ none) ∨
      r = -1 ∧ s.isReset = true ∧ BUFFSIZE ∣ s.stored.length

/-- No byte is lost, repeated or overtaken between the two sides. -/
structure Inv (content : List UInt8) (room : Nat) (s : Connection) : Prop where
  isOpen : s.receiver.file = some s.stored
  conserved : s.stored ++ s.receiver.stream = s.delivered
  held : s.receiver.stream.length ≤ room
  sender : SenderInv content s
  receiver : ReceiverInv s

variable {content : List UInt8}

theorem inv_start (sendStack recvStack : Nat → UInt8) :
    Inv content room (start content sendStack recvStack) where
  isOpen := rfl
  conserved := rfl
  held := Nat.zero_le _
  sender :=
    { taken_le := Nat.zero_le _
      isPrefix := List.nil_prefix
      sending := fun _ => Or.inl ⟨rfl, Nat.dvd_zero _⟩
      returned := fun r hr => by cases hr }
  receiver :=
    { receiving := fun _ => Nat.dvd_zero _
      received := fun r hr => by cases hr }

theorem delivered_take (s : Connection) (k : Nat) :
    ({ s with taken := s.taken + k } : Connection).delivered =
      s.delivered ++ (s.sender.rest.drop s.taken).take k := by
  show s.sender.accepted ++ s.sender.rest.take (s.taken + k) = _
  rw [List.take_add, ← List.append_assoc]
  rfl

theorem OnTrack.isPrefix {o : Sender} (h : OnTrack content o) (n : Nat) :
    o.accepted ++ o.rest.take n <+: content := by
  rw [← h.whole, List.prefix_append_right_inj]
  exact List.take_prefix ..

/-- When the file is sent up to a block that is not full, that block is the last one. -/
theorem rest_of_block (h : s.block < BUFFSIZE) : s.block = s.sender.rest.length := by
  have hblock : s.block = min BUFFSIZE s.sender.rest.length := rfl
  omega

theorem length_take_block (h : s.taken ≤ s.block) : (s.sender.rest.take s.taken).length = s.taken :=
  List.length_take_of_le (h.trans s.block_le_rest)

theorem delivered_sent (h : s.taken ≤ s.block) :
    (sendBody s.sender ⟨some s.block, some s.taken⟩).1.accepted = s.delivered :=
  accepted_read_send s.sender.toOutgoing h

theorem not_dvd_add {m k : Nat} (hm : BUFFSIZE ∣ m) (hpos : 0 < k) (hk : k < BUFFSIZE) :
    ¬ BUFFSIZE ∣ m + k := fun h =>
  Nat.not_dvd_of_pos_of_lt hpos hk ((Nat.dvd_add_right hm).mp h)

theorem length_delivered (h : s.taken ≤ s.block) :
    s.delivered.length = s.sender.accepted.length + s.taken := by
  rw [delivered, List.length_append, length_take_block h]

/-- The whole file has been taken when the last block has. -/
theorem delivered_last (h : OnTrack content s.sender) (htaken : s.taken = s.block)
    (hshort : s.block < BUFFSIZE) : s.delivered = content := by
  rw [delivered, htaken, rest_of_block hshort, List.take_length, h.whole]

/-- A full block is followed by the next one. -/
theorem OnTrack.next (h : OnTrack content s.sender) (htaken : s.taken = s.block)
    (hfull : s.block = BUFFSIZE) {o : Sender}
    (ho : (sendBody s.sender ⟨some s.block, some s.taken⟩).1 = o) : OnTrack content o := by
  have hacc : o.accepted = s.delivered := by
    rw [← ho]
    exact delivered_sent htaken.le
  have hrest : o.rest = s.sender.rest.drop s.taken := by
    rw [← ho, htaken]
    rfl
  constructor
  · rw [hacc, hrest, delivered, List.append_assoc, List.take_append_drop, h.whole]
  · rw [hacc, length_delivered htaken.le, htaken, hfull]
    exact Nat.dvd_add h.blocks (Nat.dvd_refl _)

theorem sender_step (h : SenderInv content s) (hstep : Moves room s e t) :
    SenderInv content t := by
  cases hstep with
  | take hrun hup hk hblock hroom =>
    have htrack : OnTrack content s.sender := by
      rcases h.sending hrun with htrack | ⟨hreset, -⟩
      · exact htrack
      · rw [hup] at hreset
        cases hreset
    constructor
    · exact hblock
    · exact htrack.isPrefix _
    · exact fun _ => Or.inl htrack
    · intro r hr
      rw [show s.ended = some (.returned r) from hr] at hrun
      cases hrun
  | @sent o hrun hreturns ho =>
    have hdel : ({ s with
        sender := o
        taken := 0
        ended := if s.block < BUFFSIZE then some (.returned 1) else none } : Connection).delivered =
        s.delivered := by
      show o.accepted ++ [] = s.delivered
      rw [List.append_nil, ← ho]
      exact delivered_sent h.taken_le
    constructor
    · exact Nat.zero_le _
    · rw [hdel]
      exact h.isPrefix
    · intro hnext
      rcases hreturns.2 with ⟨hreset, -⟩ | ⟨hup, htaken⟩
      · exact Or.inr ⟨hreset, rfl⟩
      · have hfull : s.block = BUFFSIZE := eq_of_next s.block_le_buffer hnext
        rcases h.sending hrun with htrack | ⟨hreset, -⟩
        · exact Or.inl (htrack.next htaken hfull ho)
        · rw [hup] at hreset
          cases hreset
    · intro r hr
      change (if s.block < BUFFSIZE then some (Ended.returned 1) else none) =
        some (Ended.returned r) at hr
      rw [hdel]
      obtain ⟨hshort, hr⟩ := Option.ite_none_right_eq_some.mp hr
      cases hr
      refine Or.inl ⟨rfl, ?_⟩
      rcases h.sending hrun with htrack | ⟨hreset, hzero⟩
      · rcases hreturns.2 with ⟨hreset, hpos⟩ | ⟨hup, htaken⟩
        · refine Or.inr ⟨hreset, ?_⟩
          rw [length_delivered h.taken_le]
          exact not_dvd_add htrack.blocks hpos (h.taken_le.trans_lt hshort)
        · exact Or.inl (delivered_last htrack htaken hshort)
      · -- a `send` that follows a short one does not return `1`
        rcases hreturns.2 with ⟨-, hpos⟩ | ⟨hup, -⟩
        · rw [hzero] at hpos
          exact absurd hpos (Nat.lt_irrefl 0)
        · rw [hup] at hreset
          cases hreset
  | @failed o hrun hreset htaken ho =>
    have hdel : o.accepted ++ o.rest.take 0 = s.delivered := by
      rw [← ho, List.take_zero, delivered, htaken]
      rfl
    constructor
    · exact Nat.zero_le _
    · show o.accepted ++ o.rest.take 0 <+: content
      rw [hdel]
      exact h.isPrefix
    · exact fun hnext => by cases hnext
    · intro r hr
      cases hr
      exact Or.inr ⟨rfl, hreset⟩
  | chunk => exact ⟨h.taken_le, h.isPrefix, h.sending, h.returned⟩
  | eof => exact ⟨h.taken_le, h.isPrefix, h.sending, h.returned⟩
  | lost => exact ⟨h.taken_le, h.isPrefix, h.sending, h.returned⟩
  | kill hrun =>
    constructor
    · exact h.taken_le
    · exact h.isPrefix
    · exact fun hnext => by cases hnext
    · exact fun r hr => by cases hr
  | reset hup hrun =>
    constructor
    · exact h.taken_le
    · exact h.isPrefix
    · exact fun hnext => (h.sending hnext).imp_right fun hzero => ⟨rfl, hzero.2⟩
    · intro r hr
      rcases h.returned r hr with ⟨hone, hall⟩ | ⟨hfail, -⟩
      · exact Or.inl ⟨hone, hall.imp_right fun hcut => ⟨rfl, hcut.2⟩⟩
      · exact Or.inr ⟨hfail, rfl⟩

/-- A `recv` of `n` bytes moves them from the connection to the file. -/
theorem recieveBody_take {r : Receiver} {file : List UInt8} {n : Nat} (hn : 0 < n)
    (hlen : n ≤ r.stream.length) (hfile : r.file = some file) :
    (recieveBody r ⟨some n, some n⟩).1.stream = r.stream.drop n ∧
      (recieveBody r ⟨some n, some n⟩).1.file = some (file ++ r.stream.take n) := by
  have htake : (r.stream.take n).length = n := List.length_take_of_le hlen
  have hne : r.stream.take n ≠ [] := by
    intro hnil
    rw [hnil] at htake
    exact absurd htake hn.ne
  obtain ⟨hstream, hstored, -⟩ :=
    recieveBody_chunk hne (List.take_append_drop n r.stream).symm hfile
  rw [htake] at hstream hstored
  exact ⟨hstream, hstored⟩

/-- An iteration that moves nothing. -/
theorem recieveBody_quiet {r : Receiver} {file : List UInt8} {n : Option Nat}
    (hfile : r.file = some file) (hn : n = some 0 ∨ n = none) :
    (recieveBody r ⟨n, n⟩).1.stream = r.stream.drop 0 ∧
      (recieveBody r ⟨n, n⟩).1.file = some (file ++ r.stream.take 0) := by
  rw [List.take_zero, List.append_nil, ← hfile]
  rcases hn with rfl | rfl
  · rw [recieveBody_zero]
    exact ⟨rfl, rfl⟩
  · exact ⟨rfl, rfl⟩

theorem stored_of_file {file : List UInt8} (h : t.receiver.file = some file) : t.stored = file := by
  rw [stored, h]
  rfl

theorem stored_congr (h : t.receiver.file = s.receiver.file) : t.stored = s.stored := by
  rw [stored, stored, h]

/-- The steps of the sender, and a reset. -/
theorem ReceiverInv.keep (h : ReceiverInv s) (hfile : t.receiver.file = s.receiver.file)
    (hresult : t.result = s.result) (hreset : s.isReset = true → t.isReset = true)
    (hended : s.ended ≠ none → t.ended ≠ none ∧ t.receiver.stream = s.receiver.stream) :
    ReceiverInv t := by
  have hstored : t.stored = s.stored := stored_congr hfile
  constructor
  · rw [hresult, hstored]
    exact h.receiving
  · intro r hr
    rw [hresult] at hr
    rw [hstored]
    rcases h.received r hr with ⟨hone, hshort | ⟨hnil, hne⟩⟩ | ⟨hfail, hlost, hblocks⟩
    · exact Or.inl ⟨hone, Or.inl hshort⟩
    · obtain ⟨hne', hstream⟩ := hended hne
      exact Or.inl ⟨hone, Or.inr ⟨hstream.trans hnil, hne'⟩⟩
    · exact Or.inr ⟨hfail, hreset hlost, hblocks⟩

/-- The steps of the receiver: `n` bytes are moved from the connection to the file. -/
theorem Inv.recv (h : Inv content room s) {n : Nat} (hdel : t.delivered = s.delivered)
    (hstream : t.receiver.stream = s.receiver.stream.drop n)
    (hfile : t.receiver.file = some (s.stored ++ s.receiver.stream.take n))
    (hsender : SenderInv content t) (hreceiver : ReceiverInv t) : Inv content room t := by
  have hstored := stored_of_file hfile
  refine ⟨?_, ?_, ?_, hsender, hreceiver⟩
  · rw [hstored, hfile]
  · rw [hstored, hstream, List.append_assoc, List.take_append_drop, h.conserved, hdel]
  · rw [hstream, List.length_drop]
    exact (Nat.sub_le ..).trans h.held

theorem inv_step (h : Inv content room s) (hstep : s.step room e = some t) : Inv content room t := by
  have hmoves := moves_of_step hstep
  have hsender := sender_step h.sender hmoves
  cases hmoves with
  | @take k hrun hup hk hblock hroom =>
    refine ⟨h.isOpen, ?_, ?_, hsender, h.receiver.keep rfl rfl id fun hne => absurd hrun hne⟩
    · show s.stored ++ (s.receiver.stream ++ _) = _
      rw [← List.append_assoc, h.conserved]
      exact (delivered_take s k).symm
    · show (s.receiver.stream ++ _).length ≤ room
      rw [List.length_append, List.length_take]
      omega
  | @sent o hrun hreturns ho =>
    refine ⟨h.isOpen, ?_, h.held, hsender, h.receiver.keep rfl rfl id fun hne => absurd hrun hne⟩
    show s.stored ++ s.receiver.stream = o.accepted ++ []
    rw [h.conserved, List.append_nil, ← ho, delivered_sent h.sender.taken_le]
  | @failed o hrun hreset htaken ho =>
    refine ⟨h.isOpen, ?_, h.held, hsender, h.receiver.keep rfl rfl id fun hne => absurd hrun hne⟩
    show s.stored ++ s.receiver.stream = o.accepted ++ []
    rw [h.conserved, delivered, htaken, ← ho]
    rfl
  | @chunk n got hrun hn hbuf hlen hgot =>
    obtain ⟨hstream, hfile⟩ := recieveBody_take hn hlen h.isOpen
    rw [hgot] at hstream hfile
    have hblocks : BUFFSIZE ∣ s.stored.length := h.receiver.receiving hrun
    have hlength : (s.stored ++ s.receiver.stream.take n).length = s.stored.length + n := by
      rw [List.length_append, List.length_take_of_le hlen]
    refine h.recv rfl hstream hfile hsender ?_
    constructor
    · intro hnext
      have hfull : n = BUFFSIZE := eq_of_next hbuf hnext
      rw [stored_of_file hfile, hlength, hfull]
      exact Nat.dvd_add hblocks (Nat.dvd_refl _)
    · intro r hr
      obtain ⟨hshort, hr⟩ := Option.ite_none_right_eq_some.mp hr
      cases hr
      rw [stored_of_file hfile, hlength]
      exact Or.inl ⟨rfl, Or.inl (not_dvd_add hblocks hn hshort)⟩
  | @eof got hrun hnil hended hgot =>
    obtain ⟨hstream, hfile⟩ := recieveBody_quiet h.isOpen (Or.inl rfl)
    rw [hgot] at hstream hfile
    refine h.recv rfl hstream hfile hsender ?_
    constructor
    · exact fun hnext => by cases hnext
    · intro r hr
      cases hr
      exact Or.inl ⟨rfl, Or.inr ⟨hstream.trans hnil, hended⟩⟩
  | @lost got hrun hreset hgot =>
    obtain ⟨hstream, hfile⟩ := recieveBody_quiet h.isOpen (Or.inr rfl)
    rw [hgot] at hstream hfile
    refine h.recv rfl hstream hfile hsender ?_
    constructor
    · exact fun hnext => by cases hnext
    · intro r hr
      cases hr
      rw [stored_of_file hfile, List.take_zero, List.append_nil]
      exact Or.inr ⟨rfl, hreset, h.receiver.receiving hrun⟩
  | kill hrun =>
    exact ⟨h.isOpen, h.conserved, h.held, hsender,
      h.receiver.keep rfl rfl id fun hne => absurd hrun hne⟩
  | reset hup hrun =>
    exact ⟨h.isOpen, h.conserved, h.held, hsender,
      h.receiver.keep rfl rfl (fun _ => rfl) fun hne => ⟨hne, rfl⟩⟩

theorem inv_of_run {sendStack recvStack : Nat → UInt8} {es : List Event}
    (hrun : exec (step room) (start content sendStack recvStack) es = some s) :
    Inv content room s :=
  exec_preserves (fun _ _ _ h hstep => inv_step h hstep) (inv_start sendStack recvStack) hrun

/-- When both sides have returned `1` and the length of the file is that of full blocks, it is
the file that was sent. -/
theorem Inv.complete (h : Inv content room s) (hended : s.ended = some (.returned 1))
    (hresult : s.result = some 1) (hblocks : BUFFSIZE ∣ s.stored.length) : s.stored = content := by
  have hnil : s.receiver.stream = [] := by
    rcases h.receiver.received 1 hresult with ⟨-, hshort | ⟨hnil, -⟩⟩ | ⟨hfail, -⟩
    · exact absurd hblocks hshort
    · exact hnil
    · cases hfail
  have hall : s.stored = s.delivered := by
    rw [← h.conserved, hnil, List.append_nil]
  rcases h.sender.returned 1 hended with ⟨-, hwhole | ⟨-, hcut⟩⟩ | ⟨hfail, -⟩
  · rw [hall, hwhole]
  · rw [← hall] at hcut
    exact absurd hblocks hcut
  · cases hfail

/-- When the connection has not been reset, `sendFile` returns `1` with everything taken. -/
theorem Inv.sent (h : Inv content room s) (hended : s.ended = some (.returned 1))
    (hup : s.isReset = false) : s.delivered = content := by
  rcases h.sender.returned 1 hended with ⟨-, hwhole | ⟨hreset, -⟩⟩ | ⟨hfail, -⟩
  · exact hwhole
  · rw [hup] at hreset
    cases hreset
  · cases hfail

end Connection

open Connection

variable {content : List UInt8} {room : Nat} {sendStack recvStack : Nat → UInt8} {es : List Event}
  {s : Connection}

/-- **What is stored in any order of the steps.** The file and the bytes that the connection
holds are together what the socket has taken, which is the beginning of the sender's file.
When both sides have returned `1`, the stored file is the sender's unless its length is not
that of full blocks; what it then lacks fits into the buffers, unless the connection has been
reset. -/
theorem transfer_safe
    (hrun : exec (step room) (start content sendStack recvStack) es = some s) :
    ∃ file, s.receiver.file = some file ∧ file ++ s.receiver.stream = s.delivered ∧
      s.delivered <+: content ∧
      (s.ended = some (.returned 1) → s.result = some 1 →
        (BUFFSIZE ∣ file.length → file = content) ∧
          (s.isReset = false → content.length ≤ file.length + room)) := by
  have h := inv_of_run hrun
  refine ⟨s.stored, h.isOpen, h.conserved, h.sender.isPrefix, fun hended hresult => ?_⟩
  refine ⟨h.complete hended hresult, fun hup => ?_⟩
  have hlength := congrArg List.length h.conserved
  rw [List.length_append, h.sent hended hup] at hlength
  have hheld := h.held
  omega

/-! ## Two bytes -/

/-- The receiver gets the first byte before the second one has been taken. -/
def earlyEvents : List Event := [.take 1, .recv (some 1), .take 1, .sent (some 2)]

theorem earlyEvents_run :
    (exec (step 4) (start [65, 66] (fun _ => 0) (fun _ => 0)) earlyEvents).isSome = true := by
  decide +kernel

def earlyFinal : Connection :=
  (exec (step 4) (start [65, 66] (fun _ => 0) (fun _ => 0)) earlyEvents).get earlyEvents_run

theorem transfer_safe_early : ∃ file, earlyFinal.receiver.file = some file ∧
    file ++ earlyFinal.receiver.stream = earlyFinal.delivered ∧ 2 ≤ file.length + 4 := by
  obtain ⟨file, hfile, hall, -, hdone⟩ := transfer_safe (Option.some_get earlyEvents_run).symm
  exact ⟨file, hfile, hall, (hdone (by decide +kernel) (by decide +kernel)).2 (by decide +kernel)⟩

end Spolks.Lab3
