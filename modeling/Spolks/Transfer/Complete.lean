import Mathlib.Algebra.Order.Ring.Nat
import Mathlib.Data.List.TakeDrop
import Spolks.Transfer.NetSender

/-!
# Does success mean complete?

Calls may fall short or fail here: `read` and `send` in the sender, `write` in the receiver.
The loops never look at what a short call has left over, so `sendFile` and `recieveFile`
may return `1` with bytes missing.

* `sendLoop_all_iff`, `sendLoop_failed_iff`: when everything has been sent, without a failed
  read and with one, which is always the last read of the loop.
* `recieveLoop_iff`: when everything received has been stored.
-/

namespace Spolks.Lab3

open Lib Transfer

/-! ## Sending -/

/-- Results that the calls of an iteration can have: a read returns at most what remains and
what the buffer holds, a send accepts at most what it is given. After a failed read the
length given is `(size_t) -1`. -/
def PossibleSend (s : Sender) (c : SendCalls) : Prop :=
  (∀ r, c.read = some r → r ≤ BUFFSIZE ∧ r ≤ s.rest.length) ∧
    ∀ n, c.send = some n → n ≤ c.read.getD 18446744073709551615

/-- The send accepts all that was read, and a read that ends the loop reaches the end of the
file. -/
def SendsAll (s : Sender) (c : SendCalls) : Prop :=
  ∃ r, c.read = some r ∧ c.send = some r ∧ (r < BUFFSIZE → r = s.rest.length)

/-- Full reads, of which the sends accept these counts, then a read that fails and a send that
accepts `n` bytes. -/
def failedRead (counts : List Nat) (n : Nat) (later : List SendCalls) : List SendCalls :=
  counts.map (fun m => ⟨some BUFFSIZE, some m⟩) ++ ⟨none, some n⟩ :: later

/-- The buffer and the memory behind it after `k` full reads of the file. -/
def leftOver (content : List UInt8) (stack : Nat → UInt8) : Nat → Nat → UInt8
  | 0 => stack
  | k + 1 => writeBlock stack 0 ((content.drop (BUFFSIZE * k)).take BUFFSIZE)

/-- The file repeats itself where a send has fallen short: the bytes that follow the accepted
ones are those of the block that was read, and in the end those left in the buffer. -/
structure Repeats (content : List UInt8) (stack : Nat → UInt8) (counts : List Nat) (n : Nat) :
    Prop where
  blocks : ∀ i m, counts[i]? = some m →
    (content.drop (counts.take i).sum).take m = (content.drop (BUFFSIZE * i)).take m
  last : content.drop counts.sum = readBlock (leftOver content stack counts.length) 0 n

/-- What follows a call that has fallen short is too short to make up for it. -/
theorem take_append_eq_iff {α : Type*} {l as bs : List α} {m n : Nat} (hmn : m ≤ n)
    (hn : n ≤ l.length) (hle : as.length ≤ bs.length) :
    l.take m ++ as = l.take n ++ bs ↔ m = n ∧ as = bs := by
  constructor
  · intro heq
    have hlength := congrArg List.length heq
    rw [List.length_append, List.length_append, List.length_take, List.length_take] at hlength
    obtain rfl : m = n := by omega
    exact ⟨rfl, List.append_cancel_left heq⟩
  · rintro ⟨rfl, rfl⟩
    rfl

section

variable {s s' : Sender} {c : SendCalls} {cs : List SendCalls} {content : List UInt8}

/-- After a send that does not fail the loop is left when fewer than `BUFFSIZE` bytes were to be
sent. -/
theorem sendBody_leaves (s : Sender) (r : Option Nat) (n : Nat) :
    (sendBody s ⟨r, some n⟩).2 = if returned r < BUFFSIZE then some 1 else none := by
  have hne : ¬ ((n : Int) = -1) := by omega
  show (if (n : Int) = -1 then some (-1) else if returned r < BUFFSIZE then some 1
    else none) = _
  rw [if_neg hne]

/-- An iteration after which `sendFile` returns `1` or goes on: a send has accepted `n` bytes
of the buffer, and the loop is left when fewer than `BUFFSIZE` were to be sent. -/
theorem sendBody_accepts (h : (sendBody s c).2 ≠ some (-1)) :
    ∃ n, c.send = some n ∧
      (sendBody s c).1.accepted = s.accepted ++ readBlock (s.read c.read).dataToSend 0 n ∧
      (sendBody s c).1.rest = (s.read c.read).rest ∧
      (sendBody s c).2 = if returned c.read < BUFFSIZE then some 1 else none := by
  obtain ⟨cread, csend⟩ := c
  cases csend with
  | none => exact absurd rfl h
  | some n =>
    refine ⟨n, rfl, ?_, rfl, sendBody_leaves s cread n⟩
    cases cread <;> rfl

/-- The iteration that ends the loop with `1` has had fewer than `BUFFSIZE` bytes to send. -/
theorem sendBody_exit (h : (sendBody s c).2 = some 1) :
    ∃ n, c.send = some n ∧
      (sendBody s c).1.accepted = s.accepted ++ readBlock (s.read c.read).dataToSend 0 n ∧
      returned c.read < BUFFSIZE := by
  obtain ⟨n, hn, hacc, -, hleave⟩ := sendBody_accepts (by rw [h]; decide)
  refine ⟨n, hn, hacc, ?_⟩
  by_contra hfull
  rw [h, if_neg hfull] at hleave
  cases hleave

/-- An iteration after which the loop goes on has had a full buffer. -/
theorem sendBody_next (h : (sendBody s c).2 = none) :
    ∃ n, c.send = some n ∧
      (sendBody s c).1.accepted = s.accepted ++ readBlock (s.read c.read).dataToSend 0 n ∧
      (sendBody s c).1.rest = (s.read c.read).rest ∧ ¬ returned c.read < BUFFSIZE := by
  obtain ⟨n, hn, hacc, hrest, hleave⟩ := sendBody_accepts (by rw [h]; simp)
  refine ⟨n, hn, hacc, hrest, fun hshort => ?_⟩
  rw [h, if_pos hshort] at hleave
  cases hleave

/-- The bytes that a send takes after a successful read are the next ones of the file. -/
theorem PossibleSend.sends (h : PossibleSend s c) {r n : Nat} (hr : c.read = some r)
    (hn : c.send = some n) : n ≤ r ∧ r ≤ BUFFSIZE ∧ r ≤ s.rest.length ∧
      readBlock (s.read c.read).dataToSend 0 n = s.rest.take n ∧
      (s.read c.read).rest = s.rest.drop r := by
  obtain ⟨hbuf, hlen⟩ := h.1 r hr
  have hle : n ≤ r := by
    have h₂ := h.2 n hn
    rwa [hr, Option.getD_some] at h₂
  refine ⟨hle, hbuf, hlen, ?_, by rw [hr]; rfl⟩
  have htake : n ≤ (s.rest.take r).length := by
    rw [List.length_take_of_le hlen]
    exact hle
  rw [hr, Outgoing.read, readBlock_writeBlock_take _ _ htake, List.take_take, Nat.min_eq_left hle]

/-- Only the read of the iteration that ends the loop can have failed. -/
theorem sendLoop_reads (hpossible : Along sendBody PossibleSend s cs)
    (hrun : callLoop sendBody s cs = some (1, s')) :
    Along sendBody (fun _ c => c.read ≠ none) s cs ∨
      ∃ counts n later, cs = failedRead counts n later := by
  induction cs generalizing s with
  | nil => cases hrun
  | cons c cs ih =>
    obtain ⟨cread, csend⟩ := c
    rcases callLoop_cons_iff.mp hrun with ⟨hexit, rfl⟩ | ⟨hnext, hrest⟩
    · obtain ⟨n, hn, -, -⟩ := sendBody_exit hexit
      cases cread with
      | none =>
        refine Or.inr ⟨[], n, cs, ?_⟩
        rw [show csend = some n from hn]
        rfl
      | some r =>
        refine Or.inl ⟨Option.some_ne_none r, fun hne => ?_⟩
        rw [hexit] at hne
        cases hne
    · obtain ⟨m, hm, -, -, hfull⟩ := sendBody_next hnext
      cases cread with
      | none => exact absurd (show (-1 : Int) < BUFFSIZE by decide) hfull
      | some r =>
        have hr : r = BUFFSIZE := by
          have hle := (hpossible.1.1 r rfl).1
          have hge : ¬ (r : Int) < BUFFSIZE := hfull
          omega
        rcases ih (hpossible.2 hnext) hrest with hreads | ⟨counts, n, later, rfl⟩
        · exact Or.inl ⟨Option.some_ne_none r, fun _ => hreads⟩
        · refine Or.inr ⟨m :: counts, n, later, ?_⟩
          rw [hr, show csend = some m from hm]
          rfl

/-- With no failed read: what is accepted of the rest of the file is all of it exactly when
each send accepts all that was read and the reads reach the end of the file. -/
theorem sendLoop_all_iff (hpossible : Along sendBody PossibleSend s cs)
    (hread : Along sendBody (fun _ c => c.read ≠ none) s cs)
    (hrun : callLoop sendBody s cs = some (1, s')) :
    ∃ got, s'.accepted = s.accepted ++ got ∧ got.length ≤ s.rest.length ∧
      (got = s.rest ↔ Along sendBody SendsAll s cs) := by
  induction cs generalizing s with
  | nil => cases hrun
  | cons c cs ih =>
    obtain ⟨r, hr⟩ := Option.ne_none_iff_exists'.mp hread.1
    have hreturned : returned c.read = r := by rw [hr]; rfl
    rcases callLoop_cons_iff.mp hrun with ⟨hexit, rfl⟩ | ⟨hnext, hrest⟩
    · obtain ⟨n, hn, hacc, hshort⟩ := sendBody_exit hexit
      obtain ⟨hnr, -, hrlen, hblock, -⟩ := hpossible.1.sends hr hn
      rw [hreturned, Int.ofNat_lt] at hshort
      refine ⟨s.rest.take n, by rw [hacc, hblock], by simp, ?_⟩
      rw [List.take_eq_self_iff]
      constructor
      · intro hle
        refine ⟨⟨r, hr, ?_, fun _ => by omega⟩, fun hne => ?_⟩
        · rw [hn, show n = r by omega]
        · rw [hexit] at hne
          cases hne
      · rintro ⟨⟨q, hq, hsend, hend⟩, -⟩
        obtain rfl : r = q := Option.some.inj (hr.symm.trans hq)
        obtain rfl : n = r := Option.some.inj (hn.symm.trans hsend)
        exact Nat.le_of_eq (hend hshort).symm
    · obtain ⟨n, hn, hacc, hdropped, hfull⟩ := sendBody_next hnext
      obtain ⟨hnr, hrbuf, hrlen, hblock, hafter⟩ := hpossible.1.sends hr hn
      rw [hreturned, Int.ofNat_lt] at hfull
      obtain ⟨got, hgot, hlen, hiff⟩ := ih (hpossible.2 hnext) (hread.2 hnext) hrest
      rw [hdropped, hafter] at hlen hiff
      rw [List.length_drop] at hlen
      refine ⟨s.rest.take n ++ got, by rw [hgot, hacc, hblock, List.append_assoc], ?_, ?_⟩
      · rw [List.length_append, List.length_take]
        omega
      have hsplit : s.rest.take n ++ got = s.rest ↔ n = r ∧ got = s.rest.drop r := by
        rw [← take_append_eq_iff hnr hrlen (by rwa [List.length_drop]), List.take_append_drop]
      rw [hsplit]
      constructor
      · rintro ⟨rfl, hgot⟩
        exact ⟨⟨n, hr, hn, fun h => absurd h hfull⟩, fun _ => hiff.mp hgot⟩
      · rintro ⟨⟨q, hq, hsend, -⟩, hmore⟩
        obtain rfl : r = q := Option.some.inj (hr.symm.trans hq)
        obtain rfl : n = r := Option.some.inj (hn.symm.trans hsend)
        exact ⟨rfl, hiff.mpr (hmore hnext)⟩

/-! ### A failed read -/

/-- What the sends of full blocks accept. -/
def pieces : List UInt8 → List Nat → List UInt8
  | _, [] => []
  | rest, m :: counts => rest.take m ++ pieces (rest.drop BUFFSIZE) counts

/-- One full read changes the buffer for the blocks that follow it. -/
theorem leftOver_drop {rest : List UInt8} (stack : Nat → UInt8) {k : Nat}
    (hlen : BUFFSIZE * (k + 1) ≤ rest.length) :
    leftOver (rest.drop BUFFSIZE) (writeBlock stack 0 (rest.take BUFFSIZE)) k =
      leftOver rest stack (k + 1) := by
  cases k with
  | zero => rw [leftOver, leftOver, Nat.mul_zero, List.drop_zero]
  | succ k =>
    rw [leftOver, leftOver, List.drop_drop, Nat.mul_succ, Nat.add_comm (BUFFSIZE * k)]
    apply writeBlock_over
    rw [List.length_take, List.length_take, List.length_drop]
    rw [Nat.mul_succ, Nat.mul_succ] at hlen
    omega

/-- The full reads and the sends before a failed read, one by one. -/
theorem sendLoop_pieces {counts : List Nat} {n : Nat} {later : List SendCalls}
    (hpossible : Along sendBody PossibleSend s (failedRead counts n later))
    (hrun : callLoop sendBody s (failedRead counts n later) = some (1, s')) :
    (∀ m ∈ counts, m ≤ BUFFSIZE) ∧ BUFFSIZE * counts.length ≤ s.rest.length ∧
      s'.accepted = s.accepted ++ (pieces s.rest counts ++
        readBlock (leftOver s.rest s.dataToSend counts.length) 0 n) := by
  induction counts generalizing s with
  | nil =>
    have hfail : (sendBody s ⟨none, some n⟩).2 = some 1 := sendBody_leaves s none n
    obtain rfl : (sendBody s ⟨none, some n⟩).1 = s' :=
      (Prod.mk.inj (Option.some.inj ((callLoop_exit hfail).symm.trans hrun))).2
    exact ⟨by simp, Nat.zero_le _, rfl⟩
  | cons m counts ih =>
    have hnext : (sendBody s ⟨some BUFFSIZE, some m⟩).2 = none :=
      sendBody_leaves s (some BUFFSIZE) m
    have hhead : PossibleSend s ⟨some BUFFSIZE, some m⟩ := hpossible.1
    obtain ⟨hm, -, hlen, hblock, -⟩ := hhead.sends rfl rfl
    obtain ⟨hcounts, hrest, haccepted⟩ :=
      ih (hpossible.2 hnext) ((callLoop_next hnext).symm.trans hrun)
    have hstate : (sendBody s ⟨some BUFFSIZE, some m⟩).1.rest = s.rest.drop BUFFSIZE := rfl
    have hbuffer : (sendBody s ⟨some BUFFSIZE, some m⟩).1.dataToSend =
        writeBlock s.dataToSend 0 (s.rest.take BUFFSIZE) := rfl
    have hhas : (sendBody s ⟨some BUFFSIZE, some m⟩).1.accepted = s.accepted ++ s.rest.take m := by
      rw [← hblock]
      rfl
    rw [hstate, List.length_drop] at hrest
    have hall : BUFFSIZE * (counts.length + 1) ≤ s.rest.length := by
      rw [Nat.mul_succ]
      omega
    refine ⟨List.forall_mem_cons.mpr ⟨hm, hcounts⟩, hall, ?_⟩
    rw [haccepted, hstate, hbuffer, hhas, leftOver_drop s.dataToSend hall, pieces, List.length_cons,
      List.append_assoc, List.append_assoc]

/-- A text begins with the first `m` bytes of another exactly when these are its own. -/
theorem take_append_eq {l t xs : List UInt8} {m : Nat} (hm : m ≤ l.length) :
    l.take m ++ xs = t ↔ t.take m = l.take m ∧ xs = t.drop m := by
  have hlen : (l.take m).length = m := List.length_take_of_le hm
  constructor
  · rintro rfl
    exact ⟨List.take_left' hlen, (List.drop_left' hlen).symm⟩
  · rintro ⟨htake, rfl⟩
    rw [← htake, List.take_append_drop]

/-- The pieces of `rest` and what follows them are `t`. -/
theorem pieces_append_eq_iff {counts : List Nat} {rest t last : List UInt8}
    (hcounts : ∀ m ∈ counts, m ≤ BUFFSIZE) (hlen : BUFFSIZE * counts.length ≤ rest.length) :
    pieces rest counts ++ last = t ↔
      (∀ i m, counts[i]? = some m →
        (t.drop (counts.take i).sum).take m = (rest.drop (BUFFSIZE * i)).take m) ∧
      t.drop counts.sum = last := by
  induction counts generalizing rest t with
  | nil => simp [pieces, eq_comm]
  | cons m counts ih =>
    obtain ⟨hm, hcounts⟩ := List.forall_mem_cons.mp hcounts
    rw [List.length_cons, Nat.mul_succ] at hlen
    rw [pieces, List.append_assoc, take_append_eq (by omega),
      ih (t := t.drop m) hcounts (by rw [List.length_drop]; omega)]
    simp only [List.drop_drop, List.sum_cons]
    constructor
    · rintro ⟨hfirst, hblocks, hlast⟩
      refine ⟨fun i => ?_, hlast⟩
      cases i with
      | zero =>
        intro m' hm'
        cases hm'
        simpa using hfirst
      | succ i =>
        intro m' hm'
        rw [List.take_succ_cons, List.sum_cons, Nat.mul_succ, Nat.add_comm (BUFFSIZE * i)]
        exact hblocks i m' hm'
    · rintro ⟨hblocks, hlast⟩
      refine ⟨?_, fun i m' hm' => ?_, hlast⟩
      · simpa using hblocks 0 m rfl
      · have hblock := hblocks (i + 1) m' hm'
        rwa [List.take_succ_cons, List.sum_cons, Nat.mul_succ, Nat.add_comm (BUFFSIZE * i)] at hblock

/-- With a failed read everything is accepted only when the file repeats itself. -/
theorem sendLoop_failed_iff {stack : Nat → UInt8} {counts : List Nat} {n : Nat}
    {later : List SendCalls}
    (hpossible : Along sendBody PossibleSend (Sender.start stack content)
      (failedRead counts n later))
    (hrun : callLoop sendBody (Sender.start stack content) (failedRead counts n later) =
      some (1, s')) :
    s'.accepted = content ↔ Repeats content stack counts n := by
  obtain ⟨hcounts, hlen, haccepted⟩ := sendLoop_pieces hpossible hrun
  have hstart : s'.accepted =
      pieces content counts ++ readBlock (leftOver content stack counts.length) 0 n := haccepted
  have hfull : BUFFSIZE * counts.length ≤ content.length := hlen
  rw [hstart, pieces_append_eq_iff hcounts hfull]
  exact ⟨fun h => ⟨h.1, h.2⟩, fun h => ⟨h.blocks, h.last⟩⟩

/-- The only byte of the file was in the buffer before. -/
example : Repeats [65] (fun _ => 65) [] 1 := ⟨by simp, rfl⟩

end

/-! ## Receiving -/

/-- Results that the calls of an iteration can have: a receive returns at most what has
arrived and what the buffer holds, a write stores at most what it is given. -/
def PossibleReceive (s : Receiver) (c : RecvCalls) : Prop :=
  ∀ n, c.recv = some n → n ≤ BUFFSIZE ∧ n ≤ s.stream.length ∧ ∀ w, c.write = some w → w ≤ n

/-- The write stores all that was received. -/
def StoresAll (_ : Receiver) (c : RecvCalls) : Prop :=
  ∀ n, c.recv = some n → n ≠ 0 → c.write = some n

section

variable {s s' : Receiver} {c : RecvCalls} {cs : List RecvCalls} {file : List UInt8}

/-- An iteration after which `recieveFile` returns `1` or goes on: `n` bytes have been
received, of which `w` have been stored. -/
theorem recieveBody_stores (hpossible : PossibleReceive s c) (hfile : s.file = some file)
    (h : (recieveBody s c).2 ≠ some (-1)) :
    ∃ n w, c.recv = some n ∧ c.write.getD 0 = w ∧ w ≤ n ∧ n ≤ s.stream.length ∧
      (recieveBody s c).1.stream = s.stream.drop n ∧
      (recieveBody s c).1.file = some (file ++ s.stream.take w) ∧
      (w = n ↔ StoresAll s c) := by
  obtain ⟨crecv, cwrite⟩ := c
  cases crecv with
  | none => exact absurd rfl h
  | some n =>
    obtain ⟨-, hlen, hwrite⟩ := hpossible n rfl
    by_cases hzero : n = 0
    · -- the end of the stream: nothing is stored, nothing has to be
      subst hzero
      rw [recieveBody_zero]
      refine ⟨0, 0, rfl, ?_, Nat.le_refl 0, hlen, rfl, ?_, fun _ n hn hne => ?_, fun _ => rfl⟩
      · cases cwrite with
        | none => rfl
        | some w => exact Nat.le_zero.mp (hwrite w rfl)
      · simpa using hfile
      · cases hn
        exact absurd rfl hne
    · have hstores : StoresAll s ⟨some n, cwrite⟩ ↔ cwrite = some n := by
        refine ⟨fun hall => hall n rfl hzero, fun hall m hm _ => ?_⟩
        cases hm
        exact hall
      rw [hstores, recieveBody_pos s hzero]
      cases cwrite with
      | none =>
        refine ⟨n, 0, rfl, rfl, Nat.zero_le n, hlen, rfl, ?_, ?_⟩
        · simpa using hfile
        · simp [Ne.symm hzero]
      | some w =>
        have hle := hwrite w rfl
        have htake : w ≤ (s.stream.take n).length := by
          rw [List.length_take_of_le hlen]
          exact hle
        refine ⟨n, w, rfl, rfl, hle, hlen, rfl, ?_, by rw [Option.some.injEq]⟩
        simp only [Receiver.write, Receiver.recv]
        rw [hfile, Option.map_some, readBlock_writeBlock_take _ _ htake, List.take_take,
          Nat.min_eq_left hle]

/-- What the file holds at the end and what is left of the stream are together the stream
exactly when each write has stored all that was received. -/
theorem recieveLoop_iff (hpossible : Along recieveBody PossibleReceive s cs)
    (hfile : s.file = some file) (hrun : callLoop recieveBody s cs = some (1, s')) :
    ∃ got received, s'.file = some (file ++ got) ∧ s.stream = received ++ s'.stream ∧
      got.length ≤ received.length ∧ (got = received ↔ Along recieveBody StoresAll s cs) := by
  induction cs generalizing s file with
  | nil => cases hrun
  | cons c cs ih =>
    rcases callLoop_cons_iff.mp hrun with ⟨hexit, rfl⟩ | ⟨hnext, hrest⟩
    · obtain ⟨n, w, hn, -, hw, hlen, hstream, hfile', hiff⟩ :=
        recieveBody_stores hpossible.1 hfile (by rw [hexit]; decide)
      refine ⟨s.stream.take w, s.stream.take n, hfile', ?_, ?_, ?_⟩
      · rw [hstream, List.take_append_drop]
      · rw [List.length_take, List.length_take]
        omega
      · have hwn : s.stream.take w = s.stream.take n ↔ w = n := by
          refine ⟨fun h => ?_, fun h => by rw [h]⟩
          have hlength := congrArg List.length h
          rw [List.length_take, List.length_take] at hlength
          omega
        rw [hwn, hiff]
        refine ⟨fun h => ⟨h, fun hne => ?_⟩, fun h => h.1⟩
        rw [hexit] at hne
        cases hne
    · obtain ⟨n, w, hn, -, hw, hlen, hstream, hfile', hiff⟩ :=
        recieveBody_stores hpossible.1 hfile (by rw [hnext]; simp)
      obtain ⟨got, received, hgot, hreceived, hle, hiff'⟩ := ih (hpossible.2 hnext) hfile' hrest
      refine ⟨s.stream.take w ++ got, s.stream.take n ++ received, ?_, ?_, ?_, ?_⟩
      · rw [hgot, List.append_assoc]
      · rw [List.append_assoc, ← hreceived, hstream, List.take_append_drop]
      · rw [List.length_append, List.length_append, List.length_take, List.length_take]
        omega
      · rw [take_append_eq_iff hw hlen hle]
        constructor
        · rintro ⟨hwn, hgot⟩
          exact ⟨hiff.mp hwn, fun _ => hiff'.mp hgot⟩
        · rintro ⟨hstores, hmore⟩
          exact ⟨hiff.mpr hstores, hiff'.mpr (hmore hnext)⟩

end

/-- What a loop of `recieveFile` with these results of its calls stores of a stream. -/
def stored : List UInt8 → List RecvCalls → List UInt8
  | _, [] => []
  | stream, c :: cs =>
    match c.recv with
    | none => []
    | some n =>
      stream.take (c.write.getD 0) ++ if n < BUFFSIZE then [] else stored (stream.drop n) cs

section

variable {s s' : Receiver} {c : RecvCalls} {cs : List RecvCalls} {file : List UInt8} {r : Int}

theorem stored_cons (stream : List UInt8) {n : Nat} (h : c.recv = some n) :
    stored stream (c :: cs) = stream.take (c.write.getD 0) ++
      if n < BUFFSIZE then [] else stored (stream.drop n) cs := by
  rw [stored, h]

theorem stored_failed (stream : List UInt8) (h : c.recv = none) : stored stream (c :: cs) = [] := by
  rw [stored, h]

/-- However the loop is left, the file holds what has been stored. -/
theorem recieveLoop_stored (hpossible : Along recieveBody PossibleReceive s cs)
    (hfile : s.file = some file) (hrun : callLoop recieveBody s cs = some (r, s')) :
    s'.file = some (file ++ stored s.stream cs) := by
  induction cs generalizing s file with
  | nil => cases hrun
  | cons c cs ih =>
    cases hrecv : c.recv with
    | none =>
      have hfail : recieveBody s c = ({ s with
          totalReceivedBytes := wrap32 (s.totalReceivedBytes + -1) }, some (-1)) := by
        rw [recieveBody, hrecv]
        rfl
      rw [callLoop_exit (r := -1) (by rw [hfail])] at hrun
      cases hrun
      rw [hfail, stored_failed _ hrecv, List.append_nil]
      exact hfile
    | some n =>
      have hleaves := recieveBody_leaves s hrecv
      obtain ⟨m, w, hm, hw, -, -, hstream, hfile', -⟩ := recieveBody_stores hpossible.1 hfile
        (by rw [hleaves]; split <;> simp)
      obtain rfl : n = m := Option.some.inj (hrecv.symm.trans hm)
      rw [stored_cons _ hrecv, hw]
      by_cases hshort : n < BUFFSIZE
      · rw [if_pos hshort] at hleaves
        rw [callLoop_exit hleaves] at hrun
        cases hrun
        rw [hfile', if_pos hshort, List.append_nil]
      · rw [if_neg hshort] at hleaves
        rw [callLoop_next hleaves] at hrun
        rw [ih (hpossible.2 hleaves) hfile' hrun, hstream, if_neg hshort, List.append_assoc]

end

/-! ## Both sides -/

/-- **When success means complete.** Let `sendFile` have returned `1`. Without a failed read the
socket has accepted all bytes of the file exactly when each send accepted all that was read and
the reads reached the end of the file. Otherwise the failed read was the last one, behind full
ones, and the socket has accepted all bytes exactly when the file repeats itself where the sends
have fallen short and where the buffer was sent again. When `recieveFile` has returned `1`, the
file holds all bytes received exactly when each write stored all that it was given. -/
theorem success_complete_iff (name : Option String) (stack : Nat → UInt8) (content : List UInt8)
    (sends : List SendCalls) (opened : Bool) (prior : Option (List UInt8)) (stream : List UInt8)
    (recvs : List RecvCalls) :
    (∀ sent, Along sendBody PossibleSend (Sender.start stack content) sends →
      sendFile name (some content) stack sends = some (1, sent) →
        (Along sendBody (fun _ c => c.read ≠ none) (Sender.start stack content) sends ∧
          (sent.accepted = content ↔
            Along sendBody SendsAll (Sender.start stack content) sends)) ∨
        ∃ counts n later, sends = failedRead counts n later ∧
          (sent.accepted = content ↔ Repeats content stack counts n)) ∧
    (∀ got, Along recieveBody PossibleReceive (Receiver.start stack stream (some [])) recvs →
      recieveFile name opened prior stack stream recvs = some (1, got) →
        ((∃ file, got.file = some file ∧ file ++ got.stream = stream) ↔
          Along recieveBody StoresAll (Receiver.start stack stream (some [])) recvs)) := by
  refine ⟨?_, ?_⟩
  · intro sent hpossible hrun
    cases name with
    | none => cases hrun
    | some name =>
      rcases sendLoop_reads hpossible hrun with hreads | ⟨counts, n, later, rfl⟩
      · left
        obtain ⟨got, hgot, -, hiff⟩ := sendLoop_all_iff hpossible hreads hrun
        refine ⟨hreads, ?_⟩
        rw [← hiff, hgot]
        exact Iff.rfl
      · exact Or.inr ⟨counts, n, later, rfl, sendLoop_failed_iff hpossible hrun⟩
  · intro got hpossible hrun
    cases name with
    | none => cases hrun
    | some name =>
      cases opened with
      | false => cases hrun
      | true =>
        obtain ⟨stored, received, hfile, hstream, -, hiff⟩ := recieveLoop_iff hpossible rfl hrun
        rw [List.nil_append] at hfile
        change stream = received ++ got.stream at hstream
        rw [← hiff, hfile, hstream]
        constructor
        · rintro ⟨file, hsame, happend⟩
          cases hsame
          exact List.append_cancel_right happend
        · rintro rfl
          exact ⟨stored, rfl, rfl⟩

/-- Two bytes are read and one is sent, two are received and one is stored: both sides
return `1`. -/
theorem success_incomplete :
    ¬ (∀ content stack calls sent,
        Along sendBody PossibleSend (Sender.start stack content) calls →
        sendFile (some "") (some content) stack calls = some (1, sent) → sent.accepted = content) ∧
      ¬ (∀ stack stream calls got,
        Along recieveBody PossibleReceive (Receiver.start stack stream (some [])) calls →
        recieveFile (some "") true none stack stream calls = some (1, got) →
          ∃ file, got.file = some file ∧ file ++ got.stream = stream) := by
  let stack : Nat → UInt8 := fun _ => 0
  refine ⟨fun hall => ?_, fun hall => ?_⟩
  · have hpossible : PossibleSend (Sender.start stack [65, 66]) ⟨some 2, some 1⟩ := by
      refine ⟨fun r hr => ?_, fun n hn => ?_⟩
      · cases hr
        decide
      · cases hn
        decide
    have hshort := hall [65, 66] stack [⟨some 2, some 1⟩] _ ⟨hpossible, fun _ => trivial⟩ rfl
    revert hshort
    decide
  · have hpossible : PossibleReceive (Receiver.start stack [65, 66] (some [])) ⟨some 2, some 1⟩ := by
      intro n hn
      cases hn
      refine ⟨by decide, by decide, fun w hw => ?_⟩
      cases hw
      decide
    obtain ⟨file, hfile, happend⟩ :=
      hall stack [65, 66] [⟨some 2, some 1⟩] _ ⟨hpossible, fun _ => trivial⟩ rfl
    cases hfile
    revert happend
    decide

end Spolks.Lab3
