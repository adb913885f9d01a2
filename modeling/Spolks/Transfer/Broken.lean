import Spolks.Transfer.Agreement

/-!
# A connection that breaks

The sender stops in the middle of the file, and the receiver gets what was sent by then and
then the end of the stream. To `recieveFile` this looks like the end of the file:
`broken_never` says that at every point at which the sender can stop, it returns `1` with the
part that has arrived.
-/

namespace Spolks.Lab3

open Lib Transfer

/-- No call of the iteration falls short, but the send may fail. -/
def CleanUntilFailure (s : Sender) (c : SendCalls) : Prop :=
  c.read = some (readCount s.toOutgoing) ∧ (c.send = c.read ∨ c.send = none)

/-- The sender stops when `delivered` has been sent: a send fails and `sendFile` returns `-1`,
or the process ends while a send, of which `n` bytes have been accepted, is going on. -/
def Stopped (content delivered : List UInt8) : Prop :=
  (∃ name stack calls sent, Along sendBody CleanUntilFailure (Sender.start stack content) calls ∧
    sendFile (some name) (some content) stack calls = some (-1, sent) ∧
    delivered = sent.accepted) ∨
  ∃ stack calls s n, Along sendBody CleanCalls (Sender.start stack content) calls ∧
    callSteps sendBody (Sender.start stack content) calls = some s ∧
    n ≤ readCount s.toOutgoing ∧
    delivered = ((s.read (some (readCount s.toOutgoing))).send (some n)).accepted

/-- The stream ends after `delivered`, each receive before that fills the buffer while this
much is left, `recieveFile` has returned `1`, and `file` is what it has stored. -/
def Received (delivered file : List UInt8) : Prop :=
  ∃ name stack prior got, ∃ seg : Segmentation BUFFSIZE delivered, seg.Full ∧
    recieveFile (some name) true prior stack delivered (recvCalls seg.chunks) = some (1, got) ∧
    got.file = some file

/-- Whenever `recieveFile` returns `1`, the file it has stored is the sender's. -/
def CutSafe (content delivered : List UInt8) : Prop :=
  ∀ file, Received delivered file → file = content

/-! ## The sender -/

section

variable {s s' : Sender} {c : SendCalls} {cs : List SendCalls}

/-- What has been accepted is what is no longer in the rest of the file. -/
theorem callSteps_accepted (hclean : Along sendBody CleanCalls s cs)
    (hrun : callSteps sendBody s cs = some s') : s'.accepted ++ s'.rest = s.accepted ++ s.rest := by
  induction cs generalizing s with
  | nil =>
    cases hrun
    rfl
  | cons c cs ih =>
    obtain ⟨hnext, hrest⟩ := callSteps_cons_iff.mp hrun
    have hmoved : (sendBody s c).1.toOutgoing = moved s.toOutgoing :=
      sendBody_clean.moves s c hclean.1
    rw [ih (hclean.2 hnext) hrest, hmoved, moved_accepted]

/-- A send that takes `n` of the bytes just read adds the next `n` bytes of the file. -/
theorem accepted_read_send (o : Outgoing) {n : Nat} (hn : n ≤ readCount o) :
    ((o.read (some (readCount o))).send (some n)).accepted = o.accepted ++ o.rest.take n := by
  have hle : readCount o ≤ o.rest.length := Nat.min_le_right ..
  have htake : n ≤ (o.rest.take (readCount o)).length := by
    rw [List.length_take_of_le hle]
    exact hn
  show o.accepted ++ readBlock (writeBlock _ 0 _) 0 n = _
  rw [readBlock_writeBlock_take _ _ htake, List.take_take, Nat.min_eq_left hn]

/-- A loop that a failed send ends leaves the bytes sent before in place. -/
theorem failed_prefix (hclean : Along sendBody CleanUntilFailure s cs)
    (hrun : callLoop sendBody s cs = some (-1, s')) :
    s'.accepted <+: s.accepted ++ s.rest := by
  induction cs generalizing s with
  | nil => cases hrun
  | cons c cs ih =>
    obtain ⟨cread, csend⟩ := c
    obtain ⟨⟨hread, hsend⟩, hrest⟩ := hclean
    simp only at hread hsend
    subst hread
    rcases hsend with rfl | rfl
    · have hcalls : CleanCalls s ⟨some (readCount s.toOutgoing), some (readCount s.toOutgoing)⟩ :=
        ⟨rfl, rfl⟩
      have hmoved := sendBody_clean.moves s _ hcalls
      rcases callLoop_cons_iff.mp hrun with ⟨hexit, -⟩ | ⟨hnext, hmore⟩
      · rw [sendBody_clean.exits s _ hcalls] at hexit
        split at hexit <;> cases hexit
      · have h := ih (hrest hnext) hmore
        rwa [hmoved, moved_accepted] at h
    · cases hrun
      exact List.prefix_append ..

theorem Stopped.isPrefix {content delivered : List UInt8} (h : Stopped content delivered) :
    delivered <+: content := by
  rcases h with ⟨name, stack, calls, sent, hclean, hrun, rfl⟩ |
    ⟨stack, calls, s, n, hclean, hrun, hn, rfl⟩
  · exact failed_prefix hclean hrun
  · have hcontent : s.accepted ++ s.rest = content := callSteps_accepted hclean hrun
    rw [accepted_read_send s.toOutgoing hn, ← hcontent, List.prefix_append_right_inj]
    exact List.take_prefix ..

/-- The sender gets to the end of every full buffer. -/
theorem exists_steps (j : Nat) : ∀ s : Sender, BUFFSIZE * j ≤ s.rest.length →
    ∃ calls s', Along sendBody CleanCalls s calls ∧ callSteps sendBody s calls = some s' ∧
      s'.accepted = s.accepted ++ s.rest.take (BUFFSIZE * j) ∧
      s'.rest = s.rest.drop (BUFFSIZE * j) := by
  induction j with
  | zero => exact fun s _ => ⟨[], s, trivial, rfl, by simp, by simp⟩
  | succ j ih =>
    intro s hlen
    have hsplit : BUFFSIZE * (j + 1) = BUFFSIZE + BUFFSIZE * j := by
      rw [Nat.mul_succ, Nat.add_comm]
    obtain ⟨c, hc⟩ := sendBody_clean.exists_calls s
    have hcount : readCount s.toOutgoing = BUFFSIZE := Nat.min_eq_left (by omega)
    have hmoved : (sendBody s c).1.toOutgoing = moved s.toOutgoing := sendBody_clean.moves s c hc
    have hnext : (sendBody s c).2 = none := by
      rw [sendBody_clean.exits s c hc, hcount, if_neg (Nat.lt_irrefl _)]
    have hrest : (sendBody s c).1.rest = s.rest.drop BUFFSIZE := by
      rw [hmoved, moved, hcount]
      rfl
    have hacc : (sendBody s c).1.accepted = s.accepted ++ s.rest.take BUFFSIZE := by
      rw [hmoved, moved, accepted_read_send _ (Nat.le_refl _), hcount]
    obtain ⟨calls, s', hclean, hrun, hacc', hrest'⟩ :=
      ih (sendBody s c).1 (by rw [hrest, List.length_drop]; omega)
    refine ⟨c :: calls, s', ⟨hc, fun _ => hclean⟩, (callSteps_next hnext).trans hrun, ?_, ?_⟩
    · rw [hacc', hacc, hrest, List.append_assoc, hsplit, List.take_add]
    · rw [hrest', hrest, List.drop_drop, hsplit]

/-- The sender can stop after any number of bytes. -/
theorem exists_stopped {content : List UInt8} {k : Nat} (hk : k < content.length) :
    Stopped content (content.take k) := by
  have hdiv := Nat.div_add_mod k BUFFSIZE
  have hmod : k % BUFFSIZE < BUFFSIZE := Nat.mod_lt k (by decide)
  let start := Sender.start (fun _ => 0) content
  obtain ⟨calls, s, hclean, hrun, hacc, hrest⟩ :=
    exists_steps (k / BUFFSIZE) start (show BUFFSIZE * (k / BUFFSIZE) ≤ content.length by omega)
  change s.accepted = [] ++ content.take (BUFFSIZE * (k / BUFFSIZE)) at hacc
  change s.rest = content.drop (BUFFSIZE * (k / BUFFSIZE)) at hrest
  have hn : k % BUFFSIZE ≤ readCount s.toOutgoing := by
    rw [readCount, hrest, List.length_drop]
    omega
  refine Or.inr ⟨_, calls, s, k % BUFFSIZE, hclean, hrun, hn, ?_⟩
  rw [accepted_read_send _ hn, hacc, hrest, List.nil_append, ← List.take_add, hdiv]

end

/-! ## Both sides -/

/-- The receiver takes what has been delivered for the whole file. -/
theorem received_iff_delivered {delivered file : List UInt8} :
    Received delivered file ↔ file = delivered := by
  constructor
  · rintro ⟨_, stack, _, got, seg, hfull, hrun, hfile⟩
    have h := (Transfer.received_iff seg stack).mp ⟨got, hrun, hfile⟩
    rw [h, (flatten_uptoShort_eq_iff seg).mpr hfull]
  · rintro rfl
    obtain ⟨seg, hfull⟩ := Segmentation.exists_full (n := BUFFSIZE) (by decide) file
    obtain ⟨got, hrun, hfile⟩ := (Transfer.received_iff seg fun _ => 0).mpr
      ((flatten_uptoShort_eq_iff seg).mpr hfull).symm
    exact ⟨"", fun _ => 0, none, got, seg, hfull, hrun, hfile⟩

/-- **A broken connection goes unnoticed.** The sender can stop at every point before the end
of the file; whatever it was that stopped it, the receiver returns `1` and has stored just the
part of the file that was sent by then. -/
theorem broken_never (content : List UInt8) :
    (∀ k < content.length, Stopped content (content.take k)) ∧
      ∀ delivered, Stopped content delivered → delivered.length < content.length →
        delivered <+: content ∧ (∀ file, Received delivered file ↔ file = delivered) ∧
          ¬ CutSafe content delivered := by
  refine ⟨fun k hk => exists_stopped hk, fun delivered hstop hcut => ?_⟩
  refine ⟨hstop.isPrefix, fun file => received_iff_delivered, fun hsafe => ?_⟩
  have hwhole := hsafe delivered (received_iff_delivered.mpr rfl)
  rw [hwhole] at hcut
  exact Nat.lt_irrefl _ hcut

/-- The sender of two bytes stops after the first one. -/
theorem broken_unnoticed :
    (Stopped [65, 66] [65] ∧ Received [65] [65]) ∧
      ¬ (∀ content delivered, Stopped content delivered → delivered.length < content.length →
        CutSafe content delivered) := by
  have hstop : Stopped [65, 66] [65] := @exists_stopped [65, 66] 1 (by decide)
  have hreceived : Received [65] [65] := received_iff_delivered.mpr rfl
  refine ⟨⟨hstop, hreceived⟩, fun hall => ?_⟩
  have hwhole := hall [65, 66] [65] hstop (by decide) [65] hreceived
  cases hwhole

end Spolks.Lab3
