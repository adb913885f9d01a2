import Spolks.Lib.Chunks
import Spolks.Transfer.NetSender

/-!
# Does the receiver get the sender's file?

The sender sends every byte of the file, and `recieveFile` stops at the first chunk of
fewer than `BUFFSIZE` bytes. The chunks are cut by TCP (`Lib.Segmentation`).

* `recieveBody_chunks`: what is received is the chunks up to the first short one.
* `transfer_iff`: with no call failing, the received file is the sent one exactly when
  every chunk but the last is full.
-/

namespace Spolks.Transfer

open Lib

/-! ## Receiving -/

/-- The results of the calls while the stream arrives in these chunks and every byte is
stored: the chunks in turn, and `0` at the end of the stream. -/
def recvCalls (chunks : List (List UInt8)) : List RecvCalls :=
  chunks.map (fun c => ⟨some c.length, some c.length⟩) ++ [⟨some 0, some 0⟩]

/-- One chunk is appended to the file. -/
theorem recieveBody_chunk {s : Receiver} {c rest file : List UInt8} (hc : c ≠ [])
    (hstream : s.stream = c ++ rest) (hfile : s.file = some file) :
    (recieveBody s ⟨some c.length, some c.length⟩).1.stream = rest ∧
      (recieveBody s ⟨some c.length, some c.length⟩).1.file = some (file ++ c) ∧
      (recieveBody s ⟨some c.length, some c.length⟩).2 =
        if c.length < BUFFSIZE then some 1 else none := by
  have hpos : c.length ≠ 0 := fun h => hc (List.eq_nil_of_length_eq_zero h)
  rw [recieveBody_pos s hpos]
  simp only [Receiver.recv, Receiver.write, hstream, hfile, List.take_left', List.drop_left',
    Option.map_some, readBlock_writeBlock, and_self]

/-- The loop receives the chunks up to the first one that does not fill the buffer. -/
theorem recieveBody_chunks {chunks : List (List UInt8)} (hne : ∀ c ∈ chunks, c ≠ [])
    {s : Receiver} {file : List UInt8} (hstream : s.stream = chunks.flatten)
    (hfile : s.file = some file) :
    ∃ s', callLoop recieveBody s (recvCalls chunks) = some (1, s') ∧
      s'.file = some (file ++ (uptoShort BUFFSIZE chunks).flatten) := by
  induction chunks generalizing s file with
  | nil =>
    refine ⟨_, callLoop_exit (by rw [recieveBody_zero]), ?_⟩
    rw [recieveBody_zero]
    simpa [uptoShort] using hfile
  | cons c cs ih =>
    have hc : c ≠ [] := hne c (List.mem_cons_self ..)
    obtain ⟨hstream', hfile', hexit⟩ := recieveBody_chunk hc hstream hfile
    by_cases hshort : c.length < BUFFSIZE
    · rw [if_pos hshort] at hexit
      refine ⟨_, callLoop_exit hexit, ?_⟩
      rw [hfile', uptoShort_cons_of_lt hshort]
      simp
    · rw [if_neg hshort] at hexit
      obtain ⟨s', hrun, hs'⟩ := ih (fun d hd => hne d (List.mem_cons_of_mem c hd)) hstream' hfile'
      refine ⟨s', (callLoop_next hexit).trans hrun, ?_⟩
      rw [hs', uptoShort_cons_of_le (by omega)]
      simp

/-- What is in the file when the loop has received the stream. -/
theorem received_iff {content file : List UInt8} (seg : Segmentation BUFFSIZE content)
    (stack : Nat → UInt8) :
    (∃ got, callLoop recieveBody (Receiver.start stack content (some [])) (recvCalls seg.chunks) =
        some (1, got) ∧ got.file = some file) ↔
      file = (uptoShort BUFFSIZE seg.chunks).flatten := by
  have hstart : (Receiver.start stack content (some [])).file = some [] := rfl
  obtain ⟨got, hrun, hgot⟩ := recieveBody_chunks seg.ne_nil seg.flatten_eq.symm hstart
  rw [List.nil_append] at hgot
  constructor
  · rintro ⟨got', hrun', hfile⟩
    rw [hrun] at hrun'
    cases hrun'
    exact Option.some.inj (hfile.symm.trans hgot)
  · rintro rfl
    exact ⟨got, hrun, hgot⟩

/-! ## Sending -/

/-- A full read of a file followed by a full send moves the bytes from the file to the
socket. -/
theorem Outgoing.read_send (o : Outgoing) {n : Nat} (hn : n ≤ o.rest.length) :
    ((o.read (some n)).send (some n)).accepted ++ ((o.read (some n)).send (some n)).rest =
      o.accepted ++ o.rest := by
  have htake : (o.rest.take n).length = n := List.length_take_of_le hn
  have hblock : readBlock (writeBlock o.dataToSend 0 (o.rest.take n)) 0 n = o.rest.take n := by
    have h := readBlock_writeBlock o.dataToSend 0 (o.rest.take n)
    rwa [htake] at h
  simp only [Outgoing.read, Outgoing.send, hblock, List.append_assoc, List.take_append_drop]

/-- The bytes that a read of a regular file returns. -/
def readCount (o : Outgoing) : Nat := min BUFFSIZE o.rest.length

/-- A full read followed by a send of all that was read. -/
def moved (o : Outgoing) : Outgoing := (o.read (some (readCount o))).send (some (readCount o))

theorem moved_accepted (o : Outgoing) :
    (moved o).accepted ++ (moved o).rest = o.accepted ++ o.rest :=
  o.read_send (Nat.min_le_right ..)

theorem moved_rest_length (o : Outgoing) :
    (moved o).rest.length = o.rest.length - readCount o := List.length_drop

/-- A send loop whose calls neither fail nor fall short: each iteration moves a buffer of
bytes, and the loop is left with `done` after the first buffer that is not full. -/
structure CleanLoop {σ ε ρ : Type*} (body : σ → ε → σ × Option ρ) (G : σ → ε → Prop)
    (out : σ → Outgoing) (done : ρ) : Prop where
  moves : ∀ s c, G s c → out (body s c).1 = moved (out s)
  exits : ∀ s c, G s c → (body s c).2 = if readCount (out s) < BUFFSIZE then some done else none
  exists_calls : ∀ s, ∃ c, G s c

namespace CleanLoop

variable {σ ε ρ : Type*} {body : σ → ε → σ × Option ρ} {G : σ → ε → Prop} {out : σ → Outgoing}
  {done : ρ}

/-- When the loop is left, everything has been sent. -/
theorem sent (h : CleanLoop body G out done) {s s' : σ} {cs : List ε} {r : ρ}
    (hG : Along body G s cs) (hrun : callLoop body s cs = some (r, s')) :
    (out s').accepted = (out s).accepted ++ (out s).rest := by
  refine callLoop_rule (I := fun t => (out t).accepted ++ (out t).rest =
      (out s).accepted ++ (out s).rest) (Q := fun _ t => (out t).accepted =
      (out s).accepted ++ (out s).rest) ?_ ?_ rfl hG hrun
  · intro t c hI hc _
    rw [h.moves t c hc, moved_accepted, hI]
  · intro t c r hI hc hexit
    have hshort : readCount (out t) < BUFFSIZE := by
      by_contra hfull
      rw [h.exits t c hc, if_neg hfull] at hexit
      cases hexit
    have hnil : (moved (out t)).rest = [] := by
      apply List.eq_nil_of_length_eq_zero
      rw [moved_rest_length]
      unfold readCount at hshort ⊢
      omega
    have hacc := moved_accepted (out t)
    rw [hnil, List.append_nil] at hacc
    rw [h.moves t c hc, hacc, hI]

/-- The loop is left after finitely many iterations. -/
theorem terminates (h : CleanLoop body G out done) (s : σ) :
    ∃ cs s', Along body G s cs ∧ callLoop body s cs = some (done, s') := by
  induction hn : (out s).rest.length using Nat.strong_induction_on generalizing s with
  | _ n ih =>
    obtain ⟨c, hc⟩ := h.exists_calls s
    have hexit := h.exits s c hc
    by_cases hshort : readCount (out s) < BUFFSIZE
    · rw [if_pos hshort] at hexit
      exact ⟨[c], _, ⟨hc, fun _ => trivial⟩, callLoop_exit hexit⟩
    · rw [if_neg hshort] at hexit
      have hless : (out (body s c).1).rest.length < n := by
        rw [h.moves s c hc, moved_rest_length]
        unfold readCount BUFFSIZE at hshort ⊢
        omega
      obtain ⟨cs, s', hG, hrun⟩ := ih _ hless _ rfl
      exact ⟨c :: cs, s', ⟨hc, fun _ => hG⟩, (callLoop_next hexit).trans hrun⟩

end CleanLoop

end Spolks.Transfer

namespace Spolks.Lab3

open Lib Transfer

/-- No call of the iteration fails or falls short. -/
def CleanCalls (s : Sender) (c : SendCalls) : Prop :=
  c.read = some (readCount s.toOutgoing) ∧ c.send = c.read

theorem sendBody_clean : CleanLoop sendBody CleanCalls Sender.toOutgoing 1 where
  moves := by
    rintro s ⟨cread, csend⟩ ⟨hread, hsend⟩
    simp only at hread hsend
    subst hsend hread
    rfl
  exits := by
    rintro s ⟨cread, csend⟩ ⟨hread, hsend⟩
    simp only at hread hsend
    subst hsend hread
    have hne : ¬ ((readCount s.toOutgoing : Int) = -1) := by omega
    simp only [sendBody, returned, if_neg hne, Int.ofNat_lt]
  exists_calls s := ⟨⟨some (readCount s.toOutgoing), some (readCount s.toOutgoing)⟩, rfl, rfl⟩

/-- With no call failing or falling short, `sendFile` and `recieveFile` have both returned
`1`, the bytes sent reaching the receiver in the chunks of `seg`, and `file` is what the
receiver has stored. -/
def Transferred (content : List UInt8) (seg : Segmentation BUFFSIZE content) (file : List UInt8) :
    Prop :=
  ∃ sName rName sStack rStack prior calls sent got,
    Along sendBody CleanCalls (Sender.start sStack content) calls ∧
    sendFile (some sName) (some content) sStack calls = some (1, sent) ∧
    recieveFile (some rName) true prior rStack sent.accepted (recvCalls seg.chunks) =
      some (1, got) ∧ got.file = some file

theorem transferred_iff {content file : List UInt8} (seg : Segmentation BUFFSIZE content) :
    Transferred content seg file ↔ file = (uptoShort BUFFSIZE seg.chunks).flatten := by
  constructor
  · rintro ⟨_, _, sStack, rStack, _, calls, sent, got, hG, hsend, hrecv, hfile⟩
    have hsent : sent.accepted = content := sendBody_clean.sent hG hsend
    rw [recieveFile, if_pos rfl, hsent] at hrecv
    exact (received_iff seg rStack).mp ⟨got, hrecv, hfile⟩
  · intro hfile
    let stack : Nat → UInt8 := fun _ => 0
    obtain ⟨calls, sent, hG, hrun⟩ := sendBody_clean.terminates (Sender.start stack content)
    have hsent : sent.accepted = content := sendBody_clean.sent hG hrun
    obtain ⟨got, hrecv, hgot⟩ := (received_iff seg stack).mpr hfile
    refine ⟨"", "", stack, stack, none, calls, sent, got, hG, hrun, ?_, hgot⟩
    rw [recieveFile, if_pos rfl, hsent, hrecv]

end Spolks.Lab3

namespace Spolks.Lab4

open Lib Transfer

/-- No call of the iteration fails or falls short. -/
def CleanCalls (s : Sender) (c : SendCalls) : Prop :=
  c.fread = readCount s.toOutgoing ∧ c.send = some c.fread ∧ c.sigpipe = false

theorem sendBody_clean {stSize : Int} (hsize : stSize ≠ 0) :
    CleanLoop (sendBody stSize) CleanCalls Sender.toOutgoing (.returned 1) where
  moves := by
    rintro s ⟨cread, csend, _⟩ ⟨hread, hsend, hurgent⟩
    simp only at hread hsend
    subst hsend hread
    rw [sendBody_returns hsize s hurgent]
    rfl
  exits := by
    rintro s ⟨cread, csend, _⟩ ⟨hread, hsend, hurgent⟩
    simp only at hread hsend
    subst hsend hread
    have hne : ¬ ((readCount s.toOutgoing : Int) = -1) := by omega
    rw [sendBody_returns hsize s hurgent]
    simp only [Transfer.returned, if_neg hne, Int.ofNat_lt]
  exists_calls s :=
    ⟨⟨readCount s.toOutgoing, some (readCount s.toOutgoing), false⟩, rfl, rfl, rfl⟩

/-- The same for lab4, where `stat` reports the length of the file and the urgent bytes do
not reach the receiver's `recv`. -/
def Transferred (content : List UInt8) (seg : Segmentation BUFFSIZE content) (file : List UInt8) :
    Prop :=
  ∃ sName rName sStack rStack prior calls sent got,
    Along (sendBody content.length) CleanCalls (Sender.start sStack content) calls ∧
    sendFile (some sName) (some content) content.length sStack calls = some (.returned 1, sent) ∧
    recieveFile (some rName) true true prior rStack sent.accepted (recvCalls seg.chunks) =
      some (1, got) ∧ got.file = some file

/-- An empty file stops the sender at a division by zero. -/
theorem sendFile_empty (name : String) (stack : Nat → UInt8) (calls : List SendCalls)
    (sent : Sender) (r : Int) :
    sendFile (some name) (some []) 0 stack calls ≠ some (.returned r, sent) := by
  cases calls with
  | nil => exact fun h => by cases h
  | cons c cs => exact fun h => by cases h

theorem transferred_iff {content file : List UInt8} (seg : Segmentation BUFFSIZE content) :
    Transferred content seg file ↔
      content ≠ [] ∧ file = (uptoShort BUFFSIZE seg.chunks).flatten := by
  constructor
  · rintro ⟨_, _, sStack, rStack, _, calls, sent, got, hG, hsend, hrecv, hfile⟩
    have hne : content ≠ [] := by
      rintro rfl
      exact sendFile_empty _ _ _ _ _ hsend
    have hsize : (content.length : Int) ≠ 0 := by
      simpa using hne
    have hsent : sent.accepted = content := (sendBody_clean hsize).sent hG hsend
    rw [recieveFile, if_pos rfl, if_pos rfl, hsent] at hrecv
    exact ⟨hne, (received_iff seg rStack).mp ⟨got, hrecv, hfile⟩⟩
  · rintro ⟨hne, hfile⟩
    have hsize : (content.length : Int) ≠ 0 := by
      simpa using hne
    let stack : Nat → UInt8 := fun _ => 0
    obtain ⟨calls, sent, hG, hrun⟩ := (sendBody_clean hsize).terminates (Sender.start stack content)
    have hsent : sent.accepted = content := (sendBody_clean hsize).sent hG hrun
    obtain ⟨got, hrecv, hgot⟩ := (received_iff seg stack).mpr hfile
    refine ⟨"", "", stack, stack, none, calls, sent, got, hG, hrun, ?_, hgot⟩
    rw [recieveFile, if_pos rfl, if_pos rfl, hsent, hrecv]

end Spolks.Lab4

namespace Spolks.Transfer

open Lib

/-- **When a transfer is complete.** In both labs, the file that the receiver has stored
when both sides have returned `1` is the sent one exactly when every chunk of the stream
but the last fills the buffer. -/
theorem transfer_iff (content : List UInt8) (seg : Segmentation BUFFSIZE content) :
    ((∀ file, Lab3.Transferred content seg file → file = content) ↔ seg.Full) ∧
      ((∀ file, Lab4.Transferred content seg file → file = content) ↔ seg.Full) := by
  have hiff : (∀ file, file = (uptoShort BUFFSIZE seg.chunks).flatten → file = content) ↔
      seg.Full := by
    rw [← flatten_uptoShort_eq_iff seg]
    exact forall_eq
  refine ⟨?_, ?_⟩
  · simp only [Lab3.transferred_iff]
    exact hiff
  · simp only [Lab4.transferred_iff]
    by_cases hne : content = []
    · -- an empty file has no chunks, and lab4 does not send it
      subst hne
      have hnil : seg.chunks = [] := flatten_eq_nil_of_ne_nil seg.ne_nil seg.flatten_eq
      simp [Segmentation.Full, hnil]
    · simpa only [ne_eq, hne, not_false_eq_true, true_and] using hiff

/-! ## Two bytes in two chunks -/

/-- Two bytes that arrive one by one. -/
def twoChunks : Segmentation BUFFSIZE ([65, 66] : List UInt8) where
  chunks := [[65], [66]]
  ne_nil := by decide
  length_le := by decide
  flatten_eq := rfl

/-- Both receivers stop after the first byte, and both sides report success. -/
theorem transfer_incomplete :
    (Lab3.Transferred [65, 66] twoChunks [65] ∧ Lab4.Transferred [65, 66] twoChunks [65]) ∧
      ¬ (∀ file, Lab3.Transferred [65, 66] twoChunks file → file = [65, 66]) ∧
      ¬ (∀ file, Lab4.Transferred [65, 66] twoChunks file → file = [65, 66]) := by
  have h₃ : Lab3.Transferred [65, 66] twoChunks [65] := (Lab3.transferred_iff twoChunks).mpr rfl
  have h₄ : Lab4.Transferred [65, 66] twoChunks [65] :=
    (Lab4.transferred_iff twoChunks).mpr ⟨by decide, rfl⟩
  exact ⟨⟨h₃, h₄⟩, fun h => absurd (h _ h₃) (by decide), fun h => absurd (h _ h₄) (by decide)⟩

end Spolks.Transfer
