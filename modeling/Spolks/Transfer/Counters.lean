import Spolks.Transfer.Agreement

/-!
# `lab3/netsender.c`: the byte counters

Both loops add up the bytes in an `int` and print it when they are done. With no call
failing or falling short, the counter is the number of bytes modulo `2 ^ 32`.

* `sendBody_counts`, `recieveBody_counts`: what an iteration adds.
* `counters_iff`: the counters are right for fewer than `2 ^ 31` bytes only.
-/

namespace Spolks.Transfer

open Lib

/-! ## The wrapped sum -/

theorem wrap32_add (x y : Int) : wrap32 (wrap32 x + y) = wrap32 (x + y) := Int.bmod_add_bmod

/-- A number of bytes survives in an `int` exactly when it fits. -/
theorem wrap32_eq_iff {n : Nat} : wrap32 n = n ↔ n ≤ 2147483647 := by
  constructor
  · intro h
    have hlt : wrap32 n < (4294967296 + 1) / 2 := Int.bmod_lt (by decide)
    omega
  · intro h
    exact Int.bmod_eq_of_le (by omega) (by omega)

/-! ## Receiving -/

/-- The counter and the file of a receiver that has stored all it has received. -/
def Receiver.Counts (s : Receiver) (file : List UInt8) : Prop :=
  s.file = some file ∧ s.totalReceivedBytes = wrap32 file.length

/-- An iteration in which `n` bytes are received and as many stored. -/
theorem recieveBody_counts {s : Receiver} {file : List UInt8} (h : s.Counts file) (n : Nat) :
    ∃ file', (recieveBody s ⟨some n, some n⟩).1.Counts file' := by
  obtain ⟨hfile, htotal⟩ := h
  by_cases hzero : n = 0
  · subst hzero
    rw [recieveBody_zero]
    refine ⟨file, hfile, ?_⟩
    show wrap32 s.totalReceivedBytes = _
    rw [htotal]
    have hadd := wrap32_add file.length 0
    rwa [Int.add_zero, Int.add_zero] at hadd
  · rw [recieveBody_pos s hzero]
    refine ⟨file ++ readBlock (s.recv (some n)).recievedData 0 n, ?_, ?_⟩
    · simp only [Receiver.write, Receiver.recv, hfile, Option.map_some]
    · show wrap32 (s.totalReceivedBytes + n) = _
      rw [htotal, wrap32_add, List.length_append, readBlock_length, Int.natCast_add]

/-- Chunks that are received as they come and stored. -/
theorem recieveLoop_counts {calls : List RecvCalls} {s s' : Receiver} {file : List UInt8} {r : Int}
    (hcalls : ∀ c ∈ calls, ∃ n, c = ⟨some n, some n⟩) (h : s.Counts file)
    (hrun : callLoop recieveBody s calls = some (r, s')) : ∃ file', s'.Counts file' := by
  induction calls generalizing s file with
  | nil => cases hrun
  | cons c cs ih =>
    obtain ⟨n, rfl⟩ := hcalls c List.mem_cons_self
    obtain ⟨file₁, h₁⟩ := recieveBody_counts h n
    rcases callLoop_cons_iff.mp hrun with ⟨-, rfl⟩ | ⟨-, hrest⟩
    · exact ⟨file₁, h₁⟩
    · exact ih (fun d hd => hcalls d (List.mem_cons_of_mem _ hd)) h₁ hrest

theorem recvCalls_stored (chunks : List (List UInt8)) :
    ∀ c ∈ recvCalls chunks, ∃ n, c = ⟨some n, some n⟩ := by
  intro c hc
  rcases List.mem_append.mp hc with hchunk | hend
  · obtain ⟨d, -, rfl⟩ := List.mem_map.mp hchunk
    exact ⟨d.length, rfl⟩
  · exact ⟨0, List.mem_singleton.mp hend⟩

end Spolks.Transfer

namespace Spolks.Lab3

open Lib Transfer

/-! ## Sending -/

theorem sendBody_totalSentBytes (s : Sender) (c : SendCalls) :
    (sendBody s c).1.totalSentBytes = wrap32 (s.totalSentBytes + returned c.send) := rfl

theorem sendBody_accepted (s : Sender) (r : Option Nat) (n : Nat) :
    (sendBody s ⟨r, some n⟩).1.accepted =
      s.accepted ++ readBlock (s.toOutgoing.read r).dataToSend 0 n := by
  cases r with
  | none => rfl
  | some m => rfl

/-- The counter of a sender and the bytes that the socket has accepted. -/
def Sender.Counts (s : Sender) : Prop := s.totalSentBytes = wrap32 s.accepted.length

/-- An iteration in which all the bytes read are sent. -/
theorem sendBody_counts {s : Sender} {c : SendCalls} (hc : CleanCalls s c) (h : s.Counts) :
    (sendBody s c).1.Counts := by
  obtain ⟨r, w⟩ := c
  obtain ⟨hread, hsend⟩ := hc
  simp only at hread hsend
  subst hsend hread
  unfold Sender.Counts at *
  rw [sendBody_totalSentBytes, sendBody_accepted, h, List.length_append, readBlock_length,
    Int.natCast_add, wrap32_add]
  rfl

/-- At the end the counter of a sender is the wrapped length of the file. -/
theorem sendFile_counts {content : List UInt8} {stack : Nat → UInt8} {calls : List SendCalls}
    {r : Int} {sent : Sender}
    (hG : Along sendBody CleanCalls (Sender.start stack content) calls)
    (hrun : callLoop sendBody (Sender.start stack content) calls = some (r, sent)) :
    sent.totalSentBytes = wrap32 content.length := by
  have hstart : (Sender.start stack content).Counts :=
    (wrap32_eq_iff.mpr (Nat.zero_le 2147483647)).symm
  have hcount : sent.Counts :=
    callLoop_rule (I := Sender.Counts) (Q := fun _ s => s.Counts)
      (fun _ _ hI hc _ => sendBody_counts hc hI) (fun _ _ _ hI hc _ => sendBody_counts hc hI)
      hstart hG hrun
  have hsent : sent.accepted = content := sendBody_clean.sent hG hrun
  rw [hcount, hsent]

/-! ## Both counters -/

/-- When `sendFile` has returned `1`, no call having failed or fallen short, its counter is the
length of the file. -/
def CountsSent (content : List UInt8) : Prop :=
  ∀ name stack calls sent, Along sendBody CleanCalls (Sender.start stack content) calls →
    sendFile name (some content) stack calls = some (1, sent) →
      sent.totalSentBytes = content.length

/-- When `recieveFile` has returned `1`, the stream having arrived in these chunks, its counter
is the number of bytes in the file. -/
def CountsReceived {stream : List UInt8} (seg : Segmentation BUFFSIZE stream) : Prop :=
  ∀ name opened prior stack got file,
    recieveFile name opened prior stack stream (recvCalls seg.chunks) = some (1, got) →
      got.file = some file → got.totalReceivedBytes = file.length

theorem countsSent_iff (content : List UInt8) :
    CountsSent content ↔ content.length ≤ 2147483647 := by
  rw [← wrap32_eq_iff]
  constructor
  · intro hcounts
    obtain ⟨calls, sent, hG, hrun⟩ := sendBody_clean.terminates (Sender.start (fun _ => 0) content)
    rw [← sendFile_counts hG hrun]
    exact hcounts (some "") (fun _ => 0) calls sent hG hrun
  · intro hfits name stack calls sent hG hrun
    cases name with
    | none => cases hrun
    | some name => exact (sendFile_counts hG hrun).trans hfits

/-- A receiver that has returned `1` has stored the chunks up to the first short one, and its
counter is their wrapped length. -/
theorem recieveFile_counts {stream : List UInt8} (seg : Segmentation BUFFSIZE stream)
    (stack : Nat → UInt8) :
    ∃ got, callLoop recieveBody (Receiver.start stack stream (some [])) (recvCalls seg.chunks) =
        some (1, got) ∧ got.Counts (uptoShort BUFFSIZE seg.chunks).flatten := by
  have hstart : (Receiver.start stack stream (some [])).Counts [] := ⟨rfl, rfl⟩
  obtain ⟨got, hrun, hgot⟩ := recieveBody_chunks seg.ne_nil seg.flatten_eq.symm hstart.1
  obtain ⟨file, hfile, htotal⟩ := recieveLoop_counts (recvCalls_stored seg.chunks) hstart hrun
  obtain rfl := Option.some.inj (hgot.symm.trans hfile)
  exact ⟨got, hrun, hfile, htotal⟩

theorem countsReceived_iff {stream : List UInt8} (seg : Segmentation BUFFSIZE stream) :
    CountsReceived seg ↔ (uptoShort BUFFSIZE seg.chunks).flatten.length ≤ 2147483647 := by
  rw [← wrap32_eq_iff]
  constructor
  · intro hcounts
    obtain ⟨got, hrun, hfile, htotal⟩ := recieveFile_counts seg fun _ => 0
    rw [← htotal]
    exact hcounts (some "") true none (fun _ => 0) got _ hrun hfile
  · intro hfits name opened prior stack got file hrun hfile
    obtain ⟨got', hrun', hfile', htotal⟩ := recieveFile_counts seg stack
    cases name with
    | none => cases hrun
    | some name =>
      cases opened with
      | false => cases hrun
      | true =>
        obtain rfl : got = got' := by
          rw [recieveFile, if_pos rfl, hrun'] at hrun
          cases hrun
          rfl
        obtain rfl := Option.some.inj (hfile.symm.trans hfile')
        rw [htotal, hfits]

/-- **When the counters are right.** The counter of the sender is the length of the file, and
that of the receiver the number of bytes it has stored, exactly when these fit into an
`int`. -/
theorem counters_iff (content : List UInt8) (seg : Segmentation BUFFSIZE content) :
    (CountsSent content ↔ content.length ≤ 2147483647) ∧
      (CountsReceived seg ↔ (uptoShort BUFFSIZE seg.chunks).flatten.length ≤ 2147483647) :=
  ⟨countsSent_iff content, countsReceived_iff seg⟩

/-! ## A file of two gigabytes -/

/-- For `2 ^ 31` bytes both counters end at the least `int`. -/
theorem wrapped_counters {content : List UInt8} (hlen : content.length = 2147483648) :
    (∃ calls sent, Along sendBody CleanCalls (Sender.start (fun _ => 0) content) calls ∧
      sendFile (some "big") (some content) (fun _ => 0) calls = some (1, sent) ∧
      sent.totalSentBytes = -2147483648) ∧
    ∃ (seg : Segmentation BUFFSIZE content) (got : Receiver),
      recieveFile (some "big") true none (fun _ => 0) content (recvCalls seg.chunks) =
        some (1, got) ∧ got.file = some content ∧ got.totalReceivedBytes = -2147483648 := by
  have hwrap : wrap32 content.length = -2147483648 := by
    rw [hlen]
    rfl
  constructor
  · obtain ⟨calls, sent, hG, hrun⟩ := sendBody_clean.terminates (Sender.start (fun _ => 0) content)
    exact ⟨calls, sent, hG, hrun, (sendFile_counts hG hrun).trans hwrap⟩
  · obtain ⟨seg, hfull⟩ := Segmentation.exists_full (show 0 < BUFFSIZE by decide) content
    obtain ⟨got, hrun, hfile, htotal⟩ := recieveFile_counts seg fun _ => 0
    rw [(flatten_uptoShort_eq_iff seg).mpr hfull] at hfile htotal
    exact ⟨seg, got, hrun, hfile, htotal.trans hwrap⟩

def bigFile : List UInt8 := List.replicate 2147483648 0

theorem counters_wrap :
    ((∃ calls sent, Along sendBody CleanCalls (Sender.start (fun _ => 0) bigFile) calls ∧
        sendFile (some "big") (some bigFile) (fun _ => 0) calls = some (1, sent) ∧
        sent.totalSentBytes = -2147483648) ∧
      ∃ (seg : Segmentation BUFFSIZE bigFile) (got : Receiver),
        recieveFile (some "big") true none (fun _ => 0) bigFile (recvCalls seg.chunks) =
          some (1, got) ∧ got.file = some bigFile ∧ got.totalReceivedBytes = -2147483648) ∧
    ¬ ∀ (content : List UInt8) (seg : Segmentation BUFFSIZE content),
      CountsSent content ∧ CountsReceived seg := by
  have hlen : bigFile.length = 2147483648 := List.length_replicate
  refine ⟨wrapped_counters hlen, fun hall => ?_⟩
  obtain ⟨seg, -⟩ := Segmentation.exists_full (show 0 < BUFFSIZE by decide) bigFile
  have hle := (countsSent_iff bigFile).mp (hall bigFile seg).1
  omega

end Spolks.Lab3
