import Mathlib.Algebra.GroupWithZero.Nat
import Spolks.Transfer.Agreement

/-!
# `lab4/netsender.c`: the chunks of a file and their percentages

The loop of `sendFile` reads full buffers and then a rest, which is empty when the file is
a multiple of the buffer. In every iteration it divides by the size of the file, and what
it reports is the share of the chunk and not that of all chunks so far.

* `sendLoop_percents`: the reported values of a run.
* `sendFile_defined_iff`: the loop is defined on all files but the empty one.
* `reportsTotal_iff`: the values are the totals for files of one chunk only.
-/

namespace Spolks.Transfer

open Lib

/-- The lengths of the chunks that the send loop reads from a file of `n` bytes. -/
def chunkLengths (n : Nat) : List Nat := List.replicate (n / BUFFSIZE) BUFFSIZE ++ [n % BUFFSIZE]

variable {n : Nat}

theorem chunkLengths_of_lt (h : n < BUFFSIZE) : chunkLengths n = [n] := by
  rw [chunkLengths, Nat.div_eq_of_lt h, Nat.mod_eq_of_lt h]
  rfl

theorem chunkLengths_of_le (h : BUFFSIZE ≤ n) :
    chunkLengths n = BUFFSIZE :: chunkLengths (n - BUFFSIZE) := by
  have hpos : 0 < BUFFSIZE := by decide
  rw [chunkLengths, Nat.div_eq_sub_div hpos h, Nat.mod_eq_sub_mod h, List.replicate_succ]
  rfl

/-- The last chunk is the rest of a division by the buffer. -/
theorem chunkLengths_getLast? (n : Nat) : (chunkLengths n).getLast? = some (n % BUFFSIZE) :=
  List.getLast?_concat

theorem CleanLoop.leaves {σ ε ρ : Type*} {body : σ → ε → σ × Option ρ} {G : σ → ε → Prop}
    {out : σ → Outgoing} {done : ρ} (h : CleanLoop body G out done) {s : σ} {cs : List ε}
    (hG : Along body G s cs) (hlen : (out s).rest.length / BUFFSIZE < cs.length) :
    ∃ s', callLoop body s cs = some (done, s') := by
  induction cs generalizing s with
  | nil => exact absurd hlen (Nat.not_lt_zero _)
  | cons c cs ih =>
    have hexit := h.exits s c hG.1
    by_cases hshort : readCount (out s) < BUFFSIZE
    · rw [if_pos hshort] at hexit
      exact ⟨_, callLoop_exit hexit⟩
    · rw [if_neg hshort] at hexit
      have hless : (out (body s c).1).rest.length / BUFFSIZE < cs.length := by
        rw [h.moves s c hG.1, moved_rest_length]
        unfold readCount BUFFSIZE at *
        rw [List.length_cons] at hlen
        omega
      obtain ⟨s', hrun⟩ := ih (hG.2 hexit) hless
      exact ⟨s', (callLoop_next hexit).trans hrun⟩

end Spolks.Transfer

namespace Spolks.Lab4

open Lib Transfer

/-! ## Termination -/

/-- No iteration divides by zero, and the loop has ended, with the file passed to `send`,
when the chunk that is not full has been sent. The size that `stat` reports is the length of
the content, as it is for a regular file; a special file may have another one. -/
def DefinedOn (content : List UInt8) : Prop :=
  ∀ name stack calls, Along (sendBody content.length) CleanCalls (Sender.start stack content) calls →
    (∀ sent, sendFile (some name) (some content) content.length stack calls ≠
      some (.divisionByZero, sent)) ∧
    (content.length / BUFFSIZE < calls.length →
      ∃ sent, sendFile (some name) (some content) content.length stack calls =
        some (.returned 1, sent) ∧ sent.accepted = content)

theorem sendBody_ne_divisionByZero {stSize : Int} (hsize : stSize ≠ 0) (s : Sender)
    (c : SendCalls) : (sendBody stSize s c).2 ≠ some .divisionByZero := by
  cases hurgent : c.sigpipe with
  | true =>
    simp only [sendBody, if_neg hsize, hurgent, if_true]
    exact fun h => by cases h
  | false =>
    rw [sendBody_returns hsize s hurgent]
    simp only
    split
    · exact fun h => by cases h
    · split
      · exact fun h => by cases h
      · exact fun h => by cases h

theorem sendLoop_ne_divisionByZero {stSize : Int} (hsize : stSize ≠ 0) {s s' : Sender}
    {cs : List SendCalls} : callLoop (sendBody stSize) s cs ≠ some (.divisionByZero, s') := by
  induction cs generalizing s with
  | nil => exact fun h => by cases h
  | cons c cs ih =>
    intro hrun
    rcases callLoop_cons_iff.mp hrun with ⟨hexit, -⟩ | ⟨-, hrest⟩
    · exact sendBody_ne_divisionByZero hsize s c hexit
    · exact ih hrest

/-- An empty file ends the first iteration by a division by zero. -/
theorem sendFile_empty_division (name : String) (stack : Nat → UInt8) (c : SendCalls) :
    ∃ sent, sendFile (some name) (some []) 0 stack [c] = some (.divisionByZero, sent) :=
  ⟨_, rfl⟩

/-- **Where `sendFile` is defined**: on every file that is not empty. -/
theorem sendFile_defined_iff (content : List UInt8) : DefinedOn content ↔ content ≠ [] := by
  constructor
  · rintro hdefined rfl
    let stack : Nat → UInt8 := fun _ => 0
    obtain ⟨sent, hzero⟩ := sendFile_empty_division "" stack ⟨0, some 0, false⟩
    have hclean : Along (sendBody 0) CleanCalls (Sender.start stack []) [⟨0, some 0, false⟩] :=
      ⟨⟨rfl, rfl, rfl⟩, fun _ => trivial⟩
    exact (hdefined "" stack _ hclean).1 sent hzero
  · intro hne name stack calls hclean
    have hsize : (content.length : Int) ≠ 0 := by simpa using hne
    refine ⟨fun sent => sendLoop_ne_divisionByZero hsize, fun hlen => ?_⟩
    obtain ⟨sent, hrun⟩ := (sendBody_clean hsize).leaves hclean hlen
    exact ⟨sent, hrun, (sendBody_clean hsize).sent hclean hrun⟩

/-- The empty file. -/
theorem sendFile_not_defined :
    (∃ sent, sendFile (some "empty") (some []) 0 (fun _ => 0) [⟨0, some 0, false⟩] =
        some (.divisionByZero, sent)) ∧
      ¬ ∀ content, DefinedOn content := by
  obtain ⟨sent, hzero⟩ := sendFile_empty_division "empty" (fun _ => 0) ⟨0, some 0, false⟩
  have hclean : Along (sendBody 0) CleanCalls (Sender.start (fun _ => 0) []) [⟨0, some 0, false⟩] :=
    ⟨⟨rfl, rfl, rfl⟩, fun _ => trivial⟩
  exact ⟨⟨sent, hzero⟩, fun hall => (hall [] "empty" _ _ hclean).1 sent hzero⟩

/-! ## The reported values -/

/-- No call of the iteration fails; a send may accept less than it was given. -/
def Succeeds (s : Sender) (c : SendCalls) : Prop :=
  c.fread = readCount s.toOutgoing ∧ (∃ n ≤ c.fread, c.send = some n) ∧ c.sigpipe = false

/-- The share of a chunk of `n` bytes in a file of `stSize` bytes. -/
def percent (stSize : Int) (n : Nat) : Int := ((n : Int) * 100).tdiv stSize

theorem CleanCalls.succeeds {s : Sender} {c : SendCalls} (h : CleanCalls s c) : Succeeds s c :=
  ⟨h.1, ⟨c.fread, Nat.le_refl _, h.2.1⟩, h.2.2⟩

/-- What an iteration reports, what it leaves of the file, and when it is the last. -/
theorem sendBody_succeeds {stSize : Int} (hsize : stSize ≠ 0) {s : Sender} {c : SendCalls}
    (h : Succeeds s c) :
    (sendBody stSize s c).1.percents = s.percents ++ [percent stSize (readCount s.toOutgoing)] ∧
      (sendBody stSize s c).1.rest = s.rest.drop (readCount s.toOutgoing) ∧
      (sendBody stSize s c).2 =
        if readCount s.toOutgoing < BUFFSIZE then some (.returned 1) else none := by
  obtain ⟨cread, csend, _⟩ := c
  obtain ⟨hread, ⟨n, -, hsend⟩, hurgent⟩ := h
  simp only at hread hsend
  subst hread hsend
  have hne : ¬ ((n : Int) = -1) := by omega
  rw [sendBody_returns hsize s hurgent]
  refine ⟨rfl, rfl, ?_⟩
  simp only [Transfer.returned, if_neg hne, Int.ofNat_lt]

/-- A run reads the chunks of the file and reports the share of each. -/
theorem sendLoop_percents {stSize : Int} (hsize : stSize ≠ 0) {s s' : Sender}
    {cs : List SendCalls} {r : Exit} (hG : Along (sendBody stSize) Succeeds s cs)
    (hrun : callLoop (sendBody stSize) s cs = some (r, s')) :
    s'.percents = s.percents ++ (chunkLengths s.rest.length).map (percent stSize) ∧
      chunkLengths s.rest.length <+: cs.map SendCalls.fread := by
  induction cs generalizing s with
  | nil => cases hrun
  | cons c cs ih =>
    obtain ⟨hpercents, hrest, hexit⟩ := sendBody_succeeds hsize hG.1
    have hread : c.fread = readCount s.toOutgoing := hG.1.1
    rw [List.map_cons, hread]
    by_cases hshort : readCount s.toOutgoing < BUFFSIZE
    · have hcount : readCount s.toOutgoing = s.rest.length := by
        unfold readCount at hshort ⊢
        omega
      rw [if_pos hshort] at hexit
      rw [callLoop_exit hexit] at hrun
      cases hrun
      rw [hpercents, hcount, chunkLengths_of_lt (by rwa [hcount] at hshort)]
      exact ⟨rfl, _, rfl⟩
    · have hcount : readCount s.toOutgoing = BUFFSIZE ∧ BUFFSIZE ≤ s.rest.length := by
        unfold readCount at hshort ⊢
        omega
      rw [if_neg hshort] at hexit
      rw [callLoop_next hexit] at hrun
      obtain ⟨hvalues, hlengths⟩ := ih (hG.2 hexit) hrun
      rw [hrest, hcount.1, List.length_drop] at hvalues hlengths
      rw [chunkLengths_of_le hcount.2, hcount.1]
      constructor
      · rw [hvalues, hpercents, hcount.1, List.map_cons, List.append_assoc]
        rfl
      · obtain ⟨t, ht⟩ := hlengths
        exact ⟨t, by rw [List.cons_append, ht]⟩

/-- The values that a run of `sendFile` reports for a file that is not empty. -/
theorem sendFile_percents {content : List UInt8} (hne : content ≠ []) (name : String)
    {stack : Nat → UInt8} {calls : List SendCalls} {r : Exit} {sent : Sender}
    (hG : Along (sendBody content.length) Succeeds (Sender.start stack content) calls)
    (hrun : sendFile (some name) (some content) content.length stack calls = some (r, sent)) :
    sent.percents = (chunkLengths content.length).map (percent content.length) ∧
      chunkLengths content.length <+: calls.map SendCalls.fread := by
  have hsize : (content.length : Int) ≠ 0 := by simpa using hne
  obtain ⟨hvalues, hlengths⟩ := sendLoop_percents hsize hG hrun
  exact ⟨hvalues.trans (List.nil_append _), hlengths⟩

/-- The byte at the address of an `int`, in a host that stores the lowest byte first. -/
def urgentByte (p : Int) : UInt8 := UInt8.ofNat (p % 256).toNat

/-- After the `k`-th chunk, the share of what has been read from the file by then is
reported, and is what the urgent byte holds; the values do not decrease and end with `100`. -/
def ReportsTotal (content : List UInt8) : Prop :=
  ∀ name stack calls sent,
    Along (sendBody content.length) Succeeds (Sender.start stack content) calls →
    sendFile (some name) (some content) content.length stack calls = some (.returned 1, sent) →
    (∀ k p, sent.percents[k]? = some p →
      p = ((100 * ((calls.map SendCalls.fread).take (k + 1)).sum / content.length : Nat) : Int)) ∧
    (∀ p ∈ sent.percents, ((urgentByte p).toNat : Int) = p) ∧
    sent.percents.Pairwise (· ≤ ·) ∧ sent.percents.getLast? = some 100

theorem percent_natCast (m n : Nat) : percent m n = ((100 * n / m : Nat) : Int) := by
  rw [percent, Int.tdiv_eq_ediv_of_nonneg (by omega)]
  push_cast
  rw [Int.mul_comm]

/-- Only the whole file is `100` percent. -/
theorem percent_eq_hundred_iff {m n : Nat} (hm : 0 < m) (hn : n ≤ m) :
    percent m n = 100 ↔ n = m := by
  rw [percent_natCast]
  constructor
  · intro h
    have hle : 100 ≤ 100 * n / m := by omega
    have hmul := (Nat.le_div_iff_mul_le hm).mp hle
    omega
  · intro h
    rw [h, Nat.mul_div_cancel _ hm]
    rfl

section

variable {content : List UInt8} {stack : Nat → UInt8} {calls : List SendCalls}
  {r : Exit} {sent : Sender}

/-- The last value is the share of the last chunk alone. -/
theorem sendFile_percents_getLast? (hne : content ≠ []) (name : String)
    (hG : Along (sendBody content.length) Succeeds (Sender.start stack content) calls)
    (hrun : sendFile (some name) (some content) content.length stack calls = some (r, sent)) :
    sent.percents.getLast? = some (percent content.length (content.length % BUFFSIZE)) := by
  obtain ⟨hvalues, -⟩ := sendFile_percents hne name hG hrun
  rw [hvalues, List.getLast?_map, chunkLengths_getLast?]
  rfl

/-- The whole file in one chunk. -/
theorem sendFile_percents_of_lt (hne : content ≠ []) (hlt : content.length < BUFFSIZE)
    (name : String)
    (hG : Along (sendBody content.length) Succeeds (Sender.start stack content) calls)
    (hrun : sendFile (some name) (some content) content.length stack calls = some (r, sent)) :
    sent.percents = [100] ∧ ∃ t, content.length :: t = calls.map SendCalls.fread := by
  have hpos : 0 < content.length := List.length_pos_of_ne_nil hne
  have hhundred : percent content.length content.length = 100 :=
    (percent_eq_hundred_iff hpos (Nat.le_refl _)).mpr rfl
  obtain ⟨hvalues, hread⟩ := sendFile_percents hne name hG hrun
  rw [chunkLengths_of_lt hlt] at hvalues hread
  rw [List.map_singleton, hhundred] at hvalues
  exact ⟨hvalues, hread⟩

end

/-- **Where the percentages are the totals**: in files of a single chunk. -/
theorem reportsTotal_iff {content : List UInt8} (hne : content ≠ []) :
    ReportsTotal content ↔ content.length < BUFFSIZE := by
  have hsize : (content.length : Int) ≠ 0 := by simpa using hne
  have hpos : 0 < content.length := List.length_pos_of_ne_nil hne
  constructor
  · intro hreports
    let stack : Nat → UInt8 := fun _ => 0
    obtain ⟨calls, sent, hclean, hrun⟩ :=
      (sendBody_clean hsize).terminates (Sender.start stack content)
    have hG := hclean.mono fun s c => CleanCalls.succeeds
    have hlast := (hreports "" stack calls sent hG hrun).2.2.2
    rw [sendFile_percents_getLast? hne "" hG hrun, Option.some.injEq,
      percent_eq_hundred_iff hpos (Nat.mod_le ..)] at hlast
    rw [← hlast]
    exact Nat.mod_lt _ (by decide)
  · intro hlt name stack calls sent hG hrun
    obtain ⟨hvalues, t, ht⟩ := sendFile_percents_of_lt hne hlt name hG hrun
    have hwhole : 100 * content.length / content.length = 100 := Nat.mul_div_cancel _ hpos
    rw [hvalues]
    refine ⟨fun k p hp => ?_, fun p hp => ?_, List.pairwise_singleton _ _, rfl⟩
    · cases k with
      | zero =>
        cases hp
        rw [← ht, List.take_succ_cons, List.take_zero, List.sum_singleton, hwhole]
        rfl
      | succ k => cases hp
    · rw [List.mem_singleton.mp hp]
      decide

/-- A file of three bytes. -/
theorem reportsTotal_three : ReportsTotal [1, 2, 3] :=
  (reportsTotal_iff (by decide)).mpr (by decide)

/-- A full buffer is followed by an empty chunk, for which `0` is reported. -/
theorem percents_decrease :
    (∃ calls sent, Along (sendBody 1024) CleanCalls
        (Sender.start (fun _ => 0) (List.replicate 1024 7)) calls ∧
      sendFile (some "full") (some (List.replicate 1024 7)) 1024 (fun _ => 0) calls =
        some (.returned 1, sent) ∧ sent.percents = [100, 0]) ∧
    ¬ ∀ content, content ≠ [] → ReportsTotal content := by
  have hlen : (List.replicate 1024 (7 : UInt8)).length = 1024 := List.length_replicate
  have hne : List.replicate 1024 (7 : UInt8) ≠ [] := List.ne_nil_of_length_eq_add_one hlen
  have hsize : (1024 : Int) ≠ 0 := by decide
  obtain ⟨calls, sent, hclean, hrun⟩ :=
    (sendBody_clean hsize).terminates (Sender.start (fun _ => 0) (List.replicate 1024 7))
  have hG := hclean.mono fun s c => CleanCalls.succeeds
  have hvalues : sent.percents = [100, 0] := by
    have hall := (sendLoop_percents hsize hG hrun).1
    rw [Sender.start, hlen] at hall
    exact hall
  refine ⟨⟨calls, sent, hclean, hrun, hvalues⟩, fun hreports => ?_⟩
  have hlast := (hreports _ hne "full" (fun _ => 0) calls sent (by rwa [hlen]) (by rwa [hlen])).2.2.2
  rw [hvalues] at hlast
  cases hlast

end Spolks.Lab4
