import Spolks.Transfer.Halting

/-!
# What a transfer can leave behind

The files that the receiver can have stored when both sides have ended: with faults, every
beginning of the sender's file; without, the file itself, or a beginning of it that does not
end with a full block and whose missing rest fits into the buffers of the connection.

* `leads_start`: the runs that get to any byte of the file.
* `outcomes_iff`: the exact outcomes.
-/

namespace Spolks.Lab3

open Lib Transfer

namespace Connection

variable {content : List UInt8} {room : Nat} {s t : Connection} {e : Event}

/-! ## Runs without faults -/

theorem step_of_moves (h : Moves room s e t) : s.step room e = some t := by
  cases h with
  | take hrun hup hk hblock hroom =>
    rw [← readBlock_block hblock]
    exact if_pos ⟨hrun, hup, hk, hblock, hroom⟩
  | sent hrun hreturns hsender =>
    rw [step, if_pos ⟨hrun, hreturns⟩, ← ended_sent s s.taken, ← hsender]
  | failed hrun hreset htaken hsender =>
    rw [step, if_pos ⟨hrun, hreset, htaken⟩, ← hsender]
    rfl
  | @chunk n got hrun hn hbuf hlen hreceiver =>
    obtain ⟨n, rfl⟩ := Nat.exists_eq_succ_of_ne_zero hn.ne'
    rw [step, if_pos ⟨hrun, hbuf, hlen⟩, ← hreceiver, recieveBody_pos _ (Nat.succ_ne_zero n)]
  | eof hrun hnil hended hreceiver =>
    rw [step, if_pos ⟨hrun, hnil, hended⟩, ← hreceiver, recieveBody_zero]
  | lost hrun hreset hreceiver =>
    rw [step, if_pos ⟨hrun, hreset⟩, ← hreceiver]
    rfl
  | kill hrun => exact if_pos hrun
  | reset hup hrun => exact if_pos ⟨hup, hrun⟩

theorem Inv.leads {A : Event → Prop} (h : Inv content room s) (hleads : Leads (step room) A s t) :
    Inv content room t :=
  hleads.preserves (fun _ _ _ _ h hstep => inv_step h hstep) h

/-- The socket takes `k` bytes, or nothing happens. -/
theorem leads_take {k : Nat} (hrun : s.ended = none) (hup : s.isReset = false)
    (hblock : s.taken + k ≤ s.block) (hroom : s.receiver.stream.length + k ≤ room) :
    ∃ t, Leads (step room) Event.Calm s t ∧ t.sender = s.sender ∧ t.taken = s.taken + k ∧
      t.ended = none ∧ t.isReset = false ∧ t.result = s.result ∧
      t.receiver.file = s.receiver.file ∧
      t.receiver.stream.length = s.receiver.stream.length + k := by
  rcases Nat.eq_zero_or_pos k with rfl | hk
  · exact ⟨s, .refl s, rfl, rfl, hrun, hup, rfl, rfl, rfl⟩
  · have hstep := step_of_moves (Moves.take hrun hup hk hblock hroom)
    refine ⟨_, .single (by constructor <;> simp) hstep, rfl, rfl, hrun, hup, rfl, rfl, ?_⟩
    have hle := s.block_le_rest
    show (s.receiver.stream ++ _).length = _
    rw [List.length_append, List.length_take, List.length_drop]
    omega

/-- The `send` of a block is completed. -/
theorem leads_block (hrun : s.ended = none) (hup : s.isReset = false) (htaken : s.taken ≤ s.block)
    (hroom : s.receiver.stream.length + (s.block - s.taken) ≤ room) :
    ∃ t, Leads (step room) Event.Calm s t ∧ t.sender.rest = s.sender.rest.drop s.block ∧
      t.taken = 0 ∧ t.ended = (if s.block < BUFFSIZE then some (.returned 1) else none) ∧
      t.isReset = false ∧ t.result = s.result ∧ t.receiver.file = s.receiver.file ∧
      t.receiver.stream.length = s.receiver.stream.length + (s.block - s.taken) := by
  obtain ⟨m, hm, hsender, hall, hended, hup', hresult, hfile, hstream⟩ :=
    leads_take hrun hup (Nat.add_sub_of_le htaken).le hroom
  have hblock : m.block = s.block := by rw [block, block, hsender]
  have hreturns : m.SendReturns (some m.taken) := by
    refine ⟨rfl, Or.inr ⟨hup', ?_⟩⟩
    rw [hall, hblock, Nat.add_sub_of_le htaken]
  have hstep : m.step room (.sent (some m.taken)) = some _ :=
    step_of_moves (Moves.sent hended hreturns rfl)
  refine ⟨_, hm.trans (.single (by constructor <;> simp) hstep), ?_, rfl, ?_, hup', hresult, hfile,
    hstream⟩
  · show m.sender.rest.drop m.block = _
    rw [hblock, hsender]
  · show (if m.block < BUFFSIZE then _ else _) = _
    rw [hblock]

/-- When what is left fits into the buffers, `sendFile` returns without a further `recv`. -/
theorem leads_sent (hrun : s.ended = none) (hup : s.isReset = false) (htaken : s.taken ≤ s.block)
    (hroom : s.receiver.stream.length + (s.sender.rest.length - s.taken) ≤ room) :
    ∃ t, Leads (step room) Event.Calm s t ∧ t.ended = some (.returned 1) ∧ t.isReset = false ∧
      t.result = s.result ∧ t.receiver.file = s.receiver.file := by
  induction hk : s.sender.rest.length using Nat.strongRecOn generalizing s with
  | ind k ih =>
    subst hk
    have hle := s.block_le_rest
    have hfits : s.receiver.stream.length + (s.block - s.taken) ≤ room := by omega
    obtain ⟨m, hm, hrest, hzero, hended, hup', hresult, hfile, hstream⟩ :=
      leads_block hrun hup htaken hfits
    by_cases hshort : s.block < BUFFSIZE
    · rw [if_pos hshort] at hended
      exact ⟨m, hm, hended, hup', hresult, hfile⟩
    · rw [if_neg hshort] at hended
      have hfull : s.block = BUFFSIZE := Nat.le_antisymm s.block_le_buffer (Nat.not_lt.mp hshort)
      have hpos : 0 < s.block := by
        rw [hfull]
        exact Nat.succ_pos _
      have hlen : m.sender.rest.length = s.sender.rest.length - s.block := by
        rw [hrest, List.length_drop]
      obtain ⟨t, ht, hdone⟩ := ih m.sender.rest.length (by omega) hended hup'
        (hzero ▸ Nat.zero_le _) (by omega) rfl
      rw [hresult, hfile] at hdone
      exact ⟨t, hm.trans ht, hdone⟩

/-- A `recv` takes `n` bytes. -/
theorem leads_recv {n : Nat} (hinv : Inv content room s) (hrun : s.result = none) (hn : 0 < n)
    (hbuf : n ≤ BUFFSIZE) (hlen : n ≤ s.receiver.stream.length) :
    ∃ t, Leads (step room) Event.Calm s t ∧ t.sender = s.sender ∧ t.taken = s.taken ∧
      t.ended = s.ended ∧ t.isReset = s.isReset ∧
      t.result = (if n < BUFFSIZE then some 1 else none) ∧
      t.stored = s.stored ++ s.receiver.stream.take n ∧
      t.receiver.stream = s.receiver.stream.drop n := by
  have hstep : s.step room (.recv (some n)) = some _ :=
    step_of_moves (Moves.chunk hrun hn hbuf hlen rfl)
  obtain ⟨hstream, hfile⟩ := recieveBody_take hn hlen hinv.isOpen
  exact ⟨_, .single (by constructor <;> simp) hstep, rfl, rfl, rfl, rfl, rfl, stored_of_file hfile,
    hstream⟩

/-- A `recv` of the bytes that are there, or of the end of the stream, is the last one when the
bytes do not fill the buffer. -/
theorem leads_last (hinv : Inv content room s) (hrun : s.result = none)
    (hshort : s.receiver.stream.length < BUFFSIZE)
    (hended : s.receiver.stream = [] → s.ended ≠ none) :
    ∃ t, Leads (step room) Event.Calm s t ∧ t.sender = s.sender ∧ t.taken = s.taken ∧
      t.ended = s.ended ∧ t.isReset = s.isReset ∧ t.result = some 1 ∧ t.stored = s.delivered ∧
      t.receiver.stream = [] := by
  by_cases hnil : s.receiver.stream = []
  · have hstep : s.step room (.recv (some 0)) = some _ :=
      step_of_moves (.eof hrun hnil (hended hnil) rfl)
    obtain ⟨hstream, hfile⟩ := recieveBody_quiet hinv.isOpen (Or.inl rfl)
    rw [hnil] at hstream hfile
    refine ⟨_, .single (by constructor <;> simp) hstep, rfl, rfl, rfl, rfl, rfl, ?_, hstream⟩
    refine (stored_of_file hfile).trans ?_
    rw [← hinv.conserved, hnil, List.take_nil]
  · have hpos : 0 < s.receiver.stream.length := List.length_pos_iff.mpr hnil
    obtain ⟨t, ht, hsender, htaken, hsame, hup, hresult, hstored, hstream⟩ :=
      leads_recv hinv hrun hpos hshort.le (Nat.le_refl _)
    rw [if_pos hshort] at hresult
    rw [List.take_length, hinv.conserved] at hstored
    rw [List.drop_length] at hstream
    exact ⟨t, ht, hsender, htaken, hsame, hup, hresult, hstored, hstream⟩

/-! ## Faults -/

theorem leads_kill (hrun : s.ended = none) :
    ∃ t, Leads (step room) (fun _ => True) s t ∧ t.ended = some .killed ∧ t.result = s.result ∧
      t.isReset = s.isReset ∧ t.receiver = s.receiver ∧ t.delivered = s.delivered :=
  ⟨_, .single trivial (step_of_moves (.kill hrun)), rfl, rfl, rfl, rfl, rfl⟩

/-- The connection is reset, and the `recv` that waits fails. -/
theorem leads_lost (hinv : Inv content room s) (hrun : s.result = none) (hup : s.isReset = false) :
    ∃ t, Leads (step room) (fun _ => True) s t ∧ t.ended = s.ended ∧ t.result = some (-1) ∧
      t.stored = s.stored := by
  have hreset : s.step room .reset = some { s with isReset := true } :=
    step_of_moves (.reset hup (Or.inr hrun))
  have hlost : step room { s with isReset := true } (.recv none) = some _ :=
    step_of_moves (.lost hrun rfl rfl)
  obtain ⟨-, hfile⟩ := recieveBody_quiet hinv.isOpen (Or.inr rfl)
  rw [List.take_zero, List.append_nil] at hfile
  exact ⟨_, (Leads.refl _).head trivial hlost |>.head trivial hreset, rfl, rfl,
    stored_of_file hfile⟩

/-! ## Getting to any byte -/

/-- Both loops are about to begin with a block, `n` bytes of the file being stored. -/
structure Between (content : List UInt8) (n : Nat) (s : Connection) : Prop where
  sending : s.ended = none
  receiving : s.result = none
  up : s.isReset = false
  taken : s.taken = 0
  empty : s.receiver.stream = []
  stored : s.stored.length = n
  rest : s.sender.rest.length = content.length - n

variable {sendStack recvStack : Nat → UInt8}

/-- Full blocks are sent and received one by one. -/
theorem leads_blocks (hroom : BUFFSIZE ≤ room) (j : Nat) (hj : BUFFSIZE * j ≤ content.length) :
    ∃ s, Leads (step room) Event.Calm (start content sendStack recvStack) s ∧
      Between content (BUFFSIZE * j) s := by
  induction j with
  | zero => exact ⟨_, .refl _, rfl, rfl, rfl, rfl, rfl, rfl, rfl⟩
  | succ j ih =>
    rw [Nat.mul_succ] at hj ⊢
    obtain ⟨s, hs, hbetween⟩ := ih (by omega)
    have hfull : s.block = BUFFSIZE := by
      rw [block, readCount, hbetween.rest]
      omega
    have hfits : s.receiver.stream.length + (s.block - s.taken) ≤ room := by
      rw [hbetween.empty, hbetween.taken, hfull]
      simpa using hroom
    obtain ⟨m, hm, hrest, hzero, hended, hup, hresult, hfile, hstream⟩ :=
      leads_block hbetween.sending hbetween.up (hbetween.taken ▸ Nat.zero_le _) hfits
    rw [hfull, if_neg (Nat.lt_irrefl _)] at hended
    rw [hbetween.empty, hbetween.taken, hfull] at hstream
    have hlen : m.receiver.stream.length = BUFFSIZE := by simpa using hstream
    have hinv : Inv content room m := ((inv_start sendStack recvStack).leads hs).leads hm
    obtain ⟨t, ht, hsender, htaken, hsame, hup', hresult', hstored, hstream'⟩ :=
      leads_recv hinv (hresult.trans hbetween.receiving) (show 0 < BUFFSIZE from Nat.succ_pos _)
        (Nat.le_refl _) hlen.ge
    refine ⟨t, (hs.trans hm).trans ht, ?_⟩
    constructor
    · rw [hsame, hended]
    · rw [hresult', if_neg (Nat.lt_irrefl _)]
    · rw [hup', hup]
    · rw [htaken, hzero]
    · rw [hstream', ← hlen, List.drop_length]
    · rw [hstored, List.length_append, stored_congr hfile, hbetween.stored, List.length_take_of_le hlen.ge]
    · rw [hsender, hrest, List.length_drop, hfull, hbetween.rest]
      omega

/-- Runs without faults get to a state in which the socket has taken just `m` bytes, and the
receiver all full blocks of them. -/
theorem leads_start (hroom : BUFFSIZE ≤ room) {m : Nat} (hm : m ≤ content.length) :
    ∃ s, Leads (step room) Event.Calm (start content sendStack recvStack) s ∧
      s.ended = none ∧ s.result = none ∧ s.isReset = false ∧ s.delivered.length = m ∧
      s.receiver.stream.length = m % BUFFSIZE ∧
      s.sender.rest.length - s.taken = content.length - m := by
  have hdiv := Nat.div_add_mod m BUFFSIZE
  have hmod : m % BUFFSIZE < BUFFSIZE := Nat.mod_lt m (Nat.succ_pos _)
  have hle : BUFFSIZE * (m / BUFFSIZE) ≤ content.length := by omega
  obtain ⟨s, hs, hbetween⟩ := leads_blocks hroom (m / BUFFSIZE) hle
  have hblock : s.taken + m % BUFFSIZE ≤ s.block := by
    rw [hbetween.taken, block, readCount, hbetween.rest]
    omega
  have hfits : s.receiver.stream.length + m % BUFFSIZE ≤ room := by
    rw [hbetween.empty, List.length_nil]
    omega
  obtain ⟨t, ht, hsender, htaken, hended, hup, hresult, hfile, hstream⟩ :=
    leads_take hbetween.sending hbetween.up hblock hfits
  have hinv : Inv content room t := ((inv_start sendStack recvStack).leads hs).leads ht
  have hlen : t.receiver.stream.length = m % BUFFSIZE := by
    rw [hstream, hbetween.empty, List.length_nil, Nat.zero_add]
  refine ⟨t, hs.trans ht, hended, hresult.trans hbetween.receiving, hup, ?_, hlen, ?_⟩
  · rw [← hinv.conserved, List.length_append, stored_congr hfile, hbetween.stored, hlen, hdiv]
  · rw [hsender, htaken, hbetween.taken, hbetween.rest]
    omega

/-! ## The outcomes -/

theorem calm_step (hcalm : Event.Calm e) (hstep : s.step room e = some t)
    (hup : s.isReset = false) (hended : s.ended = none ∨ s.ended = some (.returned 1)) :
    t.isReset = false ∧ (t.ended = none ∨ t.ended = some (.returned 1)) := by
  cases moves_of_step hstep with
  | take => exact ⟨hup, hended⟩
  | sent =>
    refine ⟨hup, ?_⟩
    by_cases hshort : s.block < BUFFSIZE
    · exact Or.inr (if_pos hshort)
    · exact Or.inl (if_neg hshort)
  | failed hrun hreset => exact absurd (hup.symm.trans hreset) Bool.false_ne_true
  | chunk => exact ⟨hup, hended⟩
  | eof => exact ⟨hup, hended⟩
  | lost hrun hreset => exact absurd (hup.symm.trans hreset) Bool.false_ne_true
  | kill => exact absurd rfl hcalm.1
  | reset => exact absurd rfl hcalm.2

/-- Without faults the connection stays up, and `sendFile` can only return `1`. -/
theorem calm_run (h : Leads (step room) Event.Calm (start content sendStack recvStack) s) :
    s.isReset = false ∧ (s.ended = none ∨ s.ended = some (.returned 1)) :=
  h.preserves (I := fun s => s.isReset = false ∧ (s.ended = none ∨ s.ended = some (.returned 1)))
    (fun _ _ _ hcalm h hstep => calm_step hcalm hstep h.1 h.2) ⟨rfl, Or.inl rfl⟩

/-- Some run of such events ends with the result `r` of `recieveFile` and with this file. -/
def Outcome (A : Event → Prop) (room : Nat) (s₀ : Connection) (r : Int) (file : List UInt8) : Prop :=
  ∃ s, Leads (step room) A s₀ s ∧ s.ended ≠ none ∧ s.result = some r ∧
    s.receiver.file = some file

theorem prefix_unique {as bs cs : List UInt8} (ha : as <+: cs) (hb : bs <+: cs)
    (hlen : as.length = bs.length) : as = bs :=
  (List.prefix_of_prefix_length_le ha hb hlen.le).eq_of_length hlen

theorem Inv.stored_prefix (h : Inv content room s) : s.stored <+: content :=
  (h.conserved ▸ List.prefix_append ..).trans h.sender.isPrefix

end Connection

open Connection

variable {content : List UInt8} {room : Nat} {sendStack recvStack : Nat → UInt8} {r : Int}
  {file : List UInt8}

theorem outcome_sound {A : Event → Prop}
    (h : Outcome A room (start content sendStack recvStack) r file) :
    file <+: content ∧ (r = 1 ∨ r = -1 ∧ BUFFSIZE ∣ file.length) := by
  obtain ⟨s, hs, -, hresult, hfile⟩ := h
  have hinv : Inv content room s := (inv_start sendStack recvStack).leads hs
  rw [← stored_of_file hfile]
  refine ⟨hinv.stored_prefix, ?_⟩
  exact (hinv.receiver.received r hresult).imp And.left fun hlost => ⟨hlost.1, hlost.2.2⟩

/-- The sender is killed when the file has been taken up to this point. -/
theorem outcome_cut (hroom : BUFFSIZE ≤ room) (hbegin : file <+: content) :
    Outcome (fun _ => True) room (start content sendStack recvStack) 1 file := by
  obtain ⟨s, hs, hended, hresult, -, hdel, hstream, -⟩ := leads_start hroom hbegin.length_le
  have hs := hs.mono (B := fun _ => True) fun _ _ => trivial
  obtain ⟨k, hk, hkilled, hresult', -, hreceiver, hdel'⟩ := leads_kill hended
  have hinv : Inv content room k := (inv_start sendStack recvStack).leads (hs.trans hk)
  have hshort : k.receiver.stream.length < BUFFSIZE := by
    rw [hreceiver, hstream]
    exact Nat.mod_lt _ (Nat.succ_pos _)
  have hleft : k.ended ≠ none := by
    rw [hkilled]
    exact Option.some_ne_none _
  obtain ⟨t, ht, -, -, hsame, -, hlast, hstored, -⟩ :=
    leads_last hinv (hresult'.trans hresult) hshort fun _ => hleft
  refine ⟨t, (hs.trans hk).trans (ht.mono fun _ _ => trivial), hsame ▸ hleft, hlast, ?_⟩
  rw [(hinv.leads ht).isOpen, hstored]
  exact congrArg some (prefix_unique hinv.sender.isPrefix hbegin (hdel' ▸ hdel))

/-- The connection is reset after full blocks, and the sender is killed. -/
theorem outcome_reset (hroom : BUFFSIZE ≤ room) (hbegin : file <+: content)
    (hblocks : BUFFSIZE ∣ file.length) :
    Outcome (fun _ => True) room (start content sendStack recvStack) (-1) file := by
  obtain ⟨s, hs, hended, hresult, hup, hdel, hstream, -⟩ := leads_start hroom hbegin.length_le
  have hs := hs.mono (B := fun _ => True) fun _ _ => trivial
  obtain ⟨k, hk, hkilled, hresult', hup', hreceiver, hdel'⟩ := leads_kill hended
  have hinv : Inv content room k := (inv_start sendStack recvStack).leads (hs.trans hk)
  obtain ⟨t, ht, hsame, hlost, hstored⟩ := leads_lost hinv (hresult'.trans hresult) (hup'.trans hup)
  have hall : k.stored = k.delivered := by
    rw [← hinv.conserved, hreceiver, List.eq_nil_of_length_eq_zero (hstream.trans
      (Nat.mod_eq_zero_of_dvd hblocks)), List.append_nil]
  refine ⟨t, (hs.trans hk).trans ht, ?_, hlost, ?_⟩
  · rw [hsame, hkilled]
    exact Option.some_ne_none _
  · rw [(hinv.leads ht).isOpen, hstored, hall]
    exact congrArg some (prefix_unique hinv.sender.isPrefix hbegin (hdel' ▸ hdel))

/-- The receiver gets the last bytes before the file has been sent, and they do not fill its
buffer; the rest stays in the buffers of the connection. -/
theorem outcome_early (hroom : BUFFSIZE ≤ room) (hbegin : file <+: content)
    (hshort : ¬ BUFFSIZE ∣ file.length) (hrest : content.length ≤ file.length + room) :
    Outcome Event.Calm room (start content sendStack recvStack) 1 file := by
  obtain ⟨s, hs, hended, hresult, hup, hdel, hstream, hmissing⟩ :=
    leads_start hroom hbegin.length_le
  have hinv : Inv content room s := (inv_start sendStack recvStack).leads hs
  have hne : s.receiver.stream ≠ [] := by
    intro hnil
    rw [hnil] at hstream
    exact hshort (Nat.dvd_of_mod_eq_zero hstream.symm)
  have hlt : s.receiver.stream.length < BUFFSIZE := by
    rw [hstream]
    exact Nat.mod_lt _ (Nat.succ_pos _)
  obtain ⟨m, hm, hsender, htaken, hsame, hup', hlast, hstored, hnil⟩ :=
    leads_last hinv hresult hlt fun hnil => absurd hnil hne
  have hinv' := hinv.leads hm
  have hfits : m.receiver.stream.length + (m.sender.rest.length - m.taken) ≤ room := by
    rw [hnil, hsender, htaken, hmissing, List.length_nil]
    omega
  obtain ⟨t, ht, hdone, -, hresult', hfile⟩ :=
    leads_sent (hsame.trans hended) (hup'.trans hup) hinv'.sender.taken_le hfits
  refine ⟨t, (hs.trans hm).trans ht, ?_, hresult'.trans hlast, ?_⟩
  · rw [hdone]
    exact Option.some_ne_none _
  · rw [hfile, hinv'.isOpen, hstored]
    exact congrArg some (prefix_unique hinv.sender.isPrefix hbegin hdel)

/-- Everything is sent and received. -/
theorem outcome_whole (hroom : BUFFSIZE ≤ room) :
    Outcome Event.Calm room (start content sendStack recvStack) 1 content := by
  obtain ⟨s, hs, hended, hresult, hup, hdel, hstream, hmissing⟩ :=
    leads_start hroom (Nat.le_refl content.length)
  have hinv : Inv content room s := (inv_start sendStack recvStack).leads hs
  have hfits : s.receiver.stream.length + (s.sender.rest.length - s.taken) ≤ room := by
    rw [hmissing, Nat.sub_self]
    exact hinv.held
  obtain ⟨m, hm, hdone, hup', hresult', hfile⟩ :=
    leads_sent hended hup hinv.sender.taken_le hfits
  have hinv' := hinv.leads hm
  have hall : m.delivered = content := hinv'.sent hdone hup'
  have hleft : m.ended ≠ none := by
    rw [hdone]
    exact Option.some_ne_none _
  have hlt : m.receiver.stream.length < BUFFSIZE := by
    have hlen := congrArg List.length hinv'.conserved
    have hlen₀ := congrArg List.length hinv.conserved
    rw [List.length_append, hall, stored_congr hfile] at hlen
    rw [List.length_append, hdel, hstream] at hlen₀
    have hmod : content.length % BUFFSIZE < BUFFSIZE := Nat.mod_lt _ (Nat.succ_pos _)
    omega
  obtain ⟨t, ht, -, -, hsame, -, hlast, hstored, -⟩ :=
    leads_last hinv' (hresult'.trans hresult) hlt fun _ => hleft
  refine ⟨t, (hs.trans hm).trans ht, hsame ▸ hleft, hlast, ?_⟩
  rw [(hinv'.leads ht).isOpen, hstored, hall]

/-- With faults. -/
theorem outcome_any_iff (hroom : BUFFSIZE ≤ room) :
    Outcome (fun _ => True) room (start content sendStack recvStack) r file ↔
      file <+: content ∧ (r = 1 ∨ r = -1 ∧ BUFFSIZE ∣ file.length) := by
  refine ⟨outcome_sound, ?_⟩
  rintro ⟨hbegin, rfl | ⟨rfl, hblocks⟩⟩
  · exact outcome_cut hroom hbegin
  · exact outcome_reset hroom hbegin hblocks

/-- Without faults, whatever the connection holds. -/
theorem outcome_calm_sound
    (h : Outcome Event.Calm room (start content sendStack recvStack) r file) :
    r = 1 ∧ (file = content ∨ file <+: content ∧ ¬ BUFFSIZE ∣ file.length ∧
      content.length ≤ file.length + room) := by
  obtain ⟨s, hs, hended, hresult, hfile⟩ := h
  have hinv : Inv content room s := (inv_start sendStack recvStack).leads hs
  obtain ⟨hup, hdone⟩ := calm_run hs
  have hdone := hdone.resolve_left hended
  have hone : r = 1 := by
    rcases hinv.receiver.received r hresult with ⟨hone, -⟩ | ⟨-, hreset, -⟩
    · exact hone
    · exact absurd (hup.symm.trans hreset) Bool.false_ne_true
  subst hone
  rw [← stored_of_file hfile]
  refine ⟨rfl, ?_⟩
  by_cases hblocks : BUFFSIZE ∣ s.stored.length
  · exact Or.inl (hinv.complete hdone hresult hblocks)
  · refine Or.inr ⟨hinv.stored_prefix, hblocks, ?_⟩
    have hlen := congrArg List.length hinv.conserved
    rw [List.length_append, hinv.sent hdone hup] at hlen
    have hheld := hinv.held
    omega

theorem outcome_calm_iff (hroom : BUFFSIZE ≤ room) :
    Outcome Event.Calm room (start content sendStack recvStack) r file ↔
      r = 1 ∧ (file = content ∨ file <+: content ∧ ¬ BUFFSIZE ∣ file.length ∧
        content.length ≤ file.length + room) := by
  refine ⟨outcome_calm_sound, ?_⟩
  rintro ⟨rfl, rfl | ⟨hbegin, hshort, hrest⟩⟩
  · exact outcome_whole hroom
  · exact outcome_early hroom hbegin hshort hrest

/-- **What a transfer can leave behind.** When the buffers of the connection hold at least one
block: with faults, the receiver can have stored any beginning of the file and returned `1`, and
any beginning of full blocks and returned `-1`, and nothing else. Without faults it returns `1`,
and has stored the file, or a beginning of it that does not end with a full block and lacks no
more than the buffers hold. -/
theorem outcomes_iff (hroom : BUFFSIZE ≤ room) :
    (Outcome (fun _ => True) room (start content sendStack recvStack) r file ↔
      file <+: content ∧ (r = 1 ∨ r = -1 ∧ BUFFSIZE ∣ file.length)) ∧
    (Outcome Event.Calm room (start content sendStack recvStack) r file ↔
      r = 1 ∧ (file = content ∨ file <+: content ∧ ¬ BUFFSIZE ∣ file.length ∧
        content.length ≤ file.length + room)) :=
  ⟨outcome_any_iff hroom, outcome_calm_iff hroom⟩

theorem outcomes_iff_early :
    Outcome Event.Calm 1024 (start [65, 66] (fun _ => 0) (fun _ => 0)) 1 [65] := by
  refine (outcomes_iff (Nat.le_refl _)).2.mpr ⟨rfl, Or.inr ⟨?_, ?_, ?_⟩⟩
  · exact List.prefix_append [65] [66]
  · exact Nat.not_dvd_of_pos_of_lt Nat.one_pos (by decide)
  · exact Nat.le_add_left 2 1023

end Spolks.Lab3
