import Spolks.Chat.Membership
import Spolks.Chat.Transparency

/-!
# `lab3_2/session_v3.c`: the peers of a broadcast

Every peer sends the marker and its address, and then its two threads run: one reads the
terminal, where a `-` that comes first lists the table row by row and anything else is a line
that is sent, and one listens. Keys, threads and deliveries come in any order, also between two
rows of a listing and while a name is being copied into its row, and the network may lose,
repeat and reorder datagrams.

* `speakBody_eq`: this program and that of lab4_2 read the terminal alike.
* `Board`: what can be seen of a table.
* `Parsed`: what a peer has received and printed as a run of its board.
* `peers_run`: what is said, stored and printed in a run.
-/

namespace Spolks.Chat.Broadcast

open Lib Sockcore

/-! ## What is seen of a table -/

/-- What the threads of a peer do with its table and its output. -/
inductive Deed where
  /-- A name has come in behind a marker, and its row counts. -/
  | client (name : CString)
  /-- All of the name is in its row. -/
  | stored
  | line (text : CString)
  /-- The loop over the rows begins. -/
  | list
  | row (text : CString)
  /-- The loop over the rows ends. -/
  | listed

namespace Deed

/-- The texts of its datagrams. -/
def wire : Deed → List CString
  | client name => [enter, name]
  | line text => [text]
  | _ => []

def printed? : Deed → Option CString
  | line text => some text
  | row text => some text
  | _ => none

end Deed

/-- A table as its user sees it. -/
structure Board where
  names : List CString
  /-- The last name is being copied into its row. -/
  copying : Bool
  /-- The row that a listing has come to. -/
  row : Option Nat

namespace Board

def start : Board := ⟨[], false, none⟩

/-- A row shows its name, or a beginning of it while it is being copied. -/
def visible (b : Board) (row : Nat) : List CString :=
  match b.names[row]? with
  | none => []
  | some name => if b.copying ∧ row + 1 = b.names.length then name.inits else [name]

/-- Nothing comes in while a name is being copied; a listing shows the rows from the first one
on, and ends behind the last one. -/
def step (b : Board) : Deed → Option Board
  | .client name =>
    if b.copying then none else some { b with names := b.names ++ [name], copying := true }
  | .stored => if b.copying then some { b with copying := false } else none
  | .line _ => if b.copying then none else some b
  | .list => if b.row = none then some { b with row := some 0 } else none
  | .row text => b.row.bind fun row =>
    if text ∈ b.visible row then some { b with row := some (row + 1) } else none
  | .listed => b.row.bind fun row =>
    if row < b.names.length then none else some { b with row := none }

end Board

/-- What has come in and been printed, and what is left to do, are those of these deeds: each
name is what has followed a marker, and no line is one. -/
structure Parsed (s : Session) (copied row : Option Nat) (texts : List CString)
    (deeds : List Deed) (b : Board) : Prop where
  run : exec Board.step .start deeds = some b
  texts : texts = deeds.flatMap Deed.wire ++ if s.awaiting then [enter] else []
  printed : s.printed = deeds.filterMap Deed.printed?
  entries : s.undefined = false → s.entries = b.names
  copying : b.copying = copied.isSome
  row : b.row = row
  lines : ∀ text, .line text ∈ deeds → text ≠ enter

section

variable {s : Session} {copied row : Option Nat} {texts : List CString} {deeds : List Deed}
  {b : Board}

theorem parsed_start : Parsed Session.start none none [] [] .start where
  run := rfl
  texts := rfl
  printed := rfl
  entries _ := rfl
  copying := rfl
  row := rfl
  lines _ h := absurd h List.not_mem_nil

/-- A deed that is no line and has no datagrams. -/
theorem Parsed.other (h : Parsed s copied row texts deeds b) (s' : Session) {b' : Board}
    {deed : Deed} (hstep : b.step deed = some b') (hwire : deed.wire = [])
    (hnames : b'.names = b.names) (hawaiting : s'.awaiting = s.awaiting)
    (hentries : s'.entries = s.entries) (hundefined : s'.undefined = s.undefined)
    (hprinted : s'.printed = s.printed ++ deed.printed?.toList) {copied' row' : Option Nat}
    (hcopying : b'.copying = copied'.isSome) (hrow : b'.row = row') :
    Parsed s' copied' row' texts (deeds ++ [deed]) b' where
  run := exec_append h.run (exec_single hstep)
  texts := by
    rw [List.flatMap_append, List.flatMap_singleton, hwire, List.append_nil, hawaiting]
    exact h.texts
  printed := by rw [hprinted, h.printed, filterMap_concat]
  entries hdefined := by
    rw [hentries, hnames]
    exact h.entries (hundefined ▸ hdefined)
  copying := hcopying
  row := hrow
  lines text htext := by
    rcases List.mem_append.mp htext with hold | hnew
    · exact h.lines text hold
    · rw [← List.mem_singleton.mp hnew] at hwire
      cases hwire

/-- One more datagram. -/
theorem Parsed.receive (h : Parsed s none row texts deeds b) (hdefined : s.undefined = false)
    (d : Datagram) : ∃ deeds' b', Parsed (s.receive d) (if s.awaiting then some 0 else none) row
      (texts ++ [d.text]) deeds' b' := by
  have hidle : ¬ b.copying = true := by
    rw [h.copying]
    exact Bool.false_ne_true
  cases hawaiting : s.awaiting with
  | true =>
    have hstep : b.step (.client d.text) =
        some { b with names := b.names ++ [d.text], copying := true } := if_neg hidle
    rw [Session.receive_store hawaiting, if_pos rfl]
    refine ⟨deeds ++ [.client d.text], { b with names := b.names ++ [d.text], copying := true },
      exec_append h.run (exec_single hstep), ?_, ?_,
      fun hstored => ?_, rfl, h.row, fun text htext => ?_⟩
    · rw [h.texts, hawaiting, List.flatMap_append, List.append_assoc]
      show _ = _ ++ [enter, d.text] ++ []
      rw [List.append_nil]
      rfl
    · rw [filterMap_concat]
      exact h.printed.trans (List.append_nil _).symm
    · rw [Session.entries_store hstored, h.entries hdefined]
    · rcases List.mem_append.mp htext with hold | hnew
      · exact h.lines text hold
      · cases List.mem_singleton.mp hnew
  | false =>
    have htexts : texts = deeds.flatMap Deed.wire := by
      rw [h.texts, hawaiting]
      exact List.append_nil _
    by_cases hd : d.text = enter
    · rw [Session.receive_enter hawaiting hd, hd, htexts]
      exact ⟨deeds, b, h.run, rfl, h.printed, h.entries, h.copying, h.row, h.lines⟩
    · have hstep : b.step (.line d.text) = some b := if_neg hidle
      rw [Session.receive_line hawaiting hd, htexts]
      refine ⟨deeds ++ [.line d.text], b, exec_append h.run (exec_single hstep), ?_, ?_,
        h.entries, h.copying, h.row, fun text htext => ?_⟩
      · rw [List.flatMap_append, hawaiting]
        exact (List.append_nil _).symm
      · rw [filterMap_concat, ← h.printed]
        rfl
      · rcases List.mem_append.mp htext with hold | hnew
        · exact h.lines text hold
        · rw [Deed.line.inj (List.mem_singleton.mp hnew)]
          exact hd

/-- All of a name is in its row. -/
theorem Parsed.stored {n : Nat} (h : Parsed s (some n) row texts deeds b) :
    ∃ deeds' b', Parsed s none row texts deeds' b' := by
  have hstep : b.step .stored = some { b with copying := false } := if_pos h.copying
  exact ⟨_, _, h.other s hstep rfl rfl rfl rfl rfl (List.append_nil _).symm rfl h.row⟩

/-- One byte more of it is. -/
theorem Parsed.copy {n : Nat} (h : Parsed s (some n) row texts deeds b) (n' : Nat) :
    Parsed s (some n') row texts deeds b :=
  ⟨h.run, h.texts, h.printed, h.entries, h.copying, h.row, h.lines⟩

/-- A listing begins. -/
theorem Parsed.list (h : Parsed s copied none texts deeds b) :
    ∃ deeds' b', Parsed s copied (some 0) texts deeds' b' := by
  have hstep : b.step .list = some { b with row := some 0 } := if_pos h.row
  exact ⟨_, _, h.other s hstep rfl rfl rfl rfl rfl (List.append_nil _).symm h.copying rfl⟩

/-- What `printf` finds in a row is what the row shows. -/
theorem Parsed.seen_mem_visible (h : Parsed s copied row texts deeds b)
    (hdefined : s.undefined = false) {i : Nat} (hi : i < s.clientsNum) :
    s.seen copied i ∈ b.visible i := by
  have hlength : b.names.length = s.clientsNum := by
    rw [← h.entries hdefined, Session.entries, List.length_map, List.length_range]
  have hname : b.names[i]? = some (s.client i) := by
    rw [← h.entries hdefined, Session.entries, List.getElem?_map, List.getElem?_range hi]
    rfl
  simp only [Board.visible, hname, hlength, h.copying]
  cases copied with
  | none => exact List.mem_singleton_self _
  | some n =>
    rw [Session.seen]
    by_cases hlast : i + 1 = s.clientsNum
    · rw [if_pos hlast, if_pos ⟨rfl, hlast⟩, List.mem_inits]
      exact List.take_prefix n _
    · rw [if_neg hlast, if_neg fun hboth => hlast hboth.2]
      exact List.mem_singleton_self _

/-- A row is printed. -/
theorem Parsed.printRow {i : Nat} (h : Parsed s copied (some i) texts deeds b)
    (hdefined : s.undefined = false) (hi : i < s.clientsNum) :
    ∃ deeds' b', Parsed (s.printRow copied i) copied (some (i + 1)) texts deeds' b' := by
  have hstep : b.step (.row (s.seen copied i)) = some { b with row := some (i + 1) } := by
    rw [Board.step, h.row, Option.bind_some, if_pos (h.seen_mem_visible hdefined hi)]
  exact ⟨_, _, h.other (s.printRow copied i) hstep rfl rfl rfl rfl rfl rfl h.copying rfl⟩

/-- The last row of a listing has been printed. -/
theorem Parsed.listed {i : Nat} (h : Parsed s copied (some i) texts deeds b)
    (hdefined : s.undefined = false) (hi : ¬ i < s.clientsNum) :
    ∃ deeds' b', Parsed s copied none texts deeds' b' := by
  have hlength : b.names.length = s.clientsNum := by
    rw [← h.entries hdefined, Session.entries, List.length_map, List.length_range]
  have hstep : b.step .listed = some { b with row := none } := by
    rw [Board.step, h.row, Option.bind_some, hlength, if_neg hi]
  exact ⟨_, _, h.other s hstep rfl rfl rfl rfl rfl (List.append_nil _).symm h.copying rfl⟩

end

/-! ## Reading the terminal -/

/-- What `kbhit` returns, and what it leaves of the input; 45 is the code of the `-`. -/
def kbhit : CString → Int × CString
  | [] => (0, [])
  | ch :: stdin => if ch = 45 then (2, stdin) else (1, ch :: stdin)

/-- The body of the loop of `speak_thread`: what it leaves of the input, whether it lists the
table, and what it sends. -/
def speakBody (stdin : CString) : Option (CString × Bool × List Datagram) :=
  let (ch, stdin) := kbhit stdin
  if ch ≠ 0 then
    if ch = 2 then some (stdin, true, [])
    else
      (gets stdin).bind fun (line, rest) =>
        if line.length < MAXBUF then some (rest, false, sendto (Multicast.typed line)) else none
  else some (stdin, false, [])

/-- The lines among what the program of lab4_2 sends. -/
def lines (sent : List Multicast.Sent) : List Datagram :=
  sent.filterMap fun x => if x.origin = .line then some x.datagram else none

/-- Whether a command is among them. -/
def commands (sent : List Multicast.Sent) : Bool := sent.any fun x => decide (x.origin = .key)

theorem lines_append (xs ys : List Multicast.Sent) : lines (xs ++ ys) = lines xs ++ lines ys :=
  List.filterMap_append ..

theorem lines_lineSent (line : CString) :
    lines (Multicast.lineSent line) = sendto (Multicast.typed line) ∧
      commands (Multicast.lineSent line) = false := by
  rw [lines, commands, Multicast.lineSent, List.filterMap_map, List.any_map]
  constructor
  · exact List.filterMap_some
  · exact List.any_eq_false.mpr fun d _ => by simp

/-- Where a member of lab4_2 asks for an echo, a peer lists its table; lines are sent alike. -/
theorem speakBody_eq (stdin : CString) : speakBody stdin =
    (Multicast.speakBody stdin).map fun (rest, sent) => (rest, commands sent, lines sent) := by
  cases stdin with
  | nil => rfl
  | cons c stdin =>
    by_cases hc : c = 45
    · subst hc
      rfl
    · have hkey : kbhit (c :: stdin) = (1, c :: stdin) := if_neg hc
      have hone : (1 : Int) ≠ 0 := by omega
      have htwo : (1 : Int) ≠ 2 := by omega
      simp only [speakBody, hkey, if_pos hone, if_neg htwo]
      cases hgets : gets (c :: stdin) with
      | none =>
        rw [Multicast.speakBody_waits hc hgets]
        rfl
      | some got =>
        obtain ⟨line, rest⟩ := got
        rw [Multicast.speakBody_line hc hgets, Option.bind_some]
        dsimp only
        split
        · obtain ⟨hlines, hcommands⟩ := lines_lineSent line
          rw [Option.map_some, hlines, hcommands]
        · rfl

/-- The lines that a stream of keys means. -/
def typedLines (keys : CString) : List Datagram := lines (Multicast.spoken none keys)

theorem speakBody_typedLines {stdin rest : CString} {listed : Bool} {sent : List Datagram}
    (h : speakBody stdin = some (rest, listed, sent)) (later : CString) :
    typedLines (stdin ++ later) = sent ++ typedLines (rest ++ later) := by
  rw [speakBody_eq] at h
  obtain ⟨⟨rest', sent'⟩, hbody, heq⟩ := Option.map_eq_some_iff.mp h
  cases heq
  rw [typedLines, Multicast.speakBody_spoken hbody, lines_append]
  rfl

/-! ## The peers -/

/-- A datagram that has been sent. -/
structure Packet (M : Type) where
  sender : M
  datagram : Datagram

def Packet.text {M : Type} (p : Packet M) : CString := p.datagram.text

/-- How many datagrams `main` of each peer has sent, the pending inputs, all datagrams that have
been sent, those that have been received, and the two threads. -/
structure Lan (M : Type) where
  announced : M → Nat
  stdin : M → CString
  network : List (Packet M)
  received : M → List (Packet M)
  /-- The sessions; a name counts as stored when its `strcpy` begins. -/
  session : M → Session
  /-- In a `strcpy`: the number of bytes that it has copied. -/
  copied : M → Option Nat
  /-- In the loop over the rows: the next row. -/
  row : M → Option Nat

inductive Action (M : Type) where
  | announce (m : M)
  | press (m : M) (key : UInt8)
  /-- `speak_thread` reads the terminal. -/
  | speak (m : M)
  /-- `speak_thread` comes to the condition of the loop over the rows. -/
  | row (m : M)
  | deliver (m : M) (packet : Nat)
  /-- `strcpy` copies one byte more, the `NUL` at last. -/
  | copy (m : M)

/-- What `main` of a peer sends. -/
def announcement (ip : InAddr) : List Datagram := [enterDatagram, ipDatagram ip]

namespace Lan

variable {M : Type}

def start : Lan M where
  announced _ := 0
  stdin _ := []
  network := []
  received _ := []
  session _ := Session.start
  copied _ := none
  row _ := none

/-- The threads of a peer run, and what they do is defined. -/
def Running (g : Lan M) (m : M) : Prop := g.announced m = 2 ∧ (g.session m).undefined = false

instance (g : Lan M) (m : M) : Decidable (g.Running m) := inferInstanceAs (Decidable (_ ∧ _))

variable [DecidableEq M]

/-- An iteration of `speak_thread`, which may begin a listing. -/
def speak (g : Lan M) (m : M) (stdin : CString) (listed : Bool) (sent : List Datagram) : Lan M :=
  { g with
    stdin := Function.update g.stdin m stdin
    network := g.network ++ sent.map (Packet.mk m)
    row := if listed then Function.update g.row m (some 0) else g.row }

/-- The condition `i < clientsNum`, and while it holds the row `i`. -/
def printRow (g : Lan M) (m : M) (i : Nat) : Lan M :=
  let s := g.session m
  { g with
    session := Function.update g.session m (s.listRow (g.copied m) i)
    row := Function.update g.row m (if i < s.clientsNum then some (i + 1) else none) }

/-- A call of `recvfrom` comes back to `listen_thread`. -/
def listen (g : Lan M) (m : M) (p : Packet M) : Lan M :=
  { g with
    received := Function.update g.received m (g.received m ++ [p])
    session := Function.update g.session m ((g.session m).receive p.datagram)
    copied := Function.update g.copied m (if (g.session m).awaiting then some 0 else none) }

/-- The byte `n` of a name comes into the last row. -/
def copy (g : Lan M) (m : M) (n : Nat) : Lan M :=
  let name := (g.session m).client ((g.session m).clientsNum - 1)
  { g with copied := Function.update g.copied m (if n < name.length then some (n + 1) else none) }

def step (ip : M → InAddr) (g : Lan M) : Action M → Option (Lan M)
  | .announce m =>
    ((announcement (ip m))[g.announced m]?).map fun d =>
      { g with
        announced := Function.update g.announced m (g.announced m + 1)
        network := g.network ++ [⟨m, d⟩] }
  | .press m key => some { g with stdin := Function.update g.stdin m (g.stdin m ++ [key]) }
  | .speak m =>
    if g.Running m ∧ g.row m = none then
      (speakBody (g.stdin m)).map fun (stdin, listed, sent) => g.speak m stdin listed sent
    else none
  | .row m => if g.Running m then (g.row m).map (g.printRow m) else none
  | .deliver m packet =>
    if g.Running m ∧ g.copied m = none then (g.network[packet]?).map (g.listen m) else none
  | .copy m => if g.Running m then (g.copied m).map (g.copy m) else none

theorem step_deliver {ip : M → InAddr} {g : Lan M} {m : M} {i : Nat} {p : Packet M}
    (h : g.Running m) (hcopied : g.copied m = none) (hp : g.network[i]? = some p) :
    step ip g (.deliver m i) = some (g.listen m p) := by
  rw [step, if_pos ⟨h, hcopied⟩, hp]
  rfl

theorem Running.listen {g : Lan M} {m : M} {p : Packet M} (h : g.Running m)
    (hdefined : ((g.session m).receive p.datagram).undefined = false) : (g.listen m p).Running m := by
  have hsession : (g.listen m p).session m = (g.session m).receive p.datagram :=
    Function.update_self ..
  exact ⟨h.1, hsession ▸ hdefined⟩

end Lan

section

variable {M : Type} [DecidableEq M]

/-- What a peer has sent, in this order. -/
def sentBy (network : List (Packet M)) (m : M) : List Datagram :=
  network.filterMap fun p => if p.sender = m then some p.datagram else none

def Action.key (m : M) : Action M → Option UInt8
  | .press k key => if k = m then some key else none
  | _ => none

/-- The keys that a peer has pressed. -/
def pressed (m : M) (as : List (Action M)) : CString := as.filterMap (Action.key m)

theorem sentBy_append (xs ys : List (Packet M)) (m : M) :
    sentBy (xs ++ ys) m = sentBy xs m ++ sentBy ys m := List.filterMap_append ..

theorem sentBy_map (ds : List Datagram) (k m : M) :
    sentBy (ds.map (Packet.mk k)) m = if k = m then ds else [] := by
  rw [sentBy, List.filterMap_map]
  by_cases hk : k = m
  · have hall : ((fun p : Packet M => if p.sender = m then some p.datagram else none) ∘
        Packet.mk k) = some := by
      ext1 d
      exact if_pos hk
    rw [hall, List.filterMap_some, if_pos hk]
  · have hnone : ∀ d ∈ ds, ((fun p : Packet M => if p.sender = m then some p.datagram else none) ∘
        Packet.mk k) d = none := fun _ _ => if_neg hk
    rw [List.filterMap_eq_nil_iff.mpr hnone, if_neg hk]

theorem pressed_append (m : M) (as : List (Action M)) (a : Action M) :
    pressed m (as ++ [a]) = pressed m as ++ (a.key m).toList :=
  filterMap_concat ..

/-! ## What a step preserves -/

variable {ip : M → InAddr} {g t : Lan M} {a : Action M} {as : List (Action M)}

/-- A peer has sent what `main` has sent by then, and the lines that its keys mean but for those
that are still in the input. -/
def SaidBy (ip : M → InAddr) (as : List (Action M)) (g : Lan M) (m : M) : Prop :=
  ∃ spoken, sentBy g.network m = (announcement (ip m)).take (g.announced m) ++ spoken ∧
    (g.announced m < 2 → spoken = []) ∧
    ∀ later, spoken ++ typedLines (g.stdin m ++ later) = typedLines (pressed m as ++ later)

def Said (ip : M → InAddr) (as : List (Action M)) (g : Lan M) : Prop := ∀ m, SaidBy ip as g m

theorem said_start : Said ip ([] : List (Action M)) Lan.start :=
  fun _ => ⟨[], rfl, fun _ => rfl, fun _ => rfl⟩

/-- What others do. -/
theorem SaidBy.keep {m : M} (h : SaidBy ip as g m)
    (hsent : sentBy t.network m = sentBy g.network m) (hannounced : t.announced m = g.announced m)
    (hstdin : t.stdin m = g.stdin m) (hkey : a.key m = none) : SaidBy ip (as ++ [a]) t m := by
  rw [SaidBy, hsent, hannounced, hstdin, pressed_append, hkey, Option.toList_none, List.append_nil]
  exact h

/-- A datagram of `main` is sent. -/
theorem SaidBy.announce {m : M} (h : SaidBy ip as g m) {d : Datagram}
    (hd : (announcement (ip m))[g.announced m]? = some d)
    (hsent : sentBy t.network m = sentBy g.network m ++ [d])
    (hannounced : t.announced m = g.announced m + 1) (hstdin : t.stdin m = g.stdin m)
    (hkey : a.key m = none) : SaidBy ip (as ++ [a]) t m := by
  obtain ⟨spoken, hold, hfirst, hkeys⟩ := h
  have hnil : spoken = [] := hfirst (List.getElem?_eq_some_iff.mp hd).1
  subst hnil
  rw [SaidBy, hannounced, hstdin, pressed_append, hkey, Option.toList_none, List.append_nil]
  refine ⟨[], ?_, fun _ => rfl, hkeys⟩
  rw [hsent, hold, List.take_add_one, hd, List.append_nil, List.append_nil, Option.toList_some]

/-- A key is pressed. -/
theorem SaidBy.press {m : M} (h : SaidBy ip as g m) {key : UInt8}
    (hsent : sentBy t.network m = sentBy g.network m) (hannounced : t.announced m = g.announced m)
    (hstdin : t.stdin m = g.stdin m ++ [key]) (hkey : a.key m = some key) :
    SaidBy ip (as ++ [a]) t m := by
  obtain ⟨spoken, hold, hfirst, hkeys⟩ := h
  rw [SaidBy, hsent, hannounced, hstdin, pressed_append, hkey, Option.toList_some]
  refine ⟨spoken, hold, hfirst, fun later => ?_⟩
  rw [List.append_assoc, List.append_assoc]
  exact hkeys ([key] ++ later)

/-- An iteration of `speak_thread`. -/
theorem SaidBy.speak {m : M} (h : SaidBy ip as g m) (hall : g.announced m = 2) {rest : CString}
    {listed : Bool} {new : List Datagram} (hbody : speakBody (g.stdin m) = some (rest, listed, new))
    (hsent : sentBy t.network m = sentBy g.network m ++ new)
    (hannounced : t.announced m = g.announced m) (hstdin : t.stdin m = rest)
    (hkey : a.key m = none) : SaidBy ip (as ++ [a]) t m := by
  obtain ⟨spoken, hold, -, hkeys⟩ := h
  rw [SaidBy, hannounced, hstdin, pressed_append, hkey, Option.toList_none, List.append_nil]
  refine ⟨spoken ++ new, ?_, fun hlt => absurd hall (Nat.ne_of_lt hlt), fun later => ?_⟩
  · rw [hsent, hold, List.append_assoc]
  · rw [List.append_assoc, ← speakBody_typedLines hbody]
    exact hkeys later

theorem said_step (h : Said ip as g) (hstep : Lan.step ip g a = some t) : Said ip (as ++ [a]) t := by
  intro m
  cases a with
  | announce k =>
    obtain ⟨d, hd, rfl⟩ := Option.map_eq_some_iff.mp hstep
    have hsent : sentBy (g.network ++ [⟨k, d⟩]) m =
        sentBy g.network m ++ if k = m then [d] else [] := by
      rw [sentBy_append]
      exact congrArg _ (sentBy_map [d] k m)
    by_cases hk : k = m
    · subst hk
      rw [if_pos rfl] at hsent
      exact (h k).announce hd hsent (Function.update_self ..) rfl rfl
    · rw [if_neg hk, List.append_nil] at hsent
      exact (h m).keep hsent (Function.update_of_ne (Ne.symm hk) _ _) rfl rfl
  | press k key =>
    cases hstep
    by_cases hk : k = m
    · subst hk
      exact (h k).press rfl rfl (Function.update_self ..) (if_pos rfl)
    · exact (h m).keep rfl rfl (Function.update_of_ne (Ne.symm hk) _ _) (if_neg hk)
  | speak k =>
    obtain ⟨⟨hrunning, -⟩, hstep⟩ := Option.ite_none_right_eq_some.mp hstep
    obtain ⟨⟨rest, listed, new⟩, hbody, rfl⟩ := Option.map_eq_some_iff.mp hstep
    have hsent : sentBy (g.network ++ new.map (Packet.mk k)) m =
        sentBy g.network m ++ if k = m then new else [] := by
      rw [sentBy_append, sentBy_map]
    by_cases hk : k = m
    · subst hk
      rw [if_pos rfl] at hsent
      exact (h k).speak hrunning.1 hbody hsent rfl (Function.update_self ..) rfl
    · rw [if_neg hk, List.append_nil] at hsent
      exact (h m).keep hsent rfl (Function.update_of_ne (Ne.symm hk) _ _) rfl
  | row k =>
    obtain ⟨-, hstep⟩ := Option.ite_none_right_eq_some.mp hstep
    obtain ⟨i, -, rfl⟩ := Option.map_eq_some_iff.mp hstep
    exact (h m).keep rfl rfl rfl rfl
  | deliver k i =>
    obtain ⟨-, hstep⟩ := Option.ite_none_right_eq_some.mp hstep
    obtain ⟨p, -, rfl⟩ := Option.map_eq_some_iff.mp hstep
    exact (h m).keep rfl rfl rfl rfl
  | copy k =>
    obtain ⟨-, hstep⟩ := Option.ite_none_right_eq_some.mp hstep
    obtain ⟨n, -, rfl⟩ := Option.map_eq_some_iff.mp hstep
    exact (h m).keep rfl rfl rfl rfl

/-- What a peer has received has been sent, and with what it has printed it is that of some
deeds. -/
structure Heard (g : Lan M) : Prop where
  sent : ∀ m, ∀ p ∈ g.received m, p ∈ g.network
  parsed : ∀ m, ∃ deeds b, Parsed (g.session m) (g.copied m) (g.row m)
    ((g.received m).map Packet.text) deeds b

/-- One peer does something; what it has received has been sent. -/
theorem Heard.local (h : Heard g) (k : M)
    (hnetwork : ∀ p ∈ g.network, p ∈ t.network) (hreceived : ∀ p ∈ t.received k, p ∈ t.network)
    (hother : ∀ m, m ≠ k → t.received m = g.received m ∧ t.session m = g.session m ∧
      t.copied m = g.copied m ∧ t.row m = g.row m)
    (hparsed : ∃ deeds b, Parsed (t.session k) (t.copied k) (t.row k)
      ((t.received k).map Packet.text) deeds b) : Heard t := by
  constructor
  · intro m p hp
    by_cases hm : m = k
    · subst hm
      exact hreceived p hp
    · rw [(hother m hm).1] at hp
      exact hnetwork p (h.sent m p hp)
  · intro m
    by_cases hm : m = k
    · subst hm
      exact hparsed
    · obtain ⟨hreceived, hsession, hcopied, hrow⟩ := hother m hm
      rw [hreceived, hsession, hcopied, hrow]
      exact h.parsed m

theorem heard_step (h : Heard g) (hstep : Lan.step ip g a = some t) : Heard t := by
  have hold : ∀ (new : List (Packet M)) (m : M), ∀ p ∈ g.received m, p ∈ g.network ++ new :=
    fun new m p hp => List.mem_append_left new (h.sent m p hp)
  cases a with
  | announce k =>
    obtain ⟨d, -, rfl⟩ := Option.map_eq_some_iff.mp hstep
    exact ⟨hold _, h.parsed⟩
  | press k key =>
    cases hstep
    exact ⟨h.sent, h.parsed⟩
  | speak k =>
    obtain ⟨⟨-, hrow⟩, hstep⟩ := Option.ite_none_right_eq_some.mp hstep
    obtain ⟨⟨rest, listed, sent⟩, -, rfl⟩ := Option.map_eq_some_iff.mp hstep
    cases listed with
    | false => exact ⟨hold _, h.parsed⟩
    | true =>
      have hother : ∀ m, m ≠ k → Function.update g.row k (some 0) m = g.row m :=
        fun m hm => Function.update_of_ne hm _ _
      obtain ⟨deeds, b, hparsed⟩ := h.parsed k
      rw [hrow] at hparsed
      refine h.local k (fun p => List.mem_append_left _) (hold _ k)
        (fun m hm => ⟨rfl, rfl, rfl, hother m hm⟩) ?_
      show ∃ deeds b, Parsed _ _ (Function.update g.row k (some 0) k) _ deeds b
      rw [Function.update_self]
      exact hparsed.list
  | row k =>
    obtain ⟨hrunning, hstep⟩ := Option.ite_none_right_eq_some.mp hstep
    obtain ⟨i, hrow, rfl⟩ := Option.map_eq_some_iff.mp hstep
    obtain ⟨deeds, b, hparsed⟩ := h.parsed k
    rw [hrow] at hparsed
    refine h.local k (fun _ => id) (h.sent k) (fun m hm => ⟨rfl, Function.update_of_ne hm _ _, rfl,
      Function.update_of_ne hm _ _⟩) ?_
    show ∃ deeds b, Parsed (Function.update g.session k _ k) _ (Function.update g.row k _ k) _
      deeds b
    rw [Function.update_self, Function.update_self]
    rw [Session.listRow]
    by_cases hi : i < (g.session k).clientsNum
    · rw [if_pos hi, if_pos hi]
      exact hparsed.printRow hrunning.2 hi
    · rw [if_neg hi, if_neg hi]
      exact hparsed.listed hrunning.2 hi
  | deliver k i =>
    obtain ⟨⟨hrunning, hcopied⟩, hstep⟩ := Option.ite_none_right_eq_some.mp hstep
    obtain ⟨p, hp, rfl⟩ := Option.map_eq_some_iff.mp hstep
    obtain ⟨deeds, b, hparsed⟩ := h.parsed k
    rw [hcopied] at hparsed
    have hreceived : (g.listen k p).received k = g.received k ++ [p] := Function.update_self ..
    refine h.local k (fun _ => id) (fun q hq => ?_) (fun m hm => ⟨Function.update_of_ne hm _ _,
      Function.update_of_ne hm _ _, Function.update_of_ne hm _ _, rfl⟩) ?_
    · rw [hreceived] at hq
      rcases List.mem_append.mp hq with hq | hq
      · exact h.sent k q hq
      · rw [List.mem_singleton.mp hq]
        exact List.mem_of_getElem? hp
    · rw [hreceived, List.map_append]
      show ∃ deeds b, Parsed (Function.update g.session k _ k) (Function.update g.copied k _ k) _ _
        deeds b
      rw [Function.update_self, Function.update_self]
      exact hparsed.receive hrunning.2 p.datagram
  | copy k =>
    obtain ⟨-, hstep⟩ := Option.ite_none_right_eq_some.mp hstep
    obtain ⟨n, hcopied, rfl⟩ := Option.map_eq_some_iff.mp hstep
    obtain ⟨deeds, b, hparsed⟩ := h.parsed k
    rw [hcopied] at hparsed
    refine h.local k (fun _ => id) (h.sent k) (fun m hm => ⟨rfl, rfl, Function.update_of_ne hm _ _,
      rfl⟩) ?_
    show ∃ deeds b, Parsed _ (Function.update g.copied k _ k) _ _ deeds b
    rw [Function.update_self]
    split
    · exact ⟨deeds, b, hparsed.copy (n + 1)⟩
    · exact hparsed.stored

/-! ## Runs -/

/-- What a peer receives is the marker or the address of its sender, or a line that the sender's
keys mean. -/
theorem source_of_received (hsaid : Said ip as g) (hheard : Heard g) {m : M} {p : Packet M}
    (hp : p ∈ g.received m) : p.datagram = enterDatagram ∨ p.datagram = ipDatagram (ip p.sender) ∨
      p.datagram ∈ typedLines (pressed p.sender as) := by
  obtain ⟨spoken, hsent, -, hkeys⟩ := hsaid p.sender
  have hmem : p.datagram ∈ sentBy g.network p.sender :=
    List.mem_filterMap.mpr ⟨p, hheard.sent m p hp, if_pos rfl⟩
  rw [hsent] at hmem
  rcases List.mem_append.mp hmem with hmain | hline
  · rcases List.mem_cons.mp (List.mem_of_mem_take hmain) with hmarker | haddress
    · exact Or.inl hmarker
    · exact Or.inr (Or.inl (List.mem_singleton.mp haddress))
  · have hall := hkeys []
    rw [List.append_nil, List.append_nil] at hall
    refine Or.inr (Or.inr ?_)
    rw [← hall]
    exact List.mem_append_left _ hline

/-- **What is said, stored and printed.** In every run and for every peer: it has sent what `main`
has sent by then, and then the lines that its keys mean but for those still in its input; what it
has received and printed is what some deeds of its two threads are, in a run of its board: names
that follow a marker each and lines come in, the lines and the rows of its listings have been
printed in this order, and the names are its table as long as no store has left it; and all it has
received are markers, addresses of their senders and lines that their senders' keys mean. -/
theorem peers_run (hrun : exec (Lan.step ip) .start as = some g) (m : M) :
    (∃ spoken, sentBy g.network m = (announcement (ip m)).take (g.announced m) ++ spoken ∧
      typedLines (pressed m as) = spoken ++ typedLines (g.stdin m)) ∧
    (∃ deeds b, Parsed (g.session m) (g.copied m) (g.row m) ((g.received m).map Packet.text)
      deeds b) ∧
    ∀ p ∈ g.received m, p.datagram = enterDatagram ∨ p.datagram = ipDatagram (ip p.sender) ∨
      p.datagram ∈ typedLines (pressed p.sender as) := by
  have hsaid : Said ip as g :=
    exec_history (fun _ _ _ _ => said_step) said_start hrun
  have hheard : Heard g := exec_preserves (fun _ _ _ => heard_step)
    ⟨fun _ p hp => absurd hp List.not_mem_nil, fun _ => ⟨[], .start, parsed_start⟩⟩ hrun
  refine ⟨?_, hheard.parsed m, fun p => source_of_received hsaid hheard⟩
  obtain ⟨spoken, hsent, -, hkeys⟩ := hsaid m
  have hall := hkeys []
  rw [List.append_nil, List.append_nil] at hall
  exact ⟨spoken, hsent, hall.symm⟩

end

/-- Two peers announce themselves to the first one, which lists its table; between the two rows a
line of the second one comes in. -/
def listing : List (Action Bool) :=
  [.announce false, .announce false, .announce true, .announce true,
    .press true 104, .press true 105, .press true 10, .speak true,
    .deliver false 0, .deliver false 1] ++ List.replicate 9 (.copy false) ++
  [.deliver false 2, .deliver false 3] ++ List.replicate 9 (.copy false) ++
  [.press false 45, .speak false, .row false, .deliver false 4, .row false, .row false]

theorem peers_run_listing : ∃ g deeds b, exec (Lan.step twoIps) Lan.start listing = some g ∧
    exec Board.step .start deeds = some b ∧ b.names = [ascii "10.0.0.1", ascii "10.0.0.2"] ∧
      deeds.filterMap Deed.printed? = [ascii "10.0.0.1", ascii "hi", ascii "10.0.0.2"] := by
  have hlisting : (exec (Lan.step twoIps) Lan.start listing).map (fun g =>
      ((g.session false).undefined, (g.session false).entries, (g.session false).printed)) =
      some (false, [ascii "10.0.0.1", ascii "10.0.0.2"],
        [ascii "10.0.0.1", ascii "hi", ascii "10.0.0.2"]) := by decide +kernel
  obtain ⟨g, hrun, hsession⟩ := Option.map_eq_some_iff.mp hlisting
  obtain ⟨hdefined, hrest⟩ := Prod.mk.inj hsession
  obtain ⟨hentries, hprinted⟩ := Prod.mk.inj hrest
  obtain ⟨-, ⟨deeds, b, hparsed⟩, -⟩ := peers_run hrun false
  exact ⟨g, deeds, b, hrun, hparsed.run, (hparsed.entries hdefined).symm.trans hentries,
    hparsed.printed.symm.trans hprinted⟩

end Spolks.Chat.Broadcast
