import Mathlib.Logic.Function.Basic
import Spolks.Chat.Datagram
import Spolks.Lib.Transition

/-!
# `lab3_2/session_v3.c`: the table of clients

`listen_thread` prints the datagrams that it receives. After a marker it takes whatever comes
next for the address of a new client and copies it to the next row of a table of ten rows
of 1000 bytes each; `speak_thread` lists the rows in use, all at once or row by row with the
other thread going on between. Behind a store that does not fit, which has no defined meaning,
no further step is modelled.

`table_bounds_iff` says which runs keep within the table.
-/

namespace Spolks.Chat.Broadcast

open Lib Sockcore

def enter : CString := ascii "*_EC"

/-- A call of `strcpy`: the row it goes to and the bytes it writes, the `NUL` included. -/
structure Store where
  row : Nat
  bytes : Nat

def Store.InBounds (st : Store) : Prop := st.row < 10 ∧ st.bytes ≤ 1000

instance (st : Store) : Decidable st.InBounds := inferInstanceAs (Decidable (_ ∧ _))

/-- A process: what its two threads share and what they have done. -/
structure Session where
  /-- `listen_thread` is in its second call of `recvfrom`. -/
  awaiting : Bool
  client : Nat → CString
  clientsNum : Nat
  printed : List CString
  stores : List Store
  /-- The rows that `speak_thread` has read. -/
  listed : List Nat
  undefined : Bool

namespace Session

def start : Session where
  awaiting := false
  client _ := []
  clientsNum := 0
  printed := []
  stores := []
  listed := []
  undefined := false

/-- `strcpy(client[clientsNum++], buffer_rd)` -/
def store (s : Session) (text : CString) : Session :=
  let st : Store := ⟨s.clientsNum, text.length + 1⟩
  { s with
    awaiting := false
    client := if st.InBounds then Function.update s.client s.clientsNum text else s.client
    clientsNum := s.clientsNum + 1
    stores := s.stores ++ [st]
    undefined := !decide st.InBounds }

/-- A call of `recvfrom` comes back to `listen_thread`. -/
def receive (s : Session) (d : Datagram) : Session :=
  if s.awaiting then s.store d.text
  else if d.text = enter then { s with awaiting := true }
  else { s with printed := s.printed ++ [d.text] }

theorem receive_store {s : Session} (h : s.awaiting = true) (d : Datagram) :
    s.receive d = s.store d.text := if_pos h

theorem receive_enter {s : Session} {d : Datagram} (h : s.awaiting = false) (hd : d.text = enter) :
    s.receive d = { s with awaiting := true } := by
  rw [receive, if_neg (by simp [h]), if_pos hd]

theorem receive_line {s : Session} {d : Datagram} (h : s.awaiting = false) (hd : d.text ≠ enter) :
    s.receive d = { s with printed := s.printed ++ [d.text] } := by
  rw [receive, if_neg (by simp [h]), if_neg hd]

/-- The names in the rows in use. -/
def entries (s : Session) : List CString := (List.range s.clientsNum).map s.client

/-- What is read in a row while `copied` bytes of the last name are in place, or all of them. -/
def seen (s : Session) (copied : Option Nat) (row : Nat) : CString :=
  match copied with
  | some n => if row + 1 = s.clientsNum then (s.client row).take n else s.client row
  | none => s.client row

/-- The body of the loop over the rows in `speak_thread`. -/
def printRow (s : Session) (copied : Option Nat) (row : Nat) : Session :=
  { s with
    printed := s.printed ++ [s.seen copied row]
    listed := s.listed ++ [row] }

/-- The condition of the loop, and the body while it holds. -/
def listRow (s : Session) (copied : Option Nat) (row : Nat) : Session :=
  if row < s.clientsNum then s.printRow copied row else s

/-- The whole loop, when `listen_thread` does nothing meanwhile. -/
def list (s : Session) : Session :=
  { s with
    printed := s.printed ++ s.entries
    listed := s.listed ++ List.range s.clientsNum }

theorem foldl_printRow (s : Session) (rows : List Nat) :
    rows.foldl (fun t row => t.printRow none row) s =
      { s with
        printed := s.printed ++ rows.map s.client
        listed := s.listed ++ rows } := by
  induction rows generalizing s with
  | nil => rw [List.foldl_nil, List.map_nil, List.append_nil, List.append_nil]
  | cons row rows ih =>
    rw [List.foldl_cons, ih]
    show { s with
      printed := (s.printed ++ [s.client row]) ++ rows.map s.client
      listed := (s.listed ++ [row]) ++ rows } = _
    rw [List.append_assoc, List.append_assoc]
    rfl

/-- Its iterations one after the other. -/
theorem list_eq (s : Session) :
    s.list = (List.range s.clientsNum).foldl (fun t row => t.printRow none row) s :=
  (foldl_printRow s _).symm

theorem store_defined_iff {s : Session} {text : CString} :
    (s.store text).undefined = false ↔ s.clientsNum < 10 ∧ text.length < 1000 := by
  show (!decide (Store.mk s.clientsNum (text.length + 1)).InBounds) = false ↔ _
  rw [Bool.not_eq_false', decide_eq_true_iff]
  exact Iff.rfl

theorem entries_store {s : Session} {text : CString} (h : (s.store text).undefined = false) :
    (s.store text).entries = s.entries ++ [text] := by
  have hfits : (Store.mk s.clientsNum (text.length + 1)).InBounds := store_defined_iff.mp h
  have hclient : (s.store text).client = Function.update s.client s.clientsNum text := if_pos hfits
  rw [entries, hclient]
  show (List.range (s.clientsNum + 1)).map _ = _
  rw [List.range_succ, List.map_append, List.map_singleton, Function.update_self, entries]
  congr 1
  apply List.map_congr_left
  intro row hrow
  exact Function.update_of_ne (Nat.ne_of_lt (List.mem_range.mp hrow)) _ _

end Session

inductive Event where
  | datagram (d : Datagram)
  | list
  | row (copied : Option Nat) (row : Nat)

def Session.after (s : Session) : Event → Session
  | .datagram d => s.receive d
  | .list => s.list
  | .row copied row => s.listRow copied row

def step (s : Session) (e : Event) : Option Session :=
  if s.undefined then none else some (s.after e)

theorem step_eq {s : Session} (h : s.undefined = false) (e : Event) :
    step s e = some (s.after e) := if_neg (by simp [h])

theorem step_cases {s t : Session} {e : Event} (h : step s e = some t) :
    s.undefined = false ∧ t = s.after e := by
  rw [step] at h
  split at h
  · cases h
  · next hdefined => exact ⟨Bool.eq_false_of_not_eq_true hdefined, (Option.some.inj h).symm⟩

/-! ## Bounds -/

/-- The counter and all rows stored to or read are within the table. -/
def Bounded (s : Session) : Prop :=
  s.clientsNum ≤ 10 ∧ (∀ st ∈ s.stores, st.InBounds) ∧ ∀ row ∈ s.listed, row < 10

/-- A datagram that is to be stored finds a free row and fits into it. -/
def Fits (s : Session) (e : Event) : Prop :=
  ∀ d, e = .datagram d → s.awaiting → s.clientsNum < 10 ∧ d.text.length < 1000

theorem bounded_store_iff {s : Session} (hs : Bounded s) (text : CString) :
    Bounded (s.store text) ↔ s.clientsNum < 10 ∧ text.length < 1000 := by
  obtain ⟨-, hstores, hlisted⟩ := hs
  constructor
  · rintro ⟨-, hall, -⟩
    have hlast : (Store.mk s.clientsNum (text.length + 1)).InBounds :=
      hall _ (List.mem_append_right _ (List.mem_singleton_self _))
    exact ⟨hlast.1, hlast.2⟩
  · rintro ⟨hrow, hlen⟩
    refine ⟨hrow, fun st hst => ?_, hlisted⟩
    rcases List.mem_append.mp hst with hold | hnew
    · exact hstores st hold
    · rw [List.mem_singleton.mp hnew]
      exact ⟨hrow, hlen⟩

theorem bounded_receive_iff {s : Session} (hs : Bounded s) (d : Datagram) :
    Bounded (s.receive d) ↔ (s.awaiting → s.clientsNum < 10 ∧ d.text.length < 1000) := by
  cases hawaiting : s.awaiting with
  | true =>
    rw [Session.receive_store hawaiting, bounded_store_iff hs]
    exact ⟨fun h _ => h, fun h => h rfl⟩
  | false =>
    have hkept : Bounded (s.receive d) := by
      by_cases hd : d.text = enter
      · rw [Session.receive_enter hawaiting hd]
        exact hs
      · rw [Session.receive_line hawaiting hd]
        exact hs
    exact ⟨fun _ hno => absurd hno Bool.false_ne_true, fun _ => hkept⟩

/-- The listing loop reads rows that exist. -/
theorem bounded_list {s : Session} (hs : Bounded s) : Bounded s.list := by
  obtain ⟨hnum, hstores, hlisted⟩ := hs
  refine ⟨hnum, hstores, fun row hrow => ?_⟩
  rcases List.mem_append.mp hrow with hold | hnew
  · exact hlisted row hold
  · exact (List.mem_range.mp hnew).trans_le hnum

theorem bounded_listRow {s : Session} (hs : Bounded s) (copied : Option Nat) (row : Nat) :
    Bounded (s.listRow copied row) := by
  rw [Session.listRow]
  split
  · next hrow =>
    obtain ⟨hnum, hstores, hlisted⟩ := hs
    refine ⟨hnum, hstores, fun i hi => ?_⟩
    rcases List.mem_append.mp hi with hold | hnew
    · exact hlisted i hold
    · rw [List.mem_singleton.mp hnew]
      exact hrow.trans_le hnum
  · exact hs

theorem bounded_step_iff {s t : Session} {e : Event} (hs : Bounded s) (h : step s e = some t) :
    Bounded t ↔ Fits s e := by
  obtain ⟨-, rfl⟩ := step_cases h
  cases e with
  | datagram d =>
    rw [Session.after, bounded_receive_iff hs]
    constructor
    · intro hfits other hother
      cases hother
      exact hfits
    · intro hfits
      exact hfits d rfl
  | list =>
    refine ⟨fun _ d hd => ?_, fun _ => bounded_list hs⟩
    cases hd
  | row copied row =>
    refine ⟨fun _ d hd => ?_, fun _ => bounded_listRow hs copied row⟩
    cases hd

theorem bounded_start : Bounded Session.start :=
  ⟨Nat.zero_le 10, fun _ hst => absurd hst List.not_mem_nil, fun _ hrow => absurd hrow List.not_mem_nil⟩

/-- **Bounds of the table.** All states of a run are within the table exactly when each
datagram that follows a marker finds fewer than ten names in it and holds a text of fewer
than 1000 bytes. -/
theorem table_bounds_iff {es : List Event} {s : Session}
    (hrun : exec step Session.start es = some s) :
    Throughout step Bounded Session.start es ↔ Guarded step Fits Session.start es :=
  throughout_iff_guarded (I := fun _ => True) (fun _ _ _ _ _ => trivial)
    (fun _ _ _ _ hs h => bounded_step_iff hs h) trivial bounded_start hrun

/-! ## A name that does not fit -/

def enterDatagram : Datagram := ⟨enter, by decide⟩

theorem enterDatagram_text : enterDatagram.text = enter := Datagram.text_of_notMem (by decide)

/-- A session after its first marker. -/
def marked : Session := { Session.start with awaiting := true }

theorem start_receive_enter : Session.start.receive enterDatagram = marked :=
  Session.receive_enter rfl enterDatagram_text

def longText : Datagram := ⟨List.replicate 1000 65, by rw [List.length_replicate]; decide⟩

theorem longText_length : longText.text.length = 1000 := by
  have hzero : (0 : UInt8) ∉ List.replicate 1000 65 := by
    intro h
    exact absurd (List.eq_of_mem_replicate h) (by decide)
  rw [Datagram.text_of_notMem (d := longText) hzero]
  exact List.length_replicate

/-- A marker, and then a text of 1000 bytes. -/
def longName : List Event := [.datagram enterDatagram, .datagram longText]

theorem exec_longName : exec step Session.start longName = some (marked.receive longText) := by
  refine exec_cons_iff.mpr ⟨marked, ?_, exec_single (step_eq rfl _)⟩
  rw [step_eq rfl, Session.after, start_receive_enter]

theorem table_bounds_longName :
    Throughout step Bounded Session.start longName ↔ Guarded step Fits Session.start longName :=
  table_bounds_iff exec_longName

/-- The table has no room for the text and its terminator. -/
theorem table_overrun :
    ¬ ∀ (es : List Event) (s : Session), exec step Session.start es = some s →
      Throughout step Bounded Session.start es := by
  intro hall
  have hmarked : step Session.start (.datagram enterDatagram) = some marked := by
    rw [step_eq rfl, Session.after, start_receive_enter]
  have hthroughout := (hall longName _ exec_longName).2 _ hmarked
  have hlast := hthroughout.2 _ (step_eq rfl _)
  have hfits := (bounded_receive_iff hthroughout.1 longText).mp hlast rfl
  rw [longText_length] at hfits
  exact absurd hfits.2 (Nat.lt_irrefl 1000)

end Spolks.Chat.Broadcast
