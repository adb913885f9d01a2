import Spolks.Chat.Broadcast

/-!
# `lab3_2/session_v3.c`: reading back what is sent

Announcements and lines whose datagrams come one after the other, with the table listed in
between.

* `exec_item`: one announcement, line or listing.
* `items_round_trip`: all of them are read as such.
-/

namespace Spolks.Chat.Broadcast

open Lib Sockcore

/-! ## Announcements and lines -/

/-- What a listener takes its datagrams for; in between, the table can be listed. -/
inductive Item where
  | client (name : CString)
  | line (text : CString)
  | list
  deriving DecidableEq

def Item.name? : Item → Option CString
  | client name => some name
  | line _ => none
  | list => none

/-- The table that they leave. -/
def names (items : List Item) : List CString := items.filterMap Item.name?

/-- What is printed for them, when the table holds these names. -/
def shown : List CString → List Item → List CString
  | _, [] => []
  | table, .client name :: items => shown (table ++ [name]) items
  | table, .line text :: items => text :: shown table items
  | table, .list :: items => table ++ shown table items

theorem names_append (items items' : List Item) :
    names (items ++ items') = names items ++ names items' := List.filterMap_append ..

theorem shown_append (table : List CString) (items items' : List Item) :
    shown table (items ++ items') = shown table items ++ shown (table ++ names items) items' := by
  induction items generalizing table with
  | nil => rw [List.nil_append, shown, names, List.filterMap_nil, List.append_nil, List.nil_append]
  | cons item items ih =>
    cases item with
    | client name =>
      rw [List.cons_append, shown, shown, ih, List.append_assoc]
      rfl
    | line text =>
      rw [List.cons_append, shown, shown, ih, List.cons_append]
      rfl
    | list =>
      rw [List.cons_append, shown, shown, ih, List.append_assoc]
      rfl

/-! ## What comes one after the other -/

/-- What `sendto` sends for an item, or the listing. -/
def Item.events : Item → List Event
  | .client name => ((sendto enter ++ sendto name).map .datagram)
  | .line text => (sendto text).map .datagram
  | .list => [.list]

/-- The texts go through a datagram as they are, a name fits into a row, and a line is no
marker. -/
def Item.Sendable : Item → Prop
  | .client name => 0 ∉ name ∧ name.length < 1000
  | .line text => 0 ∉ text ∧ text.length ≤ 65507 ∧ text ≠ enter
  | .list => True

/-- The session after some items, when none of them has been lost. -/
structure Reads (s : Session) (items : List Item) (t : Session) : Prop where
  awaiting : t.awaiting = false
  defined : t.undefined = false
  clientsNum : t.clientsNum = s.clientsNum + (names items).length
  entries : t.entries = s.entries ++ names items
  printed : t.printed = s.printed ++ shown s.entries items

theorem sendto_eq {text : CString} (h : text.length ≤ 65507) : sendto text = [⟨text, h⟩] := dif_pos h

theorem Reads.trans {s t u : Session} {xs ys : List Item} (h : Reads s xs t) (h' : Reads t ys u) :
    Reads s (xs ++ ys) u where
  awaiting := h'.awaiting
  defined := h'.defined
  clientsNum := by
    rw [h'.clientsNum, h.clientsNum, names_append, List.length_append, Nat.add_assoc]
  entries := by rw [h'.entries, h.entries, names_append, List.append_assoc]
  printed := by rw [h'.printed, h.printed, h.entries, shown_append, List.append_assoc]

theorem exec_item {s : Session} (hawaiting : s.awaiting = false) (hdefined : s.undefined = false)
    {item : Item} (hitem : item.Sendable) (hroom : s.clientsNum + (names [item]).length ≤ 10) :
    ∃ t, exec step s item.events = some t ∧ Reads s [item] t := by
  cases item with
  | client name =>
    obtain ⟨hnul, hshort⟩ := hitem
    have hlen : name.length ≤ 65507 := by omega
    have htext : (Datagram.mk name hlen).text = name := Datagram.text_of_notMem hnul
    have hmarked := step_eq hdefined (.datagram enterDatagram)
    rw [Session.after, Session.receive_enter hawaiting enterDatagram_text] at hmarked
    have hstored : step { s with awaiting := true } (.datagram ⟨name, hlen⟩) =
        some (Session.store { s with awaiting := true } name) := by
      rw [step_eq (s := { s with awaiting := true }) hdefined, Session.after,
        Session.receive_store rfl, htext]
    have hfits : (Session.store { s with awaiting := true } name).undefined = false :=
      Session.store_defined_iff.mpr ⟨hroom, hshort⟩
    refine ⟨_, ?_, rfl, hfits, rfl, Session.entries_store hfits, (List.append_nil _).symm⟩
    rw [Item.events, sendto_eq hlen]
    exact exec_cons_iff.mpr ⟨_, hmarked, exec_single hstored⟩
  | line text =>
    obtain ⟨hnul, hlen, hne⟩ := hitem
    have htext : (Datagram.mk text hlen).text = text := Datagram.text_of_notMem hnul
    have hprinted := step_eq hdefined (.datagram ⟨text, hlen⟩)
    rw [Session.after, Session.receive_line hawaiting (htext.symm ▸ hne), htext] at hprinted
    refine ⟨{ s with printed := s.printed ++ [text] }, ?_, hawaiting, hdefined, rfl,
      (List.append_nil _).symm, rfl⟩
    rw [Item.events, sendto_eq hlen]
    exact exec_single hprinted
  | list =>
    refine ⟨s.list, exec_single (step_eq hdefined _), hawaiting, hdefined, rfl,
      (List.append_nil _).symm, ?_⟩
    show s.printed ++ s.entries = s.printed ++ (s.entries ++ [])
    rw [List.append_nil]

theorem exec_items {s : Session} (hawaiting : s.awaiting = false) (hdefined : s.undefined = false)
    {items : List Item} (hitems : ∀ item ∈ items, item.Sendable)
    (hroom : s.clientsNum + (names items).length ≤ 10) :
    ∃ t, exec step s (items.flatMap Item.events) = some t ∧ Reads s items t := by
  induction items generalizing s with
  | nil =>
    exact ⟨s, rfl, hawaiting, hdefined, rfl, (List.append_nil _).symm, (List.append_nil _).symm⟩
  | cons item items ih =>
    have hnames : (names (item :: items)).length = (names [item]).length + (names items).length := by
      rw [← List.length_append, ← names_append]
      rfl
    obtain ⟨m, hm, hread⟩ := exec_item hawaiting hdefined
      (hitems item (List.mem_cons_self ..)) (by omega)
    obtain ⟨t, ht, hrest⟩ := ih hread.awaiting hread.defined
      (fun item hitem => hitems item (List.mem_cons_of_mem _ hitem)) (by
        rw [hread.clientsNum]
        omega)
    exact ⟨t, exec_append hm ht, hread.trans hrest⟩

/-- **Round trip.** Announcements and lines whose datagrams come one after the other, with the
table listed in between: when there are at most ten names, all of them are in the table in this
order, all lines have been printed, and each listing shows the names before it. -/
theorem items_round_trip {items : List Item} (hitems : ∀ item ∈ items, item.Sendable)
    (hroom : (names items).length ≤ 10) :
    ∃ s, exec step Session.start (items.flatMap Item.events) = some s ∧ s.awaiting = false ∧
      s.undefined = false ∧ s.entries = names items ∧ s.printed = shown [] items := by
  obtain ⟨s, hrun, hread⟩ := exec_items (s := Session.start) rfl rfl hitems
    ((Nat.zero_add _).trans_le hroom)
  exact ⟨s, hrun, hread.awaiting, hread.defined, hread.entries, hread.printed⟩

/-- A peer announces itself and says `hi`, and then the table is listed. -/
theorem items_round_trip_hi : ∃ s, exec step Session.start
    ([Item.client (ascii "10.0.0.1"), .line (ascii "hi"), .list].flatMap Item.events) = some s ∧
      s.printed = [ascii "hi", ascii "10.0.0.1"] := by
  have hitems : ∀ item ∈ [Item.client (ascii "10.0.0.1"), .line (ascii "hi"), .list],
      item.Sendable := by
    intro item hitem
    simp only [List.mem_cons, List.not_mem_nil, or_false] at hitem
    rcases hitem with rfl | rfl | rfl
    · exact ⟨by decide, by decide⟩
    · exact ⟨by decide, by decide, by decide⟩
    · trivial
  obtain ⟨s, hrun, -, -, -, hprinted⟩ := items_round_trip hitems (Nat.succ_le_succ (Nat.zero_le 9))
  exact ⟨s, hrun, hprinted⟩

end Spolks.Chat.Broadcast
