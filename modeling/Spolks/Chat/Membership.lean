import Mathlib.Data.List.Count
import Mathlib.Data.List.Nodup
import Spolks.Chat.Broadcast

/-!
# `lab3_2/session_v3.c`: who is in the table?

Every peer sends the marker, its address and then lines, and its datagrams arrive at a listener
in this order, those of different peers in any order. The listener does not look at the sender:
it takes whatever follows a marker for an address.

* `arrive_awaiting`, `arrive_idle`: what the arrival of a datagram does.
* `membership_iff`: in which orders of arrival the table is right.
-/

namespace Spolks.Chat.Broadcast

open Lib Sockcore

/-! ## Arrivals -/

/-- What a datagram of a peer is for. -/
inductive Kind where
  | marker
  | address
  | line
  deriving DecidableEq

/-- The datagram that a peer sends after `n` others: `main` sends the first two. -/
def Kind.ofCount : Nat → Kind
  | 0 => .marker
  | 1 => .address
  | _ + 2 => .line

theorem Kind.ofCount_eq_address {n : Nat} : ofCount n = .address ↔ n = 1 := by
  rcases n with _ | _ | n
  · simp [ofCount]
  · simp [ofCount]
  · simp [ofCount]

/-- The next datagram of a peer arrives; `line` is what has been typed, if it is a line. -/
structure Arrival (P : Type) where
  sender : P
  line : Datagram

/-- What a user who types nothing sends. -/
def nothing : Datagram := ⟨[], Nat.zero_le _⟩

/-- A datagram that has been taken for an address: its text, and the peer whose address it
is. -/
structure Taken (P : Type) where
  text : CString
  owner : Option P

/-- A listening peer, with the history of what has arrived. -/
structure Group (P : Type) where
  session : Session
  /-- The number of datagrams that have arrived from each peer. -/
  arrived : P → Nat
  /-- The peers whose marker and address have arrived, in the order of their addresses. -/
  announced : List P
  taken : List (Taken P)
  /-- The lines, other than the marker, that have not been printed. -/
  swallowed : List CString

namespace Group

variable {P : Type} (ip : P → InAddr)

def start : Group P where
  session := Session.start
  arrived _ := 0
  announced := []
  taken := []
  swallowed := []

def kind (g : Group P) (a : Arrival P) : Kind := Kind.ofCount (g.arrived a.sender)

def datagram (g : Group P) (a : Arrival P) : Datagram :=
  match g.kind a with
  | .marker => enterDatagram
  | .address => ipDatagram (ip a.sender)
  | .line => a.line

/-- The peer whose address arrives. -/
def owner (g : Group P) (a : Arrival P) : Option P :=
  if g.kind a = .address then some a.sender else none

variable {ip} in
theorem datagram_marker {g : Group P} {a : Arrival P} (h : g.kind a = .marker) :
    g.datagram ip a = enterDatagram := by
  rw [datagram, h]

variable {ip} in
theorem datagram_line {g : Group P} {a : Arrival P} (h : g.kind a = .line) :
    g.datagram ip a = a.line := by
  rw [datagram, h]

theorem owner_eq_some {g : Group P} {a : Arrival P} {j : P} (h : g.owner a = some j) :
    g.kind a = .address ∧ a.sender = j := by
  rw [owner] at h
  split at h
  · next hkind => exact ⟨hkind, Option.some.inj h⟩
  · cases h

variable {ip} in
theorem datagram_of_owner {g : Group P} {a : Arrival P} {j : P} (h : g.owner a = some j) :
    g.datagram ip a = ipDatagram (ip j) := by
  obtain ⟨hkind, rfl⟩ := owner_eq_some h
  rw [datagram, hkind]

variable {ip} in
/-- What is no address is the marker, or a line. -/
theorem owner_eq_none {g : Group P} {a : Arrival P} (h : g.owner a = none) :
    (g.datagram ip a).text = enter ∨ (g.kind a = .line ∧ a.line.text ≠ enter) := by
  cases hkind : g.kind a with
  | marker =>
    rw [datagram_marker hkind]
    exact Or.inl enterDatagram_text
  | address =>
    rw [owner, if_pos hkind] at h
    cases h
  | line =>
    rw [datagram_line hkind]
    by_cases hline : a.line.text = enter
    · exact Or.inl hline
    · exact Or.inr ⟨rfl, hline⟩

variable [DecidableEq P]

/-- The history after an arrival that leads to `session`. -/
def record (g : Group P) (a : Arrival P) (session : Session) : Group P where
  session := session
  arrived := Function.update g.arrived a.sender (g.arrived a.sender + 1)
  announced := g.announced ++ (g.owner a).toList
  taken :=
    if g.session.awaiting then g.taken ++ [⟨(g.datagram ip a).text, g.owner a⟩] else g.taken
  swallowed :=
    if g.kind a = .line ∧ a.line.text ≠ enter ∧
        session.printed ≠ g.session.printed ++ [a.line.text] then
      g.swallowed ++ [a.line.text]
    else g.swallowed

def arrive (g : Group P) (a : Arrival P) : Option (Group P) :=
  (step g.session (.datagram (g.datagram ip a))).map (g.record ip a)

end Group

section

variable {P : Type} [DecidableEq P] {ip : P → InAddr} {g t : Group P} {a : Arrival P}

theorem arrive_cases (h : g.arrive ip a = some t) :
    g.session.undefined = false ∧ t = g.record ip a (g.session.receive (g.datagram ip a)) := by
  obtain ⟨session, hstep, rfl⟩ := Option.map_eq_some_iff.mp h
  obtain ⟨hdefined, rfl⟩ := step_cases hstep
  exact ⟨hdefined, rfl⟩

theorem arrive_eq (h : g.session.undefined = false) (a : Arrival P) :
    g.arrive ip a = some (g.record ip a (g.session.receive (g.datagram ip a))) := by
  rw [Group.arrive, step_eq h, Option.map_some]
  rfl

/-- While an address is awaited, whatever arrives is taken for it. -/
theorem arrive_awaiting (h : g.arrive ip a = some t) (hawaiting : g.session.awaiting = true) :
    t.session = g.session.store (g.datagram ip a).text ∧
      t.announced = g.announced ++ (g.owner a).toList ∧
      t.taken = g.taken ++ [⟨(g.datagram ip a).text, g.owner a⟩] ∧
      t.swallowed = if g.kind a = .line ∧ a.line.text ≠ enter then g.swallowed ++ [a.line.text]
        else g.swallowed := by
  obtain ⟨-, rfl⟩ := arrive_cases h
  have hsession := Session.receive_store hawaiting (g.datagram ip a)
  have hprinted : (g.session.store (g.datagram ip a).text).printed ≠
      g.session.printed ++ [a.line.text] := by
    intro hsame
    cases List.self_eq_append_right.mp hsame
  refine ⟨hsession, rfl, if_pos hawaiting, ?_⟩
  simp only [Group.record, hsession, hprinted, ne_eq, not_false_eq_true, and_true]

/-- Otherwise nothing is stored, and a line is printed or taken for a marker. -/
theorem arrive_idle (h : g.arrive ip a = some t) (hawaiting : g.session.awaiting = false) :
    t.session.undefined = false ∧ t.session.entries = g.session.entries ∧
      t.announced = g.announced ++ (g.owner a).toList ∧ t.taken = g.taken ∧
      t.swallowed = g.swallowed := by
  obtain ⟨hdefined, rfl⟩ := arrive_cases h
  have htaken : (g.record ip a (g.session.receive (g.datagram ip a))).taken = g.taken :=
    if_neg (by simp [hawaiting])
  by_cases hd : (g.datagram ip a).text = enter
  · have hsession := Session.receive_enter hawaiting hd
    refine ⟨by rw [Group.record, hsession]; exact hdefined, by rw [Group.record, hsession]; rfl,
      rfl, htaken, if_neg ?_⟩
    rintro ⟨hline, hne, -⟩
    rw [Group.datagram_line hline] at hd
    exact hne hd
  · have hsession := Session.receive_line hawaiting hd
    refine ⟨by rw [Group.record, hsession]; exact hdefined, by rw [Group.record, hsession]; rfl,
      rfl, htaken, if_neg ?_⟩
    rintro ⟨hline, -, hprinted⟩
    rw [hsession, Group.datagram_line hline] at hprinted
    exact hprinted rfl

end

/-! ## What holds in every run -/

/-- An address taken for what it is. -/
def Taken.own {P : Type} (ip : P → InAddr) (j : P) : Taken P := ⟨inetNtoa (ip j), some j⟩

/-- The table holds the texts taken for addresses; the addresses among them have arrived in
this order, and all else is the marker or a line that was swallowed. -/
structure Inv {P : Type} (ip : P → InAddr) (g : Group P) : Prop where
  texts : g.session.undefined = false → g.session.entries = g.taken.map Taken.text
  own : ∀ x ∈ g.taken, ∀ j, x.owner = some j → x = Taken.own ip j
  sublist : (g.taken.filterMap Taken.owner).Sublist g.announced
  foreign : ∀ x ∈ g.taken, x.owner = none → x.text = enter ∨ g.swallowed ≠ []
  swallowed : g.swallowed ≠ [] → ∃ x ∈ g.taken, x.owner = none
  announced : ∀ j, j ∈ g.announced ↔ 2 ≤ g.arrived j
  nodup : g.announced.Nodup

theorem inv_start {P : Type} {ip : P → InAddr} : Inv ip (Group.start : Group P) where
  texts _ := rfl
  own _ hx := absurd hx List.not_mem_nil
  sublist := List.Sublist.refl []
  foreign _ hx := absurd hx List.not_mem_nil
  swallowed h := absurd rfl h
  announced _ := by simp [Group.start]
  nodup := List.nodup_nil

section

variable {P : Type} [DecidableEq P] {ip : P → InAddr} {g t : Group P} {a : Arrival P}

/-- A peer is among the announced ones from its second datagram on. -/
theorem record_announced (hg : ∀ j, j ∈ g.announced ↔ 2 ≤ g.arrived j) (hnodup : g.announced.Nodup)
    (session : Session) : (∀ j, j ∈ (g.record ip a session).announced ↔
      2 ≤ (g.record ip a session).arrived j) ∧ (g.record ip a session).announced.Nodup := by
  show (∀ j, j ∈ g.announced ++ (g.owner a).toList ↔
    2 ≤ Function.update g.arrived a.sender (g.arrived a.sender + 1) j) ∧
      (g.announced ++ (g.owner a).toList).Nodup
  by_cases hone : g.arrived a.sender = 1
  · have howner : g.owner a = some a.sender := if_pos (Kind.ofCount_eq_address.mpr hone)
    have hnew : a.sender ∉ g.announced := by
      rw [hg]
      omega
    rw [howner, Option.toList_some]
    constructor
    · intro j
      rw [List.mem_append, List.mem_singleton, hg]
      by_cases hj : j = a.sender
      · subst hj
        rw [Function.update_self]
        simp [hone]
      · rw [Function.update_of_ne hj]
        simp [hj]
    · rw [List.nodup_append]
      refine ⟨hnodup, List.nodup_singleton _, fun x hx y hy hxy => ?_⟩
      rw [List.mem_singleton.mp hy] at hxy
      exact hnew (hxy ▸ hx)
  · have howner : g.owner a = none := if_neg fun h => hone (Kind.ofCount_eq_address.mp h)
    rw [howner, Option.toList_none, List.append_nil]
    refine ⟨fun j => ?_, hnodup⟩
    rw [hg]
    by_cases hj : j = a.sender
    · subst hj
      rw [Function.update_self]
      omega
    · rw [Function.update_of_ne hj]

theorem Inv.arrive_announced (hg : Inv ip g) (h : g.arrive ip a = some t) :
    (∀ j, j ∈ t.announced ↔ 2 ≤ t.arrived j) ∧ t.announced.Nodup := by
  obtain ⟨-, rfl⟩ := arrive_cases h
  exact record_announced hg.announced hg.nodup _

theorem Inv.arrive_idle (hg : Inv ip g) (h : g.arrive ip a = some t)
    (hawaiting : g.session.awaiting = false) : Inv ip t := by
  obtain ⟨-, hentries, hann, htaken, hswallowed⟩ := Broadcast.arrive_idle h hawaiting
  exact
    { texts := fun _ => by rw [hentries, htaken]; exact hg.texts (arrive_cases h).1
      own := by rw [htaken]; exact hg.own
      sublist := by rw [htaken, hann]; exact hg.sublist.trans (List.sublist_append_left ..)
      foreign := by rw [htaken, hswallowed]; exact hg.foreign
      swallowed := by rw [htaken, hswallowed]; exact hg.swallowed
      announced := (hg.arrive_announced h).1
      nodup := (hg.arrive_announced h).2 }

/-- What is taken and has no owner is the marker, or a line that is swallowed. -/
theorem arrive_foreign (h : g.arrive ip a = some t) (hawaiting : g.session.awaiting = true)
    (hnone : g.owner a = none) : (g.datagram ip a).text = enter ∨ t.swallowed ≠ [] := by
  obtain ⟨-, -, -, hswallowed⟩ := arrive_awaiting h hawaiting
  have hforeign : (g.datagram ip a).text = enter ∨ (g.kind a = .line ∧ a.line.text ≠ enter) :=
    Group.owner_eq_none hnone
  apply hforeign.imp_right
  intro hline
  rw [hswallowed, if_pos hline]
  exact List.append_ne_nil_of_right_ne_nil _ (List.cons_ne_nil _ _)

theorem Inv.arrive_awaiting (hg : Inv ip g) (h : g.arrive ip a = some t)
    (hawaiting : g.session.awaiting = true) : Inv ip t := by
  obtain ⟨hsession, hann, htaken, hswallowed⟩ := Broadcast.arrive_awaiting h hawaiting
  refine
    { texts := fun hd => ?_, own := ?_, sublist := ?_, foreign := ?_, swallowed := fun hne => ?_
      announced := (hg.arrive_announced h).1, nodup := (hg.arrive_announced h).2 }
  · rw [hsession] at hd ⊢
    rw [Session.entries_store hd, htaken, List.map_append, hg.texts (arrive_cases h).1,
      List.map_singleton]
  · rw [htaken, List.forall_mem_append, List.forall_mem_singleton]
    refine ⟨hg.own, fun j hj => ?_⟩
    dsimp only at hj
    rw [Group.datagram_of_owner hj, ipDatagram_text, hj, Taken.own]
  · rw [htaken, hann, List.filterMap_append]
    refine hg.sublist.append ?_
    cases howner : g.owner a with
    | none => simp
    | some j => simp
  · rw [htaken, List.forall_mem_append, List.forall_mem_singleton]
    constructor
    · intro x hx hnone
      apply (hg.foreign x hx hnone).imp_right
      intro hne
      rw [hswallowed]
      split
      · exact List.append_ne_nil_of_left_ne_nil hne _
      · exact hne
    · intro hnone
      dsimp only at hnone ⊢
      exact arrive_foreign h hawaiting hnone
  · rw [htaken]
    rw [hswallowed] at hne
    split at hne
    · next hline =>
      have hnone : g.owner a = none := if_neg (by rw [hline.1]; decide)
      exact ⟨_, List.mem_append_right _ (List.mem_singleton_self _), hnone⟩
    · obtain ⟨x, hx, hnone⟩ := hg.swallowed hne
      exact ⟨x, List.mem_append_left _ hx, hnone⟩

theorem inv_arrive (hg : Inv ip g) (h : g.arrive ip a = some t) : Inv ip t := by
  cases hawaiting : g.session.awaiting with
  | false => exact hg.arrive_idle h hawaiting
  | true => exact hg.arrive_awaiting h hawaiting

/-! ## The right table -/

/-- Every entry is the address of a peer, each peer that has announced itself is in the table
once (so that an address is in as many rows as peers have announced it), and no line has been
swallowed. -/
structure Correct (ip : P → InAddr) (g : Group P) : Prop where
  defined : g.session.undefined = false
  entry : ∀ text ∈ g.session.entries, ∃ j, text = inetNtoa (ip j)
  once : ∀ j, 2 ≤ g.arrived j → g.session.entries.count (inetNtoa (ip j)) =
    (g.announced.map fun k => inetNtoa (ip k)).count (inetNtoa (ip j))
  printed : g.swallowed = []

/-- What has been taken for addresses are the addresses that have arrived. -/
def Sound (ip : P → InAddr) (g : Group P) : Prop :=
  g.session.undefined = false ∧ g.taken = g.announced.map (Taken.own ip)

/-- The datagram is an address if and only if an address is awaited, and then there is a free
row for it. -/
def InTurn (g : Group P) (a : Arrival P) : Prop :=
  (g.kind a = .address ↔ g.session.awaiting = true) ∧
    (g.session.awaiting = true → g.session.clientsNum < 10)

omit [DecidableEq P] in
/-- Addresses are told by their owners. -/
theorem taken_eq_map {taken : List (Taken P)}
    (hown : ∀ x ∈ taken, ∀ j, x.owner = some j → x = Taken.own ip j)
    (hsome : ∀ x ∈ taken, x.owner ≠ none) :
    taken = (taken.filterMap Taken.owner).map (Taken.own ip) := by
  induction taken with
  | nil => rfl
  | cons x taken ih =>
    obtain ⟨j, hj⟩ := Option.ne_none_iff_exists'.mp (hsome x (List.mem_cons_self ..))
    rw [List.filterMap_cons_some hj, List.map_cons, ← hown x (List.mem_cons_self ..) j hj,
      ← ih (fun y hy => hown y (List.mem_cons_of_mem x hy))
        (fun y hy => hsome y (List.mem_cons_of_mem x hy))]

omit [DecidableEq P] in
theorem filterMap_owner_map (js : List P) :
    (js.map (Taken.own ip)).filterMap Taken.owner = js := by
  rw [List.filterMap_map]
  exact List.filterMap_some

omit [DecidableEq P] in
/-- In a right table nothing has been taken for an address that is none. -/
theorem Correct.owner_ne_none (h : Correct ip g) (hg : Inv ip g) :
    ∀ x ∈ g.taken, x.owner ≠ none := by
  intro x hx hnone
  rcases hg.foreign x hx hnone with henter | hswallowed
  · have hentry : x.text ∈ g.session.entries := by
      rw [hg.texts h.defined]
      exact List.mem_map_of_mem hx
    obtain ⟨j, hj⟩ := h.entry x.text hentry
    have hstar : 42 ∈ enter := by decide
    exact inetNtoa_ne (ip j) hstar (hj.symm.trans henter)
  · exact hswallowed h.printed

omit [DecidableEq P] in
theorem Correct.sound (h : Correct ip g) (hg : Inv ip g) : Sound ip g := by
  refine ⟨h.defined, ?_⟩
  have hmap := taken_eq_map hg.own (h.owner_ne_none hg)
  have hentries : g.session.entries =
      (g.taken.filterMap Taken.owner).map fun k => inetNtoa (ip k) := by
    have htexts := hg.texts h.defined
    conv at htexts => rhs; rw [hmap, List.map_map]
    exact htexts
  -- as many addresses are in the table as have arrived, so none of these is missing
  have hsubperm : (g.announced.map fun k => inetNtoa (ip k)).Subperm g.session.entries := by
    rw [List.subperm_ext_iff]
    intro text htext
    obtain ⟨j, hj, rfl⟩ := List.mem_map.mp htext
    exact Nat.le_of_eq (h.once j ((hg.announced j).mp hj)).symm
  have hlen := hsubperm.length_le
  rw [hentries, List.length_map, List.length_map] at hlen
  rw [hmap, hg.sublist.eq_of_length_le hlen]

omit [DecidableEq P] in
theorem Sound.correct (h : Sound ip g) (hg : Inv ip g) : Correct ip g := by
  obtain ⟨hdefined, htaken⟩ := h
  have hentries : g.session.entries = g.announced.map fun k => inetNtoa (ip k) := by
    rw [hg.texts hdefined, htaken, List.map_map]
    rfl
  refine ⟨hdefined, ?_, ?_, ?_⟩
  · rw [hentries]
    intro text htext
    obtain ⟨j, -, rfl⟩ := List.mem_map.mp htext
    exact ⟨j, rfl⟩
  · rw [hentries]
    exact fun _ _ => rfl
  · by_contra hne
    obtain ⟨x, hx, hnone⟩ := hg.swallowed hne
    rw [htaken] at hx
    obtain ⟨j, -, rfl⟩ := List.mem_map.mp hx
    cases hnone

omit [DecidableEq P] in
theorem correct_iff_sound (hg : Inv ip g) : Correct ip g ↔ Sound ip g :=
  ⟨fun h => h.sound hg, fun h => h.correct hg⟩

/-- While no address is awaited, only an address is out of turn: it is printed, and its peer
stays out of the table. -/
theorem sound_idle_iff (hg : Inv ip g) (h : g.arrive ip a = some t)
    (hawaiting : g.session.awaiting = false) : Sound ip t ↔ Sound ip g ∧ InTurn g a := by
  obtain ⟨htdefined, -, hann, htaken, -⟩ := arrive_idle h hawaiting
  rw [Sound, htdefined, htaken, hann, Sound, (arrive_cases h).1, InTurn, hawaiting]
  by_cases hkind : g.kind a = .address
  · have howner : g.owner a = some a.sender := if_pos hkind
    rw [howner, Option.toList_some]
    constructor
    · rintro ⟨-, hsame⟩
      have hlen := hg.sublist.length_le
      rw [hsame, filterMap_owner_map, List.length_append, List.length_singleton] at hlen
      omega
    · rintro ⟨-, hturn, -⟩
      exact absurd (hturn.mp hkind) Bool.false_ne_true
  · have howner : g.owner a = none := if_neg hkind
    rw [howner, Option.toList_none, List.append_nil]
    simp [hkind]

/-- While an address is awaited, only an address is in turn, and it needs a row. -/
theorem sound_awaiting_iff (h : g.arrive ip a = some t) (hawaiting : g.session.awaiting = true) :
    Sound ip t ↔ Sound ip g ∧ InTurn g a := by
  obtain ⟨hsession, hann, htaken, -⟩ := arrive_awaiting h hawaiting
  rw [Sound, hsession, htaken, hann, Sound, Session.store_defined_iff, InTurn, hawaiting]
  cases howner : g.owner a with
  | none =>
    have hkind : ¬ g.kind a = .address := by
      intro hkind
      rw [Group.owner, if_pos hkind] at howner
      cases howner
    constructor
    · rintro ⟨-, hsame⟩
      have hmem : (⟨(g.datagram ip a).text, none⟩ : Taken P) ∈
          (g.announced ++ Option.toList none).map (Taken.own ip) := by
        rw [← hsame]
        exact List.mem_append_right _ (List.mem_singleton_self _)
      obtain ⟨j, -, hj⟩ := List.mem_map.mp hmem
      exact absurd (congrArg Taken.owner hj) (Option.some_ne_none j)
    · rintro ⟨-, hturn, -⟩
      exact absurd (hturn.mpr rfl) hkind
  | some j =>
    have hdatagram : g.datagram ip a = ipDatagram (ip j) := Group.datagram_of_owner howner
    obtain ⟨hkind, -⟩ := Group.owner_eq_some howner
    have hshort : (inetNtoa (ip j)).length < 1000 :=
      (inetNtoa_length_le (ip j)).trans_lt (by decide)
    have hown : (⟨inetNtoa (ip j), some j⟩ : Taken P) = Taken.own ip j := rfl
    rw [hdatagram, ipDatagram_text, Option.toList_some, List.map_append, List.map_singleton,
      hown, List.append_cancel_right_eq]
    simp only [hkind, (arrive_cases h).1, hshort, and_true, true_and, forall_const]
    exact and_comm

theorem sound_arrive_iff (hg : Inv ip g) (h : g.arrive ip a = some t) :
    Sound ip t ↔ Sound ip g ∧ InTurn g a := by
  cases hawaiting : g.session.awaiting with
  | false => exact sound_idle_iff hg h hawaiting
  | true => exact sound_awaiting_iff h hawaiting

/-- **Who is in the table.** After a run the table is right exactly when every datagram of the
run came in turn: the address of a peer while one was awaited, with a row free for it, and the
other datagrams while none was. -/
theorem membership_iff {as : List (Arrival P)} (hrun : exec (Group.arrive ip) .start as = some g) :
    Correct ip g ↔ Guarded (Group.arrive ip) InTurn .start as := by
  have hinv : Inv ip g := exec_preserves (fun _ _ _ hs h => inv_arrive hs h) inv_start hrun
  have hsound : Sound ip (Group.start : Group P) := ⟨rfl, rfl⟩
  rw [correct_iff_sound hinv, exec_iff_guarded (fun _ _ _ hs h => inv_arrive hs h)
    (fun _ _ _ hs h => sound_arrive_iff hs h) inv_start hrun]
  exact and_iff_right hsound

/-- In a right table a peer whose address is its own is in one row. -/
theorem Correct.count_eq_one (h : Correct ip g) (hg : Inv ip g)
    (hinj : Function.Injective fun j => inetNtoa (ip j)) {j : P} (hj : 2 ≤ g.arrived j) :
    g.session.entries.count (inetNtoa (ip j)) = 1 := by
  rw [h.once j hj, List.count_map_of_injective g.announced _ hinj j,
    List.count_eq_one_of_mem hg.nodup ((hg.announced j).mpr hj)]

omit [DecidableEq P] in
/-- A right table holds the addresses in the order in which they have arrived. -/
theorem Sound.entries_eq (h : Sound ip g) (hg : Inv ip g) :
    g.session.entries = g.announced.map fun k => inetNtoa (ip k) := by
  rw [hg.texts h.1, h.2, List.map_map]
  rfl

theorem sound_of_inTurn {as : List (Arrival P)} (hrun : exec (Group.arrive ip) .start as = some g)
    (hturn : Guarded (Group.arrive ip) InTurn .start as) : Inv ip g ∧ Sound ip g := by
  refine exec_guarded (I := fun g => Inv ip g ∧ Sound ip g) (fun g a t hg hturn h => ?_)
    ⟨inv_start, rfl, rfl⟩ hturn hrun
  exact ⟨inv_arrive hg.1 h, (sound_arrive_iff hg.1 h).mpr ⟨hg.2, hturn⟩⟩

/-- **The tables agree.** Two peers that have got the announcements of the same peers, each in an
order of its own in which every datagram came in turn, have the same addresses in their tables. -/
theorem tables_agree {as as' : List (Arrival P)} {g' : Group P}
    (hrun : exec (Group.arrive ip) .start as = some g)
    (hrun' : exec (Group.arrive ip) .start as' = some g')
    (hturn : Guarded (Group.arrive ip) InTurn .start as)
    (hturn' : Guarded (Group.arrive ip) InTurn .start as')
    (hsame : ∀ j, 2 ≤ g.arrived j ↔ 2 ≤ g'.arrived j) :
    g.session.entries.Perm g'.session.entries ∧ g.session.clientsNum = g'.session.clientsNum := by
  obtain ⟨hg, hsound⟩ := sound_of_inTurn hrun hturn
  obtain ⟨hg', hsound'⟩ := sound_of_inTurn hrun' hturn'
  have hpeers : g.announced.Perm g'.announced := by
    rw [List.perm_ext_iff_of_nodup hg.nodup hg'.nodup]
    intro j
    rw [hg.announced, hg'.announced, hsame]
  have hperm : g.session.entries.Perm g'.session.entries := by
    rw [hsound.entries_eq hg, hsound'.entries_eq hg']
    exact hpeers.map _
  have hlength : ∀ s : Session, s.entries.length = s.clientsNum := fun s => by
    rw [Session.entries, List.length_map, List.length_range]
  exact ⟨hperm, by rw [← hlength, hperm.length_eq, hlength]⟩

/-! ## Announcements in turn -/

/-- The session goes on as before, with `n` more rows in use. -/
structure Idle (g : Group P) (n : Nat) (t : Group P) : Prop where
  awaiting : t.session.awaiting = false
  defined : t.session.undefined = false
  clientsNum : t.session.clientsNum = g.session.clientsNum + n
  printed : t.session.printed = g.session.printed

/-- The marker and the address of a peer arrive one directly after the other. -/
theorem announcement_inTurn (ip : P → InAddr) (hidle : g.session.awaiting = false)
    (hdefined : g.session.undefined = false) (hroom : g.session.clientsNum < 10) {j : P}
    (hnew : g.arrived j = 0) (x y : Datagram) :
    ∃ t, exec (Group.arrive ip) g [⟨j, x⟩, ⟨j, y⟩] = some t ∧
      Guarded (Group.arrive ip) InTurn g [⟨j, x⟩, ⟨j, y⟩] ∧ Idle g 1 t ∧
      t.arrived = Function.update g.arrived j 2 := by
  have hmarker : g.kind ⟨j, x⟩ = .marker := congrArg Kind.ofCount hnew
  let m := g.record ip ⟨j, x⟩ { g.session with awaiting := true }
  have hm : g.arrive ip ⟨j, x⟩ = some m := by
    rw [arrive_eq hdefined, Group.datagram_marker hmarker,
      Session.receive_enter hidle enterDatagram_text]
  have hone : m.arrived j = 1 := by
    show Function.update g.arrived j (g.arrived j + 1) j = 1
    rw [Function.update_self, hnew]
  have haddress : m.kind ⟨j, y⟩ = .address := congrArg Kind.ofCount hone
  have howner : m.owner ⟨j, y⟩ = some j := if_pos haddress
  have ht : m.arrive ip ⟨j, y⟩ =
      some (m.record ip ⟨j, y⟩ (m.session.store (inetNtoa (ip j)))) := by
    rw [arrive_eq (show m.session.undefined = false from hdefined), Group.datagram_of_owner howner,
      Session.receive_store rfl, ipDatagram_text]
  have hshort : (inetNtoa (ip j)).length < 1000 := (inetNtoa_length_le (ip j)).trans_lt (by decide)
  refine ⟨_, exec_cons_iff.mpr ⟨m, hm, exec_single ht⟩,
    .cons ⟨⟨fun h => ?_, fun h => ?_⟩, fun h => ?_⟩ hm
      (.cons ⟨⟨fun _ => rfl, fun _ => haddress⟩, fun _ => hroom⟩ ht trivial),
    ⟨rfl, Session.store_defined_iff.mpr ⟨hroom, hshort⟩, rfl, rfl⟩, ?_⟩
  · rw [hmarker] at h
    cases h
  · rw [hidle] at h
    cases h
  · rw [hidle] at h
    cases h
  · show Function.update (Function.update g.arrived j _) j (m.arrived j + 1) = _
    rw [Function.update_idem, hone]

/-- The announcements of these peers, one after the other. -/
def announcements (js : List P) : List (Arrival P) :=
  js.flatMap fun j => [⟨j, nothing⟩, ⟨j, nothing⟩]

/-- As long as there are rows for them, all come in turn. -/
theorem announcements_inTurn (ip : P → InAddr) {js : List P} (hnodup : js.Nodup)
    (hidle : g.session.awaiting = false) (hdefined : g.session.undefined = false)
    (hroom : g.session.clientsNum + js.length ≤ 10)
    (hnew : ∀ j ∈ js, g.arrived j = 0) :
    ∃ t, exec (Group.arrive ip) g (announcements js) = some t ∧
      Guarded (Group.arrive ip) InTurn g (announcements js) ∧ Idle g js.length t ∧
      (∀ j ∈ js, t.arrived j = 2) ∧ ∀ j, j ∉ js → t.arrived j = g.arrived j := by
  induction js generalizing g with
  | nil => exact ⟨g, rfl, trivial, ⟨hidle, hdefined, rfl, rfl⟩,
      fun j hj => absurd hj List.not_mem_nil, fun _ _ => rfl⟩
  | cons j js ih =>
    obtain ⟨hj, hnodup⟩ := List.nodup_cons.mp hnodup
    rw [List.length_cons] at hroom
    obtain ⟨m, hm, hmturn, hmidle, harrived⟩ := announcement_inTurn ip hidle hdefined (by omega)
      (hnew j (List.mem_cons_self ..)) nothing nothing
    have hsame : ∀ k, k ≠ j → m.arrived k = g.arrived k := fun k hk => by
      rw [harrived, Function.update_of_ne hk]
    obtain ⟨t, ht, htturn, htidle, htwo, hother⟩ := ih hnodup hmidle.awaiting hmidle.defined
      (by rw [hmidle.clientsNum]; omega) fun k hk => by
        rw [hsame k fun h => hj (h ▸ hk)]
        exact hnew k (List.mem_cons_of_mem j hk)
    refine ⟨t, exec_append hm ht, hmturn.append hm htturn,
      ⟨htidle.awaiting, htidle.defined, ?_, htidle.printed.trans hmidle.printed⟩,
      fun k hk => ?_, fun k hk => ?_⟩
    · rw [htidle.clientsNum, hmidle.clientsNum, List.length_cons]
      omega
    · rcases List.mem_cons.mp hk with rfl | hk
      · rw [hother k hj, harrived, Function.update_self]
      · exact htwo k hk
    · rw [hother k fun h => hk (List.mem_cons_of_mem j h),
        hsame k fun h => hk (h ▸ List.mem_cons_self ..)]

end

/-- Two peers. -/
def twoIps : Bool → InAddr
  | false => ⟨10, 0, 0, 1⟩
  | true => ⟨10, 0, 0, 2⟩

theorem twoPeers : [false, true].Nodup := by decide

/-- The announcements of both, and then a line of the first. -/
def meeting : List (Arrival Bool) :=
  announcements [false, true] ++ [⟨false, ⟨ascii "hi", by decide⟩⟩]

theorem membership_meeting : ∃ g, exec (Group.arrive twoIps) .start meeting = some g ∧
    Correct twoIps g ∧ g.session.printed = [ascii "hi"] := by
  obtain ⟨m, hm, hturn, hidle, htwo, -⟩ := announcements_inTurn twoIps (g := Group.start)
    twoPeers rfl rfl (Nat.le_add_left 2 8) fun _ _ => rfl
  have hline : m.kind ⟨false, ⟨ascii "hi", by decide⟩⟩ = .line :=
    congrArg Kind.ofCount (htwo false (List.mem_cons_self ..))
  have hrun := exec_append hm (exec_single
    (@arrive_eq Bool _ twoIps _ hidle.defined ⟨false, ⟨ascii "hi", by decide⟩⟩))
  refine ⟨_, hrun, (membership_iff hrun).mpr (hturn.append hm ⟨⟨⟨fun h => ?_, fun h => ?_⟩,
    fun h => ?_⟩, fun _ _ => trivial⟩), ?_⟩
  · rw [hline] at h
    cases h
  · rw [hidle.awaiting] at h
    cases h
  · rw [hidle.awaiting] at h
    cases h
  · have htext : (Datagram.mk (ascii "hi") (by decide)).text = ascii "hi" :=
      Datagram.text_of_notMem (by decide)
    rw [Group.datagram_line hline]
    show (m.session.receive _).printed = _
    rw [Session.receive_line hidle.awaiting (by rw [htext]; decide), hidle.printed, htext]
    rfl

/-- The peers have announced themselves to two listeners in different orders. -/
theorem tables_agree_orders : ∃ g g' : Group Bool,
    exec (Group.arrive twoIps) .start (announcements [false, true]) = some g ∧
    exec (Group.arrive twoIps) .start (announcements [true, false]) = some g' ∧
    g.session.entries.Perm g'.session.entries ∧ g.session.clientsNum = 2 := by
  obtain ⟨g, hrun, hturn, hidle, htwo, -⟩ := announcements_inTurn twoIps
    (g := Group.start) twoPeers rfl rfl (Nat.le_add_left 2 8) fun _ _ => rfl
  obtain ⟨g', hrun', hturn', -, htwo', -⟩ := announcements_inTurn twoIps (g := Group.start)
    (List.nodup_reverse.mpr twoPeers) rfl rfl (Nat.le_add_left 2 8) fun _ _ => rfl
  have hall : ∀ j : Bool, j ∈ [false, true] ∧ j ∈ [true, false] := by decide
  have hsame : ∀ j, 2 ≤ g.arrived j ↔ 2 ≤ g'.arrived j := fun j => by
    rw [htwo j (hall j).1, htwo' j (hall j).2]
  exact ⟨g, g', hrun, hrun', (tables_agree hrun hrun' hturn hturn' hsame).1, hidle.clientsNum⟩

/-- The markers of two peers arrive one after the other. -/
theorem membership_interleaved :
    ¬ ∀ (as : List (Arrival Bool)) (g : Group Bool),
      exec (Group.arrive twoIps) .start as = some g → Correct twoIps g := by
  intro hall
  have hfirst := @arrive_eq Bool _ twoIps Group.start rfl ⟨false, nothing⟩
  rw [Group.datagram_marker rfl, show Group.start.session.receive enterDatagram = marked from
    start_receive_enter] at hfirst
  have hinv := inv_arrive inv_start hfirst
  have hdefined : (Group.start.record twoIps ⟨false, nothing⟩ marked).session.undefined = false := rfl
  have hsecond := @arrive_eq Bool _ twoIps _ hdefined ⟨true, nothing⟩
  have hcorrect := hall [⟨false, nothing⟩, ⟨true, nothing⟩] _
    (exec_cons_iff.mpr ⟨_, hfirst, exec_single hsecond⟩)
  have hsound := (correct_iff_sound (inv_arrive hinv hsecond)).mp hcorrect
  have hturn := ((sound_arrive_iff hinv hsecond).mp hsound).2.1.mpr rfl
  cases hturn

end Spolks.Chat.Broadcast
