import Spolks.Chat.Replies
import Spolks.Chat.Transparency

/-!
# `lab4_2/session.c`: what the members of a group read

Keys, the two loops of each member and the deliveries come in any order, and the network may
lose, repeat and reorder datagrams. What a member says is all the same what its keys mean, and
nothing is read that no member has said.

* `said_step`, `heard_step`: what a step adds to what is said and read.
* `conversation`: what is said and read in a run.
-/

namespace Spolks.Chat.Multicast

open Lib Sockcore

variable {M : Type} [DecidableEq M]

/-- What `speak_thread` of member `m` has sent, in this order. -/
def said (network : List (Packet M)) (m : M) : List Sent :=
  network.filterMap fun p =>
    if p.sender = m ∧ p.cause = none then some ⟨p.origin, p.datagram⟩ else none

/-- The texts that member `m` has received, other than requests. -/
def heard (deliveries : List (Delivery M)) (m : M) : List CString :=
  deliveries.filterMap fun d =>
    if d.member = m ∧ ¬ Requests d.datagram then some d.datagram.text else none

/-- The key that an event is for member `m`. -/
def Event.key (m : M) : Event M → Option UInt8
  | .press k key => if k = m then some key else none
  | _ => none

/-- The keys that member `m` has pressed. -/
def pressed (m : M) (es : List (Event M)) : CString := es.filterMap (Event.key m)

/-! ## Packets and deliveries -/

theorem said_append (xs ys : List (Packet M)) (m : M) :
    said (xs ++ ys) m = said xs m ++ said ys m := List.filterMap_append ..

theorem heard_append (xs ys : List (Delivery M)) (m : M) :
    heard (xs ++ ys) m = heard xs m ++ heard ys m := List.filterMap_append ..

theorem pressed_append (m : M) (es : List (Event M)) (e : Event M) :
    pressed m (es ++ [e]) = pressed m es ++ (e.key m).toList :=
  filterMap_concat ..

/-- What `speak_thread` of member `k` sends. -/
theorem said_sent {sent : List Sent} (hsent : ∀ x ∈ sent, x.origin.cause = none) (k m : M) :
    said (sent.map fun x => ⟨k, x.origin, x.datagram⟩) m = if k = m then sent else [] := by
  rw [said, List.filterMap_map]
  by_cases hk : k = m
  · rw [if_pos hk]
    have hall : ∀ x ∈ sent, ((fun p : Packet M => if p.sender = m ∧ p.cause = none then
        some (Sent.mk p.origin p.datagram) else none) ∘ fun x => ⟨k, x.origin, x.datagram⟩) x =
          some x := fun x hx => if_pos ⟨hk, hsent x hx⟩
    rw [List.filterMap_congr hall, List.filterMap_some]
  · rw [if_neg hk]
    exact List.filterMap_eq_nil_iff.mpr fun x _ => if_neg fun h => hk h.1

/-- Replies are nothing that has been said. -/
theorem said_reply (k : M) (i : Nat) (d : Datagram) (m : M) : said [⟨k, .reply i, d⟩] m = [] :=
  List.filterMap_cons_none (if_neg fun h => Option.some_ne_none i h.2)

/-- A key of its own means a request. -/
theorem echo_of_key {line : Option CString} {keys : CString} {d : Datagram}
    (h : ⟨.key, d⟩ ∈ spoken line keys) : d = echoDatagram := by
  have hline : ∀ {text : CString} {rest : List Sent},
      (⟨.key, d⟩ : Sent) ∈ lineSent text ++ rest → (⟨.key, d⟩ : Sent) ∈ rest := by
    intro text rest hmem
    refine (List.mem_append.mp hmem).resolve_left fun hsent => ?_
    obtain ⟨d', -, hd'⟩ := List.mem_map.mp hsent
    cases hd'
  induction keys generalizing line with
  | nil =>
    rw [spoken_nil] at h
    cases h
  | cons c keys ih =>
    cases line with
    | none =>
      rw [spoken] at h
      split at h
      · rcases List.mem_cons.mp h with heq | hmem
        · cases heq
          rfl
        · exact ih hmem
      · split at h
        · exact ih (hline h)
        · exact ih h
    | some line =>
      rw [spoken] at h
      split at h
      · exact ih (hline h)
      · exact ih h

/-! ## Steps -/

section

variable {ip : M → InAddr} {g t : Group M} {e : Event M} {es : List (Event M)}

/-- All that the keys of a member mean has been said, or is still in its input. -/
def Said (es : List (Event M)) (g : Group M) : Prop :=
  ∀ m later, said g.network m ++ spoken none (g.stdin m ++ later) =
    spoken none (pressed m es ++ later)

theorem said_step (h : Said es g) (hstep : Group.step ip g e = some t) : Said (es ++ [e]) t := by
  intro m later
  rw [pressed_append]
  cases e with
  | press k key =>
    cases hstep
    by_cases hk : k = m
    · subst hk
      have hkey : (Event.press k key).key k = some key := if_pos rfl
      rw [hkey, Option.toList_some, List.append_assoc, ← h k]
      show said g.network k ++ spoken none (Function.update g.stdin k _ k ++ later) = _
      rw [Function.update_self, List.append_assoc]
    · have hkey : (Event.press k key).key m = none := if_neg hk
      rw [hkey, Option.toList_none, List.append_nil, ← h m]
      show said g.network m ++ spoken none (Function.update g.stdin k _ m ++ later) = _
      rw [Function.update_of_ne (Ne.symm hk)]
  | speak k =>
    obtain ⟨⟨rest, sent⟩, hbody, rfl⟩ := Option.map_eq_some_iff.mp hstep
    have hsent := said_sent (fun x hx => (speakBody_sent hbody x hx).1) k m
    have hkey : (Event.speak k).key m = none := rfl
    rw [hkey, Option.toList_none, List.append_nil, ← h m]
    show said (g.network ++ _) m ++ spoken none (Function.update g.stdin k rest m ++ later) = _
    rw [said_append, hsent]
    by_cases hk : k = m
    · subst hk
      rw [if_pos rfl, Function.update_self, speakBody_spoken hbody, List.append_assoc]
    · rw [if_neg hk, List.append_nil, Function.update_of_ne (Ne.symm hk)]
  | deliver k i =>
    obtain ⟨p, -, rfl⟩ := Option.map_eq_some_iff.mp hstep
    have hkey : (Event.deliver k i).key m = none := rfl
    rw [hkey, Option.toList_none, List.append_nil, ← h m]
    have hreply : said ((listenBody (ip k) p.datagram).2.map
        (Packet.mk k (.reply g.deliveries.length))) m = [] := by
      by_cases hecho : p.datagram.text = echo
      · rw [listenBody_echo hecho]
        exact said_reply ..
      · rw [listenBody_line hecho]
        rfl
    show said (g.network ++ _) m ++ _ = _
    rw [said_append, hreply, List.append_nil]
    rfl

/-- What a member prints is what it has received, other than requests. -/
theorem heard_step (hg : Inv ip g) (h : ∀ m, g.printed m = heard g.deliveries m)
    (hstep : Group.step ip g e = some t) : ∀ m, t.printed m = heard t.deliveries m := by
  intro m
  cases e with
  | press k key =>
    cases hstep
    exact h m
  | speak k =>
    obtain ⟨⟨rest, sent⟩, -, rfl⟩ := Option.map_eq_some_iff.mp hstep
    exact h m
  | deliver k i =>
    obtain ⟨p, hp, rfl⟩ := Option.map_eq_some_iff.mp hstep
    have htext : p.datagram.text = p.datagram.payload :=
      Datagram.text_of_notMem (hg.nul p (List.mem_of_getElem? hp))
    have hnew : heard [⟨k, i, p.datagram⟩] m =
        if k = m then (listenBody (ip k) p.datagram).1 else [] := by
      by_cases hk : k = m
      · rw [if_pos hk]
        by_cases hecho : p.datagram.text = echo
        · have hrequests : Requests p.datagram := htext.symm.trans hecho
          rw [listenBody_echo hecho]
          exact List.filterMap_cons_none (if_neg fun hno => hno.2 hrequests)
        · have hno : ¬ Requests p.datagram := fun h => hecho (htext.trans h)
          rw [listenBody_line hecho]
          exact List.filterMap_cons_some (if_pos ⟨hk, hno⟩)
      · rw [if_neg hk]
        exact List.filterMap_cons_none (if_neg fun hno => hk hno.1)
    show Function.update g.printed k (g.printed k ++ _) m = heard (g.deliveries ++ _) m
    rw [heard_append, hnew, ← h m]
    by_cases hk : k = m
    · subst hk
      rw [Function.update_self, if_pos rfl]
    · rw [Function.update_of_ne (Ne.symm hk), if_neg hk, List.append_nil]

/-! ## Runs -/

/-- A text that has been received comes from a line of some member, or is the address of a member
that has received a request. -/
theorem source_of_heard (hg : Inv ip g) (hsaid : Said es g) {m : M} {x : CString}
    (hx : x ∈ heard g.deliveries m) :
    (∃ k d, ⟨.line, d⟩ ∈ spoken none (pressed k es) ∧ x = d.text) ∨
      ∃ k, x = inetNtoa (ip k) ∧ ∃ d ∈ g.deliveries, d.member = k ∧ Requests d.datagram := by
  obtain ⟨d, hd, hsome⟩ := List.mem_filterMap.mp hx
  have hboth := Option.ite_none_right_eq_some.mp hsome
  have hno : ¬ Requests d.datagram := hboth.1.2
  have htext : d.datagram.text = x := Option.some.inj hboth.2
  rw [← htext]
  obtain ⟨p, hp, hdatagram⟩ := hg.delivered d hd
  have hmem : p ∈ g.network := List.mem_of_getElem? hp
  have hspoken : p.cause = none → ⟨p.origin, p.datagram⟩ ∈ spoken none (pressed p.sender es) := by
    intro hcause
    have hall := hsaid p.sender []
    rw [List.append_nil, List.append_nil] at hall
    rw [← hall]
    exact List.mem_append_left _ (List.mem_filterMap.mpr ⟨p, hmem, if_pos ⟨rfl, hcause⟩⟩)
  rw [← hdatagram] at hno ⊢
  cases horigin : p.origin with
  | key =>
    have hkey := hspoken (by rw [Packet.cause, horigin]; rfl)
    rw [horigin] at hkey
    rw [echo_of_key hkey] at hno
    exact absurd rfl hno
  | line =>
    have hline := hspoken (by rw [Packet.cause, horigin]; rfl)
    rw [horigin] at hline
    exact Or.inl ⟨p.sender, p.datagram, hline, rfl⟩
  | reply i =>
    have hcause : p.cause = some i := by
      rw [Packet.cause, horigin]
      rfl
    obtain ⟨haddress, asked, hasked, hmember, hrequests⟩ := hg.answers p hmem i hcause
    refine Or.inr ⟨p.sender, ?_, asked, List.mem_of_getElem? hasked, hmember, hrequests⟩
    rw [haddress, ipDatagram_text]

/-- **What is said and read.** In every run and for every member: its keys mean what it has said
and what is still in its input; it has printed the texts that it has received, other than
requests, in this order; and each of them is a line that the keys of some member mean, or the
address of a member that has received a request. -/
theorem conversation (hrun : exec (Group.step ip) .start es = some g) (m : M) :
    spoken none (pressed m es) = said g.network m ++ spoken none (g.stdin m) ∧
      g.printed m = heard g.deliveries m ∧
      ∀ x ∈ g.printed m, (∃ k d, ⟨.line, d⟩ ∈ spoken none (pressed k es) ∧ x = d.text) ∨
        ∃ k, x = inetNtoa (ip k) ∧ ∃ d ∈ g.deliveries, d.member = k ∧ Requests d.datagram := by
  have hg : Inv ip g := exec_preserves (fun _ _ _ hs hstep => inv_step hs hstep) inv_start hrun
  have hsaid : Said es g := exec_history (fun _ _ _ _ => said_step) (fun _ _ => rfl) hrun
  have hheard : ∀ m, g.printed m = heard g.deliveries m := by
    have hboth := exec_preserves (I := fun g => Inv ip g ∧ ∀ m, g.printed m = heard g.deliveries m)
      (fun _ _ _ hs hstep => ⟨inv_step hs.1 hstep, heard_step hs.1 hs.2 hstep⟩)
      ⟨inv_start, fun _ => rfl⟩ hrun
    exact hboth.2
  refine ⟨?_, hheard m, fun x hx => ?_⟩
  · have hall := hsaid m []
    rw [List.append_nil, List.append_nil] at hall
    exact hall.symm
  · rw [hheard m] at hx
    exact source_of_heard hg hsaid hx

end

/-- The command key means a request, which has been said; what its member reads is the address of
the one that has received it. -/
theorem conversation_requested :
    ∃ g, exec (Group.step addresses) Group.start requested = some g ∧
      spoken none [45] = said g.network false ++ spoken none (g.stdin false) ∧
      heard g.deliveries false = [ascii "10.0.0.2"] := by
  have hrequested : (exec (Group.step addresses) Group.start requested).map
      (fun g => g.printed false) = some [ascii "10.0.0.2"] := by decide +kernel
  obtain ⟨g, hrun, hprinted⟩ := Option.map_eq_some_iff.mp hrequested
  obtain ⟨hsaid, hheard, -⟩ := conversation hrun false
  exact ⟨g, hrun, hsaid, hheard.symm.trans hprinted⟩

end Spolks.Chat.Multicast
