import Mathlib.Data.List.Nodup
import Mathlib.Logic.Function.Basic
import Spolks.Chat.Multicast
import Spolks.Lib.Transition

/-!
# `lab4_2/session.c`: a group of members

Whatever a member sends may reach every member, itself included, any number of times, in any
order, or never. A reply goes to the whole group as well, so every reply reaches listeners
that reply to requests.

`reachable_noStorm` says that replies do not cause replies.
-/

namespace Spolks.Chat.Multicast

open Lib Sockcore

/-! ## The group -/

/-- A datagram that has been sent. -/
structure Packet (M : Type) where
  sender : M
  origin : Origin
  datagram : Datagram

/-- A datagram that `recvfrom` has returned to a member; `packet` is its place among all that
have been sent. -/
structure Delivery (M : Type) where
  member : M
  packet : Nat
  datagram : Datagram

/-- The pending input of each member, all datagrams that have been sent, all deliveries, and
what has been printed. -/
structure Group (M : Type) where
  stdin : M → CString
  network : List (Packet M)
  deliveries : List (Delivery M)
  printed : M → List CString

inductive Event (M : Type) where
  | press (m : M) (key : UInt8)
  | speak (m : M)
  | deliver (m : M) (packet : Nat)

namespace Group

variable {M : Type}

def start : Group M where
  stdin _ := []
  network := []
  deliveries := []
  printed _ := []

variable [DecidableEq M]

/-- An iteration of `listen_thread` of member `m`. -/
def listen (ip : M → InAddr) (g : Group M) (m : M) (packet : Nat) (d : Datagram) : Group M :=
  let done := listenBody (ip m) d
  { g with
    network := g.network ++ done.2.map (Packet.mk m (.reply g.deliveries.length))
    deliveries := g.deliveries ++ [⟨m, packet, d⟩]
    printed := Function.update g.printed m (g.printed m ++ done.1) }

def step (ip : M → InAddr) (g : Group M) : Event M → Option (Group M)
  | .press m key => some { g with stdin := Function.update g.stdin m (g.stdin m ++ [key]) }
  | .speak m =>
    (speakBody (g.stdin m)).map fun (stdin, sent) =>
      { g with
        stdin := Function.update g.stdin m stdin
        network := g.network ++ sent.map fun x => ⟨m, x.origin, x.datagram⟩ }
  | .deliver m packet => (g.network[packet]?).map fun p => g.listen ip m packet p.datagram

end Group

/-! ## Replies and requests -/

/-- The delivery that a packet is the reply to. -/
def Packet.cause {M : Type} (p : Packet M) : Option Nat := p.origin.cause

/-- A request for an echo. -/
def Requests (d : Datagram) : Prop := d.payload = echo

instance (d : Datagram) : Decidable (Requests d) := inferInstanceAs (Decidable (_ = _))

theorem ipDatagram_not_requests (a : InAddr) : ¬ Requests (ipDatagram a) :=
  inetNtoa_ne a (by decide)

section

variable {M : Type} [DecidableEq M] {ip : M → InAddr}

/-- The replies of a member, and the deliveries of requests to it. -/
def replies (g : Group M) (m : M) : Nat :=
  g.network.countP fun p => decide (p.sender = m) && p.cause.isSome

def requests (g : Group M) (m : M) : Nat :=
  g.deliveries.countP fun d => decide (d.member = m) && decide (Requests d.datagram)

/-- The packet is the sender's address, and replies to a delivery of a request to the sender. -/
def Answers (ip : M → InAddr) (deliveries : List (Delivery M)) (p : Packet M) : Prop :=
  ∀ k, p.cause = some k → p.datagram = ipDatagram (ip p.sender) ∧
    ∃ d, deliveries[k]? = some d ∧ d.member = p.sender ∧ Requests d.datagram

structure Inv (ip : M → InAddr) (g : Group M) : Prop where
  nul : ∀ p ∈ g.network, 0 ∉ p.datagram.payload
  answers : ∀ p ∈ g.network, Answers ip g.deliveries p
  distinct : (g.network.filterMap Packet.cause).Nodup
  counts : ∀ m, replies g m = requests g m
  delivered : ∀ d ∈ g.deliveries, ∃ p, g.network[d.packet]? = some p ∧ p.datagram = d.datagram

theorem inv_start : Inv ip (Group.start : Group M) where
  nul _ hp := absurd hp List.not_mem_nil
  answers _ hp := absurd hp List.not_mem_nil
  distinct := List.nodup_nil
  counts _ := rfl
  delivered _ hd := absurd hd List.not_mem_nil

variable {g t : Group M} {m : M}

omit [DecidableEq M] in
theorem Answers.append {deliveries : List (Delivery M)} {p : Packet M}
    (h : Answers ip deliveries p) (d : Delivery M) : Answers ip (deliveries ++ [d]) p := by
  intro k hk
  obtain ⟨hdatagram, e, he, hmember, hrequests⟩ := h k hk
  refine ⟨hdatagram, e, ?_, hmember, hrequests⟩
  rw [List.getElem?_append_left (List.getElem?_eq_some_iff.mp he).1, he]

omit [DecidableEq M] in
theorem delivered_append {d : Delivery M} {network : List (Packet M)}
    (h : ∃ p, network[d.packet]? = some p ∧ p.datagram = d.datagram) (new : List (Packet M)) :
    ∃ p, (network ++ new)[d.packet]? = some p ∧ p.datagram = d.datagram := by
  obtain ⟨p, hp, hdatagram⟩ := h
  refine ⟨p, ?_, hdatagram⟩
  rw [List.getElem?_append_left (List.getElem?_eq_some_iff.mp hp).1, hp]

/-! ## What keeps the invariant -/

/-- `speak_thread` sends packets that are no replies. -/
theorem Inv.speak (hg : Inv ip g) {new : List (Packet M)}
    (hnew : ∀ p ∈ new, p.cause = none ∧ 0 ∉ p.datagram.payload)
    (hnetwork : t.network = g.network ++ new) (hdeliveries : t.deliveries = g.deliveries) :
    Inv ip t where
  nul := by
    rw [hnetwork, List.forall_mem_append]
    exact ⟨hg.nul, fun p hp => (hnew p hp).2⟩
  answers := by
    rw [hnetwork, hdeliveries, List.forall_mem_append]
    refine ⟨hg.answers, fun p hp k hk => ?_⟩
    rw [(hnew p hp).1] at hk
    cases hk
  distinct := by
    have hnone : new.filterMap Packet.cause = [] :=
      List.filterMap_eq_nil_iff.mpr fun p hp => (hnew p hp).1
    rw [hnetwork, List.filterMap_append, hnone, List.append_nil]
    exact hg.distinct
  counts := by
    intro m
    have hzero : new.countP (fun p => decide (p.sender = m) && p.cause.isSome) = 0 := by
      rw [List.countP_eq_zero]
      intro p hp
      simp [(hnew p hp).1]
    rw [replies, requests, hnetwork, hdeliveries, List.countP_append, hzero]
    exact hg.counts m
  delivered := by
    rw [hnetwork, hdeliveries]
    exact fun d hd => delivered_append (hg.delivered d hd) new

/-- A request is answered. -/
theorem Inv.answer (hg : Inv ip g) {i : Nat} {p : Packet M} (hp : g.network[i]? = some p)
    (hrequests : Requests p.datagram)
    (hnetwork : t.network =
      g.network ++ [⟨m, .reply g.deliveries.length, ipDatagram (ip m)⟩])
    (hdeliveries : t.deliveries = g.deliveries ++ [⟨m, i, p.datagram⟩]) : Inv ip t where
  nul := by
    rw [hnetwork, List.forall_mem_append, List.forall_mem_singleton]
    exact ⟨hg.nul, zero_notMem_inetNtoa (ip m)⟩
  answers := by
    rw [hnetwork, hdeliveries, List.forall_mem_append, List.forall_mem_singleton]
    refine ⟨fun q hq => (hg.answers q hq).append _, fun k hk => ?_⟩
    cases hk
    exact ⟨rfl, _, List.getElem?_concat_length, rfl, hrequests⟩
  distinct := by
    rw [hnetwork, List.filterMap_append, List.nodup_append]
    refine ⟨hg.distinct, List.nodup_singleton _, fun k hk l hl hkl => ?_⟩
    -- an older reply has an older cause
    obtain ⟨q, hq, hcause⟩ := List.mem_filterMap.mp hk
    obtain ⟨-, d, hd, -⟩ := hg.answers q hq k hcause
    have hlt := (List.getElem?_eq_some_iff.mp hd).1
    have hnew : l = g.deliveries.length := List.mem_singleton.mp hl
    omega
  counts := by
    intro n
    have h := hg.counts n
    rw [replies, requests] at h
    rw [replies, requests, hnetwork, hdeliveries, List.countP_append, List.countP_append, h]
    by_cases hn : m = n
    · simp [hn, hrequests, Packet.cause, Origin.cause]
    · simp [hn]
  delivered := by
    rw [hnetwork, hdeliveries, List.forall_mem_append, List.forall_mem_singleton]
    exact ⟨fun d hd => delivered_append (hg.delivered d hd) _, delivered_append ⟨p, hp, rfl⟩ _⟩

/-- All else is printed. -/
theorem Inv.print (hg : Inv ip g) {i : Nat} {p : Packet M} (hp : g.network[i]? = some p)
    (hrequests : ¬ Requests p.datagram) (hnetwork : t.network = g.network)
    (hdeliveries : t.deliveries = g.deliveries ++ [⟨m, i, p.datagram⟩]) : Inv ip t where
  nul := by
    rw [hnetwork]
    exact hg.nul
  answers := by
    rw [hnetwork, hdeliveries]
    exact fun q hq => (hg.answers q hq).append _
  distinct := by
    rw [hnetwork]
    exact hg.distinct
  counts := by
    intro n
    have h := hg.counts n
    rw [replies, requests] at h
    rw [replies, requests, hnetwork, hdeliveries, List.countP_append, h]
    simp [hrequests]
  delivered := by
    rw [hnetwork, hdeliveries, List.forall_mem_append, List.forall_mem_singleton]
    exact ⟨hg.delivered, p, hp, rfl⟩

/-- What a delivery does, in a group whose datagrams hold no `NUL`. -/
theorem step_deliver (hg : Inv ip g) {i : Nat} (h : Group.step ip g (.deliver m i) = some t) :
    ∃ p, g.network[i]? = some p ∧ t.deliveries = g.deliveries ++ [⟨m, i, p.datagram⟩] ∧
      ((Requests p.datagram ∧ t.network =
          g.network ++ [⟨m, .reply g.deliveries.length, ipDatagram (ip m)⟩]) ∨
        (¬ Requests p.datagram ∧ t.network = g.network)) := by
  obtain ⟨p, hp, rfl⟩ := Option.map_eq_some_iff.mp h
  have htext : p.datagram.text = p.datagram.payload :=
    Datagram.text_of_notMem (hg.nul p (List.mem_of_getElem? hp))
  refine ⟨p, hp, rfl, ?_⟩
  by_cases hrequests : Requests p.datagram
  · refine Or.inl ⟨hrequests, ?_⟩
    rw [Group.listen, listenBody_echo (htext.trans hrequests)]
    rfl
  · refine Or.inr ⟨hrequests, ?_⟩
    rw [Group.listen, listenBody_line (by rw [htext]; exact hrequests)]
    exact List.append_nil _

theorem inv_step (hg : Inv ip g) {e : Event M} (h : Group.step ip g e = some t) : Inv ip t := by
  cases e with
  | press m key =>
    cases h
    have hnone : ∀ p ∈ ([] : List (Packet M)), p.cause = none ∧ 0 ∉ p.datagram.payload :=
      fun p hp => absurd hp List.not_mem_nil
    exact hg.speak hnone (List.append_nil _).symm rfl
  | speak m =>
    obtain ⟨⟨stdin, sent⟩, hbody, rfl⟩ := Option.map_eq_some_iff.mp h
    refine hg.speak (fun p hp => ?_) rfl rfl
    obtain ⟨x, hx, rfl⟩ := List.mem_map.mp hp
    exact speakBody_sent hbody x hx
  | deliver m i =>
    obtain ⟨p, hp, hdeliveries, ⟨hrequests, hnetwork⟩ | ⟨hrequests, hnetwork⟩⟩ := step_deliver hg h
    · exact hg.answer hp hrequests hnetwork hdeliveries
    · exact hg.print hp hrequests hnetwork hdeliveries

/-! ## No reply storm -/

/-- What a group without a storm of replies is like: each reply is its sender's address and
answers a delivery of a request to the sender, no two answer the same one and none is missing,
no request is a reply, and nothing is sent when a reply is delivered. -/
structure NoStorm (ip : M → InAddr) (g : Group M) : Prop where
  delivered : ∀ d ∈ g.deliveries, ∃ p, g.network[d.packet]? = some p ∧ p.datagram = d.datagram
  answers : ∀ p ∈ g.network, Answers ip g.deliveries p
  distinct : (g.network.filterMap Packet.cause).Nodup
  counts : ∀ m, replies g m = requests g m
  origin : ∀ p ∈ g.network, Requests p.datagram → p.origin = .key ∨ p.origin = .line
  silent : ∀ m i p t, g.network[i]? = some p → p.cause ≠ none →
    Group.step ip g (.deliver m i) = some t → t.network = g.network

/-- A reply is no request. -/
theorem Inv.not_requests (hg : Inv ip g) {p : Packet M} (hp : p ∈ g.network)
    (hcause : p.cause ≠ none) : ¬ Requests p.datagram := by
  obtain ⟨k, hk⟩ := Option.ne_none_iff_exists'.mp hcause
  rw [(hg.answers p hp k hk).1]
  exact ipDatagram_not_requests _

/-- **No reply storm**: in every state that a group can reach, requests come from keys and typed
lines only, and the replies are the answers to the deliveries of requests, one for each. -/
theorem reachable_noStorm (h : Lib.Reachable (Group.step ip) (· = Group.start) g) :
    NoStorm ip g := by
  have hg : Inv ip g := h.invariant (fun _ hs => hs ▸ inv_start) fun _ _ _ hs hstep =>
    inv_step hs hstep
  refine ⟨hg.delivered, hg.answers, hg.distinct, hg.counts, ?_, ?_⟩
  · intro p hp hrequests
    cases horigin : p.origin with
    | key => exact Or.inl rfl
    | line => exact Or.inr rfl
    | reply k =>
      have hcause : p.cause ≠ none := by
        rw [Packet.cause, horigin]
        exact Option.some_ne_none k
      exact absurd hrequests (hg.not_requests hp hcause)
  · intro m i p t hp hcause hstep
    obtain ⟨q, hq, -, ⟨hrequests, -⟩ | ⟨-, hnetwork⟩⟩ := step_deliver hg hstep
    · obtain rfl : p = q := Option.some.inj (hp.symm.trans hq)
      exact absurd hrequests (hg.not_requests (List.mem_of_getElem? hp) hcause)
    · exact hnetwork

end

/-- The addresses of two members. -/
def addresses : Bool → InAddr
  | false => ⟨10, 0, 0, 1⟩
  | true => ⟨10, 0, 0, 2⟩

/-- A member presses the command key; the other one gets the request and replies, and the reply
comes to both. -/
def requested : List (Event Bool) :=
  [.press false 45, .speak false, .deliver true 0, .deliver false 1, .deliver true 1]

theorem reachable_noStorm_requested :
    ∃ g, exec (Group.step addresses) Group.start requested = some g ∧ NoStorm addresses g ∧
      replies g true = 1 ∧ g.deliveries.length = 3 ∧ g.network.length = 2 := by
  have hrequested : (exec (Group.step addresses) Group.start requested).map (fun g =>
      (replies g true, g.deliveries.length, g.network.length)) = some (1, 3, 2) := by
    decide +kernel
  obtain ⟨g, hrun, hcounts⟩ := Option.map_eq_some_iff.mp hrequested
  obtain ⟨hreplies, hrest⟩ := Prod.mk.inj hcounts
  obtain ⟨hdeliveries, hnetwork⟩ := Prod.mk.inj hrest
  exact ⟨g, hrun, reachable_noStorm ⟨_, rfl, requested, hrun⟩, hreplies, hdeliveries, hnetwork⟩

end Spolks.Chat.Multicast
