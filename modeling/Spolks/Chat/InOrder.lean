import Spolks.Chat.Peers

/-!
# `lab3_2/session_v3.c`: a listener among the peers

A listener that gets the datagrams of each peer in the order in which this peer has sent them,
and all up to the last one that it gets: then what it gets are arrivals, its session is that of
the group, and which tables are right is known.

* `follows_step`: what a step preserves.
* `in_order_run`: the session of such a listener in a run of the peers.
-/

namespace Spolks.Chat.Broadcast

open Lib Sockcore

/-! ## Sessions with the same table -/

/-- Two sessions that differ in what they have printed or listed at most. -/
structure SameTable (s s' : Session) : Prop where
  awaiting : s.awaiting = s'.awaiting
  client : s.client = s'.client
  clientsNum : s.clientsNum = s'.clientsNum
  undefined : s.undefined = s'.undefined

namespace SameTable

variable {s s' : Session}

theorem entries (h : SameTable s s') : s.entries = s'.entries := by
  rw [Session.entries, Session.entries, h.client, h.clientsNum]

theorem store (h : SameTable s s') (text : CString) : SameTable (s.store text) (s'.store text) where
  awaiting := rfl
  client := by
    show (if (Store.mk s.clientsNum _).InBounds then Function.update s.client s.clientsNum text
      else s.client) = if (Store.mk s'.clientsNum _).InBounds then _ else _
    rw [h.client, h.clientsNum]
  clientsNum := congrArg (· + 1) h.clientsNum
  undefined := by
    show (!decide (Store.mk s.clientsNum _).InBounds) = !decide (Store.mk s'.clientsNum _).InBounds
    rw [h.clientsNum]

/-- The next datagram does the same to both. -/
theorem receive (h : SameTable s s') (d : Datagram) : SameTable (s.receive d) (s'.receive d) := by
  cases hawaiting : s.awaiting with
  | true =>
    rw [Session.receive_store hawaiting, Session.receive_store (h.awaiting.symm.trans hawaiting)]
    exact h.store d.text
  | false =>
    have hawaiting' : s'.awaiting = false := h.awaiting.symm.trans hawaiting
    by_cases hd : d.text = enter
    · rw [Session.receive_enter hawaiting hd, Session.receive_enter hawaiting' hd]
      exact ⟨rfl, h.client, h.clientsNum, h.undefined⟩
    · rw [Session.receive_line hawaiting hd, Session.receive_line hawaiting' hd]
      exact ⟨h.awaiting, h.client, h.clientsNum, h.undefined⟩

/-- A row is printed. -/
theorem printRow (h : SameTable s s') (copied : Option Nat) (row : Nat) :
    SameTable s (s'.printRow copied row) := ⟨h.awaiting, h.client, h.clientsNum, h.undefined⟩

end SameTable

/-! ## Deliveries in order -/

section

variable {M : Type} [DecidableEq M] {ip : M → InAddr} {m : M} {g t : Lan M} {a : Action M}
  {as : List (Action M)}

/-- What the listener gets is the next datagram of its sender. -/
def InOrder (m : M) (g : Lan M) (a : Action M) : Prop :=
  ∀ i p, a = .deliver m i → g.network[i]? = some p →
    (sentBy (g.network.take i) p.sender).length = (sentBy (g.received m) p.sender).length

/-- The packets as arrivals. -/
def arrivals (packets : List (Packet M)) : List (Arrival M) :=
  packets.map fun p => ⟨p.sender, p.datagram⟩

theorem prefix_next {xs ys : List Datagram} {d : Datagram} (h : xs <+: ys)
    (hd : ys[xs.length]? = some d) : xs ++ [d] <+: ys := by
  obtain ⟨zs, rfl⟩ := h
  rw [List.getElem?_append_right (Nat.le_refl _), Nat.sub_self] at hd
  cases zs with
  | nil => cases hd
  | cons z zs =>
    cases hd
    exact ⟨zs, (List.append_cons ..).symm⟩

/-- The datagrams of its sender before a packet are those among the packets before it. -/
theorem sentBy_getElem? {network : List (Packet M)} {i : Nat} {p : Packet M}
    (hp : network[i]? = some p) :
    (sentBy network p.sender)[(sentBy (network.take i) p.sender).length]? = some p.datagram := by
  have hdrop : network.drop i = p :: network.drop (i + 1) := by
    obtain ⟨hi, rfl⟩ := List.getElem?_eq_some_iff.mp hp
    exact List.drop_eq_getElem_cons hi
  have hall : sentBy network p.sender = sentBy (network.take i) p.sender ++
      p.datagram :: sentBy (network.drop (i + 1)) p.sender := by
    have hfirst : sentBy (p :: network.drop (i + 1)) p.sender =
        p.datagram :: sentBy (network.drop (i + 1)) p.sender :=
      List.filterMap_cons_some (if_pos rfl)
    rw [← hfirst, ← hdrop, ← sentBy_append, List.take_append_drop]
  rw [hall, List.getElem?_append_right (Nat.le_refl _), Nat.sub_self]
  rfl

/-- The first two datagrams of a peer are those that `main` sends. -/
theorem Said.getElem? (h : Said ip as g) {k : M} {n : Nat} {d : Datagram}
    (hd : (sentBy g.network k)[n]? = some d) (hn : n < 2) : (announcement (ip k))[n]? = some d := by
  obtain ⟨spoken, hsent, hfirst, -⟩ := h k
  rw [hsent] at hd
  by_cases hlt : g.announced k < 2
  · rw [hfirst hlt, List.append_nil, List.getElem?_take] at hd
    split at hd
    · exact hd
    · cases hd
  · have hall : (announcement (ip k)).take (g.announced k) = announcement (ip k) :=
      List.take_of_length_le (Nat.not_lt.mp hlt)
    rwa [hall, List.getElem?_append_left (show n < (announcement (ip k)).length from hn)] at hd

omit [DecidableEq M] in
/-- The group takes the packet for what it is. -/
theorem datagram_eq {gr : Group M} {p : Packet M}
    (hfirst : gr.arrived p.sender < 2 →
      (announcement (ip p.sender))[gr.arrived p.sender]? = some p.datagram) :
    gr.datagram ip ⟨p.sender, p.datagram⟩ = p.datagram := by
  rw [Group.datagram, Group.kind]
  dsimp only
  rcases hn : gr.arrived p.sender with _ | _ | n
  · rw [hn] at hfirst
    exact Option.some.inj (hfirst Nat.two_pos)
  · rw [hn] at hfirst
    exact Option.some.inj (hfirst Nat.one_lt_two)
  · rfl

/-! ## What a step preserves -/

/-- The listener has got beginnings of what the peers have sent, and a group to which they arrive
has the same table. -/
structure Follows (ip : M → InAddr) (m : M) (g : Lan M) (gr : Group M) : Prop where
  order : ∀ k, sentBy (g.received m) k <+: sentBy g.network k
  run : exec (Group.arrive ip) .start (arrivals (g.received m)) = some gr
  table : SameTable gr.session (g.session m)
  arrived : ∀ k, gr.arrived k = (sentBy (g.received m) k).length

theorem follows_start : Follows ip m Lan.start Group.start where
  order _ := List.prefix_rfl
  run := rfl
  table := ⟨rfl, rfl, rfl, rfl⟩
  arrived _ := rfl

/-- The network grows, and a row is printed at most. -/
theorem Follows.other {gr : Group M} (h : Follows ip m g gr) (new : List (Packet M))
    (hnetwork : t.network = g.network ++ new) (hreceived : t.received m = g.received m)
    (hsession : t.session m = g.session m ∨
      ∃ copied row, t.session m = (g.session m).printRow copied row) :
    Follows ip m t gr where
  order k := by
    rw [hnetwork, hreceived, sentBy_append]
    exact (h.order k).trans (List.prefix_append ..)
  run := by
    rw [hreceived]
    exact h.run
  table := by
    rcases hsession with hsame | ⟨copied, row, hprinted⟩
    · rw [hsame]
      exact h.table
    · rw [hprinted]
      exact h.table.printRow copied row
  arrived k := by
    rw [hreceived]
    exact h.arrived k

/-- The listener gets the next datagram of a peer. -/
theorem Follows.listen {gr : Group M} (h : Follows ip m g gr) (hsaid : Said ip as g) {p : Packet M}
    (hdefined : (g.session m).undefined = false)
    (hnext : (sentBy g.network p.sender)[(sentBy (g.received m) p.sender).length]? =
      some p.datagram) : ∃ gr', Follows ip m (g.listen m p) gr' := by
  have hreceived : (g.listen m p).received m = g.received m ++ [p] := Function.update_self ..
  have hsession : (g.listen m p).session m = (g.session m).receive p.datagram :=
    Function.update_self ..
  have hsent : ∀ k, sentBy (g.received m ++ [p]) k =
      sentBy (g.received m) k ++ if p.sender = k then [p.datagram] else [] := by
    intro k
    rw [sentBy_append]
    exact congrArg _ (sentBy_map [p.datagram] p.sender k)
  have hdatagram : gr.datagram ip ⟨p.sender, p.datagram⟩ = p.datagram := by
    apply datagram_eq
    rw [h.arrived]
    exact hsaid.getElem? hnext
  have harrive : gr.arrive ip ⟨p.sender, p.datagram⟩ = some _ :=
    arrive_eq (h.table.undefined.trans hdefined) _
  rw [hdatagram] at harrive
  refine ⟨gr.record ip ⟨p.sender, p.datagram⟩ (gr.session.receive p.datagram), fun k => ?_, ?_, ?_,
    fun k => ?_⟩
  · rw [hreceived, hsent]
    by_cases hk : p.sender = k
    · subst hk
      rw [if_pos rfl]
      exact prefix_next (h.order p.sender) hnext
    · rw [if_neg hk, List.append_nil]
      exact h.order k
  · rw [hreceived, arrivals, List.map_append]
    exact exec_append h.run (exec_single harrive)
  · rw [hsession]
    exact h.table.receive p.datagram
  · show Function.update gr.arrived p.sender (gr.arrived p.sender + 1) k = _
    rw [hreceived, hsent, List.length_append]
    by_cases hk : p.sender = k
    · subst hk
      rw [Function.update_self, if_pos rfl, h.arrived, List.length_singleton]
    · rw [Function.update_of_ne (Ne.symm hk), if_neg hk, h.arrived, List.length_nil, Nat.add_zero]

theorem follows_step {gr : Group M} (h : Follows ip m g gr) (hsaid : Said ip as g)
    (horder : InOrder m g a) (hstep : Lan.step ip g a = some t) : ∃ gr', Follows ip m t gr' := by
  cases a with
  | announce k =>
    obtain ⟨d, -, rfl⟩ := Option.map_eq_some_iff.mp hstep
    exact ⟨gr, h.other [⟨k, d⟩] rfl rfl (Or.inl rfl)⟩
  | press k key =>
    cases hstep
    exact ⟨gr, h.other [] (List.append_nil _).symm rfl (Or.inl rfl)⟩
  | speak k =>
    obtain ⟨-, hstep⟩ := Option.ite_none_right_eq_some.mp hstep
    obtain ⟨⟨rest, listed, sent⟩, -, rfl⟩ := Option.map_eq_some_iff.mp hstep
    exact ⟨gr, h.other _ rfl rfl (Or.inl rfl)⟩
  | row k =>
    obtain ⟨-, hstep⟩ := Option.ite_none_right_eq_some.mp hstep
    obtain ⟨i, -, rfl⟩ := Option.map_eq_some_iff.mp hstep
    refine ⟨gr, h.other [] (List.append_nil _).symm rfl ?_⟩
    by_cases hk : k = m
    · subst hk
      have hsession : (g.printRow k i).session k = _ := Function.update_self ..
      rw [hsession, Session.listRow]
      by_cases hi : i < (g.session k).clientsNum
      · rw [if_pos hi]
        exact Or.inr ⟨_, _, rfl⟩
      · rw [if_neg hi]
        exact Or.inl rfl
    · exact Or.inl (Function.update_of_ne (Ne.symm hk) _ _)
  | copy k =>
    obtain ⟨-, hstep⟩ := Option.ite_none_right_eq_some.mp hstep
    obtain ⟨n, -, rfl⟩ := Option.map_eq_some_iff.mp hstep
    exact ⟨gr, h.other [] (List.append_nil _).symm rfl (Or.inl rfl)⟩
  | deliver k i =>
    obtain ⟨⟨hrunning, -⟩, hstep⟩ := Option.ite_none_right_eq_some.mp hstep
    obtain ⟨p, hp, rfl⟩ := Option.map_eq_some_iff.mp hstep
    by_cases hk : k = m
    · subst hk
      apply h.listen hsaid hrunning.2
      rw [← horder i p rfl hp]
      exact sentBy_getElem? hp
    · exact ⟨gr, h.other [] (List.append_nil _).symm (Function.update_of_ne (Ne.symm hk) _ _)
        (Or.inl (Function.update_of_ne (Ne.symm hk) _ _))⟩

/-! ## Runs -/

theorem follows_run (hrun : exec (Lan.step ip) .start as = some g)
    (horder : Guarded (Lan.step ip) (InOrder m) .start as) : ∃ gr, Follows ip m g gr := by
  suffices h : (∃ as, Said ip as g) ∧ ∃ gr, Follows ip m g gr from h.2
  refine exec_guarded (I := fun g => (∃ as, Said ip as g) ∧ ∃ gr, Follows ip m g gr)
    (fun g a t h horder hstep => ?_) ⟨⟨[], said_start⟩, .start, follows_start⟩ horder hrun
  obtain ⟨⟨as, hsaid⟩, gr, hfollows⟩ := h
  exact ⟨⟨_, said_step hsaid hstep⟩, follows_step hfollows hsaid horder hstep⟩

/-- **A listener among the peers.** In every run of the peers in which what a listener gets is in
order, it has got beginnings of what the peers have sent, and these are a run of a group with the
same table. When all datagrams of this run come in turn, each peer whose announcement has been
got is in the table once, and no one else. -/
theorem in_order_run (hrun : exec (Lan.step ip) .start as = some g)
    (horder : Guarded (Lan.step ip) (InOrder m) .start as) :
    (∀ k, sentBy (g.received m) k <+: sentBy g.network k) ∧
    ∃ gr, exec (Group.arrive ip) .start (arrivals (g.received m)) = some gr ∧
      SameTable gr.session (g.session m) ∧
      (Guarded (Group.arrive ip) InTurn .start (arrivals (g.received m)) →
        (g.session m).undefined = false ∧
        (g.session m).entries = gr.announced.map fun k => inetNtoa (ip k)) ∧
      gr.announced.Nodup ∧ ∀ k, k ∈ gr.announced ↔ 2 ≤ (sentBy (g.received m) k).length := by
  obtain ⟨gr, h⟩ := follows_run hrun horder
  have hinv : Inv ip gr := exec_preserves (fun _ _ _ h => inv_arrive h) inv_start h.run
  refine ⟨h.order, gr, h.run, h.table, fun hturn => ?_, hinv.nodup, fun k => ?_⟩
  · obtain ⟨-, hsound⟩ := sound_of_inTurn h.run hturn
    exact ⟨h.table.undefined.symm.trans hsound.1,
      h.table.entries.symm.trans (hsound.entries_eq hinv)⟩
  · rw [hinv.announced, h.arrived]

end

/-- A peer gets its own announcement. -/
def own : List (Action Bool) :=
  [.announce false, .announce false, .deliver false 0, .deliver false 1]

theorem own_defined : (Session.start.receive enterDatagram).undefined = false :=
  congrArg Session.undefined start_receive_enter

theorem own_inOrder : Guarded (Lan.step twoIps) (InOrder false) .start own := by
  refine .cons (fun i p h => ?_) rfl (.cons (fun i p h => ?_) rfl
    (.cons (fun i p h hp => ?_) rfl (.cons (fun i p h hp => ?_)
      (Lan.step_deliver (.listen ⟨rfl, rfl⟩ own_defined) rfl rfl) trivial)))
  · cases h
  · cases h
  · cases h
    cases hp
    rfl
  · cases h
    cases hp
    rfl

theorem own_inTurn : Guarded (Group.arrive twoIps) InTurn .start
    [⟨false, enterDatagram⟩, ⟨false, ipDatagram (twoIps false)⟩] := by
  obtain ⟨-, -, hturn, -⟩ := announcement_inTurn twoIps (g := Group.start) (j := false) rfl rfl
    (Nat.succ_pos 9) rfl enterDatagram (ipDatagram (twoIps false))
  exact hturn

theorem in_order_run_own : ∃ g, exec (Lan.step twoIps) Lan.start own = some g ∧
    inetNtoa (twoIps false) ∈ (g.session false).entries := by
  have hmarker : exec (Lan.step twoIps) Lan.start
      [.announce false, .announce false, .deliver false 0] = some _ := rfl
  have hrun := exec_append hmarker
    (exec_single (Lan.step_deliver (i := 1) (.listen ⟨rfl, rfl⟩ own_defined) rfl rfl))
  obtain ⟨-, gr, -, -, hturn, -, hannounced⟩ := in_order_run hrun own_inOrder
  refine ⟨_, hrun, ?_⟩
  rw [(hturn own_inTurn).2]
  exact List.mem_map_of_mem ((hannounced false).mpr (Nat.le_refl 2))

end Spolks.Chat.Broadcast
