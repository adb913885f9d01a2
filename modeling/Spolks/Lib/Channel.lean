import Mathlib.Logic.Function.Basic
import Mathlib.Tactic.Tauto

/-!
# Point-to-point channels with non-blocking sends

A channel is the list of the sends posted on it and not yet matched, in the order of the
calls. A send is posted as `none`; once its buffer has been read the entry is `some m`.
Receives are matched with the front of the list, so a channel is reliable and FIFO. The
send last posted on a channel is complete when it has been matched or, on a channel that
buffers its sends (`eager`), as soon as its buffer has been read.

`Once posted taken q m` describes a channel that carries the single message `m` in a run:
nothing before it is posted, the unread or read entry while it waits, nothing after it is
taken. Each operation has one rule for it. `Carries posted taken q Good` is the same where
only `Good m` is known of the message; `reads` counts the buffers that have been read and
not taken.
-/

namespace Spolks.Lib

variable {κ μ : Type*}

/-- The sends waiting on each channel. -/
abbrev Net (κ μ : Type*) := κ → List (Option μ)

/-- The buffer of the first unread send is read and holds `m`. -/
def fill (m : μ) : List (Option μ) → List (Option μ)
  | [] => []
  | none :: q => some m :: q
  | some x :: q => some x :: fill m q

namespace Net

/-- The message at the front of the channel, if its buffer has been read. -/
def front (n : Net κ μ) (c : κ) : Option μ := (n c).head?.join

/-- Some send on the channel has a buffer that is still to be read. -/
def unread (n : Net κ μ) (c : κ) : Bool := (n c).any Option.isNone

/-- The send last posted on the channel is complete. -/
def sendDone (n : Net κ μ) (eager : κ → Bool) (c : κ) : Bool :=
  match (n c).getLast? with
  | none => true
  | some none => false
  | some (some _) => eager c

variable [DecidableEq κ]

def post (n : Net κ μ) (c : κ) : Net κ μ := Function.update n c (n c ++ [none])

def read (n : Net κ μ) (c : κ) (m : μ) : Net κ μ := Function.update n c (fill m (n c))

def take (n : Net κ μ) (c : κ) : Net κ μ := Function.update n c (n c).tail

@[simp] theorem post_self (n : Net κ μ) (c : κ) : n.post c c = n c ++ [none] :=
  Function.update_self ..

@[simp] theorem read_self (n : Net κ μ) (c : κ) (m : μ) : n.read c m c = fill m (n c) :=
  Function.update_self ..

@[simp] theorem take_self (n : Net κ μ) (c : κ) : n.take c c = (n c).tail :=
  Function.update_self ..

theorem post_of_ne (n : Net κ μ) {c d : κ} (h : d ≠ c) : n.post c d = n d :=
  Function.update_of_ne h ..

theorem read_of_ne (n : Net κ μ) {c d : κ} (m : μ) (h : d ≠ c) : n.read c m d = n d :=
  Function.update_of_ne h ..

theorem take_of_ne (n : Net κ μ) {c d : κ} (h : d ≠ c) : n.take c d = n d :=
  Function.update_of_ne h ..

end Net

/-! ## A channel that carries one message -/

/-- The channel `q` carries the message `m` once. -/
structure Once (posted taken : Prop) (q : List (Option μ)) (m : μ) : Prop where
  posted_of_taken : taken → posted
  waiting : posted → ¬ taken → q = [none] ∨ q = [some m]
  empty : ¬ posted ∨ taken → q = []

namespace Once

variable {P T P' T' : Prop} {q : List (Option μ)} {m : μ}

theorem congr (h : Once P T q m) (hP : P ↔ P') (hT : T ↔ T') : Once P' T' q m := by
  rwa [propext hP, propext hT] at h

theorem init (m : μ) (hP : ¬ P) (hT : ¬ T) : Once P T [] m :=
  ⟨fun h => absurd h hT, fun h => absurd h hP, fun _ => rfl⟩

theorem post (h : Once P T q m) (hP : ¬ P) (hP' : P') (hT : T' ↔ T) :
    Once P' T' (q ++ [none]) m := by
  have hnT : ¬ T' := fun ht => hP (h.posted_of_taken (hT.mp ht))
  refine ⟨fun _ => hP', fun _ _ => Or.inl ?_, fun hne => ?_⟩
  · rw [h.empty (Or.inl hP), List.nil_append]
  · exact absurd hP' (hne.resolve_right hnT)

theorem fill (h : Once P T q m) : Once P T (Lib.fill m q) m := by
  refine ⟨h.posted_of_taken, fun hP hT => ?_, fun hne => by rw [h.empty hne, Lib.fill]⟩
  rcases h.waiting hP hT with hq | hq
  · exact Or.inr (by rw [hq, Lib.fill])
  · exact Or.inr (by rw [hq, Lib.fill, Lib.fill])

theorem front {x : μ} (h : Once P T q m) (hx : q.head?.join = some x) :
    x = m ∧ P ∧ ¬ T ∧ q = [some m] := by
  by_cases hw : P ∧ ¬ T
  · rcases h.waiting hw.1 hw.2 with hq | hq
    · rw [hq] at hx
      cases hx
    · rw [hq] at hx
      cases hx
      exact ⟨rfl, hw.1, hw.2, hq⟩
  · rw [h.empty (by tauto)] at hx
    cases hx

/-- The message is taken. -/
theorem take {x : μ} (h : Once P T q m) (hx : q.head?.join = some x) (hP : P' ↔ P) (hT' : T') :
    Once P' T' q.tail m := by
  obtain ⟨-, hP', -, hq⟩ := h.front hx
  exact ⟨fun _ => hP.mpr hP', fun _ hnT => absurd hT' hnT, fun _ => by rw [hq]; rfl⟩

theorem front_of_read (h : Once P T q m) (hP : P) (hT : ¬ T) (hr : q ≠ [none]) :
    q.head?.join = some m := by
  rw [(h.waiting hP hT).resolve_left hr]
  rfl

end Once

/-! ## A channel whose message is not known -/

/-- The channel `q` carries a message that meets `Good` once. -/
structure Carries (posted taken : Prop) (q : List (Option μ)) (Good : μ → Prop) : Prop where
  posted_of_taken : taken → posted
  waiting : posted → ¬ taken → q = [none] ∨ ∃ m, Good m ∧ q = [some m]
  empty : ¬ posted ∨ taken → q = []

namespace Carries

variable {P T P' T' : Prop} {q : List (Option μ)} {G G' : μ → Prop}

theorem congr (h : Carries P T q G) (hP : P ↔ P') (hT : T ↔ T') (hG : P → ∀ m, G m → G' m) :
    Carries P' T' q G' := by
  obtain rfl := propext hP
  obtain rfl := propext hT
  refine ⟨h.posted_of_taken, fun hp hnt => ?_, h.empty⟩
  rcases h.waiting hp hnt with hq | ⟨m, hm, hq⟩
  · exact Or.inl hq
  · exact Or.inr ⟨m, hG hp m hm, hq⟩

theorem init (G : μ → Prop) (hP : ¬ P) (hT : ¬ T) : Carries P T [] G :=
  ⟨fun h => absurd h hT, fun h => absurd h hP, fun _ => rfl⟩

theorem post (h : Carries P T q G) (hP : ¬ P) (hP' : P') (hT : T' ↔ T) :
    Carries P' T' (q ++ [none]) G' := by
  have hnT : ¬ T' := fun ht => hP (h.posted_of_taken (hT.mp ht))
  refine ⟨fun _ => hP', fun _ _ => Or.inl ?_, fun hne => ?_⟩
  · rw [h.empty (Or.inl hP), List.nil_append]
  · exact absurd hP' (hne.resolve_right hnT)

/-- What is on the channel: nothing, an unread buffer, or a message. -/
theorem cases_eq (h : Carries P T q G) :
    q = [] ∨ (P ∧ ¬ T) ∧ (q = [none] ∨ ∃ m, G m ∧ q = [some m]) := by
  by_cases hw : P ∧ ¬ T
  · exact Or.inr ⟨hw, h.waiting hw.1 hw.2⟩
  · exact Or.inl (h.empty (by tauto))

/-- An unread buffer is the only entry. -/
theorem eq_of_unread (h : Carries P T q G) (hq : q.any Option.isNone = true) :
    (P ∧ ¬ T) ∧ q = [none] := by
  rcases h.cases_eq with hnil | ⟨hw, hnone | ⟨m, -, hsome⟩⟩
  · rw [hnil] at hq
    cases hq
  · exact ⟨hw, hnone⟩
  · rw [hsome] at hq
    cases hq

/-- The buffer is read and holds `m`. -/
theorem fill {m : μ} (h : Carries P T q G) (hq : q = [none]) (hm : G m) :
    Carries P T (Lib.fill m q) G :=
  ⟨h.posted_of_taken, fun _ _ => Or.inr ⟨m, hm, by rw [hq, Lib.fill]⟩,
    fun hne => by rw [h.empty hne, Lib.fill]⟩

theorem front {x : μ} (h : Carries P T q G) (hx : q.head?.join = some x) :
    G x ∧ (P ∧ ¬ T) ∧ q = [some x] := by
  rcases h.cases_eq with hnil | ⟨hw, hnone | ⟨m, hm, hsome⟩⟩
  · rw [hnil] at hx
    cases hx
  · rw [hnone] at hx
    cases hx
  · rw [hsome] at hx
    cases hx
    exact ⟨hm, hw, hsome⟩

/-- The message is taken. -/
theorem take {x : μ} (h : Carries P T q G) (hx : q.head?.join = some x) (hP : P' ↔ P)
    (hT' : T') : Carries P' T' q.tail G' := by
  obtain ⟨-, hw, hq⟩ := h.front hx
  exact ⟨fun _ => hP.mpr hw.1, fun _ hnT => absurd hT' hnT, fun _ => by rw [hq]; rfl⟩

theorem front_of_read (h : Carries P T q G) (hP : P) (hT : ¬ T) (hr : q ≠ [none]) :
    ∃ m, G m ∧ q.head?.join = some m := by
  obtain ⟨m, hm, hq⟩ := (h.waiting hP hT).resolve_left hr
  exact ⟨m, hm, by rw [hq]; rfl⟩

end Carries

theorem Once.carries {P T : Prop} {q : List (Option μ)} {m : μ} (h : Once P T q m) :
    Carries P T q (· = m) :=
  ⟨h.posted_of_taken, fun hP hT => (h.waiting hP hT).imp_right fun hq => ⟨m, rfl, hq⟩, h.empty⟩

/-- The buffers on a channel that have been read. -/
def reads (q : List (Option μ)) : Nat := q.countP Option.isSome

@[simp] theorem reads_nil : reads ([] : List (Option μ)) = 0 := rfl

@[simp] theorem reads_post (q : List (Option μ)) : reads (q ++ [none]) = reads q := by
  rw [reads, List.countP_append]
  rfl

theorem Carries.reads_le {P T : Prop} {q : List (Option μ)} {G : μ → Prop}
    (h : Carries P T q G) : reads q ≤ 1 := by
  rcases h.cases_eq with hq | ⟨-, hq | ⟨m, -, hq⟩⟩
  · rw [hq]
    exact Nat.zero_le 1
  · rw [hq]
    exact Nat.zero_le 1
  · rw [hq]
    exact Nat.le_refl 1

theorem Carries.reads_of_taken {P T : Prop} {q : List (Option μ)} {G : μ → Prop}
    (h : Carries P T q G) (hT : T) : reads q = 0 := by rw [h.empty (Or.inr hT), reads_nil]

theorem Carries.reads_of_not_posted {P T : Prop} {q : List (Option μ)} {G : μ → Prop}
    (h : Carries P T q G) (hP : ¬ P) : reads q = 0 := by rw [h.empty (Or.inl hP), reads_nil]

section SendDone

variable {P T : Prop} {n : Net κ μ} {c : κ} {m : μ} {eager : κ → Bool}

theorem sendDone_of_nil (h : n c = []) : n.sendDone eager c = true := by
  rw [Net.sendDone, h]
  rfl

theorem ne_unread_of_sendDone (h : n.sendDone eager c = true) : n c ≠ [none] := by
  intro hq
  rw [Net.sendDone, hq] at h
  cases h

theorem unread_of_eq (h : n c = [none]) : n.unread c = true := by
  rw [Net.unread, h]
  rfl

end SendDone

end Spolks.Lib
