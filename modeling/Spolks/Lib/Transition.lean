import Mathlib.Algebra.BigOperators.Group.Finset.Basic
import Mathlib.Algebra.Order.BigOperators.Group.Finset

/-!
# Runs of a partial step function

A system is given by `step : σ → ε → Option σ`: in state `s` the event `e` is either
not enabled (`none`) or leads to one state. `exec` runs a list of events, `Reachable`
is reachability from a set of initial states, and `Guarded` says that every step of a
run meets a condition on its event and on the state before it.

* `Reachable.invariant`: a property of the initial states that every step preserves
  holds in every reachable state.
* `exec_history`: the same for a property of the state and of the events before it;
  `filterMap_concat`: what the last event adds to a history.
* `exec_cost`, `exists_leads_of_cost`: a cost that every step takes down, and that runs come to an
  end; `exec_ticks`, `exists_stuck`: a bounded count of the steps.
* `exec_guarded`: a property that guarded steps preserve.
* `exec_iff_guarded`, `exec_log_iff_guarded`, `throughout_iff_guarded`: the last state, what is
  logged, or every state, of a run is good exactly when all its steps meet the guard.
-/

namespace Spolks.Lib

variable {σ ε : Type*}

/-- Run the events in order; `none` when one of them is not enabled. -/
def exec (step : σ → ε → Option σ) : σ → List ε → Option σ
  | s, [] => some s
  | s, e :: es => (step s e).bind fun t => exec step t es

theorem exec_cons (step : σ → ε → Option σ) (s : σ) (e : ε) (es : List ε) :
    exec step s (e :: es) = (step s e).bind fun t => exec step t es := rfl

theorem exec_cons_iff {step : σ → ε → Option σ} {s t : σ} {e : ε} {es : List ε} :
    exec step s (e :: es) = some t ↔ ∃ m, step s e = some m ∧ exec step m es = some t := by
  rw [exec_cons, Option.bind_eq_some_iff]

theorem exec_append {step : σ → ε → Option σ} {s m t : σ} {es fs : List ε}
    (h₁ : exec step s es = some m) (h₂ : exec step m fs = some t) :
    exec step s (es ++ fs) = some t := by
  induction es generalizing s with
  | nil =>
    cases h₁
    exact h₂
  | cons e es ih =>
    obtain ⟨k, hk, hrest⟩ := exec_cons_iff.mp h₁
    exact exec_cons_iff.mpr ⟨k, hk, ih hrest⟩

theorem exec_single {step : σ → ε → Option σ} {s t : σ} {e : ε} (h : step s e = some t) :
    exec step s [e] = some t := exec_cons_iff.mpr ⟨t, h, rfl⟩

/-! ## Reachable states -/

/-- `s` is reached from an initial state by some run. -/
def Reachable (step : σ → ε → Option σ) (init : σ → Prop) (s : σ) : Prop :=
  ∃ s₀, init s₀ ∧ ∃ es, exec step s₀ es = some s

namespace Reachable

variable {step : σ → ε → Option σ} {init : σ → Prop}

theorem refl {s : σ} (h : init s) : Reachable step init s := ⟨s, h, [], rfl⟩

theorem exec {s t : σ} {es : List ε} (h : Reachable step init s)
    (hrun : Lib.exec step s es = some t) : Reachable step init t := by
  obtain ⟨s₀, h₀, fs, hfs⟩ := h
  exact ⟨s₀, h₀, fs ++ es, exec_append hfs hrun⟩

theorem tail {s t : σ} {e : ε} (h : Reachable step init s) (hstep : step s e = some t) :
    Reachable step init t := h.exec (exec_single hstep)

end Reachable

theorem exec_preserves {step : σ → ε → Option σ} {I : σ → Prop}
    (hstep : ∀ s e t, I s → step s e = some t → I t) {s t : σ} {es : List ε} (hs : I s)
    (hrun : exec step s es = some t) : I t := by
  induction es generalizing s with
  | nil =>
    cases hrun
    exact hs
  | cons e es ih =>
    obtain ⟨m, hm, hrest⟩ := exec_cons_iff.mp hrun
    exact ih (hstep s e m hs hm) hrest

theorem Reachable.invariant {step : σ → ε → Option σ} {init I : σ → Prop}
    (hinit : ∀ s, init s → I s) (hstep : ∀ s e t, I s → step s e = some t → I t) {s : σ}
    (h : Reachable step init s) : I s := by
  obtain ⟨s₀, h₀, es, hrun⟩ := h
  exact exec_preserves hstep (hinit s₀ h₀) hrun

/-- A property of the events so far and of the state that they lead to. -/
theorem exec_history {step : σ → ε → Option σ} {I : List ε → σ → Prop}
    (hstep : ∀ es s e t, I es s → step s e = some t → I (es ++ [e]) t) {s t : σ} {es : List ε}
    (hs : I [] s) (hrun : exec step s es = some t) : I es t := by
  suffices key : ∀ past s, I past s → exec step s es = some t → I (past ++ es) t from
    key [] s hs hrun
  clear hs hrun
  induction es with
  | nil =>
    intro past s hs hrun
    cases hrun
    rwa [List.append_nil]
  | cons e es ih =>
    intro past s hs hrun
    obtain ⟨m, hm, hrest⟩ := exec_cons_iff.mp hrun
    rw [List.append_cons]
    exact ih (past ++ [e]) m (hstep past s e m hs hm) hrest

/-- What the last event adds to what is picked out of a history. -/
theorem filterMap_concat {β : Type*} (f : ε → Option β) (es : List ε) (e : ε) :
    (es ++ [e]).filterMap f = es.filterMap f ++ (f e).toList := by
  rw [List.filterMap_append]
  cases h : f e with
  | none => rw [List.filterMap_cons_none h]; rfl
  | some x => rw [List.filterMap_cons_some h]; rfl

/-! ## Runs of chosen events -/

/-- A run all of whose events meet `A` leads from `s` to `t`. -/
def Leads (step : σ → ε → Option σ) (A : ε → Prop) (s t : σ) : Prop :=
  ∃ es, (∀ e ∈ es, A e) ∧ exec step s es = some t

namespace Leads

variable {step : σ → ε → Option σ} {A B : ε → Prop} {s t u : σ}

theorem refl (s : σ) : Leads step A s s := ⟨[], fun _ he => (List.not_mem_nil he).elim, rfl⟩

theorem head {e : ε} (hA : A e) (hstep : step s e = some t) (h : Leads step A t u) :
    Leads step A s u := by
  obtain ⟨es, hall, hrun⟩ := h
  exact ⟨e :: es, List.forall_mem_cons.mpr ⟨hA, hall⟩, exec_cons_iff.mpr ⟨t, hstep, hrun⟩⟩

theorem single {e : ε} (hA : A e) (hstep : step s e = some t) : Leads step A s t :=
  (refl t).head hA hstep

theorem trans (h : Leads step A s t) (h' : Leads step A t u) : Leads step A s u := by
  obtain ⟨es, hall, hrun⟩ := h
  obtain ⟨fs, hall', hrun'⟩ := h'
  exact ⟨es ++ fs, List.forall_mem_append.mpr ⟨hall, hall'⟩, exec_append hrun hrun'⟩

theorem mono (hAB : ∀ e, A e → B e) (h : Leads step A s t) : Leads step B s t := by
  obtain ⟨es, hall, hrun⟩ := h
  exact ⟨es, fun e he => hAB e (hall e he), hrun⟩

theorem preserves {I : σ → Prop} (hstep : ∀ s e t, A e → I s → step s e = some t → I t)
    (h : Leads step A s t) (hs : I s) : I t := by
  obtain ⟨es, hall, hrun⟩ := h
  induction es generalizing s with
  | nil =>
    cases hrun
    exact hs
  | cons e es ih =>
    obtain ⟨m, hm, hrest⟩ := exec_cons_iff.mp hrun
    obtain ⟨hA, hall⟩ := List.forall_mem_cons.mp hall
    exact ih (hstep s e m hA hs hm) hall hrest

end Leads

/-! ## Runs that end -/

/-- No event is enabled. -/
def Stuck (step : σ → ε → Option σ) (s : σ) : Prop := ∀ e, step s e = none

section Cost

variable {step : σ → ε → Option σ} {I : σ → Prop} {cost : σ → Nat}
  (hI : ∀ s e t, I s → step s e = some t → I t)
  (hcost : ∀ s e t, I s → step s e = some t → cost t < cost s)

include hI hcost

/-- A cost that every step takes down bounds the length of a run. -/
theorem exec_cost {s t : σ} {es : List ε} (hs : I s) (hrun : exec step s es = some t) :
    cost t + es.length ≤ cost s := by
  induction es generalizing s with
  | nil =>
    cases hrun
    exact Nat.le_refl _
  | cons e es ih =>
    obtain ⟨m, hm, hrest⟩ := exec_cons_iff.mp hrun
    have hless : cost m < cost s := hcost s e m hs hm
    have hle : cost t + es.length ≤ cost m := ih (hI s e m hs hm) hrest
    rw [List.length_cons]
    omega

/-- While `P` does not hold, one of the events that meet `A` is enabled: then these lead to `P`. -/
theorem exists_leads_of_cost {A : ε → Prop} {P : σ → Prop}
    (hgo : ∀ s, I s → ¬ P s → ∃ e, A e ∧ step s e ≠ none) {s : σ} (hs : I s) :
    ∃ t, Leads step A s t ∧ P t := by
  induction hk : cost s using Nat.strongRecOn generalizing s with
  | ind k ih =>
    by_cases hP : P s
    · exact ⟨s, .refl s, hP⟩
    · obtain ⟨e, hA, he⟩ := hgo s hs hP
      obtain ⟨m, hm⟩ := Option.ne_none_iff_exists'.mp he
      obtain ⟨t, ht, hPt⟩ := ih (cost m) (hk ▸ hcost s e m hs hm) (hI s e m hs hm) rfl
      exact ⟨t, ht.head hA hm, hPt⟩

/-- Every run can be continued to one that ends. -/
theorem exists_stuck_of_cost {s : σ} (hs : I s) :
    ∃ es t, exec step s es = some t ∧ Stuck step t := by
  obtain ⟨t, ⟨es, -, hrun⟩, ht⟩ := exists_leads_of_cost (A := fun _ => True) (P := Stuck step)
    hI hcost (fun s _ hgo => (not_forall.mp hgo).imp fun _ he => ⟨trivial, he⟩) hs
  exact ⟨es, t, hrun, ht⟩

end Cost

section Ticks

variable {step : σ → ε → Option σ} {I : σ → Prop} {ticks : σ → Nat}
  (hI : ∀ s e t, I s → step s e = some t → I t)
  (hticks : ∀ s e t, I s → step s e = some t → ticks t = ticks s + 1)

include hI hticks

/-- A count that every step takes up by one counts the steps of a run. -/
theorem exec_ticks {s t : σ} {es : List ε} (hs : I s) (hrun : exec step s es = some t) :
    ticks t = ticks s + es.length := by
  induction es generalizing s with
  | nil =>
    cases hrun
    rfl
  | cons e es ih =>
    obtain ⟨m, hm, hrest⟩ := exec_cons_iff.mp hrun
    rw [ih (hI s e m hs hm) hrest, hticks s e m hs hm, List.length_cons]
    omega

/-- When the count is bounded, every run can be continued to one that ends. -/
theorem exists_stuck {n : Nat} (hle : ∀ s, I s → ticks s ≤ n) {s : σ} (hs : I s) :
    ∃ es t, exec step s es = some t ∧ Stuck step t := by
  have hcost : ∀ s e t, I s → step s e = some t → n - ticks t < n - ticks s := by
    intro s e t hs hstep
    have hnext : ticks t = ticks s + 1 := hticks s e t hs hstep
    have hbound : ticks t ≤ n := hle t (hI s e t hs hstep)
    omega
  exact exists_stuck_of_cost hI hcost hs

end Ticks

/-! ## Counts that are sums -/

/-- A sum in which one term goes up by one. -/
theorem sum_add_one {n i : Nat} {f g : Nat → Nat} (hi : i < n) (hself : g i = f i + 1)
    (hother : ∀ j, j ≠ i → g j = f j) :
    ∑ j ∈ Finset.range n, g j = ∑ j ∈ Finset.range n, f j + 1 := by
  have hmem : i ∈ Finset.range n := Finset.mem_range.mpr hi
  have hrest : ∑ j ∈ (Finset.range n).erase i, g j = ∑ j ∈ (Finset.range n).erase i, f j :=
    Finset.sum_congr rfl fun j hj => hother j (Finset.ne_of_mem_erase hj)
  rw [← Finset.add_sum_erase _ g hmem, ← Finset.add_sum_erase _ f hmem, hself, hrest]
  exact Nat.add_right_comm ..

theorem sum_range_const {n m : Nat} {f : Nat → Nat} (h : ∀ i < n, f i = m) :
    ∑ i ∈ Finset.range n, f i = m * n := by
  rw [Finset.sum_const_nat fun i hi => h i (Finset.mem_range.mp hi), Finset.card_range,
    Nat.mul_comm]

theorem sum_range_le {n m : Nat} {f : Nat → Nat} (h : ∀ i < n, f i ≤ m) :
    ∑ i ∈ Finset.range n, f i ≤ m * n := by
  rw [← sum_range_const (f := fun _ => m) fun _ _ => rfl]
  exact Finset.sum_le_sum fun i hi => h i (Finset.mem_range.mp hi)

theorem sum_range_lt {n m : Nat} {f : Nat → Nat} (h : ∀ i < n, f i ≤ m) {i : Nat} (hi : i < n)
    (hlt : f i < m) : ∑ i ∈ Finset.range n, f i < m * n := by
  rw [← sum_range_const (f := fun _ => m) fun _ _ => rfl]
  exact Finset.sum_lt_sum (fun j hj => h j (Finset.mem_range.mp hj))
    ⟨i, Finset.mem_range.mpr hi, hlt⟩

/-! ## Guarded runs -/

/-- Every step of the run meets the guard in the state it is taken from. -/
def Guarded (step : σ → ε → Option σ) (G : σ → ε → Prop) : σ → List ε → Prop
  | _, [] => True
  | s, e :: es => G s e ∧ ∀ t, step s e = some t → Guarded step G t es

theorem Guarded.cons {step : σ → ε → Option σ} {G : σ → ε → Prop} {s t : σ} {e : ε} {es : List ε}
    (hG : G s e) (hstep : step s e = some t) (h : Guarded step G t es) :
    Guarded step G s (e :: es) := by
  refine ⟨hG, fun u hu => ?_⟩
  obtain rfl : t = u := Option.some.inj (hstep.symm.trans hu)
  exact h

theorem Guarded.append {step : σ → ε → Option σ} {G : σ → ε → Prop} {s t : σ} {es fs : List ε}
    (h : Guarded step G s es) (hrun : exec step s es = some t) (h' : Guarded step G t fs) :
    Guarded step G s (es ++ fs) := by
  induction es generalizing s with
  | nil =>
    cases hrun
    exact h'
  | cons e es ih =>
    obtain ⟨m, hm, hrest⟩ := exec_cons_iff.mp hrun
    exact .cons h.1 hm (ih (h.2 m hm) hrest)

/-- A property that guarded steps preserve holds at the end of a guarded run. -/
theorem exec_guarded {step : σ → ε → Option σ} {I : σ → Prop} {G : σ → ε → Prop}
    (hstep : ∀ s e t, I s → G s e → step s e = some t → I t) :
    ∀ {es : List ε} {s t : σ}, I s → Guarded step G s es → exec step s es = some t → I t := by
  intro es
  induction es with
  | nil =>
    intro s t hs _ hrun
    cases hrun
    exact hs
  | cons e es ih =>
    rintro s t hs ⟨hG, hrest⟩ hrun
    obtain ⟨m, hm, hrun⟩ := exec_cons_iff.mp hrun
    exact ih (hstep s e m hs hG hm) (hrest m hm) hrun

/-! ## Conditions that a run meets exactly when its guard does -/

/-- A property that a step leads to exactly from where it holds, and by meeting the guard, holds
at the end of a run exactly when it holds at its start and the run is guarded. -/
theorem exec_iff_guarded {step : σ → ε → Option σ} {I P : σ → Prop} {G : σ → ε → Prop}
    (hI : ∀ s e t, I s → step s e = some t → I t)
    (hstep : ∀ s e t, I s → step s e = some t → (P t ↔ P s ∧ G s e)) :
    ∀ {es : List ε} {s t : σ}, I s → exec step s es = some t →
      (P t ↔ P s ∧ Guarded step G s es) := by
  intro es
  induction es with
  | nil =>
    intro s t _ hrun
    cases hrun
    exact (and_iff_left trivial).symm
  | cons e es ih =>
    intro s t hs hrun
    obtain ⟨m, hm, hrest⟩ := exec_cons_iff.mp hrun
    have hnext : (∀ u, step s e = some u → Guarded step G u es) ↔ Guarded step G m es := by
      rw [hm]
      exact ⟨fun h => h m rfl, fun h u hu => Option.some.inj hu ▸ h⟩
    rw [ih (hI s e m hs hm) hrest, hstep s e m hs hm, Guarded, hnext, and_assoc]

/-- A log to which every step appends entries that are good exactly when the step meets the
guard: all entries of a run are good exactly when the run is guarded. -/
theorem exec_log_iff_guarded {β : Type*} {step : σ → ε → Option σ} {I : σ → Prop}
    {log : σ → List β} {P : β → Prop} {G : σ → ε → Prop}
    (hI : ∀ s e t, I s → step s e = some t → I t)
    (hlog : ∀ s e t, I s → step s e = some t →
      ∃ new, log t = log s ++ new ∧ ((∀ x ∈ new, P x) ↔ G s e)) :
    ∀ {es : List ε} {s t : σ}, I s → exec step s es = some t →
      ((∀ x ∈ log t, P x) ↔ (∀ x ∈ log s, P x) ∧ Guarded step G s es) := by
  apply exec_iff_guarded (P := fun s => ∀ x ∈ log s, P x) hI
  intro s e t hs h
  obtain ⟨new, hnew, hgood⟩ := hlog s e t hs h
  rw [hnew, List.forall_mem_append, hgood]

/-- `P` holds in every state that the run goes through. -/
def Throughout (step : σ → ε → Option σ) (P : σ → Prop) : σ → List ε → Prop
  | s, [] => P s
  | s, e :: es => P s ∧ ∀ t, step s e = some t → Throughout step P t es

/-- A property that a step leads to exactly when it meets the guard holds throughout a run
exactly when the run is guarded. -/
theorem throughout_iff_guarded {step : σ → ε → Option σ} {I P : σ → Prop} {G : σ → ε → Prop}
    (hI : ∀ s e t, I s → step s e = some t → I t)
    (hstep : ∀ s e t, I s → P s → step s e = some t → (P t ↔ G s e)) :
    ∀ {es : List ε} {s t : σ}, I s → P s → exec step s es = some t →
      (Throughout step P s es ↔ Guarded step G s es) := by
  intro es
  induction es with
  | nil =>
    intro s t _ hs _
    exact ⟨fun _ => trivial, fun _ => hs⟩
  | cons e es ih =>
    intro s t hIs hs hrun
    obtain ⟨m, hm, hrest⟩ := exec_cons_iff.mp hrun
    have hIm := hI s e m hIs hm
    have hone := hstep s e m hIs hs hm
    have hfirst : Throughout step P m es → P m := by
      intro h
      cases es with
      | nil => exact h
      | cons _ _ => exact h.1
    constructor
    · rintro ⟨-, hall⟩
      have hm' := hfirst (hall m hm)
      refine ⟨hone.mp hm', fun u hu => ?_⟩
      obtain rfl : m = u := Option.some.inj (hm.symm.trans hu)
      exact (ih hIm hm' hrest).mp (hall m hm)
    · rintro ⟨hg, hall⟩
      refine ⟨hs, fun u hu => ?_⟩
      obtain rfl : m = u := Option.some.inj (hm.symm.trans hu)
      exact (ih hIm (hone.mpr hg) hrest).mpr (hall m hm)

end Spolks.Lib
