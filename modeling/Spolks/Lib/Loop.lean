import Mathlib.Data.List.Basic

/-!
# Loops over the results of calls

A loop such as `while (1) { n = read(…); … }` is a body that takes the state and the
results of the calls of one iteration, and says whether the loop is left. `callLoop` runs
it over a list of such results; it is `none` when the list ends before the loop does.
`Along` says that every iteration that is executed meets a condition on the state before
it and on the results of its calls.

* `Ran.next`: the iterations of a loop one by one.
* `callLoop_rule`: an invariant that each iteration of such a run preserves gives what
  holds at the exit.
* `callLoop_simulates`: two loops whose iterations agree.
-/

namespace Spolks.Lib

variable {σ ε ρ : Type*}

/-- Run `body` until it leaves the loop. -/
def callLoop (body : σ → ε → σ × Option ρ) : σ → List ε → Option (ρ × σ)
  | _, [] => none
  | s, c :: cs =>
    match (body s c).2 with
    | some r => some (r, (body s c).1)
    | none => callLoop body (body s c).1 cs

/-- The state after these iterations; `none` when one of them leaves the loop. -/
def callSteps (body : σ → ε → σ × Option ρ) : σ → List ε → Option σ
  | s, [] => some s
  | s, c :: cs =>
    match (body s c).2 with
    | some _ => none
    | none => callSteps body (body s c).1 cs

/-- Every executed iteration meets `G`. -/
def Along (body : σ → ε → σ × Option ρ) (G : σ → ε → Prop) : σ → List ε → Prop
  | _, [] => True
  | s, c :: cs => G s c ∧ ((body s c).2 = none → Along body G (body s c).1 cs)

variable {body : σ → ε → σ × Option ρ} {G : σ → ε → Prop} {s : σ} {c : ε} {cs : List ε}

theorem callLoop_exit {r : ρ} (h : (body s c).2 = some r) :
    callLoop body s (c :: cs) = some (r, (body s c).1) := by
  rw [callLoop, h]

theorem callLoop_next (h : (body s c).2 = none) :
    callLoop body s (c :: cs) = callLoop body (body s c).1 cs := by
  rw [callLoop, h]

theorem callSteps_next (h : (body s c).2 = none) :
    callSteps body s (c :: cs) = callSteps body (body s c).1 cs := by
  rw [callSteps, h]

theorem callSteps_cons_iff {s' : σ} : callSteps body s (c :: cs) = some s' ↔
    (body s c).2 = none ∧ callSteps body (body s c).1 cs = some s' := by
  cases h : (body s c).2 with
  | some r => simp [callSteps, h]
  | none => simp [callSteps_next h]

/-- The first iteration either leaves the loop or is followed by a run of the rest. -/
theorem callLoop_cons_iff {r : ρ} {s' : σ} : callLoop body s (c :: cs) = some (r, s') ↔
    ((body s c).2 = some r ∧ (body s c).1 = s') ∨
      ((body s c).2 = none ∧ callLoop body (body s c).1 cs = some (r, s')) := by
  cases h : (body s c).2 with
  | some r' => simp [callLoop_exit h]
  | none => simp [callLoop_next h]

/-- A condition that follows from the one that every executed iteration meets. -/
theorem Along.mono {H : σ → ε → Prop} (hGH : ∀ s c, G s c → H s c) (h : Along body G s cs) :
    Along body H s cs := by
  induction cs generalizing s with
  | nil => trivial
  | cons c cs ih => exact ⟨hGH s c h.1, fun hnext => ih (h.2 hnext)⟩

/-- The iterations `cs`, each meeting `G`, lead from `s` to `t`, and the loop is left with the
result `r` or, for `none`, goes on. -/
structure Ran (body : σ → ε → σ × Option ρ) (G : σ → ε → Prop) (s : σ) (cs : List ε)
    (r : Option ρ) (t : σ) : Prop where
  along : Along body G s cs
  ends : match r with
    | none => callSteps body s cs = some t
    | some r => callLoop body s cs = some (r, t)

namespace Ran

variable {t : σ}

theorem nil (s : σ) : Ran body G s [] none s := ⟨trivial, rfl⟩

/-- One more iteration. -/
theorem next (h : Ran body G s cs none t) (hG : G t c) :
    Ran body G s (cs ++ [c]) (body t c).2 (body t c).1 := by
  obtain ⟨hcs, hrun⟩ := h
  induction cs generalizing s with
  | nil =>
    cases hrun
    refine ⟨⟨hG, fun _ => trivial⟩, ?_⟩
    cases hexit : (body t c).2 with
    | none => exact callSteps_next hexit
    | some r => exact callLoop_exit hexit
  | cons d cs ih =>
    obtain ⟨hnext, hrest⟩ := callSteps_cons_iff.mp hrun
    obtain ⟨halong, hdone⟩ := ih (hcs.2 hnext) hrest
    refine ⟨⟨hcs.1, fun _ => halong⟩, ?_⟩
    cases hexit : (body t c).2 with
    | none =>
      rw [hexit] at hdone
      exact (callSteps_next hnext).trans hdone
    | some r =>
      rw [hexit] at hdone
      exact (callLoop_next hnext).trans hdone

end Ran

theorem callLoop_rule {I : σ → Prop} {Q : ρ → σ → Prop}
    (hnext : ∀ s c, I s → G s c → (body s c).2 = none → I (body s c).1)
    (hexit : ∀ s c r, I s → G s c → (body s c).2 = some r → Q r (body s c).1) :
    ∀ {cs : List ε} {s : σ}, I s → Along body G s cs →
      ∀ {r : ρ} {s' : σ}, callLoop body s cs = some (r, s') → Q r s' := by
  intro cs
  induction cs with
  | nil =>
    intro s _ _ r s' hrun
    cases hrun
  | cons c cs ih =>
    intro s hI hG r s' hrun
    cases hb : (body s c).2 with
    | some r' =>
      rw [callLoop_exit hb] at hrun
      cases hrun
      exact hexit s c _ hI hG.1 hb
    | none =>
      rw [callLoop_next hb] at hrun
      exact ih (hnext s c hI hG.1 hb) (hG.2 hb) hrun

/-- Two loops whose bodies keep a relation between their states and are left together. -/
theorem callLoop_simulates {τ δ ρ' : Type*} {body' : τ → δ → τ × Option ρ'} {R : σ → τ → Prop}
    {f : ε → δ} {g : ρ' → ρ}
    (hbody : ∀ c ∈ cs, ∀ s t, R s t →
      R (body s c).1 (body' t (f c)).1 ∧ (body s c).2 = (body' t (f c)).2.map g)
    {t : τ} (hR : R s t) : Option.Rel (fun x y => x.1 = g y.1 ∧ R x.2 y.2)
      (callLoop body s cs) (callLoop body' t (cs.map f)) := by
  induction cs generalizing s t with
  | nil => exact Option.Rel.none
  | cons c cs ih =>
    obtain ⟨hhead, htail⟩ := List.forall_mem_cons.mp hbody
    obtain ⟨hnext, hresult⟩ := hhead s t hR
    rw [List.map_cons]
    cases hexit : (body' t (f c)).2 with
    | none =>
      rw [hexit] at hresult
      rw [callLoop_next hresult, callLoop_next hexit]
      exact ih htail hnext
    | some r =>
      rw [hexit] at hresult
      rw [callLoop_exit hresult, callLoop_exit hexit]
      exact Option.Rel.some ⟨rfl, hnext⟩

end Spolks.Lib
