import Mathlib.Data.List.Basic

/-!
# Definite assignment

A path through a program is given by its accesses to the variables, in order. It is
definitely assigned when every variable has been assigned by the time it is read; `known`
are the variables that are assigned before the path begins.

* `definitelyAssigned_iff`: what this says of each read.
* `definitelyAssigned_append`: the rule for a path that continues another one.
-/

namespace Spolks.Lib

/-- A variable is assigned, or read or passed on. -/
inductive Access (V : Type*) where
  | assign (v : V)
  | read (v : V)
  deriving DecidableEq

variable {V : Type*}

/-- The variables that a path assigns. -/
def assigned : List (Access V) → List V
  | [] => []
  | .assign v :: as => v :: assigned as
  | .read _ :: as => assigned as

def DefinitelyAssigned (known : List V) : List (Access V) → Prop
  | [] => True
  | .assign v :: as => DefinitelyAssigned (v :: known) as
  | .read v :: as => v ∈ known ∧ DefinitelyAssigned known as

variable {known : List V} {as bs : List (Access V)}

theorem mem_assigned {v : V} : v ∈ assigned as ↔ .assign v ∈ as := by
  induction as with
  | nil => simp [assigned]
  | cons a as ih =>
    cases a with
    | assign u => simp [assigned, ih]
    | read u => simp [assigned, ih]

/-- Only which variables are known matters, and more of them do no harm. -/
theorem DefinitelyAssigned.mono {more : List V} (hsub : ∀ v ∈ known, v ∈ more)
    (h : DefinitelyAssigned known as) : DefinitelyAssigned more as := by
  induction as generalizing known more with
  | nil => trivial
  | cons a as ih =>
    cases a with
    | assign u =>
      refine ih (fun v hv => ?_) h
      rcases List.mem_cons.mp hv with rfl | hv
      · exact List.mem_cons_self
      · exact List.mem_cons_of_mem u (hsub v hv)
    | read u => exact ⟨hsub u h.1, ih hsub h.2⟩

theorem definitelyAssigned_append : DefinitelyAssigned known (as ++ bs) ↔
    DefinitelyAssigned known as ∧ DefinitelyAssigned (known ++ assigned as) bs := by
  induction as generalizing known with
  | nil => simp [DefinitelyAssigned, assigned]
  | cons a as ih =>
    cases a with
    | assign u =>
      have hmem : ∀ v, v ∈ u :: known ++ assigned as ↔ v ∈ known ++ u :: assigned as := by
        intro v
        rw [List.mem_append, List.mem_append, List.mem_cons, List.mem_cons, or_assoc, or_left_comm]
      have hsame : DefinitelyAssigned (u :: known ++ assigned as) bs ↔
          DefinitelyAssigned (known ++ u :: assigned as) bs :=
        ⟨DefinitelyAssigned.mono fun v => (hmem v).mp, DefinitelyAssigned.mono fun v => (hmem v).mpr⟩
      simp only [List.cons_append, DefinitelyAssigned, assigned]
      rw [ih, hsame]
    | read u =>
      simp only [List.cons_append, DefinitelyAssigned, assigned]
      rw [ih, and_assoc]

/-- Every variable that is read is known or has been assigned before. -/
theorem definitelyAssigned_iff {path : List (Access V)} : DefinitelyAssigned known path ↔
    ∀ as v bs, path = as ++ .read v :: bs → v ∈ known ∨ .assign v ∈ as := by
  constructor
  · rintro h as v bs rfl
    have hread := (definitelyAssigned_append.mp h).2.1
    rw [List.mem_append, mem_assigned] at hread
    exact hread
  · intro h
    induction path generalizing known with
    | nil => trivial
    | cons a path ih =>
      cases a with
      | assign u =>
        refine ih fun as v bs hpath => ?_
        have hread := h (.assign u :: as) v bs (by rw [hpath, List.cons_append])
        rw [List.mem_cons] at hread ⊢
        rcases hread with hknown | heq | hassigned
        · exact Or.inl (Or.inr hknown)
        · cases heq
          exact Or.inl (Or.inl rfl)
        · exact Or.inr hassigned
      | read u =>
        refine ⟨(h [] u path rfl).resolve_right List.not_mem_nil, ih fun as v bs hpath => ?_⟩
        have hread := h (.read u :: as) v bs (by rw [hpath, List.cons_append])
        rw [List.mem_cons] at hread
        rcases hread with hknown | heq | hassigned
        · exact Or.inl hknown
        · cases heq
        · exact Or.inr hassigned

/-- A path that reads nothing. -/
theorem definitelyAssigned_of_assign (h : ∀ a ∈ as, ∃ v, a = .assign v) :
    DefinitelyAssigned known as := by
  apply definitelyAssigned_iff.mpr
  intro bs v cs hpath
  have hread : Access.read v ∈ as := by
    rw [hpath]
    exact List.mem_append_right _ List.mem_cons_self
  obtain ⟨u, hu⟩ := h _ hread
  cases hu

end Spolks.Lib
