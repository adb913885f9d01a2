import Mathlib.Data.Int.Basic

/-!
# Signed machine integers

An integer from `-m` to `m - 1`. An operation whose exact result is not one has no result
(`none`), and neither has a division by zero. `loop` is a counted loop whose index is such
an integer.

* `add_eq_some_iff` and its siblings: an operation is its result in the integers.
* `isSome_loop_iff`, `mem_loop_iff`: a loop has a result when each iteration has one, and
  yields what they yield.
-/

namespace Spolks.Lib

/-- A signed integer whose least value is `-m`. -/
structure MachineInt (m : Int) where
  val : Int
  lo : -m ≤ val
  hi : val < m
  deriving DecidableEq

namespace MachineInt

variable {m : Int}

def ofInt? (m x : Int) : Option (MachineInt m) :=
  if h : -m ≤ x ∧ x < m then some ⟨x, h.1, h.2⟩ else none

def add (a b : MachineInt m) : Option (MachineInt m) := ofInt? m (a.val + b.val)

def sub (a b : MachineInt m) : Option (MachineInt m) := ofInt? m (a.val - b.val)

def mul (a b : MachineInt m) : Option (MachineInt m) := ofInt? m (a.val * b.val)

/-- The division that truncates. -/
def div (a b : MachineInt m) : Option (MachineInt m) :=
  if b.val = 0 then none else ofInt? m (a.val.tdiv b.val)

theorem val_inj {a b : MachineInt m} : a = b ↔ a.val = b.val := by
  cases a
  cases b
  simp

variable {a b c : MachineInt m} {x : Int}

theorem ofInt?_eq_some_iff : ofInt? m x = some c ↔ c.val = x := by
  unfold ofInt?
  split
  · rw [Option.some.injEq, val_inj]
    exact eq_comm
  · next hout =>
    constructor
    · intro h
      cases h
    · rintro rfl
      exact absurd ⟨c.lo, c.hi⟩ hout

/-- A result that fits. -/
theorem exists_ofInt? (hlo : -m ≤ x) (hhi : x < m) : ∃ c, ofInt? m x = some c ∧ c.val = x :=
  ⟨⟨x, hlo, hhi⟩, dif_pos ⟨hlo, hhi⟩, rfl⟩

theorem add_eq_some_iff : a.add b = some c ↔ c.val = a.val + b.val := ofInt?_eq_some_iff

theorem sub_eq_some_iff : a.sub b = some c ↔ c.val = a.val - b.val := ofInt?_eq_some_iff

theorem mul_eq_some_iff : a.mul b = some c ↔ c.val = a.val * b.val := ofInt?_eq_some_iff

theorem div_eq_some_iff : a.div b = some c ↔ b.val ≠ 0 ∧ c.val = a.val.tdiv b.val := by
  unfold div
  split
  · next hzero => simp [hzero]
  · next hne => simp [ofInt?_eq_some_iff, hne]

/-! Operations whose result fits. -/

theorem exists_add (hlo : -m ≤ a.val + b.val) (hhi : a.val + b.val < m) :
    ∃ c, a.add b = some c ∧ c.val = a.val + b.val := exists_ofInt? hlo hhi

theorem exists_sub (hlo : -m ≤ a.val - b.val) (hhi : a.val - b.val < m) :
    ∃ c, a.sub b = some c ∧ c.val = a.val - b.val := exists_ofInt? hlo hhi

theorem exists_mul (hlo : -m ≤ a.val * b.val) (hhi : a.val * b.val < m) :
    ∃ c, a.mul b = some c ∧ c.val = a.val * b.val := exists_ofInt? hlo hhi

theorem exists_div (hne : b.val ≠ 0) (hlo : -m ≤ a.val.tdiv b.val) (hhi : a.val.tdiv b.val < m) :
    ∃ c, a.div b = some c ∧ c.val = a.val.tdiv b.val := by
  rw [div, if_neg hne]
  exact exists_ofInt? hlo hhi

/-- `i++`. -/
def inc (a : MachineInt m) : Option (MachineInt m) := ofInt? m (a.val + 1)

/-! ## Loops -/

/-- `k` iterations of `for (…; …; i++)`, from the index `i` on, with what they yield. -/
def loop {β : Type*} (body : MachineInt m → Option β) : Nat → MachineInt m → Option (List β)
  | 0, _ => some []
  | k + 1, i => (body i).bind fun b => i.inc.bind fun next =>
    (loop body k next).bind fun bs => some (b :: bs)

variable {β : Type*} {body : MachineInt m → Option β} {i : MachineInt m} {k : Nat}

theorem loop_succ_eq_some_iff {bs : List β} : loop body (k + 1) i = some bs ↔
    ∃ b, body i = some b ∧ ∃ next : MachineInt m, next.val = i.val + 1 ∧
      ∃ cs, loop body k next = some cs ∧ b :: cs = bs := by
  rw [loop, Option.bind_eq_some_iff]
  simp only [Option.bind_eq_some_iff, Option.some.injEq, inc, ofInt?_eq_some_iff]

/-- A loop whose index stays in range has a result when every iteration has one, and only
then. -/
theorem isSome_loop_iff (hk : i.val + k < m) : (loop body k i).isSome = true ↔
    ∀ j : MachineInt m, i.val ≤ j.val → j.val < i.val + k → (body j).isSome = true := by
  induction k generalizing i with
  | zero =>
    constructor
    · intro _ j hle hlt
      omega
    · intro _
      rfl
  | succ k ih =>
    constructor
    · intro hloop j hle hlt
      obtain ⟨bs, hbs⟩ := Option.isSome_iff_exists.mp hloop
      obtain ⟨b, hb, next, hnext, cs, hcs, -⟩ := loop_succ_eq_some_iff.mp hbs
      by_cases heq : j = i
      · rw [heq, hb]
        rfl
      · have hne : j.val ≠ i.val := fun h => heq (val_inj.mpr h)
        have hrest : (loop body k next).isSome = true := by
          rw [hcs]
          rfl
        exact (ih (by omega)).mp hrest j (by omega) (by omega)
    · intro hall
      obtain ⟨b, hb⟩ := Option.isSome_iff_exists.mp (hall i (Int.le_refl _) (by omega))
      have hlo := i.lo
      obtain ⟨next, -, hnext⟩ := exists_ofInt? (m := m) (x := i.val + 1) (by omega) (by omega)
      have hrest : (loop body k next).isSome = true :=
        (ih (by omega)).mpr fun j hle hlt => hall j (by omega) (by omega)
      obtain ⟨cs, hcs⟩ := Option.isSome_iff_exists.mp hrest
      rw [loop_succ_eq_some_iff.mpr ⟨b, hb, next, hnext, cs, hcs, rfl⟩]
      rfl

/-- What a loop yields is what its iterations yield. -/
theorem mem_loop_iff {bs : List β} (h : loop body k i = some bs) {b : β} :
    b ∈ bs ↔ ∃ j : MachineInt m, i.val ≤ j.val ∧ j.val < i.val + k ∧ body j = some b := by
  induction k generalizing i bs with
  | zero =>
    cases h
    constructor
    · intro hb
      cases hb
    · rintro ⟨j, hle, hlt, -⟩
      omega
  | succ k ih =>
    obtain ⟨c, hc, next, hnext, cs, hcs, rfl⟩ := loop_succ_eq_some_iff.mp h
    rw [List.mem_cons, ih hcs]
    constructor
    · rintro (rfl | ⟨j, hle, hlt, hj⟩)
      · exact ⟨i, Int.le_refl _, by omega, hc⟩
      · exact ⟨j, by omega, by omega, hj⟩
    · rintro ⟨j, hle, hlt, hj⟩
      by_cases heq : j = i
      · rw [heq, hc] at hj
        exact Or.inl (Option.some.inj hj).symm
      · have hne : j.val ≠ i.val := fun h => heq (val_inj.mpr h)
        exact Or.inr ⟨j, by omega, by omega, hj⟩

end MachineInt

end Spolks.Lib
