import Spolks.Lab5.FailStop
import Spolks.Matrix.Rounded

/-!
# `main` of `Lab5/mpi-peer.c`

Rank `0` fills the matrices with random numbers, multiplies them by itself, has them multiplied
by the workers and compares the two results cell by cell.

* `masterValidateResults_eq`: when no error is printed.
* `no_errors`: in no run of either mode an error is found.
* `product_exact`: the `double`s that the master receives are the exact products.
-/

namespace Spolks.Lab5

open Lib Spolks.Matrix Finset

def MAX_VALUE : Nat := 100

/-- The matrices of rank `0`. -/
structure Matrices (α : Type*) where
  A : Nat → α
  B : Nat → α
  C : Nat → α
  CSelf : Nat → α

section

variable {α : Type*} [Zero α] [IntCast α]

/-- One iteration of `masterInitMatrix`, which draws number `2 * i` and number `2 * i + 1`. -/
def initCell (rand : Nat → Nat) (i : Nat) (m : Matrices α) : Matrices α where
  A := Function.update m.A i ((rand (2 * i) % MAX_VALUE : Nat) : Int)
  B := Function.update m.B i ((rand (2 * i + 1) % MAX_VALUE : Nat) : Int)
  C := Function.update m.C i 0
  CSelf := Function.update m.CSelf i 0

/-- `m` is what `malloc` has returned. -/
def masterInitMatrix (N : Nat) (rand : Nat → Nat) (m : Matrices α) : Matrices α :=
  forLoop (N * N) (initCell rand) m

/-- The errors that are counted; `wrong` is `fabs(1.0 - (C[i] / C_self[i])) > MAX_ERROR`. -/
def countErrors (wrong : α → α → Bool) (N : Nat) (C CSelf : Nat → α) : Nat :=
  forLoop (N * N) (fun i errors => if wrong (C i) (CSelf i) then errors + 1 else errors) 0

/-- What `masterValidateResults` prints. -/
def masterValidateResults (wrong : α → α → Bool) (N : Nat) (C CSelf : Nat → α) : String :=
  let errors := countErrors wrong N C CSelf
  if errors = 0 then "No errors.\n"
  else toString errors ++ " of " ++ toString (N * N) ++ " values are wrong!\n"

/-- A run of `main` in `currentSize` processes with the arguments `N` and `async`; `q` has the
decisions of MPI and the memory of the workers. -/
def program (q : Setup α) (N : Nat) (async : Int) (currentSize : Nat) (rand : Nat → Nat)
    (m : Matrices α) : Setup α :=
  { q with
    N := N
    workersCount := currentSize - 1
    async := decide (async ≠ 0)
    A := (masterInitMatrix N rand m).A
    B := (masterInitMatrix N rand m).B }

variable {rand : Nat → Nat} {m : Matrices α} {N : Nat}

/-! ## The cells at the start -/

/-- `masterInitMatrix` fills each cell of the four matrices. -/
theorem masterInitMatrix_cells {c : Nat} (hc : c < N * N) :
    (masterInitMatrix N rand m).A c = ((rand (2 * c) % MAX_VALUE : Nat) : Int) ∧
      (masterInitMatrix N rand m).B c = ((rand (2 * c + 1) % MAX_VALUE : Nat) : Int) ∧
      (masterInitMatrix N rand m).C c = 0 ∧ (masterInitMatrix N rand m).CSelf c = 0 := by
  let P : Nat → Matrices α → Prop := fun n m' => ∀ c < n,
    m'.A c = ((rand (2 * c) % MAX_VALUE : Nat) : Int) ∧
      m'.B c = ((rand (2 * c + 1) % MAX_VALUE : Nat) : Int) ∧ m'.C c = 0 ∧ m'.CSelf c = 0
  suffices h : P (N * N) (masterInitMatrix N rand m) from h c hc
  refine forLoop_invariant (fun c hc => absurd hc (Nat.not_lt_zero c)) fun n m' _ hP c hc => ?_
  by_cases hlast : c = n
  · subst hlast
    simp only [initCell, Function.update_self, and_self]
  · simp only [initCell, Function.update_of_ne hlast]
    exact hP c (by omega)

/-! ## The comparison -/

section

omit [Zero α] [IntCast α]

variable {wrong : α → α → Bool} {C CSelf : Nat → α}

theorem countErrors_eq : countErrors wrong N C CSelf =
    {i ∈ range (N * N) | wrong (C i) (CSelf i) = true}.card := by
  unfold countErrors
  induction N * N with
  | zero => rfl
  | succ n ih =>
    rw [forLoop_succ, ih, range_add_one, filter_insert]
    by_cases hwrong : wrong (C n) (CSelf n) = true
    · rw [if_pos hwrong, if_pos hwrong, card_insert_of_notMem (by simp)]
    · rw [if_neg hwrong, if_neg hwrong]

/-- `No errors.` is printed when no cell is wrong. -/
theorem masterValidateResults_eq (h : ∀ i < N * N, wrong (C i) (CSelf i) = false) :
    masterValidateResults wrong N C CSelf = "No errors.\n" := by
  have hnone : {i ∈ range (N * N) | wrong (C i) (CSelf i) = true} = ∅ := by
    rw [filter_eq_empty_iff]
    intro i hi
    rw [h i (mem_range.mp hi)]
    exact Bool.false_ne_true
  rw [masterValidateResults, countErrors_eq, hnone, card_empty, if_pos rfl]

end

end

/-! ## The runs -/

section

variable {α : Type*} [Zero α] [Add α] [Mul α] [IntCast α] {q : Setup α} {N currentSize : Nat}
  {async : Int} {rand : Nat → Nat} {m : Matrices α} {s : State α}

/-- Behind the last receive `C` is what rank `0` has computed by itself. -/
theorem received_eq_self (hN : 1 ≤ N) (hsize : 2 ≤ currentSize)
    (h : Reached (program q N async currentSize rand m) s)
    (hr : ResultsReceived (program q N async currentSize rand m) s) {c : Nat} (hc : c < N * N) :
    s.C c = entry N (masterInitMatrix N rand m).A (masterInitMatrix N rand m).B c := by
  have hS := sound_of_reached (p := program q N async currentSize rand m) hN h
  exact hS.result_eq (show 0 < currentSize - 1 by omega) hr hc

/-- **The check never finds an error.** Whatever the random numbers, the number of processes, the
mode and the order of the steps, `No errors.` is printed once the master has its last result,
when a number is not found to differ from itself. -/
theorem no_errors {wrong : α → α → Bool} (hwrong : ∀ x, wrong x x = false) (hN : 1 ≤ N)
    (hsize : 2 ≤ currentSize) (h : Reached (program q N async currentSize rand m) s)
    (hr : ResultsReceived (program q N async currentSize rand m) s) :
    let start := masterInitMatrix N rand m
    masterValidateResults wrong N s.C (masterCalculateOnSelf N start.A start.B start.CSelf) =
      "No errors.\n" := by
  apply masterValidateResults_eq
  intro c hc
  have hself : masterCalculateOnSelf N (masterInitMatrix N rand m).A (masterInitMatrix N rand m).B
      (masterInitMatrix N rand m).CSelf c = s.C c := by
    rw [received_eq_self hN hsize h hr hc, masterCalculateOnSelf, multiplyRows_apply, if_pos hc,
      (masterInitMatrix_cells hc).2.2.2, entry]
  rw [hself]
  exact hwrong _

end

/-! ## In doubles -/

section

variable {rd : Int → Int} {q : Setup (Rounded rd)} {N currentSize : Nat} {async : Int}
  {rand : Nat → Nat} {m : Matrices (Rounded rd)} {s : State (Rounded rd)}

/-- The random numbers are below `MAX_VALUE`, and no rounding changes them. -/
theorem random_cell (hrd : ExactUpTo rd 9007199254740992) (n : Nat) :
    (((n % MAX_VALUE : Nat) : Int) : Rounded rd).val = (n % MAX_VALUE : Nat) ∧
      |((n % MAX_VALUE : Nat) : Int)| ≤ 99 := by
  have hlt : n % MAX_VALUE < 100 := Nat.mod_lt n (by decide)
  have hle : |((n % MAX_VALUE : Nat) : Int)| ≤ 99 := by
    rw [Nat.abs_cast]
    omega
  exact ⟨hrd _ (hle.trans (by decide)), hle⟩

/-- **The products are exact.** In `double`s, which have all whole numbers up to `2 ^ 53`, every
cell that the master receives is the exact sum of the products of the random numbers. The
number of cells is an `int`. -/
theorem product_exact (hrd : ExactUpTo rd 9007199254740992) (hN : 1 ≤ N)
    (hint : N * N ≤ 2147483647) (hsize : 2 ≤ currentSize)
    (h : Reached (program q N async currentSize rand m) s)
    (hr : ResultsReceived (program q N async currentSize rand m) s) {i j : Nat} (hi : i < N)
    (hj : j < N) : (s.C (i * N + j)).val =
      ∑ k ∈ range N, ((rand (2 * (i * N + k)) % MAX_VALUE * (rand (2 * (j * N + k) + 1) % MAX_VALUE) :
        Nat) : Int) := by
  have hA : ∀ c < N * N, ((masterInitMatrix N rand m).A c).val = (rand (2 * c) % MAX_VALUE : Nat) ∧
      |((masterInitMatrix N rand m).A c).val| ≤ 99 := by
    intro c hc
    rw [(masterInitMatrix_cells hc).1, (random_cell hrd _).1]
    exact ⟨rfl, (random_cell hrd _).2⟩
  have hside : N ≤ N * N := Nat.le_mul_self N
  have hB : ∀ c < N * N, ((masterInitMatrix N rand m).B c).val =
      (rand (2 * c + 1) % MAX_VALUE : Nat) ∧ |((masterInitMatrix N rand m).B c).val| ≤ 99 := by
    intro c hc
    rw [(masterInitMatrix_cells hc).2.1, (random_cell hrd _).1]
    exact ⟨rfl, (random_cell hrd _).2⟩
  rw [received_eq_self hN hsize h hr (cell_lt hi hj),
    (Rounded.entry_exact hrd (fun c hc => (hA c hc).2) (fun c hc => (hB c hc).2) (by omega) hi hj).1]
  refine sum_congr rfl fun k hk => ?_
  rw [(hA _ (cell_lt hi (mem_range.mp hk))).1, (hB _ (cell_lt hj (mem_range.mp hk))).1, Nat.cast_mul]

end

/-! ## Three rows and two workers -/

def draws (n : Nat) : Nat := 7 * n + 90

def zeroMemory : Matrices (Rounded id) := ⟨fun _ => 0, fun _ => 0, fun _ => 0, fun _ => 0⟩

/-- Every buffer is read at once. -/
def mainSetup : Setup (Rounded id) where
  N := 0
  workersCount := 0
  async := false
  A := fun _ => 0
  B := fun _ => 0
  eager := fun _ => true
  bcastWaits := fun _ _ => false
  mallocA := fun _ _ => 0
  mallocB := fun _ _ => 0

def mainProgram : Setup (Rounded id) := program mainSetup 3 1 3 draws zeroMemory

theorem mainEvents_run :
    (exec (step mainProgram) (init mainProgram) timelyEvents).isSome = true := by
  decide +kernel

def mainFinal : State (Rounded id) :=
  (exec (step mainProgram) (init mainProgram) timelyEvents).get mainEvents_run

theorem mainFinal_reached : Reached mainProgram mainFinal :=
  ⟨_, rfl, timelyEvents, (Option.some_get _).symm⟩

theorem mainFinal_received : ResultsReceived mainProgram mainFinal := Or.inl (by decide +kernel)

theorem no_errors_threeByTwo :
    let start := masterInitMatrix 3 draws zeroMemory
    masterValidateResults (fun x y => decide (x.val ≠ y.val)) 3 mainFinal.C
      (masterCalculateOnSelf 3 start.A start.B start.CSelf) = "No errors.\n" := by
  have hreached : Reached (program mainSetup 3 1 3 draws zeroMemory) mainFinal := mainFinal_reached
  exact no_errors (by simp) (by simp) (by simp) hreached mainFinal_received

theorem product_exact_threeByTwo : (mainFinal.C (2 * 3 + 1)).val = 7684 := by
  have hreached : Reached (program mainSetup 3 1 3 draws zeroMemory) mainFinal := mainFinal_reached
  have h := product_exact (fun _ _ => rfl) (by simp) (by simp) (by simp) hreached
    mainFinal_received (show 2 < 3 by simp) (show 1 < 3 by simp)
  exact h.trans (by decide +kernel)

end Spolks.Lab5
