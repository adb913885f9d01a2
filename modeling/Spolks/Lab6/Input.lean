import Spolks.Lib.Scan
import Spolks.Lab6.Product

/-!
# `masterInitMatrix`: the matrices are read from two files

Rank `0` reads one number after the other from each file, always into the same variable, and
stores what the variable holds, whether or not a number has been read. So the cells for which a
file has no numbers left repeat its last one.

* `fscanf_iterate`: the variable after any number of calls.
* `masterInitMatrix_cells`: what the matrices hold.
* `run_files`: the product at the roots in terms of the numbers in the files.
-/

namespace Spolks.Lab6

open Lib Spolks.Matrix

/-- A file from its read position on, and the variable that its numbers are read into. -/
structure Input where
  file : List UInt8
  value : Int

/-- The `int` that `%d` stores for a number: the nearest `long`, and of that the low 32 bits. -/
def stored (v : Int) : Int :=
  (max (-9223372036854775808) (min v 9223372036854775807)).bmod 4294967296

/-- `fscanf(file, "%d", &value)`. -/
def fscanf (s : Input) : Input :=
  let (v, file) := scanInt s.file
  { file := file, value := (v.map stored).getD s.value }

structure Matrices (α : Type*) where
  a : Input
  b : Input
  A : Nat → α
  B : Nat → α

section

variable {α : Type*} [IntCast α]

/-- One iteration of the loop. -/
def readCells (i : Nat) (s : Matrices α) : Matrices α :=
  let a := fscanf s.a
  let b := fscanf s.b
  { a := a, b := b, A := Function.update s.A i a.value, B := Function.update s.B i b.value }

/-- `fileA` and `fileB` are `none` when they cannot be opened, and a null pointer is
dereferenced; `a` and `b` are what the variables hold at the start. -/
def masterInitMatrix (N : Nat) (fileA fileB : Option (List UInt8)) (a b : Int)
    (A B : Nat → α) : Option (Matrices α) :=
  fileA.bind fun textA => fileB.bind fun textB =>
    some (forLoop (N * N) readCells ⟨⟨textA, a⟩, ⟨textB, b⟩, A, B⟩)

/-! ## One file -/

/-- The text holds these numbers, each of which fits into an `int`, and none behind them. -/
structure Numbers (text : List UInt8) (vs : List Int) : Prop where
  fits : ∀ v ∈ vs, -2147483648 ≤ v ∧ v ≤ 2147483647
  holds : ∃ tail, Holds tail text vs ∧ Stops tail

/-- Number `i` of a file, which is the last one when there are fewer, or what the variable
holds at the start when there is none. -/
def cellValue (vs : List Int) (value : Int) (i : Nat) : Int :=
  vs[i]?.getD (vs.getLast?.getD value)

theorem cellValue_of_lt {vs : List Int} {i : Nat} (h : i < vs.length) (value : Int) :
    cellValue vs value i = vs[i] := by
  rw [cellValue, List.getElem?_eq_getElem h, Option.getD_some]

theorem stored_of_fits {v : Int} (h : -2147483648 ≤ v ∧ v ≤ 2147483647) : stored v = v := by
  have hlong : max (-9223372036854775808) (min v 9223372036854775807) = v := by omega
  rw [stored, hlong]
  exact Int.bmod_eq_of_le (by omega) (by omega)

theorem fscanf_number {rest ws num : List UInt8} {v value : Int} (hws : ∀ c ∈ ws, IsSpace c)
    (hnum : Numeral num v) (hnext : NoDigitNext rest) (hfits : -2147483648 ≤ v ∧ v ≤ 2147483647) :
    fscanf ⟨ws ++ (num ++ rest), value⟩ = ⟨rest, v⟩ := by
  have hscan := scanInt_eq_some_iff.mpr ⟨ws, num, rfl, hws, hnum, hnext⟩
  simp only [fscanf, hscan, Option.map_some, Option.getD_some, stored_of_fits hfits]

/-- Behind the last number nothing changes any more. -/
theorem fscanf_stops (n : Nat) : ∀ {tail : List UInt8} {value : Int}, Stops tail →
    (fscanf^[n] ⟨tail, value⟩).value = value := by
  induction n with
  | zero => exact fun _ => rfl
  | succ n ih =>
    intro tail value htail
    obtain ⟨hnone, hstops⟩ := scanInt_of_stops htail
    have hstep : fscanf ⟨tail, value⟩ = ⟨(scanInt tail).2, value⟩ := by
      simp only [fscanf, hnone, Option.map_none, Option.getD_none]
    rw [Function.iterate_succ_apply, hstep]
    exact ih hstops

/-- The variable after `i + 1` calls. -/
theorem fscanf_iterate {text : List UInt8} {vs : List Int} (h : Numbers text vs) (value : Int)
    (i : Nat) : (fscanf^[i + 1] ⟨text, value⟩).value = cellValue vs value i := by
  obtain ⟨hfits, tail, hholds, hstops⟩ := h
  induction hholds generalizing value i with
  | nil => exact fscanf_stops _ hstops
  | @cons ws num rest v vs hws hnum hnext hrest ih =>
    rw [Function.iterate_succ_apply,
      fscanf_number hws hnum hnext (hfits v (List.mem_cons_self ..))]
    cases i with
    | zero => rfl
    | succ i =>
      rw [ih v i fun u hu => hfits u (List.mem_cons_of_mem v hu), cellValue, cellValue,
        List.getElem?_cons_succ]
      cases vs with
      | nil => rfl
      | cons u us => rfl

/-! ## The matrices -/

/-- After `n` iterations the variables have been read into `n` times, and the first `n` cells
are filled. -/
theorem readCells_loop (n : Nat) (s : Matrices α) :
    (forLoop n readCells s).a = fscanf^[n] s.a ∧ (forLoop n readCells s).b = fscanf^[n] s.b ∧
      ∀ i < n, (forLoop n readCells s).A i = ((fscanf^[i + 1] s.a).value : α) ∧
        (forLoop n readCells s).B i = ((fscanf^[i + 1] s.b).value : α) := by
  induction n with
  | zero => exact ⟨rfl, rfl, fun i hi => absurd hi (Nat.not_lt_zero i)⟩
  | succ n ih =>
    obtain ⟨ha, hb, hcells⟩ := ih
    rw [forLoop_succ]
    refine ⟨?_, ?_, fun i hi => ?_⟩
    · rw [Function.iterate_succ_apply', ← ha]
      rfl
    · rw [Function.iterate_succ_apply', ← hb]
      rfl
    · by_cases hlast : i = n
      · subst hlast
        rw [Function.iterate_succ_apply', Function.iterate_succ_apply', ← ha, ← hb]
        exact ⟨Function.update_self .., Function.update_self ..⟩
      · obtain ⟨hA, hB⟩ := hcells i (by omega)
        rw [← hA, ← hB]
        exact ⟨Function.update_of_ne hlast .., Function.update_of_ne hlast ..⟩

/-- **What the matrices hold.** Cell `i` of a matrix is number `i` of its file. Where the file
has no numbers left the cell repeats the last one, and the reading does not get past a text
that is no number. -/
theorem masterInitMatrix_cells {textA textB : List UInt8} {as bs : List Int}
    (hA : Numbers textA as) (hB : Numbers textB bs) (N : Nat) (a b : Int) (A B : Nat → α) :
    ∃ m, masterInitMatrix N (some textA) (some textB) a b A B = some m ∧
      ∀ i < N * N, m.A i = (cellValue as a i : α) ∧ m.B i = (cellValue bs b i : α) := by
  refine ⟨_, rfl, fun i hi => ?_⟩
  obtain ⟨-, -, hcells⟩ := readCells_loop (N * N) (⟨⟨textA, a⟩, ⟨textB, b⟩, A, B⟩ : Matrices α)
  obtain ⟨hcellA, hcellB⟩ := hcells i hi
  rw [hcellA, hcellB, fscanf_iterate hA a i, fscanf_iterate hB b i]
  exact ⟨rfl, rfl⟩

end

/-! ## The program -/

/-- **From the files to the roots.** When rank `0` has read its matrices from two files, every
root of a run that reaches its end holds at row `r` and column `j` the accumulation of the
products of the numbers for row `r` in the first and for row `j` in the second file. -/
theorem run_files {α : Type*} [IntCast α] [Zero α] [Add α] [Mul α] {p : Setup α} {w : World α}
    {textA textB : List UInt8} {as bs : List Int} {a b : Int} {m : Matrices α}
    (hA : Numbers textA as) (hB : Numbers textB bs)
    (hread : masterInitMatrix p.N (some textA) (some textB) a b (p.mallocA 0) (p.mallocB 0) =
      some m)
    (hp : p.A = m.A ∧ p.B = m.B) (hN : 1 ≤ p.N) (hrun : run p = some w) {q : Nat}
    (hq : IsRoot p w q) : ∀ r < p.N, ∀ j < p.N, (w q).CResult (r * p.N + j) =
      forLoop p.N (fun k v => v + (cellValue as a (r * p.N + k) : α) *
        (cellValue bs b (j * p.N + k) : α)) 0 := by
  intro r hr j hj
  obtain ⟨m', hm', hcells⟩ :=
    masterInitMatrix_cells hA hB p.N a b (p.mallocA 0) (p.mallocB 0)
  obtain rfl : m = m' := Option.some.inj (hread.symm.trans hm')
  rw [run_entries hN hrun hq _ (cell_lt hr hj), entry_cell p.A p.B hj, hp.1, hp.2]
  refine forLoop_congr fun k hk => ?_
  funext v
  rw [(hcells _ (cell_lt hr hk)).1, (hcells _ (cell_lt hj hk)).2]

/-! ## Four numbers in each file -/

/-- The numbers of a matrix, one a line. -/
def lines (vs : List Int) : List UInt8 := vs.flatMap fun v => intText v ++ [10]

theorem numbers_lines {vs : List Int} (hfits : ∀ v ∈ vs, -2147483648 ≤ v ∧ v ≤ 2147483647) :
    Numbers (lines vs) vs := ⟨hfits, exists_holds_lines vs⟩

def fourNumbers : Matrices Int :=
  forLoop (2 * 2) readCells
    ⟨⟨lines [1, 2, 3, 4], 0⟩, ⟨lines [5, 6, 7], 0⟩, fun _ => 0, fun _ => 0⟩

def fromFiles : Setup Int where
  globalSize := 1
  groupsCount := 1
  N := 2
  rand := fun _ => 0
  A := fourNumbers.A
  B := fourNumbers.B
  mallocA _ _ := 0
  mallocB _ _ := 0
  mallocC _ _ := 0

/-- The second file is one number short. -/
theorem run_files_short : ∃ w q, run fromFiles = some w ∧ IsRoot fromFiles w q ∧
    (w q).CResult 3 = 3 * 7 + 4 * 7 := by
  have h : fromFiles.Completes := ⟨by decide, by decide, by decide, by decide⟩
  obtain ⟨w, hrun⟩ := h.exists_run_iff.mpr (by decide)
  obtain ⟨q, hq, -⟩ := exists_groupRoot (g := 0) h hrun (by decide)
  have hA : Numbers (lines [1, 2, 3, 4]) [1, 2, 3, 4] := numbers_lines (by decide)
  have hB : Numbers (lines [5, 6, 7]) [5, 6, 7] := numbers_lines (by decide)
  have hread : masterInitMatrix fromFiles.N (some (lines [1, 2, 3, 4])) (some (lines [5, 6, 7])) 0 0
      (fromFiles.mallocA 0) (fromFiles.mallocB 0) = some fourNumbers := rfl
  have hcell := run_files hA hB hread ⟨rfl, rfl⟩ (by decide) hrun hq 1 (by decide) 1 (by decide)
  exact ⟨w, q, hrun, hq, hcell.trans (by decide)⟩

end Spolks.Lab6
