import Mathlib.Logic.Function.Basic
import Mathlib.Data.List.Basic
import Mathlib.Algebra.Order.Monoid.Unbundled.Basic

/-!
# Counted loops and block copies in a flat memory

A memory is a function from cell numbers to values. `forLoop n body` is the loop
`for (i = 0; i < n; i++)`, `forStep` the loop whose index advances by a stride.
`readBlock` and `writeBlock` copy a block of consecutive cells out of and into a memory.

* `forLoop_invariant`: a property of the index and the state that each iteration
  preserves holds at the exit.
* `forStep_eq_forLoop`: a strided loop whose limit is a multiple of the stride is a
  counted loop.
* `writeBlock_readBlock`: what a copied block leaves in each cell.
* `writeBlock_comm`: blocks that do not meet are written in either order.
* `readBlock_writeBlock`, `readBlock_writeBlock_of_disjoint`: a block after a write.
-/

namespace Spolks.Lib

/-! ## Loops -/

section Loops

variable {σ : Type*}

/-- `for (i = 0; i < n; i++) body`. -/
def forLoop : Nat → (Nat → σ → σ) → σ → σ
  | 0, _, s => s
  | n + 1, body, s => body n (forLoop n body s)

@[simp] theorem forLoop_zero (body : Nat → σ → σ) (s : σ) : forLoop 0 body s = s := rfl

theorem forLoop_succ (n : Nat) (body : Nat → σ → σ) (s : σ) :
    forLoop (n + 1) body s = body n (forLoop n body s) := rfl

theorem forLoop_invariant {P : Nat → σ → Prop} {n : Nat} {body : Nat → σ → σ} {s : σ}
    (h₀ : P 0 s) (hbody : ∀ i s, i < n → P i s → P (i + 1) (body i s)) :
    P n (forLoop n body s) := by
  have key : ∀ m, m ≤ n → P m (forLoop m body s) := by
    intro m
    induction m with
    | zero => exact fun _ => h₀
    | succ m ih => exact fun hm => hbody m _ (by omega) (ih (by omega))
  exact key n (Nat.le_refl n)

theorem forLoop_congr {n : Nat} {body body' : Nat → σ → σ} {s : σ}
    (h : ∀ i, i < n → body i = body' i) : forLoop n body s = forLoop n body' s := by
  induction n with
  | zero => rfl
  | succ n ih =>
    rw [forLoop_succ, forLoop_succ, ih (fun i hi => h i (by omega)), h n (by omega)]

/-- The first iteration taken out of the loop. -/
theorem forLoop_succ_front (n : Nat) (body : Nat → σ → σ) (s : σ) :
    forLoop (n + 1) body s = forLoop n (fun i => body (i + 1)) (body 0 s) := by
  induction n with
  | zero => rfl
  | succ n ih => rw [forLoop_succ, ih, forLoop_succ]

/-- `for (; i < limit; i += stride) body`, with `fuel` bounding the iterations. -/
def forStep (limit stride : Nat) (body : Nat → σ → σ) : Nat → Nat → σ → σ
  | 0, _, s => s
  | fuel + 1, i, s =>
    if i < limit then forStep limit stride body fuel (i + stride) (body i s) else s

theorem forStep_eq_forLoop_from {stride : Nat} (hs : 0 < stride) (body : Nat → σ → σ)
    (n : Nat) : ∀ (fuel i : Nat) (s : σ), n ≤ fuel →
      forStep (i + n * stride) stride body fuel i s =
        forLoop n (fun k => body (i + k * stride)) s := by
  induction n with
  | zero =>
    intro fuel i s _
    cases fuel with
    | zero => rfl
    | succ fuel => simp [forStep]
  | succ n ih =>
    intro fuel i s hfuel
    obtain ⟨fuel, rfl⟩ : ∃ f, fuel = f + 1 := ⟨fuel - 1, by omega⟩
    have hmul : (n + 1) * stride = n * stride + stride := Nat.succ_mul n stride
    have hlt : i < i + (n + 1) * stride := by omega
    have hlimit : i + (n + 1) * stride = i + stride + n * stride := by omega
    rw [forStep, if_pos hlt, hlimit, ih fuel (i + stride) _ (by omega), forLoop_succ_front,
      Nat.zero_mul, Nat.add_zero]
    refine forLoop_congr fun k _ => ?_
    rw [Nat.add_mul, Nat.one_mul, Nat.add_comm (k * stride), ← Nat.add_assoc]

/-- A strided loop up to a multiple of its stride; one unit of fuel for each cell suffices. -/
theorem forStep_eq_forLoop {stride : Nat} (hs : 0 < stride) (body : Nat → σ → σ) (n : Nat)
    (s : σ) : forStep (n * stride) stride body (n * stride) 0 s =
      forLoop n (fun k => body (k * stride)) s := by
  have h := forStep_eq_forLoop_from hs body n (n * stride) 0 s (Nat.le_mul_of_pos_right n hs)
  simpa only [Nat.zero_add] using h

end Loops

/-! ## Blocks of a flat memory -/

section Blocks

variable {α : Type*}

/-- The `n` cells from `off` on. -/
def readBlock (m : Nat → α) (off n : Nat) : List α := (List.range n).map fun k => m (off + k)

/-- Store the list in the cells from `off` on. -/
def writeBlock (m : Nat → α) (off : Nat) (xs : List α) : Nat → α := fun p =>
  if off ≤ p then (xs[p - off]?).getD (m p) else m p

@[simp] theorem readBlock_length (m : Nat → α) (off n : Nat) : (readBlock m off n).length = n := by
  simp [readBlock]

theorem readBlock_getElem? (m : Nat → α) (off : Nat) {n k : Nat} (hk : k < n) :
    (readBlock m off n)[k]? = some (m (off + k)) := by
  simp [readBlock, hk]

theorem readBlock_congr {m m' : Nat → α} {off off' n : Nat}
    (h : ∀ k, k < n → m (off + k) = m' (off' + k)) : readBlock m off n = readBlock m' off' n :=
  List.map_congr_left fun k hk => h k (List.mem_range.mp hk)

theorem writeBlock_outside (m : Nat → α) {off p : Nat} {xs : List α}
    (h : p < off ∨ off + xs.length ≤ p) : writeBlock m off xs p = m p := by
  unfold writeBlock
  split
  · rw [List.getElem?_eq_none (by omega), Option.getD_none]
  · rfl

/-- What a cell inside a written block holds does not depend on what was there. -/
theorem writeBlock_inside (m : Nat → α) {off p : Nat} {xs : List α} (h₁ : off ≤ p)
    (h₂ : p - off < xs.length) : writeBlock m off xs p = xs[p - off] := by
  rw [writeBlock, if_pos h₁, List.getElem?_eq_getElem h₂, Option.getD_some]

/-- Two blocks that do not meet can be written in either order. -/
theorem writeBlock_comm (m : Nat → α) {off off' : Nat} {xs ys : List α}
    (h : off + xs.length ≤ off' ∨ off' + ys.length ≤ off) :
    writeBlock (writeBlock m off xs) off' ys = writeBlock (writeBlock m off' ys) off xs := by
  ext p
  by_cases hx : off ≤ p ∧ p - off < xs.length
  · have hy : p < off' ∨ off' + ys.length ≤ p := by omega
    rw [writeBlock_outside _ hy, writeBlock_inside _ hx.1 hx.2, writeBlock_inside _ hx.1 hx.2]
  · have hx' : p < off ∨ off + xs.length ≤ p := by omega
    rw [writeBlock_outside _ hx']
    by_cases hy : off' ≤ p ∧ p - off' < ys.length
    · rw [writeBlock_inside _ hy.1 hy.2, writeBlock_inside _ hy.1 hy.2]
    · have hy' : p < off' ∨ off' + ys.length ≤ p := by omega
      rw [writeBlock_outside _ hy', writeBlock_outside _ hy', writeBlock_outside _ hx']

/-- A block written over a shorter one. -/
theorem writeBlock_over (m : Nat → α) (off : Nat) {xs ys : List α} (h : xs.length ≤ ys.length) :
    writeBlock (writeBlock m off xs) off ys = writeBlock m off ys := by
  ext p
  by_cases hy : off ≤ p ∧ p - off < ys.length
  · rw [writeBlock_inside _ hy.1 hy.2, writeBlock_inside _ hy.1 hy.2]
  · have hy' : p < off ∨ off + ys.length ≤ p := by omega
    rw [writeBlock_outside _ hy', writeBlock_outside _ (by omega), writeBlock_outside _ hy']

theorem writeBlock_append (m : Nat → α) (off : Nat) (xs ys : List α) :
    writeBlock m off (xs ++ ys) = writeBlock (writeBlock m off xs) (off + xs.length) ys := by
  ext p
  by_cases hy : off + xs.length ≤ p ∧ p - (off + xs.length) < ys.length
  · have hp : p - off < (xs ++ ys).length := by
      rw [List.length_append]
      omega
    rw [writeBlock_inside _ hy.1 hy.2, writeBlock_inside _ (by omega) hp,
      List.getElem_append_right (by omega)]
    simp only [Nat.sub_sub]
  · have hy' : p < off + xs.length ∨ off + xs.length + ys.length ≤ p := by omega
    rw [writeBlock_outside _ hy']
    by_cases hx : off ≤ p ∧ p - off < xs.length
    · have hp : p - off < (xs ++ ys).length := by
        rw [List.length_append]
        omega
      rw [writeBlock_inside _ hx.1 hx.2, writeBlock_inside _ hx.1 hp, List.getElem_append_left hx.2]
    · have hout : p < off ∨ off + (xs ++ ys).length ≤ p := by
        rw [List.length_append]
        omega
      rw [writeBlock_outside _ hout, writeBlock_outside _ (by omega)]

/-- A cell inside a copied block holds the cell of the source block at the same place. -/
theorem writeBlock_readBlock (m src : Nat → α) {off p soff n : Nat} (h₁ : off ≤ p)
    (h₂ : p < off + n) :
    writeBlock m off (readBlock src soff n) p = src (soff + (p - off)) := by
  rw [writeBlock, if_pos h₁, readBlock_getElem? src soff (by omega), Option.getD_some]

theorem readBlock_add (m : Nat → α) (off a b : Nat) :
    readBlock m off (a + b) = readBlock m off a ++ readBlock m (off + a) b := by
  simp [readBlock, List.range_add, Nat.add_assoc, Function.comp_def]

theorem take_drop_readBlock (m : Nat → α) {n off k : Nat} (h : off + k ≤ n) :
    ((readBlock m 0 n).drop off).take k = readBlock m off k := by
  obtain ⟨r, rfl⟩ : ∃ r, n = off + (k + r) := ⟨n - off - k, by omega⟩
  rw [readBlock_add, List.drop_left' (readBlock_length ..), Nat.zero_add, readBlock_add,
    List.take_left' (readBlock_length ..)]

/-- Reading back the first cells of a block that has just been written. -/
theorem readBlock_writeBlock_take (m : Nat → α) (off : Nat) {xs : List α} {n : Nat}
    (h : n ≤ xs.length) : readBlock (writeBlock m off xs) off n = xs.take n := by
  apply List.ext_getElem
  · rw [readBlock_length, List.length_take_of_le h]
  · intro k hk _
    have hk' : k < xs.length := by
      rw [readBlock_length] at hk
      omega
    simp [readBlock, writeBlock, hk']

theorem readBlock_writeBlock (m : Nat → α) (off : Nat) (xs : List α) :
    readBlock (writeBlock m off xs) off xs.length = xs := by
  rw [readBlock_writeBlock_take m off (Nat.le_refl _), List.take_length]

/-- A block that a write does not meet. -/
theorem readBlock_writeBlock_of_disjoint (m : Nat → α) {off n woff : Nat} {xs : List α}
    (h : off + n ≤ woff ∨ woff + xs.length ≤ off) :
    readBlock (writeBlock m woff xs) off n = readBlock m off n :=
  readBlock_congr fun k hk => writeBlock_outside m (by omega)

end Blocks

end Spolks.Lib
