import Spolks.Lib.Memory
import Spolks.Lib.OnesComplement

/-!
# `cksum`

The words of the buffer are read and the result is stored in the byte order of the host,
which is a parameter here. The accumulator is a signed 32-bit integer; an addition that
overflows it has no result (`none`). `>> 16` and `& 0xffff` on it are division and
remainder by `65536`.

* `cksum_eq`: up to 65535 bytes nothing overflows, and the result is the complement of the
  word sum folded twice.
* `cksum_closure`: a buffer with its own checksum stored in it has checksum `0`.
-/

namespace Spolks.Ping

open Lib

/-- The byte order of the host. -/
inductive Order where
  | little
  | big
  deriving DecidableEq

/-- The 16-bit word with the bytes `a`, `b` in the order of their addresses. -/
def word (order : Order) (a b : UInt8) : Nat :=
  match order with
  | .little => a.toNat + 256 * b.toNat
  | .big => 256 * a.toNat + b.toNat

/-- The bytes in which the host stores a 16-bit value. -/
def storeWord (order : Order) (v : Nat) : List UInt8 :=
  match order with
  | .little => [UInt8.ofNat v, UInt8.ofNat (v / 256)]
  | .big => [UInt8.ofNat (v / 256), UInt8.ofNat v]

/-- `sum += x` in a signed 32-bit variable. -/
def addInt (sum : Int) (x : Nat) : Option Int :=
  if -2 ^ 31 ≤ sum + x ∧ sum + x < 2 ^ 31 then some (sum + x) else none

/-- The loop over the words and the odd byte, which is stored as the first byte of the
cleared variable `answer`. -/
def sumWords (order : Order) (sum : Int) : List UInt8 → Option Int
  | a :: b :: w => (addInt sum (word order a b)).bind fun sum => sumWords order sum w
  | [a] => addInt sum (word order a 0)
  | [] => some sum

/-- The folds, and the complement truncated to 16 bits. -/
def cksumAnswer (sum : Int) : Nat :=
  let sum := sum / 65536 + sum % 65536
  let sum := sum + sum / 65536
  ((-sum - 1) % 65536).toNat

def cksum (order : Order) (addr : List UInt8) : Option Nat :=
  (sumWords order 0 addr).map cksumAnswer

/-! ## The word sum -/

/-- The sum that the loop accumulates. -/
def wordSum (order : Order) : List UInt8 → Nat
  | a :: b :: w => word order a b + wordSum order w
  | [a] => word order a 0
  | [] => 0

theorem word_lt (order : Order) (a b : UInt8) : word order a b < 65536 := by
  have ha := a.toNat_lt
  have hb := b.toNat_lt
  cases order <;> simp only [word] <;> omega

theorem wordSum_storeWord (order : Order) {v : Nat} (hv : v < 65536) :
    wordSum order (storeWord order v) = v := by
  cases order <;> simp [storeWord, wordSum, word] <;> omega

@[simp] theorem storeWord_length (order : Order) (v : Nat) : (storeWord order v).length = 2 := by
  cases order <;> rfl

theorem wordSum_append (order : Order) (pre post : List UInt8) (h : pre.length % 2 = 0) :
    wordSum order (pre ++ post) = wordSum order pre + wordSum order post := by
  induction pre using wordSum.induct with
  | case1 a b w ih =>
    have hw : w.length % 2 = 0 := by
      simp only [List.length_cons] at h
      omega
    simp only [List.cons_append, wordSum, ih hw]
    omega
  | case2 a => simp at h
  | case3 => simp [wordSum]

theorem wordSum_le (order : Order) (bytes : List UInt8) :
    wordSum order bytes ≤ 65535 * ((bytes.length + 1) / 2) := by
  induction bytes using wordSum.induct with
  | case1 a b w ih =>
    have hword := word_lt order a b
    simp only [wordSum, List.length_cons]
    omega
  | case2 a =>
    have hword := word_lt order a 0
    simp only [wordSum, List.length_singleton]
    omega
  | case3 => simp [wordSum]

theorem wordSum_lt (order : Order) {bytes : List UInt8} (h : bytes.length ≤ 65535) :
    wordSum order bytes < 2 ^ 31 := by
  have hle := wordSum_le order bytes
  omega

/-- The accumulator holds the word sum as long as this fits. -/
theorem sumWords_eq (order : Order) (bytes : List UInt8) (sum : Nat)
    (h : sum + wordSum order bytes < 2 ^ 31) :
    sumWords order sum bytes = some ((sum + wordSum order bytes : Nat) : Int) := by
  induction bytes using wordSum.induct generalizing sum with
  | case1 a b w ih =>
    simp only [wordSum] at h
    have hadd : addInt sum (word order a b) = some ((sum + word order a b : Nat) : Int) := by
      rw [addInt, if_pos (by omega), Int.natCast_add]
    rw [sumWords, hadd, Option.bind_some, ih _ (by omega), wordSum, Nat.add_assoc]
  | case2 a =>
    simp only [wordSum] at h ⊢
    rw [sumWords, addInt, if_pos (by omega), Int.natCast_add]
  | case3 => simp [sumWords, wordSum]

/-! ## The result -/

theorem cksumAnswer_eq {sum : Nat} (h : sum < 2 ^ 31) :
    cksumAnswer sum = 65535 - fold 65536 (fold 65536 sum) := by
  have hdiv : (sum : Int) / 65536 + sum % 65536 = (fold 65536 sum : Nat) := by
    simp only [fold]
    omega
  have hlt : fold 65536 sum < 2 * 65536 - 1 := fold_lt_two_mul (by decide) (by omega)
  rw [cksumAnswer, hdiv]
  simp only [fold] at hlt ⊢
  generalize sum / 65536 + sum % 65536 = t at hlt ⊢
  have hcarry : t / 65536 = 0 ∨ t / 65536 = 1 := by omega
  rcases hcarry with hcarry | hcarry <;> omega

/-- Up to 65535 bytes the accumulator does not overflow, and the checksum is the complement
of the twice folded word sum. -/
theorem cksum_eq (order : Order) {bytes : List UInt8} (h : bytes.length ≤ 65535) :
    cksum order bytes = some (65535 - fold 65536 (fold 65536 (wordSum order bytes))) := by
  have hlt := wordSum_lt order h
  have hsum := sumWords_eq order bytes 0 (by omega)
  rw [Nat.zero_add] at hsum
  rw [cksum, show (0 : Int) = ((0 : Nat) : Int) from rfl, hsum, Option.map_some, cksumAnswer_eq hlt]

/-- The checksum of a buffer is `0` exactly when its word sum is a positive multiple of
`65535`. -/
theorem cksum_eq_zero_iff (order : Order) {bytes : List UInt8} (h : bytes.length ≤ 65535) :
    cksum order bytes = some 0 ↔ 0 < wordSum order bytes ∧ 65535 ∣ wordSum order bytes := by
  have hlt := wordSum_lt order h
  have hfold := fold_fold_lt (M := 65536) (by decide) (show wordSum order bytes < _ by omega)
  rw [cksum_eq order h, Option.some.injEq,
    ← fold_fold_eq_iff (M := 65536) (by decide) (show wordSum order bytes < _ by omega)]
  omega

/-! ## Closure -/

/-- A buffer around a 16-bit field at an even offset. -/
theorem wordSum_field (order : Order) (m : Nat → UInt8) (addr : Nat) {len o v : Nat}
    (ho : o % 2 = 0) (hin : o + 2 ≤ len) (hv : v < 65536) :
    wordSum order (readBlock (writeBlock m (addr + o) (storeWord order v)) addr len) =
      wordSum order (readBlock m addr o) + v +
        wordSum order (readBlock m (addr + o + 2) (len - o - 2)) := by
  obtain ⟨n, rfl⟩ : ∃ n, len = o + (2 + n) := ⟨len - o - 2, by omega⟩
  have hfield : readBlock (writeBlock m (addr + o) (storeWord order v)) (addr + o) 2 =
      storeWord order v := by
    have h := readBlock_writeBlock m (addr + o) (storeWord order v)
    rwa [storeWord_length] at h
  have hlen : o + (2 + n) - o - 2 = n := by omega
  rw [readBlock_add, readBlock_add, hfield, hlen,
    readBlock_writeBlock_of_disjoint m (by omega),
    readBlock_writeBlock_of_disjoint m (by rw [storeWord_length]; omega),
    wordSum_append order _ _ (by rwa [readBlock_length]),
    wordSum_append order _ _ (by rw [storeWord_length]), wordSum_storeWord order hv]
  exact (Nat.add_assoc ..).symm

/-- A checksum computed with `junk` in the field is valid exactly when `junk` is one of the
two zeros of one's complement arithmetic, unless the rest of the buffer is zero. -/
theorem cksum_stored_iff (order : Order) (m : Nat → UInt8) (addr : Nat) {len o : Nat} (junk : Nat)
    (hlen : len ≤ 65535) (ho : o % 2 = 0) (hin : o + 2 ≤ len) (hj : junk < 65536)
    (hrest : junk = 0 ∨ 0 < wordSum order (readBlock m addr o)) :
    ∃ c, cksum order (readBlock (writeBlock m (addr + o) (storeWord order junk)) addr len) =
        some c ∧
      (cksum order (readBlock (writeBlock m (addr + o) (storeWord order c)) addr len) = some 0 ↔
        65535 ∣ junk) := by
  have hsum := wordSum_field order m addr ho hin hj
  have hbound : (readBlock (writeBlock m (addr + o) (storeWord order junk)) addr len).length ≤
      65535 := by
    rwa [readBlock_length]
  have hlt := wordSum_lt order hbound
  refine ⟨_, cksum_eq order hbound, ?_⟩
  rw [cksum_eq_zero_iff order (by rwa [readBlock_length]),
    wordSum_field order m addr ho hin (by omega)]
  rw [hsum] at hlt ⊢
  generalize wordSum order (readBlock m addr o) = a at *
  generalize wordSum order (readBlock m (addr + o + 2) (len - o - 2)) = b at *
  -- the stored value and the sum it was computed from are opposite modulo 65535
  have hmod : fold 65536 (fold 65536 (a + junk + b)) % 65535 = (a + junk + b) % 65535 :=
    fold_fold_modEq 65536 (a + junk + b)
  have hfold : fold 65536 (fold 65536 (a + junk + b)) < 65536 :=
    fold_fold_lt (by decide) (by omega)
  by_cases hzero : a + junk + b = 0
  · rw [hzero, fold_zero, fold_zero]
    omega
  · generalize fold 65536 (fold 65536 (a + junk + b)) = t at *
    omega

/-- **Checksum closure.** In a buffer whose checksum field is cleared, the checksum is
defined, and with it stored in the field the buffer has the checksum `0`. -/
theorem cksum_closure (order : Order) (m : Nat → UInt8) (addr : Nat) {len o : Nat}
    (hlen : len ≤ 65534) (ho : o % 2 = 0) (hin : o + 2 ≤ len) :
    ∃ c, cksum order (readBlock (writeBlock m (addr + o) [0, 0]) addr len) = some c ∧
      cksum order (readBlock (writeBlock m (addr + o) (storeWord order c)) addr len) = some 0 := by
  have hclear : storeWord order 0 = [0, 0] := by cases order <;> rfl
  obtain ⟨c, hc, hvalid⟩ :=
    cksum_stored_iff order m addr 0 (by omega) ho hin (by decide) (Or.inl rfl)
  rw [hclear] at hc
  exact ⟨c, hc, hvalid.mpr (Nat.dvd_zero _)⟩

/-- An odd buffer of five bytes with the field in the middle. -/
theorem cksum_closure_five :
    cksum .little [69, 0, 0, 0, 7] = some 65459 ∧ cksum .little [69, 0, 179, 255, 7] = some 0 := by
  obtain ⟨c, hc, hvalid⟩ := @cksum_closure .little (fun k => [69, 0, 3, 4, 7].getD k 0) 0 5 2
    (by decide) (by decide) (by decide)
  have hcleared : cksum .little [69, 0, 0, 0, 7] = some 65459 := by decide
  obtain rfl : 65459 = c := Option.some.inj (hcleared.symm.trans hc)
  exact ⟨hcleared, hvalid⟩

end Spolks.Ping
