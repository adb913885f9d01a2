import Spolks.Ping.Checksum

/-!
# `cksum` against its reference

The reference of RFC 1071 adds the words of the padded buffer with end-around carries and
complements the sum. `cksum` defers the carries, folds twice and puts an odd last byte at
the lowest address of a cleared word.

* `cksum_rfc1071`: both give the same value, and no addition of `cksum` overflows.
* `cksum_order_independent`: hosts of both byte orders store the same two bytes.
-/

namespace Spolks.Ping

open Lib

/-- The buffer with a zero byte after a last odd one. -/
def padded (bytes : List UInt8) : List UInt8 := bytes ++ List.replicate (bytes.length % 2) 0

/-- The consecutive 16-bit words of a buffer of even length. -/
def words (order : Order) : List UInt8 → List Nat
  | a :: b :: w => word order a b :: words order w
  | _ => []

def rfc1071 (order : Order) (bytes : List UInt8) : Nat :=
  65535 - endAroundSum 65536 (words order (padded bytes))

theorem padded_cons_cons (a b : UInt8) (w : List UInt8) :
    padded (a :: b :: w) = a :: b :: padded w := by
  have hlen : (a :: b :: w).length % 2 = w.length % 2 := by
    simp only [List.length_cons]
    omega
  rw [padded, hlen]
  rfl

theorem words_lt (order : Order) (bytes : List UInt8) : ∀ v ∈ words order bytes, v < 65536 := by
  induction bytes using wordSum.induct with
  | case1 a b w ih =>
    intro v hv
    rcases List.mem_cons.mp hv with rfl | hv
    · exact word_lt order a b
    · exact ih v hv
  | case2 a =>
    intro v hv
    cases hv
  | case3 =>
    intro v hv
    cases hv

/-- The loop of `cksum` adds up the words of the padded buffer. -/
theorem words_padded_sum (order : Order) (bytes : List UInt8) :
    (words order (padded bytes)).sum = wordSum order bytes := by
  induction bytes using wordSum.induct with
  | case1 a b w ih => rw [padded_cons_cons, words, List.sum_cons, ih, wordSum]
  | case2 a => exact Nat.add_zero _
  | case3 => rfl

theorem wordSum_lt_square (order : Order) {bytes : List UInt8} (h : bytes.length ≤ 65535) :
    wordSum order bytes < 65536 * 65536 := by
  have hlt := wordSum_lt order h
  omega

/-- **The checksum of RFC 1071.** Up to 65535 bytes the accumulator and its two folds stay
below `2 ^ 31`, and `cksum` returns the complement of the end-around sum. -/
theorem cksum_rfc1071 (order : Order) {bytes : List UInt8} (h : bytes.length ≤ 65535) :
    (∃ sum : Nat, sumWords order 0 bytes = some (sum : Int) ∧ sum < 2 ^ 31 ∧
      sum / 65536 + sum % 65536 < 2 ^ 31 ∧
      fold 65536 sum + fold 65536 sum / 65536 < 2 ^ 31) ∧
    cksum order bytes = some (rfc1071 order bytes) := by
  have hlt := wordSum_lt order h
  have hfold : fold 65536 (wordSum order bytes) < 2 * 65536 - 1 :=
    fold_lt_two_mul (by decide) (wordSum_lt_square order h)
  constructor
  · refine ⟨wordSum order bytes, ?_, hlt, by omega, by omega⟩
    have hsum := sumWords_eq order bytes 0 (by omega)
    rwa [Nat.zero_add] at hsum
  · have hreference := endAroundSum_eq (M := 65536) (by decide) (words_lt order (padded bytes))
      (by rw [words_padded_sum]; exact wordSum_lt_square order h)
    rw [words_padded_sum] at hreference
    rw [cksum_eq order h, rfc1071, hreference]

/-- Five bytes whose first fold leaves a second carry. -/
theorem cksum_rfc1071_five :
    cksum .little [255, 255, 255, 255, 1] = some (rfc1071 .little [255, 255, 255, 255, 1]) ∧
      rfc1071 .little [255, 255, 255, 255, 1] = 65534 :=
  ⟨(@cksum_rfc1071 .little [255, 255, 255, 255, 1] (by decide)).2, by decide⟩

/-! ## Both byte orders -/

theorem word_big (a b : UInt8) : word .big a b = swap 256 (word .little a b) := by
  have ha := a.toNat_lt
  simp only [word, swap]
  omega

theorem wordSum_big_modEq (bytes : List UInt8) :
    wordSum .big bytes ≡ 256 * wordSum .little bytes [MOD 65535] := by
  have hword (a b : UInt8) : word .big a b ≡ 256 * word .little a b [MOD 65535] := by
    rw [word_big]
    exact swap_modEq 256 _
  induction bytes using wordSum.induct with
  | case1 a b w ih =>
    rw [wordSum, wordSum, Nat.mul_add]
    exact (hword a b).add ih
  | case2 a => exact hword a 0
  | case3 => rfl

theorem wordSum_big_eq_zero_iff (bytes : List UInt8) :
    wordSum .big bytes = 0 ↔ wordSum .little bytes = 0 := by
  have hword (a b : UInt8) : word .big a b = 0 ↔ word .little a b = 0 := by
    rw [word_big]
    exact swap_eq_zero_iff (by decide)
  induction bytes using wordSum.induct with
  | case1 a b w ih =>
    rw [wordSum, wordSum, Nat.add_eq_zero_iff, Nat.add_eq_zero_iff]
    exact and_congr (hword a b) ih
  | case2 a => exact hword a 0
  | case3 => rfl

theorem storeWord_big (u v : Nat) (hu : u < 256) (hv : v < 256) :
    storeWord .big (256 * u + v) = storeWord .little (256 * v + u) := by
  have hbyte (a b : Nat) : UInt8.ofNat (256 * a + b) = UInt8.ofNat b := by
    apply UInt8.toNat_inj.mp
    simp
  have hdiv (a b : Nat) (hb : b < 256) : (256 * a + b) / 256 = a := by omega
  rw [storeWord, storeWord, hdiv u v hv, hdiv v u hu, hbyte, hbyte]

/-- The complement of a word is stored in the other order as that of the word with its
bytes exchanged. -/
theorem storeWord_swap {x : Nat} (hx : x < 65536) :
    storeWord .big (65535 - swap 256 x) = storeWord .little (65535 - x) := by
  obtain ⟨q, r, rfl, hq, hr⟩ : ∃ q r, x = 256 * q + r ∧ q < 256 ∧ r < 256 :=
    ⟨x / 256, x % 256, by omega, by omega, by omega⟩
  have hswap : 65535 - swap 256 (256 * q + r) = 256 * (255 - r) + (255 - q) := by
    unfold swap
    omega
  have hcompl : 65535 - (256 * q + r) = 256 * (255 - q) + (255 - r) := by omega
  rw [hswap, hcompl]
  exact storeWord_big (255 - r) (255 - q) (by omega) (by omega)

/-- **Byte order independence.** A host of either order computes a checksum, and both leave
the same two bytes in memory. -/
theorem cksum_order_independent {bytes : List UInt8} (h : bytes.length ≤ 65535) :
    ∃ little big, cksum .little bytes = some little ∧ cksum .big bytes = some big ∧
      storeWord .little little = storeWord .big big := by
  refine ⟨_, _, cksum_eq .little h, cksum_eq .big h, ?_⟩
  have hswap : fold 65536 (fold 65536 (wordSum .big bytes)) =
      swap 256 (fold 65536 (fold 65536 (wordSum .little bytes))) :=
    @fold_fold_swap 256 _ _ (by decide) (wordSum_lt_square .little h) (wordSum_lt_square .big h)
      (wordSum_big_modEq bytes) (wordSum_big_eq_zero_iff bytes)
  rw [hswap, storeWord_swap (fold_fold_lt (by decide) (wordSum_lt_square .little h))]

/-- A sum that is a multiple of `65535` and an odd byte. -/
theorem cksum_order_independent_three :
    cksum .little [254, 255, 1] = some 0 ∧ cksum .big [1, 2, 3] = some 64509 ∧
      ∃ little big, cksum .little [1, 2, 3] = some little ∧ cksum .big [1, 2, 3] = some big ∧
        storeWord .little little = storeWord .big big :=
  ⟨by decide, by decide, cksum_order_independent (by decide)⟩

end Spolks.Ping
