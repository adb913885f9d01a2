import Mathlib.Tactic.IntervalCases
import Spolks.Ping.Checksum
import Spolks.Sockcore.Address

/-!
# `pinger`: the packet of a request

The fields of the IP and the ICMP header are written one by one into memory that `malloc`
has returned; its contents are a parameter. `pinger` never clears the two checksum fields
before it computes the checksums over them.

* `pinger_fields`: a packet is always built, and where it goes and which request it is.
* `pinger_valid_iff`: it is valid exactly when `malloc` has returned a zero of one's
  complement arithmetic in both checksum fields.
-/

namespace Spolks.Ping

open Lib Sockcore

def htons (order : Order) (v : Nat) : Nat :=
  match order with
  | .little => v % 256 * 256 + v / 256
  | .big => v

/-- The variables that `pinger` reads. -/
structure Request where
  pid : Int
  ident : Int
  sequence : Int
  srcAddr : InAddr
  dstAddr : InAddr

/-- The fields of the IP header up to `check`; `ihl` and `version` are the halves of byte `0`. -/
def ipFields (order : Order) (r : Request) (packet : Nat → UInt8) : Nat → UInt8 :=
  let packet := writeBlock packet 0 [(packet 0 &&& 0xf0) ||| 5]
  let packet := writeBlock packet 0 [(packet 0 &&& 0x0f) ||| 0x40]
  let packet := writeBlock packet 1 [0]
  let packet := writeBlock packet 2 (storeWord order 28)
  let packet := writeBlock packet 4 (storeWord order (htons order (u16 r.pid)))
  let packet := writeBlock packet 6 (storeWord order 0)
  let packet := writeBlock packet 8 [64]
  let packet := writeBlock packet 9 [1]
  let packet := writeBlock packet 12 r.srcAddr.bytes
  writeBlock packet 16 r.dstAddr.bytes

/-- The fields of the ICMP header up to `checksum`. -/
def icmpFields (order : Order) (r : Request) (packet : Nat → UInt8) : Nat → UInt8 :=
  let packet := writeBlock packet 20 [8]
  let packet := writeBlock packet 21 [0]
  let packet := writeBlock packet 24 (storeWord order (u16 r.ident))
  writeBlock packet 26 (storeWord order (u16 r.sequence))

/-- `cksum` over `n` bytes from `addr` on, stored in the field at `field`. -/
def storeCksum (order : Order) (addr n field : Nat) (packet : Nat → UInt8) :
    Option (Nat → UInt8) :=
  (cksum order (readBlock packet addr n)).map fun c => writeBlock packet field (storeWord order c)

/-- The 28 bytes that `pinger` hands to `sendto`; `junk` is what `malloc` returns. -/
def pinger (order : Order) (r : Request) (junk : Nat → UInt8) : Option (List UInt8) :=
  (storeCksum order 0 20 10 (ipFields order r junk)).bind fun packet =>
    (storeCksum order 20 8 22 (icmpFields order r packet)).map fun packet => readBlock packet 0 28

/-- Both checksums of a packet are right. -/
def PacketValid (order : Order) (packet : List UInt8) : Prop :=
  cksum order (packet.drop 20) = some 0 ∧ cksum order (packet.take 20) = some 0

instance (order : Order) (packet : List UInt8) : Decidable (PacketValid order packet) :=
  inferInstanceAs (Decidable (_ ∧ _))

/-- The two bytes are `00 00` or `ff ff`. -/
def ZeroWord (a b : UInt8) : Prop := (a = 0 ∧ b = 0) ∨ (a = 255 ∧ b = 255)

instance (a b : UInt8) : Decidable (ZeroWord a b) := inferInstanceAs (Decidable (_ ∨ _))

/-! ## Single fields -/

/-- Whatever byte `0` held, the two halves of it are set. -/
theorem ihl_version (x : UInt8) : (((x &&& 0xf0) ||| 5) &&& 0x0f) ||| 0x40 = 0x45 := by
  apply UInt8.eq_of_toBitVec_eq
  ext i hi
  interval_cases i <;> simp

theorem zeroWord_iff (order : Order) (a b : UInt8) : 65535 ∣ word order a b ↔ ZeroWord a b := by
  have ha := a.toNat_lt
  have hb := b.toNat_lt
  have hlt := word_lt order a b
  have hdvd : 65535 ∣ word order a b ↔ word order a b = 0 ∨ word order a b = 65535 := by
    generalize word order a b = w at hlt ⊢
    omega
  have hzero : ∀ x : UInt8, x = 0 ↔ x.toNat = 0 := fun x => UInt8.toNat_inj.symm
  have hmax : ∀ x : UInt8, x = 255 ↔ x.toNat = 255 := fun x => UInt8.toNat_inj.symm
  rw [hdvd, ZeroWord, hzero a, hzero b, hmax a, hmax b]
  cases order <;> simp only [word] <;> omega

theorem storeWord_word (order : Order) (a b : UInt8) :
    storeWord order (word order a b) = [a, b] := by
  have ha := a.toNat_lt
  have hb := b.toNat_lt
  cases order with
  | little =>
    have h₁ : UInt8.ofNat (a.toNat + 256 * b.toNat) = a := by
      apply UInt8.toNat_inj.mp
      simp
    have h₂ : UInt8.ofNat ((a.toNat + 256 * b.toNat) / 256) = b := by
      apply UInt8.toNat_inj.mp
      simp only [UInt8.toNat_ofNat']
      omega
    simp only [storeWord, word, h₁, h₂]
  | big =>
    have h₁ : UInt8.ofNat (256 * a.toNat + b.toNat) = b := by
      apply UInt8.toNat_inj.mp
      simp
    have h₂ : UInt8.ofNat ((256 * a.toNat + b.toNat) / 256) = a := by
      apply UInt8.toNat_inj.mp
      simp only [UInt8.toNat_ofNat']
      omega
    simp only [storeWord, word, h₁, h₂]

/-- Storing back the word that is there changes nothing. -/
theorem writeBlock_word (order : Order) (m : Nat → UInt8) (off : Nat) :
    writeBlock m off (storeWord order (word order (m off) (m (off + 1)))) = m := by
  funext k
  rw [storeWord_word, writeBlock]
  split
  · obtain ⟨d, rfl⟩ : ∃ d, k = off + d := ⟨k - off, by omega⟩
    rcases d with _ | _ | d
    · simp
    · simp
    · simp
  · rfl

/-! ## The headers -/

section

variable (order : Order) (r : Request) (m : Nat → UInt8)

/-- The IP fields leave `check` and everything behind the header alone. -/
theorem ipFields_outside {k : Nat} (h : (10 ≤ k ∧ k < 12) ∨ 20 ≤ k) :
    ipFields order r m k = m k := by
  unfold ipFields
  simp (disch := simp; omega) only [writeBlock_outside]

theorem ipFields_daddr : readBlock (ipFields order r m) 16 4 = r.dstAddr.bytes := by
  rw [ipFields]
  exact readBlock_writeBlock _ 16 r.dstAddr.bytes

theorem icmpFields_sequence :
    readBlock (icmpFields order r m) 26 2 = storeWord order (u16 r.sequence) := by
  have h := readBlock_writeBlock (writeBlock (writeBlock (writeBlock m 20 [8]) 21 [0]) 24
    (storeWord order (u16 r.ident))) 26 (storeWord order (u16 r.sequence))
  rwa [storeWord_length] at h

theorem ipFields_zero : ipFields order r m 0 = 0x45 := by
  unfold ipFields
  simp (disch := simp) only [writeBlock_outside]
  simp [writeBlock, ihl_version]

/-- The ICMP fields leave the IP header and `checksum` alone. -/
theorem icmpFields_outside {k : Nat} (h : k < 20 ∨ (22 ≤ k ∧ k < 24)) :
    icmpFields order r m k = m k := by
  unfold icmpFields
  simp (disch := simp; omega) only [writeBlock_outside]

theorem icmpFields_type : icmpFields order r m 20 = 8 := by
  unfold icmpFields
  simp (disch := simp) only [writeBlock_outside]
  simp [writeBlock]

/-- A header that starts with a byte other than zero has a positive word sum. -/
theorem wordSum_pos {addr n : Nat} (h : m addr ≠ 0) :
    0 < wordSum order (readBlock m addr (2 * n + 2)) := by
  have hsplit : readBlock m addr (2 * n + 2) =
      [m addr, m (addr + 1)] ++ readBlock m (addr + 2) (2 * n) := by
    rw [Nat.add_comm, readBlock_add]
    rfl
  have hpos : 0 < (m addr).toNat := by
    refine Nat.pos_of_ne_zero fun hz => h ?_
    exact UInt8.toNat_inj.mp hz
  rw [hsplit, wordSum_append order [m addr, m (addr + 1)] _ (by simp)]
  cases order <;> simp only [wordSum, word] <;> omega

/-- The checksum of one header, computed over what the field holds and stored in it. -/
theorem storeCksum_valid_iff {addr n o field : Nat} (hn : n ≤ 65535) (ho : o % 2 = 0)
    (hpos : 2 ≤ o) (hin : o + 2 ≤ n) (hfield : addr + o = field) (hfirst : m addr ≠ 0) :
    ∃ m', storeCksum order addr n field m = some m' ∧
      (∀ k, k < field ∨ field + 2 ≤ k → m' k = m k) ∧
      (cksum order (readBlock m' addr n) = some 0 ↔ ZeroWord (m field) (m (field + 1))) := by
  subst hfield
  obtain ⟨i, rfl⟩ : ∃ i, o = 2 * i + 2 := ⟨o / 2 - 1, by omega⟩
  obtain ⟨c, hc, hvalid⟩ := cksum_stored_iff order m addr
    (word order (m (addr + (2 * i + 2))) (m (addr + (2 * i + 2) + 1))) hn ho hin
    (word_lt ..) (Or.inr (wordSum_pos order m hfirst))
  rw [writeBlock_word] at hc
  refine ⟨_, by rw [storeCksum, hc, Option.map_some], fun k hk => ?_, ?_⟩
  · exact writeBlock_outside m (by rwa [storeWord_length])
  · rw [hvalid, zeroWord_iff]

/-- What `pinger` hands to `sendto`: the fields it sets, and two checksums of which each is
right exactly when its field was a zero of one's complement arithmetic before. -/
theorem pinger_spec : ∃ m', pinger order r m = some (readBlock m' 0 28) ∧
    (∀ k, k < 20 → ¬ (10 ≤ k ∧ k < 12) → m' k = ipFields order r m k) ∧
    (∃ m'', ∀ k, 24 ≤ k → m' k = icmpFields order r m'' k) ∧
    (cksum order (readBlock m' 0 20) = some 0 ↔ ZeroWord (m 10) (m 11)) ∧
    (cksum order (readBlock m' 20 8) = some 0 ↔ ZeroWord (m 22) (m 23)) := by
  have hcheck : 0 + 10 = 10 := rfl
  obtain ⟨m₁, h₁, hsame₁, hip⟩ := storeCksum_valid_iff order (ipFields order r m) (n := 20)
    (by decide) (by decide) (by decide) (by decide) hcheck (by rw [ipFields_zero]; decide)
  have hchecksum : 20 + 2 = 22 := rfl
  obtain ⟨m₂, h₂, hsame₂, hicmp⟩ := storeCksum_valid_iff order (icmpFields order r m₁) (n := 8)
    (by decide) (by decide) (by decide) (by decide) hchecksum (by rw [icmpFields_type]; decide)
  have hheader : ∀ k, k < 20 → m₂ k = m₁ k := by
    intro k hk
    rw [hsame₂ k (Or.inl (by omega)), icmpFields_outside order r m₁ (Or.inl hk)]
  have hfield : ∀ k, 22 ≤ k → k < 24 → icmpFields order r m₁ k = m k := by
    intro k h h'
    rw [icmpFields_outside order r m₁ (Or.inr ⟨h, h'⟩), hsame₁ k (Or.inr (by omega)),
      ipFields_outside order r m (Or.inr (by omega))]
  refine ⟨m₂, ?_, fun k hk hne => ?_, ⟨m₁, fun k hk => hsame₂ k (Or.inr hk)⟩, ?_, ?_⟩
  · rw [pinger, h₁, Option.bind_some, h₂, Option.map_some]
  · rw [hheader k hk, hsame₁ k (by omega)]
  · rw [show readBlock m₂ 0 20 = readBlock m₁ 0 20 from
      readBlock_congr fun k hk => hheader _ (by omega), hip,
      ipFields_outside order r m (Or.inl (by decide)),
      ipFields_outside order r m (Or.inl (by decide))]
  · rw [hicmp, hfield 22 (by decide) (by decide), hfield 23 (by decide) (by decide)]

/-- `pinger` always sends a packet; it goes to `dst_addr` and carries the sequence number. -/
theorem pinger_fields : ∃ m', pinger order r m = some (readBlock m' 0 28) ∧
    readBlock m' 16 4 = r.dstAddr.bytes ∧
    readBlock m' 26 2 = storeWord order (u16 r.sequence) := by
  obtain ⟨m', hrun, hip, ⟨m'', hicmp⟩, -, -⟩ := pinger_spec order r m
  refine ⟨m', hrun, ?_, ?_⟩
  · rw [← ipFields_daddr order r m]
    exact readBlock_congr fun k hk => hip _ (by omega) (by omega)
  · rw [← icmpFields_sequence order r m'']
    exact readBlock_congr fun k _ => hicmp _ (by omega)

/-- **When a request is valid.** The packet that `pinger` hands to `sendto` has both
checksums right exactly when the memory that `malloc` returned held a zero of one's
complement arithmetic in both checksum fields. -/
theorem pinger_valid_iff :
    (∃ packet, pinger order r m = some packet ∧ PacketValid order packet) ↔
      ZeroWord (m 10) (m 11) ∧ ZeroWord (m 22) (m 23) := by
  obtain ⟨m', hrun, -, -, hip, hicmp⟩ := pinger_spec order r m
  have hsplit : readBlock m' 0 28 = readBlock m' 0 20 ++ readBlock m' 20 8 :=
    readBlock_add m' 0 20 8
  have htake : (readBlock m' 0 28).take 20 = readBlock m' 0 20 := by
    rw [hsplit, List.take_left' (readBlock_length ..)]
  have hdrop : (readBlock m' 0 28).drop 20 = readBlock m' 20 8 := by
    rw [hsplit, List.drop_left' (readBlock_length ..)]
  rw [← hip, ← hicmp, ← htake, ← hdrop, hrun]
  constructor
  · rintro ⟨packet, hpacket, hicmp', hip'⟩
    cases hpacket
    exact ⟨hip', hicmp'⟩
  · rintro ⟨hip', hicmp'⟩
    exact ⟨_, rfl, hicmp', hip'⟩

end

/-! ## A block of memory that is not zero -/

/-- A request of process `1`. -/
def someRequest : Request where
  pid := 1
  ident := 1
  sequence := 0
  srcAddr := ⟨10, 0, 0, 1⟩
  dstAddr := ⟨10, 0, 0, 2⟩

/-- With memory full of ones, both checksums of the packet are wrong. -/
theorem pinger_invalid :
    ¬ (∃ packet, pinger .little someRequest (fun _ => 1) = some packet ∧
      PacketValid .little packet) ∧
    (pinger .little someRequest fun _ => 1).map (fun packet => cksum .little (packet.take 20)) =
      some (some 257) ∧
    (pinger .little someRequest fun _ => 1).map (fun packet => cksum .little (packet.drop 20)) =
      some (some 257) := by
  have hip : (pinger .little someRequest fun _ => 1).map
      (fun packet => cksum .little (packet.take 20)) = some (some 257) := by decide +kernel
  have hicmp : (pinger .little someRequest fun _ => 1).map
      (fun packet => cksum .little (packet.drop 20)) = some (some 257) := by decide +kernel
  refine ⟨?_, hip, hicmp⟩
  rintro ⟨packet, hrun, hvalid, -⟩
  rw [hrun, Option.map_some, hvalid] at hicmp
  cases hicmp

end Spolks.Ping
