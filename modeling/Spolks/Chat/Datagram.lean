import Spolks.Lib.Terminated
import Spolks.Sockcore.Address

/-!
# `lab3_2/session_v3.c` and `lab4_2/session.c`: datagrams and the terminal

What both chat programs share: the buffer into which a datagram is received, the text that
a buffer holds, the address in decimals that a member announces, and the reading of lines.

The terminal delivers what is typed byte by byte; `fflush` leaves its input alone.
-/

namespace Spolks.Chat

open Lib Sockcore

def MAXBUF : Nat := 65536

/-- A datagram of UDP over IPv4. -/
structure Datagram where
  payload : List UInt8
  length_le : payload.length ≤ 65507
  deriving DecidableEq

namespace Datagram

/-- The buffer after `memset` and `recvfrom`. -/
def buffer (d : Datagram) : Nat → UInt8 := writeBlock (fun _ => 0) 0 d.payload

/-- The string in the buffer. -/
def text (d : Datagram) : CString := stringIn 0 d.buffer MAXBUF

/-- The string ends at the first `NUL` of the payload, or at its end. -/
theorem text_eq (d : Datagram) : d.text = d.payload.takeWhile (· ≠ 0) :=
  stringIn_fill (d.length_le.trans_lt (by decide))

theorem text_of_notMem {d : Datagram} (h : 0 ∉ d.payload) : d.text = d.payload := by
  rw [text_eq, takeWhile_of_notMem h]

end Datagram

/-- `sendto` with this text: one datagram, or none when it is too long for one. -/
def sendto (text : CString) : List Datagram :=
  if h : text.length ≤ 65507 then [⟨text, h⟩] else []

/-! ## The address in decimals -/

/-- The last digit of `b`; 48 is the code of the zero. -/
def digit (b : UInt8) : UInt8 := 48 + b % 10

def decimal (b : UInt8) : CString :=
  if b < 10 then [digit b]
  else if b < 100 then [digit (b / 10), digit b]
  else [digit (b / 100), digit (b / 10), digit b]

/-- 46 is the code of the dot. -/
def inetNtoa (a : InAddr) : CString :=
  decimal a.b₀ ++ 46 :: (decimal a.b₁ ++ 46 :: (decimal a.b₂ ++ 46 :: decimal a.b₃))

theorem digit_bounds (b : UInt8) : 48 ≤ digit b ∧ digit b ≤ 57 := by
  have hmod : b.toNat % 10 < 10 := Nat.mod_lt _ (by decide)
  have htoNat : (digit b).toNat = 48 + b.toNat % 10 := by
    rw [digit, UInt8.toNat_add, UInt8.toNat_mod]
    exact Nat.mod_eq_of_lt (show 48 + b.toNat % 10 < 256 by omega)
  rw [UInt8.le_iff_toNat_le, UInt8.le_iff_toNat_le, htoNat]
  exact ⟨Nat.le_add_right .., show 48 + b.toNat % 10 ≤ 57 by omega⟩

theorem decimal_digits (b : UInt8) : ∀ c ∈ decimal b, 48 ≤ c ∧ c ≤ 57 := by
  intro c hc
  have hdigit : ∃ d, c = digit d := by
    simp only [decimal] at hc
    split at hc
    · exact ⟨_, List.mem_singleton.mp hc⟩
    · split at hc
      · rcases List.mem_cons.mp hc with h | h
        · exact ⟨_, h⟩
        · exact ⟨_, List.mem_singleton.mp h⟩
      · rcases List.mem_cons.mp hc with h | h
        · exact ⟨_, h⟩
        · rcases List.mem_cons.mp h with h | h
          · exact ⟨_, h⟩
          · exact ⟨_, List.mem_singleton.mp h⟩
  obtain ⟨d, rfl⟩ := hdigit
  exact digit_bounds d

theorem decimal_length_le (b : UInt8) : (decimal b).length ≤ 3 := by
  rw [decimal]
  split
  · exact Nat.le_add_left 1 2
  · split
    · exact Nat.le_add_left 2 1
    · exact Nat.le_refl 3

theorem inetNtoa_length_le (a : InAddr) : (inetNtoa a).length ≤ 15 := by
  have h₀ := decimal_length_le a.b₀
  have h₁ := decimal_length_le a.b₁
  have h₂ := decimal_length_le a.b₂
  have h₃ := decimal_length_le a.b₃
  simp only [inetNtoa, List.length_append, List.length_cons]
  omega

/-- The text of an address is made of digits and dots. -/
theorem inetNtoa_chars (a : InAddr) : ∀ c ∈ inetNtoa a, c = 46 ∨ (48 ≤ c ∧ c ≤ 57) := by
  intro c hc
  simp only [inetNtoa, List.mem_append, List.mem_cons] at hc
  rcases hc with h | rfl | h | rfl | h | rfl | h
  · exact Or.inr (decimal_digits _ c h)
  · exact Or.inl rfl
  · exact Or.inr (decimal_digits _ c h)
  · exact Or.inl rfl
  · exact Or.inr (decimal_digits _ c h)
  · exact Or.inl rfl
  · exact Or.inr (decimal_digits _ c h)

example : inetNtoa ⟨192, 168, 0, 15⟩ = ascii "192.168.0.15" := by decide

theorem zero_notMem_inetNtoa (a : InAddr) : 0 ∉ inetNtoa a := by
  intro h
  rcases inetNtoa_chars a 0 h with hdot | ⟨hle, -⟩
  · exact absurd hdot (by decide)
  · exact absurd hle (by decide)

/-- A text with a star in it is no address. -/
theorem inetNtoa_ne (a : InAddr) {text : CString} (h : 42 ∈ text) : inetNtoa a ≠ text := by
  rintro rfl
  rcases inetNtoa_chars a 42 h with hdot | ⟨hle, -⟩
  · exact absurd hdot (by decide)
  · exact absurd hle (by decide)

/-- The datagram that holds a member's address. -/
def ipDatagram (a : InAddr) : Datagram := ⟨inetNtoa a, (inetNtoa_length_le a).trans (by decide)⟩

@[simp] theorem ipDatagram_text (a : InAddr) : (ipDatagram a).text = inetNtoa a :=
  Datagram.text_of_notMem (zero_notMem_inetNtoa a)

/-! ## Reading lines -/

/-- The line at the start of the input and what follows it; `none` when the line has not
ended yet. 10 is the code of the newline. -/
def gets : CString → Option (CString × CString)
  | [] => none
  | c :: stdin =>
    if c = 10 then some ([], stdin)
    else (gets stdin).map fun (line, rest) => (c :: line, rest)

theorem gets_eq_some_iff {stdin line rest : CString} :
    gets stdin = some (line, rest) ↔ stdin = line ++ 10 :: rest ∧ 10 ∉ line := by
  induction stdin generalizing line with
  | nil => simp [gets]
  | cons c stdin ih =>
    rw [gets]
    split
    · next hc =>
      subst hc
      cases line with
      | nil => simp
      | cons b line =>
        simp only [Option.some.injEq, Prod.mk.injEq, List.cons_append, List.cons.injEq]
        constructor
        · rintro ⟨hnil, -⟩
          cases hnil
        · rintro ⟨⟨rfl, -⟩, hmem⟩
          exact absurd (List.mem_cons_self ..) hmem
    · next hc =>
      cases line with
      | nil =>
        simp only [Option.map_eq_some_iff, Prod.mk.injEq, List.nil_append, List.cons.injEq]
        constructor
        · rintro ⟨_, -, hcons, -⟩
          cases hcons
        · rintro ⟨⟨rfl, -⟩, -⟩
          exact absurd rfl hc
      | cons b line =>
        simp only [Option.map_eq_some_iff, Prod.mk.injEq, List.cons_append, List.cons.injEq,
          List.mem_cons, not_or]
        constructor
        · rintro ⟨⟨line', rest'⟩, hgets, ⟨rfl, rfl⟩, rfl⟩
          obtain ⟨hstdin, hmem⟩ := ih.mp hgets
          exact ⟨⟨rfl, hstdin⟩, fun h => hc h.symm, hmem⟩
        · rintro ⟨⟨rfl, hstdin⟩, -, hmem⟩
          exact ⟨(line, rest), ih.mpr ⟨hstdin, hmem⟩, ⟨rfl, rfl⟩, rfl⟩

end Spolks.Chat
