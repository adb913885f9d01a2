import Mathlib.Data.Nat.Digits.Defs
import Spolks.Sockcore.Setup

/-!
# `spolks_lib/sockcore.c`: which strings are ports

`bindAddr` and `addr_from_hostname` accept a port when `isDigitOnly` finds nothing but
digits, which it also does in the empty string, and store what `atoi` and the truncation
to 16 bits make of it.

* `atoi_port`: up to 65535 that is the value of the string.
* `port_grammar_iff`: the strings that are treated as the grammar of ports asks.
-/

namespace Spolks.Sockcore

def IsDigit (c : UInt8) : Prop := 48 ≤ c ∧ c ≤ 57

/-- The number that a string of digits stands for. -/
def decimalValue (p : CString) : Nat := Nat.ofDigits 10 (p.reverse.map fun c => c.toNat - 48)

/-- A decimal number of 16 bits. -/
def IsPort (p : CString) : Prop := p ≠ [] ∧ (∀ c ∈ p, IsDigit c) ∧ decimalValue p ≤ 65535

/-- The result `1` stands for a port, whose value is stored, and `-1` for any other string. -/
def FollowsGrammar (p : CString) (r : Int × SockAddrIn) : Prop :=
  (r.1 = 1 ↔ IsPort p) ∧ (r.1 = 1 → r.2.port = decimalValue p) ∧ (¬ IsPort p → r.1 = -1)

section

variable {k : Kernel} {res : Resolver} {addrIn : SockAddrIn} {addr : Option CString}
  {host p : CString}

theorem isDigitOnly_iff : isDigitOnly p = true ↔ ∀ c ∈ p, IsDigit c := by
  simp [isDigitOnly, IsDigit]

/-- `strtol` reads the digits from the most significant one on. -/
theorem strtol_eq (p : CString) : strtol p = min (decimalValue p) 9223372036854775807 := by
  rw [strtol, decimalValue, Nat.ofDigits_eq_foldr, List.foldr_map, List.foldr_reverse]
  congr 2
  funext v c
  simp
  omega

/-- A value of 16 bits survives `strtol`, the `int` of `atoi` and the port field. -/
theorem atoi_port (h : decimalValue p ≤ 65535) : u16 (atoi p) = decimalValue p := by
  have hstrtol : strtol p = decimalValue p := by
    rw [strtol_eq]
    omega
  have hfits : (decimalValue p : Int).bmod 4294967296 = decimalValue p :=
    Int.bmod_eq_of_le (by omega) (by omega)
  have hatoi : atoi p = decimalValue p := by
    unfold atoi
    rw [hstrtol]
    exact hfits
  rw [u16, hatoi]
  omega

/-! ## The two functions -/

theorem bindHost_port : (bindHost k addrIn addr).2.port = addrIn.port := by
  cases addr with
  | none => rfl
  | some a =>
    rw [bindHost]
    split
    · rfl
    · cases k.inetPton a with
      | none => rfl
      | some b => rfl

theorem bindAddr_digits (h : isDigitOnly p = true)
    (haddr : ∀ a, addr = some a → a = localhost ∨ (k.inetPton a).isSome = true) :
    (bindAddr k addrIn addr (some p)).1 = 1 ∧
      (bindAddr k addrIn addr (some p)).2.port = u16 (atoi p) := by
  refine ⟨bindAddr_accepts_iff.mpr ⟨⟨p, rfl, h⟩, haddr⟩, ?_⟩
  rw [bindAddr, if_pos h, bindHost_port]

theorem addrOfHost_resolved
    (hhost : res.inetAddr host ≠ inaddrNone ∨ (res.gethostbyname host).isSome = true) :
    (addrOfHost res addrIn host).1 = 1 ∧ (addrOfHost res addrIn host).2.port = addrIn.port := by
  simp only [addrOfHost]
  by_cases hnone : res.inetAddr host = inaddrNone
  · obtain ⟨hp, hname⟩ := Option.isSome_iff_exists.mp (hhost.resolve_left (not_not_intro hnone))
    rw [if_pos hnone, hname]
    exact ⟨rfl, rfl⟩
  · rw [if_neg hnone]
    exact ⟨rfl, rfl⟩

/-- What a function does that accepts the strings of digits and stores what `atoi` makes of
them. -/
theorem followsGrammar_iff {r : Int × SockAddrIn}
    (hdigits : isDigitOnly p = true → r.1 = 1 ∧ r.2.port = u16 (atoi p))
    (hother : isDigitOnly p ≠ true → r.1 = -1) :
    FollowsGrammar p r ↔ (∃ c ∈ p, ¬ IsDigit c) ∨ (p ≠ [] ∧ decimalValue p ≤ 65535) := by
  by_cases hall : isDigitOnly p = true
  · obtain ⟨hone, hport⟩ := hdigits hall
    have hdigit := isDigitOnly_iff.mp hall
    constructor
    · intro h
      obtain ⟨hne, -, hle⟩ := h.1.mp hone
      exact Or.inr ⟨hne, hle⟩
    · rintro (⟨c, hc, hno⟩ | ⟨hne, hle⟩)
      · exact absurd (hdigit c hc) hno
      · have hisPort : IsPort p := ⟨hne, hdigit, hle⟩
        refine ⟨iff_of_true hone hisPort, fun _ => ?_, fun h => absurd hisPort h⟩
        rw [hport, atoi_port hle]
  · have hminus := hother hall
    have hno : ¬ IsPort p := fun h => hall (isDigitOnly_iff.mpr h.2.1)
    have hne : r.1 ≠ 1 := by omega
    refine iff_of_true ⟨iff_of_false hne hno, fun h => absurd h hne, fun _ => hminus⟩ (Or.inl ?_)
    by_contra hnone
    refine hall (isDigitOnly_iff.mpr fun c hc => ?_)
    by_contra hnot
    exact hnone ⟨c, hc, hnot⟩

/-- **The port grammar.** With an address that is accepted and a host that is resolved, both
functions follow the grammar on a string exactly when it has a character that is no digit,
or is not empty and has a value of at most 65535. -/
theorem port_grammar_iff (addrIn : SockAddrIn) (p : CString)
    (haddr : ∀ a, addr = some a → a = localhost ∨ (k.inetPton a).isSome = true)
    (hhost : res.inetAddr host ≠ inaddrNone ∨ (res.gethostbyname host).isSome = true) :
    (FollowsGrammar p (bindAddr k addrIn addr (some p)) ↔
      (∃ c ∈ p, ¬ IsDigit c) ∨ (p ≠ [] ∧ decimalValue p ≤ 65535)) ∧
    (FollowsGrammar p (addrFromHostname res addrIn host (some p)) ↔
      (∃ c ∈ p, ¬ IsDigit c) ∨ (p ≠ [] ∧ decimalValue p ≤ 65535)) := by
  constructor
  · apply followsGrammar_iff
    · exact fun h => bindAddr_digits h haddr
    · intro h
      simp only [bindAddr, if_neg h]
  · apply followsGrammar_iff
    · intro h
      obtain ⟨hone, hport⟩ := @addrOfHost_resolved res ⟨AF_INET, u16 (atoi p), addrIn.addr⟩ host hhost
      dsimp only at hport
      simp only [addrFromHostname, if_pos h]
      exact ⟨hone, hport⟩
    · intro h
      simp only [addrFromHostname, if_neg h]

end

/-- A resolver that knows every host. -/
def resolving : Resolver where
  inetAddr _ := ⟨10, 0, 0, 1⟩
  gethostbyname _ := none

theorem port_grammar_eighty :
    FollowsGrammar (Lib.ascii "80")
      (bindAddr accepting ⟨0, 0, INADDR_ANY⟩ none (some (Lib.ascii "80"))) ∧
    FollowsGrammar (Lib.ascii "80")
      (addrFromHostname resolving ⟨0, 0, INADDR_ANY⟩ [] (some (Lib.ascii "80"))) := by
  obtain ⟨hbind, hhost⟩ := @port_grammar_iff accepting resolving none []
    ⟨0, 0, INADDR_ANY⟩ (Lib.ascii "80") (fun a h => by cases h) (Or.inl (by decide))
  have hport : Lib.ascii "80" ≠ [] ∧ decimalValue (Lib.ascii "80") ≤ 65535 := by decide
  exact ⟨hbind.mpr (Or.inr hport), hhost.mpr (Or.inr hport)⟩

/-- The empty string is accepted as port `0`, and `65616` as port `80`. -/
theorem port_grammar_violated :
    ((bindAddr accepting ⟨0, 0, INADDR_ANY⟩ none (some [])).1 = 1 ∧
      (bindAddr accepting ⟨0, 0, INADDR_ANY⟩ none (some [])).2.port = 0 ∧
      (bindAddr accepting ⟨0, 0, INADDR_ANY⟩ none (some (Lib.ascii "65616"))).1 = 1 ∧
      (bindAddr accepting ⟨0, 0, INADDR_ANY⟩ none (some (Lib.ascii "65616"))).2.port = 80) ∧
    ¬ (∀ p, FollowsGrammar p (bindAddr accepting ⟨0, 0, INADDR_ANY⟩ none (some p)) ∧
      FollowsGrammar p (addrFromHostname resolving ⟨0, 0, INADDR_ANY⟩ [] (some p))) := by
  refine ⟨by decide, fun hall => ?_⟩
  have hempty : IsPort [] := (hall []).1.1.mp rfl
  exact hempty.1 rfl

end Spolks.Sockcore
