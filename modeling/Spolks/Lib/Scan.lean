import Spolks.Lib.Terminated

/-!
# Reading decimal numbers

`scanInt` reads a text as `%d` of `scanf` does: it skips white space and takes an optional sign
and the digits behind it. Where there are none it fails, and white space and the sign are gone
all the same.

* `scanInt_eq_some_iff`: the texts in which a number is found.
* `scanInt_of_stops`: a text at which the reading gets stuck.
* `numeral_intText`: what `%d` prints is such a number.
* `exists_holds_lines`: numbers that are printed one a line are found again.
-/

namespace Spolks.Lib

/-- `isspace`: the blank, and the codes from the tabulator to the carriage return. -/
def IsSpace (c : UInt8) : Prop := c = 32 ∨ 9 ≤ c ∧ c ≤ 13

def IsDigit (c : UInt8) : Prop := 48 ≤ c ∧ c ≤ 57

instance : DecidablePred IsSpace := fun c => inferInstanceAs (Decidable (c = 32 ∨ 9 ≤ c ∧ c ≤ 13))

instance : DecidablePred IsDigit := fun c => inferInstanceAs (Decidable (48 ≤ c ∧ c ≤ 57))

/-- The number that digits stand for. -/
def digitsValue (ds : List UInt8) : Nat := ds.foldl (fun v c => 10 * v + (c.toNat - 48)) 0

/-- Whether there is a minus, and what stands behind the sign. -/
def scanSign : List UInt8 → Bool × List UInt8
  | [] => (false, [])
  | c :: text =>
    if c = 45 then (true, text) else if c = 43 then (false, text) else (false, c :: text)

def signed (negative : Bool) (n : Nat) : Int := if negative then -n else n

def scanInt (text : List UInt8) : Option Int × List UInt8 :=
  let (negative, text) := scanSign (text.dropWhile IsSpace)
  let digits := text.takeWhile IsDigit
  let rest := text.dropWhile IsDigit
  if digits = [] then (none, rest) else (some (signed negative (digitsValue digits)), rest)

/-- A number with an optional sign. -/
inductive Numeral : List UInt8 → Int → Prop
  | plain {ds : List UInt8} (hne : ds ≠ []) (hall : ∀ c ∈ ds, IsDigit c) :
      Numeral ds (digitsValue ds)
  | plus {ds : List UInt8} (hne : ds ≠ []) (hall : ∀ c ∈ ds, IsDigit c) :
      Numeral (43 :: ds) (digitsValue ds)
  | minus {ds : List UInt8} (hne : ds ≠ []) (hall : ∀ c ∈ ds, IsDigit c) :
      Numeral (45 :: ds) (-digitsValue ds)

/-- A text that does not go on with a digit. -/
def NoDigitNext (rest : List UInt8) : Prop := ∀ c ∈ rest.head?, ¬ IsDigit c

/-- A text that goes on with nothing that can begin a number, whatever white space precedes. -/
def Stops (tail : List UInt8) : Prop :=
  ∃ ws rest, tail = ws ++ rest ∧ (∀ c ∈ ws, IsSpace c) ∧
    ∀ c ∈ rest.head?, ¬ IsSpace c ∧ ¬ IsDigit c ∧ c ≠ 43 ∧ c ≠ 45

/-! ## Pieces of a text -/

section

variable {p : UInt8 → Prop} [DecidablePred p] {xs ys : List UInt8}

theorem takeWhile_append_stop (hall : ∀ c ∈ xs, p c) (hstop : ∀ c ∈ ys.head?, ¬ p c) :
    (xs ++ ys).takeWhile p = xs := by
  rw [List.takeWhile_append_of_pos fun c hc => decide_eq_true (hall c hc)]
  cases ys with
  | nil => simp
  | cons y ys => simp [hstop y rfl]

theorem dropWhile_append_stop (hall : ∀ c ∈ xs, p c) (hstop : ∀ c ∈ ys.head?, ¬ p c) :
    (xs ++ ys).dropWhile p = ys := by
  rw [List.dropWhile_append_of_pos fun c hc => decide_eq_true (hall c hc)]
  cases ys with
  | nil => rfl
  | cons y ys => simp [hstop y rfl]

theorem dropWhile_stop : ∀ c ∈ (xs.dropWhile p).head?, ¬ p c := by
  induction xs with
  | nil => simp
  | cons x xs ih =>
    by_cases hx : p x
    · simpa [hx] using ih
    · simp [hx]

theorem takeWhile_pos : ∀ c ∈ xs.takeWhile p, p c := by
  intro c hc
  simpa using List.all_eq_true.mp (List.all_takeWhile (p := fun c => decide (p c))) c hc

end

/-! ## Numbers -/

theorem not_space_of_digit {c : UInt8} (h : IsDigit c) : ¬ IsSpace c := by
  rintro (rfl | ⟨-, hle⟩)
  · exact absurd h.1 (by decide)
  · exact absurd (UInt8.le_trans h.1 hle) (by decide)

theorem sign_of_digit {c : UInt8} (h : IsDigit c) : c ≠ 45 ∧ c ≠ 43 := by
  constructor
  · rintro rfl
    exact absurd h.1 (by decide)
  · rintro rfl
    exact absurd h.1 (by decide)

theorem head_mem {ds rest : List UInt8} (hne : ds ≠ []) : ∀ c ∈ (ds ++ rest).head?, c ∈ ds := by
  cases ds with
  | nil => exact absurd rfl hne
  | cons d ds =>
    intro c hc
    cases hc
    exact List.mem_cons_self ..

theorem scanSign_of_ne {text : List UInt8} (h : ∀ c ∈ text.head?, c ≠ 45 ∧ c ≠ 43) :
    scanSign text = (false, text) := by
  cases text with
  | nil => rfl
  | cons c text =>
    obtain ⟨hminus, hplus⟩ := h c rfl
    rw [scanSign, if_neg hminus, if_neg hplus]

/-- A sign is taken off a numeral. -/
theorem scanSign_numeral {num rest : List UInt8} {v : Int} (h : Numeral num v) :
    ∃ negative ds, scanSign (num ++ rest) = (negative, ds ++ rest) ∧ ds ≠ [] ∧
      (∀ c ∈ ds, IsDigit c) ∧ v = signed negative (digitsValue ds) := by
  cases h with
  | plain hne hall =>
    refine ⟨false, _, scanSign_of_ne fun c hc => ?_, hne, hall, rfl⟩
    exact sign_of_digit (hall c (head_mem hne c hc))
  | plus hne hall => exact ⟨false, _, rfl, hne, hall, rfl⟩
  | minus hne hall => exact ⟨true, _, rfl, hne, hall, rfl⟩

/-- Digits behind an optional sign are a numeral. -/
theorem numeral_of_scanSign {text ds rest : List UInt8} (hsign : (scanSign text).2 = ds ++ rest)
    (hne : ds ≠ []) (hall : ∀ c ∈ ds, IsDigit c) :
    ∃ num, text = num ++ rest ∧ Numeral num (signed (scanSign text).1 (digitsValue ds)) := by
  cases text with
  | nil => exact absurd (List.append_eq_nil_iff.mp hsign.symm).1 hne
  | cons c text =>
    by_cases hminus : c = 45
    · subst hminus
      exact ⟨45 :: ds, congrArg (List.cons 45) hsign, .minus hne hall⟩
    · by_cases hplus : c = 43
      · subst hplus
        exact ⟨43 :: ds, congrArg (List.cons 43) hsign, .plus hne hall⟩
      · rw [scanSign, if_neg hminus, if_neg hplus] at hsign ⊢
        exact ⟨ds, hsign, .plain hne hall⟩

theorem Numeral.head_not_space {num rest : List UInt8} {v : Int} (h : Numeral num v) :
    ∀ c ∈ (num ++ rest).head?, ¬ IsSpace c := by
  cases h with
  | plain hne hall => exact fun c hc => not_space_of_digit (hall c (head_mem hne c hc))
  | plus =>
    intro c hc
    cases hc
    decide
  | minus =>
    intro c hc
    cases hc
    decide

theorem scanInt_digits {text ds rest : List UInt8} {negative : Bool}
    (hsign : scanSign (text.dropWhile IsSpace) = (negative, ds ++ rest)) (hne : ds ≠ [])
    (hall : ∀ c ∈ ds, IsDigit c) (hrest : NoDigitNext rest) :
    scanInt text = (some (signed negative (digitsValue ds)), rest) := by
  rw [scanInt, hsign]
  simp only [takeWhile_append_stop hall hrest, dropWhile_append_stop hall hrest, if_neg hne]

theorem scanInt_none {text rest : List UInt8} {negative : Bool}
    (hsign : scanSign (text.dropWhile IsSpace) = (negative, rest)) (hrest : NoDigitNext rest) :
    scanInt text = (none, rest) := by
  have htake : rest.takeWhile IsDigit = [] := @takeWhile_append_stop IsDigit _ [] rest (by simp) hrest
  have hdrop : rest.dropWhile IsDigit = rest := @dropWhile_append_stop IsDigit _ [] rest (by simp) hrest
  rw [scanInt, hsign]
  simp only [htake, hdrop, if_true]

/-- **What is read as a number.** A number is found exactly in a text that begins with white
space and a numeral behind which no digit follows, and the rest is what follows it. -/
theorem scanInt_eq_some_iff {text rest : List UInt8} {v : Int} :
    scanInt text = (some v, rest) ↔
      ∃ ws num, text = ws ++ (num ++ rest) ∧ (∀ c ∈ ws, IsSpace c) ∧ Numeral num v ∧
        NoDigitNext rest := by
  constructor
  · intro h
    have htext : text = text.takeWhile IsSpace ++ text.dropWhile IsSpace :=
      List.takeWhile_append_dropWhile.symm
    rcases hsign : scanSign (text.dropWhile IsSpace) with ⟨negative, body⟩
    have hbody : body = body.takeWhile IsDigit ++ body.dropWhile IsDigit :=
      List.takeWhile_append_dropWhile.symm
    rw [hbody] at hsign
    by_cases hnil : body.takeWhile IsDigit = []
    · rw [hnil] at hsign
      rw [scanInt_none hsign dropWhile_stop] at h
      cases h
    · rw [scanInt_digits hsign hnil takeWhile_pos dropWhile_stop] at h
      cases h
      obtain ⟨num, hnum, hvalue⟩ :=
        numeral_of_scanSign (congrArg Prod.snd hsign) hnil takeWhile_pos
      rw [hnum] at htext
      rw [hsign] at hvalue
      exact ⟨_, num, htext, takeWhile_pos, hvalue, dropWhile_stop⟩
  · rintro ⟨ws, num, rfl, hws, hnum, hrest⟩
    obtain ⟨negative, ds, hsign, hne, hall, rfl⟩ := scanSign_numeral hnum
    refine scanInt_digits ?_ hne hall hrest
    rw [dropWhile_append_stop hws hnum.head_not_space]
    exact hsign

/-- Where no number can begin, the reading fails and does not get on. -/
theorem scanInt_of_stops {tail : List UInt8} (h : Stops tail) :
    (scanInt tail).1 = none ∧ Stops (scanInt tail).2 := by
  obtain ⟨ws, rest, rfl, hws, hrest⟩ := h
  have hsign : scanSign ((ws ++ rest).dropWhile IsSpace) = (false, rest) := by
    rw [dropWhile_append_stop hws fun c hc => (hrest c hc).1]
    exact scanSign_of_ne fun c hc => ⟨(hrest c hc).2.2.2, (hrest c hc).2.2.1⟩
  rw [scanInt_none hsign fun c hc => (hrest c hc).2.1]
  exact ⟨rfl, [], rest, rfl, by simp, hrest⟩

/-! ## Printed numbers -/

theorem ascii_digits {cs : List Char} (hall : ∀ c ∈ cs, c.isDigit = true) :
    ∀ c ∈ cs.map fun c => UInt8.ofNat c.toNat, IsDigit c := by
  intro b hb
  obtain ⟨c, hc, rfl⟩ := List.mem_map.mp hb
  obtain ⟨hlo, hhi⟩ := Char.isDigit_iff_toNat.mp (hall c hc)
  have hnat : (UInt8.ofNat c.toNat).toNat = c.toNat :=
    UInt8.toNat_ofNat_of_lt' (Nat.lt_of_le_of_lt hhi (by decide))
  rw [IsDigit, UInt8.le_iff_toNat_le, UInt8.le_iff_toNat_le, hnat]
  exact ⟨hlo, hhi⟩

theorem digitsValue_map {cs : List Char} (hall : ∀ c ∈ cs, c.isDigit = true) :
    digitsValue (cs.map fun c => UInt8.ofNat c.toNat) = Nat.ofDigitChars 10 cs 0 := by
  rw [digitsValue, Nat.ofDigitChars_eq_foldl, List.foldl_map]
  refine List.foldl_ext _ _ _ fun v c hc => ?_
  obtain ⟨-, hhi⟩ := Char.isDigit_iff_toNat.mp (hall c hc)
  rw [UInt8.toNat_ofNat_of_lt' (Nat.lt_of_le_of_lt hhi (by decide))]
  rfl

/-- The digits of a number, as `%d` prints them. -/
theorem ascii_repr (n : Nat) : ascii n.repr ≠ [] ∧ (∀ c ∈ ascii n.repr, IsDigit c) ∧
    digitsValue (ascii n.repr) = n := by
  have hall : ∀ c ∈ Nat.toDigits 10 n, c.isDigit = true := fun c hc =>
    Nat.isDigit_of_mem_toDigits (by decide) (by decide) hc
  rw [ascii, Nat.toList_repr]
  refine ⟨?_, ascii_digits hall, (digitsValue_map hall).trans Nat.ofDigitChars_ten_toDigits⟩
  rw [ne_eq, List.map_eq_nil_iff]
  exact Nat.toDigits_ne_nil

/-- What `%d` prints is a numeral with the number as its value. -/
theorem numeral_intText (n : Int) : Numeral (intText n) n := by
  rw [intText, Int.toString_eq_repr, Int.repr_eq_if]
  split
  · obtain ⟨hne, hall, hvalue⟩ := ascii_repr n.toNat
    have hnum := Numeral.plain hne hall
    rwa [hvalue, Int.toNat_of_nonneg ‹_›] at hnum
  · obtain ⟨hne, hall, hvalue⟩ := ascii_repr (-n).toNat
    have hnum := Numeral.minus hne hall
    rw [hvalue, Int.toNat_of_nonneg (by omega), Int.neg_neg] at hnum
    have htext : ascii ("-" ++ (-n).toNat.repr) = 45 :: ascii (-n).toNat.repr := by
      rw [ascii, String.toList_append, List.map_append]
      rfl
    rw [htext]
    exact hnum

/-! ## Texts of numbers -/

/-- A text that holds these numbers, each behind white space, and then `tail`. -/
inductive Holds (tail : List UInt8) : List UInt8 → List Int → Prop
  | nil : Holds tail tail []
  | cons {ws num rest : List UInt8} {v : Int} {vs : List Int} (hws : ∀ c ∈ ws, IsSpace c)
      (hnum : Numeral num v) (hnext : NoDigitNext rest) (hrest : Holds tail rest vs) :
      Holds tail (ws ++ (num ++ rest)) (v :: vs)

theorem stops_of_spaces {tail : List UInt8} (h : ∀ c ∈ tail, IsSpace c) : Stops tail :=
  ⟨tail, [], (List.append_nil tail).symm, h, by simp⟩

theorem newline_space : ∀ c ∈ ([10] : List UInt8), IsSpace c := by
  intro c hc
  rw [List.mem_singleton.mp hc]
  decide

/-- Numbers printed one a line, behind a newline. -/
theorem holds_lines (vs : List Int) :
    Holds [10] (10 :: vs.flatMap fun v => intText v ++ [10]) vs := by
  induction vs with
  | nil => exact .nil
  | cons v vs ih =>
    have h := Holds.cons newline_space (numeral_intText v) (fun c hc => by cases hc; decide) ih
    simpa only [List.flatMap_cons, List.append_assoc, List.singleton_append] using h

/-- Numbers printed one a line are read back. -/
theorem exists_holds_lines (vs : List Int) :
    ∃ tail, Holds tail (vs.flatMap fun v => intText v ++ [10]) vs ∧ Stops tail := by
  cases vs with
  | nil => exact ⟨[], .nil, stops_of_spaces (by simp)⟩
  | cons v vs =>
    have h := @Holds.cons [10] [] _ _ _ _ (by simp) (numeral_intText v)
      (fun c hc => by cases hc; decide) (holds_lines vs)
    refine ⟨[10], ?_, stops_of_spaces newline_space⟩
    simpa only [List.flatMap_cons, List.append_assoc, List.singleton_append, List.nil_append] using h

end Spolks.Lib
