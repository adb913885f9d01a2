import Spolks.Lib.Memory

/-!
# Strings that end with a terminator

A string lies in a buffer of `n` cells and ends before the first cell that holds the
terminator `z`. `strcpy` and `strcat` store a string with its terminator at the start of a
memory and behind the string that is there; `ascii` gives the bytes of a text, `intText`
those of a number.

* `stringIn_fill`: the string in a cleared buffer into which cells have been written.
* `stringIn_strcpy`, `stringIn_strcat`: the string in the buffer after each of them, when
  what they write fits.
* `strcat_strcpy`: the cells that the two write, whether or not they lie in the buffer.
* `intText_length_le_one_iff`: which numbers have one digit.
-/

namespace Spolks.Lib

/-- The bytes of a text of ASCII characters. -/
def ascii (text : String) : List UInt8 := text.toList.map fun c => UInt8.ofNat c.toNat

theorem ascii_length (text : String) : (ascii text).length = text.length := by
  rw [ascii, List.length_map, String.length_toList]

theorem notMem_ascii {text : String} (h : ∀ c ∈ text.toList, 0 < c.toNat ∧ c.toNat < 256) :
    0 ∉ ascii text := by
  intro hmem
  obtain ⟨c, hc, hzero⟩ := List.mem_map.mp hmem
  obtain ⟨hpos, hlt⟩ := h c hc
  have hnat : (UInt8.ofNat c.toNat).toNat = 0 := by rw [hzero]; rfl
  rw [UInt8.toNat_ofNat_of_lt' hlt] at hnat
  omega

/-! ## Numbers -/

/-- What `%d` stands for. -/
def intText (n : Int) : List UInt8 := ascii (toString n)

/-- The numbers of one digit. -/
theorem intText_length_le_one_iff (n : Nat) : (intText n).length ≤ 1 ↔ n < 10 := by
  rw [intText, ascii_length]
  exact Nat.length_repr_le_iff Nat.zero_lt_one

theorem digit_of_mem_repr {n : Nat} {c : Char} (hc : c ∈ n.repr.toList) :
    0 < c.toNat ∧ c.toNat < 256 := by
  rw [Nat.toList_repr] at hc
  have hdigit := Nat.isDigit_of_mem_toDigits (by decide) (by decide) hc
  obtain ⟨hlo, hhi⟩ := Char.isDigit_iff_toNat.mp hdigit
  exact ⟨Nat.lt_of_lt_of_le (by decide) hlo, Nat.lt_of_le_of_lt hhi (by decide)⟩

theorem notMem_intText (n : Int) : 0 ∉ intText n := by
  refine notMem_ascii fun c hc => ?_
  rw [Int.toString_eq_repr, Int.repr_eq_if] at hc
  split at hc
  · exact digit_of_mem_repr hc
  · rw [String.toList_append, List.mem_append] at hc
    rcases hc with hsign | hc
    · obtain rfl : c = '-' := by simpa using hsign
      decide
    · exact digit_of_mem_repr hc

/-! ## Strings -/

variable {α : Type*} [DecidableEq α] {z : α} {m : Nat → α} {n : Nat} {s : List α}

/-- The string at the start of a buffer of `n` cells. -/
def stringIn (z : α) (m : Nat → α) (n : Nat) : List α := (readBlock m 0 n).takeWhile (· ≠ z)

def strcpy (z : α) (m : Nat → α) (s : List α) : Nat → α := writeBlock m 0 (s ++ [z])

def strcat (z : α) (m : Nat → α) (n : Nat) (s : List α) : Nat → α :=
  writeBlock m (stringIn z m n).length (s ++ [z])

theorem takeWhile_of_notMem (hz : z ∉ s) : s.takeWhile (· ≠ z) = s := by
  have hne : ∀ x ∈ s, decide (x ≠ z) = true := by
    intro x hx
    have : x ≠ z := fun h => hz (h ▸ hx)
    simpa using this
  have happend : (s ++ []).takeWhile (· ≠ z) = s ++ [].takeWhile (· ≠ z) :=
    List.takeWhile_append_of_pos hne
  rwa [List.append_nil, List.takeWhile_nil, List.append_nil] at happend

/-- What stands behind a terminator does not count. -/
theorem takeWhile_append_terminator (s rest : List α) :
    (s ++ z :: rest).takeWhile (· ≠ z) = s.takeWhile (· ≠ z) := by
  induction s with
  | nil => simp
  | cons x s ih =>
    by_cases hx : x = z
    · simp [hx]
    · simp only [List.cons_append, List.takeWhile_cons, ih]

theorem notMem_stringIn : z ∉ stringIn z m n := by
  intro hz
  have hall := List.all_eq_true.mp (List.all_takeWhile (p := (· ≠ z)) (l := readBlock m 0 n)) z hz
  simp at hall

theorem stringIn_length_le : (stringIn z m n).length ≤ n := by
  have h := (List.takeWhile_prefix (p := (· ≠ z)) (l := readBlock m 0 n)).length_le
  rwa [readBlock_length] at h

/-- The cells of the string hold it. -/
theorem readBlock_stringIn : readBlock m 0 (stringIn z m n).length = stringIn z m n := by
  have hprefix := List.takeWhile_prefix (p := (· ≠ z)) (l := readBlock m 0 n)
  have hfit : 0 + (stringIn z m n).length ≤ n := by
    rw [Nat.zero_add]
    exact stringIn_length_le
  rw [← take_drop_readBlock m hfit, List.drop_zero]
  exact (List.prefix_iff_eq_take.mp hprefix).symm

/-- A string is found by its cells and the terminator behind them. -/
theorem stringIn_eq (hfit : s.length < n) (hz : z ∉ s)
    (hread : readBlock m 0 (s.length + 1) = s ++ [z]) : stringIn z m n = s := by
  obtain ⟨r, rfl⟩ : ∃ r, n = s.length + 1 + r := ⟨n - (s.length + 1), by omega⟩
  rw [stringIn, readBlock_add, hread, List.append_assoc, List.singleton_append,
    takeWhile_append_terminator, takeWhile_of_notMem hz]

/-- The cells written into a cleared buffer, up to the first terminator among them. -/
theorem stringIn_fill (hfit : s.length < n) :
    stringIn z (writeBlock (fun _ => z) 0 s) n = s.takeWhile (· ≠ z) := by
  obtain ⟨r, rfl⟩ : ∃ r, n = s.length + (1 + r) := ⟨n - s.length - 1, by omega⟩
  have hbehind : readBlock (writeBlock (fun _ => z) 0 s) s.length 1 = [z] := by
    rw [readBlock_writeBlock_of_disjoint _ (Or.inr (by omega))]
    rfl
  rw [stringIn, readBlock_add, readBlock_writeBlock, readBlock_add, Nat.zero_add, hbehind,
    List.singleton_append, takeWhile_append_terminator]

theorem stringIn_strcpy (hz : z ∉ s) (hfit : s.length < n) : stringIn z (strcpy z m s) n = s := by
  apply stringIn_eq hfit hz
  have h := readBlock_writeBlock m 0 (s ++ [z])
  rwa [List.length_append, List.length_singleton] at h

theorem stringIn_strcat (hz : z ∉ s) (hfit : (stringIn z m n).length + s.length < n) :
    stringIn z (strcat z m n s) n = stringIn z m n ++ s := by
  have hlen : (stringIn z m n ++ s).length = (stringIn z m n).length + s.length :=
    List.length_append
  refine stringIn_eq (by omega) ?_ ?_
  · rw [List.mem_append]
    rintro (hmem | hmem)
    · exact notMem_stringIn hmem
    · exact hz hmem
  · have hbefore : readBlock (writeBlock m (stringIn z m n).length (s ++ [z])) 0
        (stringIn z m n).length = readBlock m 0 (stringIn z m n).length :=
      readBlock_writeBlock_of_disjoint m (Or.inl (by omega))
    have hbehind := readBlock_writeBlock m (stringIn z m n).length (s ++ [z])
    rw [List.length_append, List.length_singleton] at hbehind
    rw [hlen, Nat.add_assoc, readBlock_add, strcat, hbefore, readBlock_stringIn, Nat.zero_add,
      hbehind, List.append_assoc]

/-- A copied string and one appended to it, wherever they end. -/
theorem strcat_strcpy {t : List α} (hz : z ∉ s) (hfit : s.length < n) :
    strcat z (strcpy z m s) n t = writeBlock m 0 (s ++ (t ++ [z])) := by
  have hover : [z].length ≤ (t ++ [z]).length := by
    rw [List.length_append]
    exact Nat.le_add_left ..
  rw [strcat, stringIn_strcpy hz hfit, strcpy, writeBlock_append m 0 s [z],
    writeBlock_append m 0 s (t ++ [z]), Nat.zero_add, writeBlock_over _ _ hover]

end Spolks.Lib
