import Mathlib.Data.List.Basic

/-!
# Streams cut into chunks

A stream reaches its reader in chunks whose boundaries the writer does not choose. A
reader that takes a chunk of fewer than `n` elements for the last one reads `uptoShort n`
of them.

* `flatten_uptoShort_eq_iff`: such a reader gets the whole stream exactly when every chunk
  but the last is full.
-/

namespace Spolks.Lib

variable {α : Type*} {n : Nat}

/-- A way to cut `stream` into chunks that are not empty and have at most `n` elements. -/
structure Segmentation (n : Nat) (stream : List α) where
  chunks : List (List α)
  ne_nil : ∀ c ∈ chunks, c ≠ []
  length_le : ∀ c ∈ chunks, c.length ≤ n
  flatten_eq : chunks.flatten = stream

/-- Every chunk but the last has `n` elements. -/
def Segmentation.Full {stream : List α} (seg : Segmentation n stream) : Prop :=
  ∀ c ∈ seg.chunks.dropLast, c.length = n

/-- Every stream can be cut into full chunks and a last one. -/
theorem Segmentation.exists_full (hn : 0 < n) (stream : List α) :
    ∃ seg : Segmentation n stream, seg.Full := by
  induction hlen : stream.length using Nat.strongRecOn generalizing stream with
  | _ len ih =>
    by_cases hnil : stream = []
    · subst hnil
      exact ⟨⟨[], by simp, by simp, rfl⟩, by simp [Full]⟩
    by_cases hshort : stream.length ≤ n
    · refine ⟨⟨[stream], ?_, ?_, by simp⟩, by simp [Full]⟩
      · simpa using hnil
      · simpa using hshort
    · have hpos : 0 < stream.length := List.length_pos_iff.mpr hnil
      have htake : (stream.take n).length = n := List.length_take_of_le (by omega)
      obtain ⟨seg, hfull⟩ :=
        ih (stream.drop n).length (by rw [List.length_drop]; omega) (stream.drop n) rfl
      refine ⟨⟨stream.take n :: seg.chunks, ?_, ?_, ?_⟩, ?_⟩
      · rintro c (_ | ⟨_, hc⟩)
        · intro hempty
          rw [hempty] at htake
          exact absurd htake (by simp; omega)
        · exact seg.ne_nil c hc
      · rintro c (_ | ⟨_, hc⟩)
        · exact Nat.le_of_eq htake
        · exact seg.length_le c hc
      · rw [List.flatten_cons, seg.flatten_eq, List.take_append_drop]
      · intro c hc
        obtain ⟨chunks, hne, hle, hflat⟩ := seg
        cases chunks with
        | nil => cases hc
        | cons d ds =>
          rcases List.mem_cons.mp hc with rfl | hc
          · exact htake
          · exact hfull c hc

/-- The chunks up to and including the first one that has fewer than `n` elements. -/
def uptoShort (n : Nat) : List (List α) → List (List α)
  | [] => []
  | c :: cs => if c.length < n then [c] else c :: uptoShort n cs

theorem uptoShort_cons_of_lt {c : List α} (h : c.length < n) (cs : List (List α)) :
    uptoShort n (c :: cs) = [c] := if_pos h

theorem uptoShort_cons_of_le {c : List α} (h : n ≤ c.length) (cs : List (List α)) :
    uptoShort n (c :: cs) = c :: uptoShort n cs := if_neg (Nat.not_lt.mpr h)

theorem flatten_eq_nil_of_ne_nil {cs : List (List α)} (hne : ∀ c ∈ cs, c ≠ [])
    (h : cs.flatten = []) : cs = [] := by
  cases cs with
  | nil => rfl
  | cons c cs => exact absurd (List.append_eq_nil_iff.mp h).1 (hne c (List.mem_cons_self ..))

theorem flatten_uptoShort_eq_iff_of_chunks {cs : List (List α)} (hne : ∀ c ∈ cs, c ≠ [])
    (hle : ∀ c ∈ cs, c.length ≤ n) :
    (uptoShort n cs).flatten = cs.flatten ↔ ∀ c ∈ cs.dropLast, c.length = n := by
  induction cs with
  | nil => simp [uptoShort]
  | cons c cs ih =>
    have hne' : ∀ d ∈ cs, d ≠ [] := fun d hd => hne d (List.mem_cons_of_mem c hd)
    have ih' := ih hne' fun d hd => hle d (List.mem_cons_of_mem c hd)
    have hc : c.length ≤ n := hle c (List.mem_cons_self ..)
    by_cases hshort : c.length < n
    · -- the reader stops here: it has everything only if nothing follows
      rw [uptoShort_cons_of_lt hshort]
      constructor
      · intro h
        have hrest : cs.flatten = [] := by simpa using h
        rw [flatten_eq_nil_of_ne_nil hne' hrest]
        simp
      · intro h
        cases cs with
        | nil => rfl
        | cons d ds => exact absurd (h c (List.mem_cons_self ..)) (by omega)
    · rw [uptoShort_cons_of_le (by omega), List.flatten_cons, List.flatten_cons,
        List.append_cancel_left_eq, ih']
      cases cs with
      | nil => simp
      | cons d ds =>
        have hfull : c.length = n := by omega
        simp [hfull]

/-- A reader that stops at the first short chunk gets the whole stream exactly when every
chunk but the last is full. -/
theorem flatten_uptoShort_eq_iff {stream : List α} (seg : Segmentation n stream) :
    (uptoShort n seg.chunks).flatten = stream ↔ seg.Full := by
  have h := flatten_uptoShort_eq_iff_of_chunks seg.ne_nil seg.length_le
  rwa [seg.flatten_eq] at h

end Spolks.Lib
