import Mathlib.Data.List.TakeDrop
import Spolks.Chat.Multicast
import Spolks.Lib.Transition

/-!
# `lab4_2/session.c`: what becomes of a line

The keys of a user and the iterations of `speak_thread` come in any order. `spoken` says what
a stream of keys means, without regard to this order, and `exec_speak` that the program sends
just this.

* `Whole`: an input of commands and whole lines.
* `exists_iterate_of_keys`: all of such an input is taken in.
* `transparent_iff`: which lines go through the program as they are.
-/

namespace Spolks.Chat.Multicast

open Lib Sockcore

/-! ## What keys mean -/

/-- What is sent for a stream of keys: at the start of a line (`none`) a `-` is a command, and
in a line every key belongs to it until the newline. -/
def spoken : Option CString → CString → List Sent
  | _, [] => []
  | none, c :: keys =>
    if c = 45 then ⟨.key, echoDatagram⟩ :: spoken none keys
    else if c = 10 then lineSent [] ++ spoken none keys
    else spoken (some [c]) keys
  | some line, c :: keys =>
    if c = 10 then lineSent line ++ spoken none keys else spoken (some (line ++ [c])) keys

@[simp] theorem spoken_nil (line : Option CString) : spoken line [] = [] := by
  cases line <;> rfl

@[simp] theorem spoken_dash (keys : CString) :
    spoken none (45 :: keys) = ⟨.key, echoDatagram⟩ :: spoken none keys := rfl

/-- The rest of a line. -/
theorem spoken_some {rest : CString} (hnewline : 10 ∉ rest) (line keys : CString) :
    spoken (some line) (rest ++ 10 :: keys) = lineSent (line ++ rest) ++ spoken none keys := by
  induction rest generalizing line with
  | nil =>
    rw [List.nil_append, List.append_nil, spoken]
    exact if_pos rfl
  | cons c rest ih =>
    have hc : c ≠ 10 := fun h => hnewline (h ▸ List.mem_cons_self ..)
    have hrest : 10 ∉ rest := fun h => hnewline (List.mem_cons_of_mem c h)
    rw [List.cons_append, spoken, if_neg hc, ih hrest, List.append_assoc, List.singleton_append]

/-- A line that does not begin with a command. -/
theorem spoken_line {line : CString} (hnewline : 10 ∉ line) (hhead : line.head? ≠ some 45)
    (keys : CString) :
    spoken none (line ++ 10 :: keys) = lineSent line ++ spoken none keys := by
  cases line with
  | nil =>
    rw [List.nil_append, spoken, if_neg (by decide)]
    exact if_pos rfl
  | cons c line =>
    have hdash : c ≠ 45 := fun h => hhead (congrArg some h)
    have hc : c ≠ 10 := fun h => hnewline (h ▸ List.mem_cons_self ..)
    have hline : 10 ∉ line := fun h => hnewline (List.mem_cons_of_mem c h)
    rw [List.cons_append, spoken, if_neg hdash, if_neg hc, spoken_some hline,
      List.singleton_append]

/-! ## What `speak_thread` does with them -/

/-- The input that is pending, and what has been sent. -/
structure Speaker where
  stdin : CString
  sent : List Sent

inductive Input where
  | press (key : UInt8)
  | iterate

def speak (s : Speaker) : Input → Option Speaker
  | .press key => some { s with stdin := s.stdin ++ [key] }
  | .iterate => (speakBody s.stdin).map fun (stdin, sent) => ⟨stdin, s.sent ++ sent⟩

/-- The keys pressed in a run. -/
def keys : List Input → CString
  | [] => []
  | .press key :: es => key :: keys es
  | .iterate :: es => keys es

theorem speakBody_spoken {stdin rest : CString} {sent : List Sent}
    (h : speakBody stdin = some (rest, sent)) (later : CString) :
    spoken none (stdin ++ later) = sent ++ spoken none (rest ++ later) := by
  rcases speakBody_cases h with ⟨rfl, rfl, rfl⟩ | ⟨rfl, rfl⟩ | ⟨line, rfl, hnewline, hhead, hsent⟩
  · rfl
  · rw [List.cons_append, spoken_dash, List.singleton_append]
  · rw [List.append_assoc, List.cons_append, spoken_line hnewline hhead, hsent]

/-- What has been sent and what the keys still mean do not depend on the order of keys and
iterations. -/
theorem exec_speak {es : List Input} {s t : Speaker} (hrun : exec speak s es = some t) :
    s.sent ++ spoken none (s.stdin ++ keys es) = t.sent ++ spoken none t.stdin := by
  induction es generalizing s with
  | nil =>
    cases hrun
    rw [keys, List.append_nil]
  | cons e es ih =>
    obtain ⟨m, hm, hrest⟩ := exec_cons_iff.mp hrun
    rw [← ih hrest]
    cases e with
    | press key =>
      cases hm
      rw [keys, List.append_assoc, List.singleton_append]
    | iterate =>
      obtain ⟨⟨rest, sent⟩, hbody, rfl⟩ := Option.map_eq_some_iff.mp hm
      rw [keys, speakBody_spoken hbody, List.append_assoc]

theorem exec_press (text : CString) (s : Speaker) :
    exec speak s (text.map .press) = some { s with stdin := s.stdin ++ text } := by
  induction text generalizing s with
  | nil =>
    rw [List.append_nil]
    rfl
  | cons c text ih =>
    rw [List.map_cons, exec_cons, speak, Option.bind_some, ih, List.append_assoc,
      List.singleton_append]

theorem keys_press (text : CString) : keys (text.map .press) = text := by
  induction text with
  | nil => rfl
  | cons c text ih => rw [List.map_cons, keys, ih]

theorem keys_append_iterate (es : List Input) (n : Nat) :
    keys (es ++ List.replicate n .iterate) = keys es := by
  induction es with
  | nil =>
    induction n with
    | zero => rfl
    | succ n ih => exact ih
  | cons e es ih =>
    cases e with
    | press key => rw [List.cons_append, keys, keys, ih]
    | iterate => rw [List.cons_append, keys, keys, ih]

/-! ## Whole lines -/

/-- An input of commands and of lines that have ended and fit into the buffer. -/
inductive Whole : CString → Prop
  | nil : Whole []
  | dash {stdin : CString} (h : Whole stdin) : Whole (45 :: stdin)
  | line {line stdin : CString} (hnewline : 10 ∉ line) (hhead : line.head? ≠ some 45)
    (hlen : line.length < MAXBUF) (h : Whole stdin) : Whole (line ++ 10 :: stdin)

/-- A line that has ended: its leading commands, and the rest. -/
theorem whole_line {line : CString} (hnewline : 10 ∉ line) (hlen : line.length < MAXBUF) :
    Whole (line ++ [10]) := by
  induction line with
  | nil => exact .line hnewline (Option.some_ne_none 45).symm hlen .nil
  | cons c line ih =>
    by_cases hc : c = 45
    · subst hc
      exact .dash (ih (fun h => hnewline (List.mem_cons_of_mem _ h)) (Nat.lt_of_succ_lt hlen))
    · exact .line hnewline (fun hhead => hc (Option.some.inj hhead)) hlen .nil

theorem Whole.append {stdin later : CString} (h : Whole stdin) (hlater : Whole later) :
    Whole (stdin ++ later) := by
  induction h with
  | nil => exact hlater
  | dash _ ih => exact ih.dash
  | line hnewline hhead hlen _ ih =>
    rw [List.append_assoc, List.cons_append]
    exact .line hnewline hhead hlen ih

/-- What keys behind it mean does not depend on it. -/
theorem Whole.spoken_append {stdin : CString} (h : Whole stdin) (later : CString) :
    spoken none (stdin ++ later) = spoken none stdin ++ spoken none later := by
  induction h with
  | nil => rfl
  | dash _ ih => rw [List.cons_append, spoken_dash, spoken_dash, ih, List.cons_append]
  | line hnewline hhead _ _ ih =>
    rw [List.append_assoc, List.cons_append, spoken_line hnewline hhead, spoken_line hnewline hhead,
      ih, List.append_assoc]

/-- Behind a command it is whole again. -/
theorem Whole.tail {stdin : CString} (h : Whole (45 :: stdin)) : Whole stdin := by
  generalize hall : 45 :: stdin = all at h
  cases h with
  | nil => cases hall
  | dash h =>
    cases hall
    exact h
  | @line line rest _ hhead _ _ =>
    cases line with
    | nil => exact absurd (List.cons.inj hall).1 (by decide)
    | cons c line => exact absurd (congrArg some (List.cons.inj hall).1.symm) hhead

/-- And behind a line. -/
theorem Whole.rest {line stdin : CString} (h : Whole (line ++ 10 :: stdin)) (hnewline : 10 ∉ line)
    (hhead : line.head? ≠ some 45) : Whole stdin := by
  generalize hall : line ++ 10 :: stdin = all at h
  cases h with
  | nil => cases line <;> cases hall
  | dash _ =>
    cases line with
    | nil => exact absurd (List.cons.inj hall).1 (by decide)
    | cons c line => exact absurd (congrArg some (List.cons.inj hall).1) hhead
  | @line line' stdin' hnewline' _ _ h =>
    -- both are what `gets` reads
    have hgets : gets (line ++ 10 :: stdin) = some (line, stdin) :=
      gets_eq_some_iff.mpr ⟨rfl, hnewline⟩
    have hgets' : gets (line' ++ 10 :: stdin') = some (line', stdin') :=
      gets_eq_some_iff.mpr ⟨rfl, hnewline'⟩
    rw [hall, hgets'] at hgets
    obtain ⟨-, rfl⟩ := Prod.mk.inj (Option.some.inj hgets)
    exact h

/-- The loop takes in commands and lines one by one. -/
theorem Whole.exists_iterate {stdin : CString} (h : Whole stdin) (sent : List Sent) :
    ∃ n t, exec speak ⟨stdin, sent⟩ (List.replicate n .iterate) = some t ∧ t.stdin = [] := by
  induction h generalizing sent with
  | nil => exact ⟨0, _, rfl, rfl⟩
  | dash _ ih =>
    obtain ⟨n, t, hrun, ht⟩ := ih (sent ++ [⟨.key, echoDatagram⟩])
    exact ⟨n + 1, t, exec_cons_iff.mpr ⟨_, rfl, hrun⟩, ht⟩
  | @line line stdin hnewline hhead hlen _ ih =>
    obtain ⟨n, t, hrun, ht⟩ := ih (sent ++ lineSent line)
    refine ⟨n + 1, t, exec_cons_iff.mpr ⟨⟨stdin, sent ++ lineSent line⟩, ?_, hrun⟩, ht⟩
    rw [speak, speakBody_whole hnewline hhead hlen, Option.map_some]

/-- A run keeps the input whole. -/
theorem Whole.exec {es : List Input} {s t : Speaker} (h : Whole (s.stdin ++ keys es))
    (hrun : Lib.exec speak s es = some t) : Whole t.stdin := by
  induction es generalizing s with
  | nil =>
    cases hrun
    rwa [keys, List.append_nil] at h
  | cons e es ih =>
    obtain ⟨m, hm, hrest⟩ := exec_cons_iff.mp hrun
    refine ih ?_ hrest
    cases e with
    | press key =>
      cases hm
      rwa [List.append_assoc, List.singleton_append]
    | iterate =>
      obtain ⟨⟨rest, sent⟩, hbody, rfl⟩ := Option.map_eq_some_iff.mp hm
      rw [keys] at h
      rcases speakBody_cases hbody with
        ⟨hstdin, rfl, -⟩ | ⟨hstdin, -⟩ | ⟨line, hstdin, hnewline, hhead, -⟩
      · rwa [hstdin] at h
      · rw [hstdin, List.cons_append] at h
        exact h.tail
      · rw [hstdin, List.append_assoc, List.cons_append] at h
        exact h.rest hnewline hhead

/-- Once the keys of a line have been pressed behind such an input, the loop gets to the end of
the line. -/
theorem exists_iterate_of_keys {line : CString} (hnewline : 10 ∉ line)
    (hlen : line.length < MAXBUF) {es : List Input} {s t : Speaker} (hs : Whole s.stdin)
    (hrun : exec speak s es = some t) (hkeys : keys es = line ++ [10]) :
    ∃ n u, exec speak t (List.replicate n .iterate) = some u ∧ u.stdin = [] := by
  have hwhole : Whole (s.stdin ++ keys es) := by
    rw [hkeys]
    exact hs.append (whole_line hnewline hlen)
  exact (hwhole.exec hrun).exists_iterate t.sent

theorem exists_exec_speak {line : CString} (hnewline : 10 ∉ line) (hlen : line.length < MAXBUF)
    {s : Speaker} (hs : Whole s.stdin) :
    ∃ es t, exec speak s es = some t ∧ keys es = line ++ [10] ∧ t.stdin = [] := by
  have hpress := exec_press (line ++ [10]) s
  obtain ⟨n, t, hrun, ht⟩ :=
    exists_iterate_of_keys hnewline hlen hs hpress (keys_press (line ++ [10]))
  refine ⟨(line ++ [10]).map .press ++ List.replicate n .iterate, t, ?_, ?_, ht⟩
  · exact exec_append hpress hrun
  · rw [keys_append_iterate, keys_press]

/-! ## Lines -/

/-- A line that fits into a datagram. -/
structure Line where
  text : CString
  noNul : 0 ∉ text
  noNewline : 10 ∉ text
  length_le : text.length ≤ 65507

namespace Line

def datagram (l : Line) : Datagram := ⟨l.text, l.length_le⟩

theorem length_lt (l : Line) : l.text.length < MAXBUF := l.length_le.trans_lt (by decide)

theorem lineSent_text (l : Line) : lineSent l.text = [⟨.line, l.datagram⟩] := by
  rw [lineSent, typed_of_notMem l.noNul l.length_lt, sendto, dif_pos l.length_le]
  rfl

theorem datagram_text (l : Line) : l.datagram.text = l.text := Datagram.text_of_notMem l.noNul

/-- When the keys of the line have been pressed behind any commands and whole lines that were
pending, in any run, the loop takes them all in, and when it has, the line and nothing else has
been sent behind what the pending input means; a member that receives it prints it and sends
nothing. -/
structure Transparent (l : Line) : Prop where
  taken : ∀ es s t, Whole s.stdin → exec speak s es = some t → keys es = l.text ++ [10] →
    ∃ n u, exec speak t (List.replicate n .iterate) = some u ∧ u.stdin = []
  sent : ∀ es s t, Whole s.stdin → exec speak s es = some t → keys es = l.text ++ [10] →
    t.stdin = [] → t.sent = s.sent ++ spoken none s.stdin ++ [⟨.line, l.datagram⟩]
  printed : ∀ ip, listenBody ip l.datagram = ([l.text], [])

/-- The first key of a transparent line is no command. -/
theorem Transparent.head_ne {l : Line} (h : l.Transparent) : l.text.head? ≠ some 45 := by
  intro hhead
  obtain ⟨es, t, hrun, hkeys, ht⟩ :=
    exists_exec_speak (s := ⟨[], []⟩) l.noNewline l.length_lt Whole.nil
  have hsent := exec_speak hrun
  rw [hkeys, ht, spoken_nil, List.append_nil, h.sent es _ t Whole.nil hrun hkeys ht, spoken_nil,
    List.nil_append, List.nil_append] at hsent
  obtain ⟨rest, hrest⟩ : ∃ rest, l.text = 45 :: rest := List.head?_eq_some_iff.mp hhead
  rw [hrest] at hsent
  cases hsent

/-- **Which lines are transparent**: all but those that begin with the command key and the one
that is the request for an echo. -/
theorem transparent_iff (l : Line) :
    l.Transparent ↔ l.text.head? ≠ some 45 ∧ l.text ≠ echo := by
  constructor
  · intro h
    refine ⟨h.head_ne, fun hecho => ?_⟩
    have hlisten := h.printed ⟨127, 0, 0, 1⟩
    rw [listenBody_echo (l.datagram_text.trans hecho)] at hlisten
    cases hlisten
  · rintro ⟨hhead, hecho⟩
    refine ⟨fun es s t hs hrun hkeys => ?_, ?_, ?_⟩
    · exact exists_iterate_of_keys l.noNewline l.length_lt hs hrun hkeys
    · intro es s t hs hrun hkeys ht
      have hsent := exec_speak hrun
      rw [hkeys, ht, spoken_nil, List.append_nil, hs.spoken_append,
        spoken_line l.noNewline hhead, spoken_nil, List.append_nil, l.lineSent_text,
        ← List.append_assoc] at hsent
      exact hsent.symm
    · intro ip
      have htext := l.datagram_text
      rw [listenBody_line (by rw [htext]; exact hecho), htext]

/-- `-5` is taken for a command and the line `5`. -/
theorem transparent_minusFive : ¬ ∀ l : Line, l.text ≠ ascii "-" → l.Transparent := by
  intro hall
  let minusFive : Line := ⟨ascii "-5", by decide, by decide, by decide⟩
  exact (hall minusFive (by decide)).head_ne rfl

end Line

end Spolks.Chat.Multicast
