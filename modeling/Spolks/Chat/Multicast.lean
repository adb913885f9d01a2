import Spolks.Chat.Datagram

/-!
# `lab4_2/session.c`: one member of a group

`speak_thread` polls the terminal: a `-` that comes first asks the group for an echo, anything
else is the start of a line, which is sent when it has ended. `listen_thread` answers each
request for an echo with its own address and prints all else.

Each body of a loop is a function; `none` is an iteration that has not come to its end, because
`gets` waits, or that has no defined meaning, because `gets` overruns its buffer.
-/

namespace Spolks.Chat.Multicast

open Lib Sockcore

def MULTI_ECHO : Int := 2

def START_TYPING : Int := 1

def echo : CString := ascii "*_ECHO"

def echoDatagram : Datagram := ⟨echo, by decide⟩

/-- The call of `sendto` that a datagram comes from; a reply is sent for a certain delivery. -/
inductive Origin where
  | key
  | line
  | reply (delivery : Nat)
  deriving DecidableEq

def Origin.cause : Origin → Option Nat
  | key => none
  | line => none
  | reply k => some k

structure Sent where
  origin : Origin
  datagram : Datagram
  deriving DecidableEq

/-- What `kbhit` returns, what it leaves of the input, and what it sends; 45 is the code of
the `-`. -/
def kbhit : CString → Int × CString × List Sent
  | [] => (0, [], [])
  | ch :: stdin =>
    if ch = 45 then (MULTI_ECHO, stdin, (sendto echo).map (Sent.mk .key))
    else (START_TYPING, ch :: stdin, [])

/-- The string in the buffer of `speak_thread` after `memset` and `gets`. -/
def typed (line : CString) : CString := stringIn 0 (strcpy 0 (fun _ => 0) line) MAXBUF

def lineSent (line : CString) : List Sent := (sendto (typed line)).map (Sent.mk .line)

/-- The body of the loop of `speak_thread`: what it leaves of the input and what it sends. -/
def speakBody (stdin : CString) : Option (CString × List Sent) :=
  let (ch, stdin, sent) := kbhit stdin
  if ch ≠ 0 ∧ ch ≠ MULTI_ECHO then
    (gets stdin).bind fun (line, rest) =>
      if line.length < MAXBUF then some (rest, sent ++ lineSent line) else none
  else some (stdin, sent)

/-- The body of the loop of `listen_thread`: what it prints and what it sends. -/
def listenBody (ip : InAddr) (d : Datagram) : List CString × List Datagram :=
  if d.text = echo then ([], sendto (inetNtoa ip)) else ([d.text], [])

/-! ## Speaking -/

theorem typed_of_notMem {line : CString} (hnul : 0 ∉ line) (hlen : line.length < MAXBUF) :
    typed line = line := stringIn_strcpy hnul hlen

@[simp] theorem speakBody_nil : speakBody [] = some ([], []) := rfl

@[simp] theorem speakBody_dash (stdin : CString) :
    speakBody (45 :: stdin) = some (stdin, [⟨.key, echoDatagram⟩]) := rfl

theorem kbhit_line {c : UInt8} (hc : c ≠ 45) (stdin : CString) :
    kbhit (c :: stdin) = (START_TYPING, c :: stdin, []) := if_neg hc

theorem speakBody_waits {c : UInt8} {stdin : CString} (hc : c ≠ 45)
    (hgets : gets (c :: stdin) = none) : speakBody (c :: stdin) = none := by
  have htyping : START_TYPING ≠ 0 ∧ START_TYPING ≠ MULTI_ECHO := by decide
  simp only [speakBody, kbhit_line hc, hgets, if_pos htyping, Option.bind_none]

theorem speakBody_line {c : UInt8} {stdin line rest : CString} (hc : c ≠ 45)
    (hgets : gets (c :: stdin) = some (line, rest)) : speakBody (c :: stdin) =
      if line.length < MAXBUF then some (rest, lineSent line) else none := by
  have htyping : START_TYPING ≠ 0 ∧ START_TYPING ≠ MULTI_ECHO := by decide
  simp only [speakBody, kbhit_line hc, hgets, if_pos htyping, Option.bind_some]
  rw [List.nil_append]

/-- A line that has ended and is no command. -/
theorem speakBody_whole {line : CString} (hnewline : 10 ∉ line) (hhead : line.head? ≠ some 45)
    (hlen : line.length < MAXBUF) (rest : CString) :
    speakBody (line ++ 10 :: rest) = some (rest, lineSent line) := by
  have hgets : gets (line ++ 10 :: rest) = some (line, rest) := gets_eq_some_iff.mpr ⟨rfl, hnewline⟩
  cases line with
  | nil =>
    rw [List.nil_append] at hgets ⊢
    rw [speakBody_line (by decide) hgets, if_pos hlen]
  | cons c line =>
    have hc : c ≠ 45 := fun h => hhead (congrArg some h)
    rw [List.cons_append] at hgets ⊢
    rw [speakBody_line hc hgets, if_pos hlen]

/-- The three ways in which an iteration comes to its end. -/
theorem speakBody_cases {stdin rest : CString} {sent : List Sent}
    (h : speakBody stdin = some (rest, sent)) :
    (stdin = [] ∧ rest = [] ∧ sent = []) ∨
      (stdin = 45 :: rest ∧ sent = [⟨.key, echoDatagram⟩]) ∨
      ∃ line, stdin = line ++ 10 :: rest ∧ 10 ∉ line ∧ line.head? ≠ some 45 ∧
        sent = lineSent line := by
  cases stdin with
  | nil =>
    cases h
    exact Or.inl ⟨rfl, rfl, rfl⟩
  | cons c stdin =>
    by_cases hc : c = 45
    · subst hc
      cases h
      exact Or.inr (Or.inl ⟨rfl, rfl⟩)
    · cases hgets : gets (c :: stdin) with
      | none =>
        rw [speakBody_waits hc hgets] at h
        cases h
      | some got =>
        obtain ⟨line, rest'⟩ := got
        rw [speakBody_line hc hgets] at h
        split at h
        · cases h
          obtain ⟨hstdin, hnewline⟩ := gets_eq_some_iff.mp hgets
          refine Or.inr (Or.inr ⟨line, hstdin, hnewline, fun hhead => ?_, rfl⟩)
          cases line with
          | nil => cases hhead
          | cons b line =>
            rw [List.cons_append, List.cons.injEq] at hstdin
            exact hc (hstdin.1.trans (Option.some.inj hhead))
        · cases h

theorem mem_sendto {text : CString} {d : Datagram} (h : d ∈ sendto text) : d.payload = text := by
  rw [sendto] at h
  split at h
  · rw [List.mem_singleton.mp h]
  · cases h

/-- What `speak_thread` sends are no replies, and contains no `NUL`. -/
theorem speakBody_sent {stdin rest : CString} {sent : List Sent}
    (h : speakBody stdin = some (rest, sent)) :
    ∀ x ∈ sent, x.origin.cause = none ∧ 0 ∉ x.datagram.payload := by
  rcases speakBody_cases h with ⟨-, -, rfl⟩ | ⟨-, rfl⟩ | ⟨line, -, -, -, hsent⟩
  · intro x hx
    cases hx
  · intro x hx
    rw [List.mem_singleton.mp hx]
    exact ⟨rfl, by decide⟩
  · rw [hsent]
    intro x hx
    obtain ⟨d, hd, rfl⟩ := List.mem_map.mp hx
    refine ⟨rfl, ?_⟩
    rw [mem_sendto hd, typed]
    exact notMem_stringIn

/-! ## Listening -/

theorem sendto_inetNtoa (ip : InAddr) : sendto (inetNtoa ip) = [ipDatagram ip] :=
  dif_pos (ipDatagram ip).length_le

theorem listenBody_echo {d : Datagram} (h : d.text = echo) (ip : InAddr) :
    listenBody ip d = ([], [ipDatagram ip]) := by
  rw [listenBody, if_pos h, sendto_inetNtoa]

theorem listenBody_line {d : Datagram} (h : d.text ≠ echo) (ip : InAddr) :
    listenBody ip d = ([d.text], []) := if_neg h

end Spolks.Chat.Multicast
