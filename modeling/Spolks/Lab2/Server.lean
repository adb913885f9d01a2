import Mathlib.Data.List.Forall2
import Spolks.Lib.Chunks
import Spolks.Lib.Loop
import Spolks.Lib.Terminated
import Spolks.Lib.Transition

/-!
# `lab2/simple_server.c`: the echo server

The server accepts one client after the other. It looks its name up, greets it and sends
back what it receives until `recv` returns `0` or `-1`; one buffer serves all clients. The
calls of `send` take all that they are given, and `malloc` succeeds. `none` is a run that
dereferences the null pointer that `gethostbyaddr` returns for an address without a name.

The set-up of the listening socket is not modelled.

* `getClientInfo_string`: the greeting fits into the memory allocated for it.
* `serve_client`: what one client is sent.
* `echo_iff`: which sequences of clients are served.
-/

namespace Spolks.Lab2

open Lib

/-- A `struct hostent`: the name, which has no `NUL`. -/
structure HostEnt where
  hName : List UInt8
  nonzero : 0 ∉ hName

/-! ## The greeting -/

def preInfo : List UInt8 := ascii "Your are "

def postInfo : List UInt8 := ascii "\nType something (Echo server is working)\n"

/-- The number of bytes that `getClientInfo` allocates. -/
def infoSize (clientInfo : HostEnt) : Nat :=
  preInfo.length + clientInfo.hName.length + postInfo.length + 1

/-- What `getClientInfo` leaves in the memory that `malloc` has returned. -/
def getClientInfo (info : Nat → UInt8) (clientInfo : HostEnt) : Nat → UInt8 :=
  let info := strcpy 0 info preInfo
  let info := strcat 0 info (infoSize clientInfo) clientInfo.hName
  strcat 0 info (infoSize clientInfo) postInfo

/-- The text a client with this name is to be greeted with. -/
def greeting (clientInfo : HostEnt) : List UInt8 := preInfo ++ clientInfo.hName ++ postInfo

theorem getClientInfo_string (info : Nat → UInt8) (clientInfo : HostEnt) :
    stringIn 0 (getClientInfo info clientInfo) (infoSize clientInfo) = greeting clientInfo := by
  have hpre : (0 : UInt8) ∉ preInfo := by decide
  have hpost : (0 : UInt8) ∉ postInfo := by decide
  have hsize : infoSize clientInfo =
      preInfo.length + clientInfo.hName.length + postInfo.length + 1 := rfl
  have h₁ : stringIn 0 (strcpy 0 info preInfo) (infoSize clientInfo) = preInfo :=
    stringIn_strcpy hpre (by omega)
  have h₂ := stringIn_strcat (m := strcpy 0 info preInfo) (n := infoSize clientInfo)
    clientInfo.nonzero (by rw [h₁]; omega)
  rw [h₁] at h₂
  rw [getClientInfo, stringIn_strcat hpost (by rw [h₂, List.length_append]; omega), h₂]
  rfl

/-! ## One client -/

/-- A client: what the lookup of its address returns, what it sends and how `recv` presents
this to the server, and whether its last `recv` returns `0` or `-1`. -/
structure Client where
  clientInfo : Option HostEnt
  content : List UInt8
  received : Segmentation 1024 content
  closed : Bool

/-- The results of `recv`, `none` being `-1`. -/
def Client.recvs (c : Client) : List (Option (List UInt8)) :=
  c.received.chunks.map some ++ [if c.closed then some [] else none]

/-- The buffer, and what the client has been sent. -/
structure Echo where
  acceptedData : Nat → UInt8
  sent : List UInt8

def Echo.send (s : Echo) (bytes : List UInt8) : Echo := { s with sent := s.sent ++ bytes }

/-- The body of the inner loop. -/
def echoBody (s : Echo) : Option (List UInt8) → Echo × Option Unit
  | none => (s, some ())
  | some data =>
    let s := { s with acceptedData := writeBlock s.acceptedData 0 data }
    if data.length = 0 then (s, some ())
    else (s.send (readBlock s.acceptedData 0 data.length), none)

theorem echoBody_some {data : List UInt8} (h : data ≠ []) (s : Echo) :
    echoBody s (some data) =
      (⟨writeBlock s.acceptedData 0 data, s.sent ++ data⟩, none) := by
  have hlen : ¬ data.length = 0 := by rwa [List.length_eq_zero_iff]
  rw [echoBody, if_neg hlen]
  simp only [Echo.send, readBlock_writeBlock]

/-- The inner loop sends back all that it receives, whatever the buffer holds before. -/
theorem echo_chunks {last : Option (List UInt8)} (hlast : last = some [] ∨ last = none)
    (chunks : List (List UInt8)) (hne : ∀ data ∈ chunks, data ≠ []) (s : Echo) :
    ∃ s', callLoop echoBody s (chunks.map some ++ [last]) = some ((), s') ∧
      s'.sent = s.sent ++ chunks.flatten := by
  induction chunks generalizing s with
  | nil =>
    rcases hlast with rfl | rfl
    · exact ⟨_, rfl, (List.append_nil _).symm⟩
    · exact ⟨_, rfl, (List.append_nil _).symm⟩
  | cons data chunks ih =>
    have hbody := echoBody_some (hne data (List.mem_cons_self ..)) s
    obtain ⟨s', hrun, hsent⟩ := ih (fun d hd => hne d (List.mem_cons_of_mem data hd))
      ⟨writeBlock s.acceptedData 0 data, s.sent ++ data⟩
    refine ⟨s', ?_, ?_⟩
    · rw [List.map_cons, List.cons_append, callLoop_next (by rw [hbody]), hbody]
      exact hrun
    · rw [hsent, List.flatten_cons, List.append_assoc]

/-! ## The loop over the clients -/

/-- How `accept` comes back: with `-1`, or with a client and the memory that `malloc` finds
for its greeting. -/
inductive Accept where
  | failed
  | client (c : Client) (info : Nat → UInt8)

/-- The clients that are accepted. -/
def clients : List Accept → List Client
  | [] => []
  | .failed :: accepts => clients accepts
  | .client c _ :: accepts => c :: clients accepts

/-- The buffer, and what each of the clients accepted so far has been sent. -/
structure Server where
  acceptedData : Nat → UInt8
  sent : List (List UInt8)

def Server.start (stack : Nat → UInt8) : Server := ⟨stack, []⟩

/-- One iteration of the outer loop. -/
def serve (s : Server) : Accept → Option Server
  | .failed => some s
  | .client c info =>
    match c.clientInfo with
    | none => none
    | some clientInfo =>
      let clientInfoName := getClientInfo info clientInfo
      let echo := (Echo.mk s.acceptedData []).send (stringIn 0 clientInfoName (infoSize clientInfo))
      (callLoop echoBody echo c.recvs).map fun (_, echo) =>
        { acceptedData := echo.acceptedData, sent := s.sent ++ [echo.sent] }

theorem serve_none {s : Server} {c : Client} {info : Nat → UInt8} (h : c.clientInfo = none) :
    serve s (.client c info) = none := by
  rw [serve, h]

/-- A client whose name is found gets the greeting and its own bytes, and the server goes on. -/
theorem serve_client {c : Client} {clientInfo : HostEnt} (h : c.clientInfo = some clientInfo)
    (s : Server) (info : Nat → UInt8) :
    ∃ s', serve s (.client c info) = some s' ∧
      s'.sent = s.sent ++ [greeting clientInfo ++ c.content] := by
  have hlast : (if c.closed then some [] else none : Option (List UInt8)) = some [] ∨
      (if c.closed then some [] else none : Option (List UInt8)) = none := by
    cases c.closed with
    | true => exact Or.inl rfl
    | false => exact Or.inr rfl
  obtain ⟨echo, hrun, hsent⟩ := echo_chunks hlast c.received.chunks c.received.ne_nil
    ((Echo.mk s.acceptedData []).send (greeting clientInfo))
  refine ⟨⟨echo.acceptedData, s.sent ++ [echo.sent]⟩, ?_, ?_⟩
  · rw [serve, h]
    simp only [getClientInfo_string, Client.recvs, hrun, Option.map_some]
  · rw [hsent, c.received.flatten_eq]
    rfl

/-- The client has been sent a greeting, with its name if it has one, and its own bytes. -/
def Echoed (c : Client) (sent : List UInt8) : Prop :=
  ∃ hello, (∀ clientInfo, c.clientInfo = some clientInfo → hello = greeting clientInfo) ∧
    sent = hello ++ c.content

theorem exec_serve {accepts : List Accept} (h : ∀ c ∈ clients accepts, c.clientInfo ≠ none)
    (s : Server) : ∃ s', exec serve s accepts = some s' ∧
      ∃ sent, s'.sent = s.sent ++ sent ∧ List.Forall₂ Echoed (clients accepts) sent := by
  induction accepts generalizing s with
  | nil => exact ⟨s, rfl, [], (List.append_nil _).symm, List.Forall₂.nil⟩
  | cons a accepts ih =>
    cases a with
    | failed =>
      obtain ⟨s', hrun, hsent⟩ := ih h s
      exact ⟨s', exec_cons_iff.mpr ⟨s, rfl, hrun⟩, hsent⟩
    | client c info =>
      obtain ⟨clientInfo, hinfo⟩ := Option.ne_none_iff_exists'.mp (h c (List.mem_cons_self ..))
      obtain ⟨m, hm, hmsent⟩ := serve_client hinfo s info
      obtain ⟨s', hrun, sent, hsent, hall⟩ := ih (fun d hd => h d (List.mem_cons_of_mem c hd)) m
      refine ⟨s', exec_cons_iff.mpr ⟨m, hm, hrun⟩, (greeting clientInfo ++ c.content) :: sent, ?_, ?_⟩
      · rw [hsent, hmsent, List.append_assoc]
        rfl
      · refine List.Forall₂.cons ⟨greeting clientInfo, fun other hother => ?_, rfl⟩ hall
        rw [hinfo] at hother
        cases hother
        rfl

/-- A run that gets to its end has met no client without a name. -/
theorem clientInfo_ne_none {accepts : List Accept} {s s' : Server}
    (hrun : exec serve s accepts = some s') : ∀ c ∈ clients accepts, c.clientInfo ≠ none := by
  induction accepts generalizing s with
  | nil =>
    intro c hc
    cases hc
  | cons a accepts ih =>
    obtain ⟨m, hm, hrest⟩ := exec_cons_iff.mp hrun
    cases a with
    | failed => exact ih hrest
    | client c info =>
      intro d hd hnone
      rcases List.mem_cons.mp hd with rfl | hd
      · rw [serve_none hnone] at hm
        cases hm
      · exact ih hrest d hd hnone

/-- **Who is served.** The server gets through a sequence of clients, having sent each of them
the greeting and its own bytes, exactly when the lookup finds a name for every one of them. -/
theorem echo_iff (stack : Nat → UInt8) (accepts : List Accept) :
    (∃ s, exec serve (Server.start stack) accepts = some s ∧
      List.Forall₂ Echoed (clients accepts) s.sent) ↔
    ∀ c ∈ clients accepts, c.clientInfo ≠ none := by
  constructor
  · rintro ⟨s, hrun, -⟩
    exact clientInfo_ne_none hrun
  · intro h
    obtain ⟨s, hrun, sent, hsent, hall⟩ := exec_serve h (Server.start stack)
    refine ⟨s, hrun, ?_⟩
    rw [hsent]
    exact hall

/-- A client without a name, which sends nothing and closes, ends the server. -/
theorem echo_unnamed :
    ¬ ∀ (stack : Nat → UInt8) (accepts : List Accept),
      ∃ s, exec serve (Server.start stack) accepts = some s ∧
        List.Forall₂ Echoed (clients accepts) s.sent := by
  intro hall
  let unnamed : Client :=
    { clientInfo := none
      content := []
      received := ⟨[], by simp, by simp, rfl⟩
      closed := true }
  obtain ⟨s, hrun, -⟩ := hall (fun _ => 0) [.client unnamed fun _ => 0]
  cases hrun

end Spolks.Lab2
