import Spolks.Transfer.Lab4Main

/-!
# The programs of lab3 and lab4 side by side

The program of lab4 sends a share of its progress after each block and asks for signals on the
socket; what it does to files and connections is otherwise that of lab3. `main_agrees` says so
of whole runs: it has the same status, the same files and the same calls that set up and close
the connection, unless the size of the file that it sends is reported as `0`, an urgent send
raises `SIGPIPE`, the handler is not installed, or the socket that it receives from does not get
an owner. The urgent sends and the call for the owner, which lab3 does not make, are not among
these calls.
-/

namespace Spolks.Lab4

open Lib Transfer Sockcore

/-! ## Sending -/

/-- The results of the calls of an iteration in lab3. -/
def SendCalls.toLab3 (c : SendCalls) : Lab3.SendCalls := ⟨some c.fread, c.send⟩

/-- Both senders have read and sent the same. -/
def Alike (s : Sender) (t : Lab3.Sender) : Prop := s.toOutgoing = t.toOutgoing

theorem sendBody_alike {stSize : Int} (hsize : stSize ≠ 0) {s : Sender} {t : Lab3.Sender}
    (h : Alike s t) {c : SendCalls} (hurgent : c.sigpipe = false) :
    Alike (sendBody stSize s c).1 (Lab3.sendBody t c.toLab3).1 ∧
      (sendBody stSize s c).2 = (Lab3.sendBody t c.toLab3).2.map Exit.returned := by
  rw [sendBody_returns hsize s hurgent]
  constructor
  · show (s.toOutgoing.read (some c.fread)).send c.send =
      (t.toOutgoing.read (some c.fread)).send c.send
    rw [show s.toOutgoing = t.toOutgoing from h]
  · show _ = Option.map Exit.returned (if Transfer.returned c.send = -1 then some (-1)
      else if (c.fread : Int) < BUFFSIZE then some 1 else none)
    simp only
    split
    · rfl
    · split <;> rfl

/-- `sendFile` returns what that of lab3 does, having sent the same bytes. -/
theorem sendFile_agrees {stSize : Int} (fileName : Option String) (file : Option (List UInt8))
    (hsize : fileName ≠ none → file ≠ none → stSize ≠ 0) (stack : Nat → UInt8)
    {calls : List SendCalls} (hurgent : ∀ c ∈ calls, c.sigpipe = false) :
    Option.Rel (fun x y => x.1 = .returned y.1 ∧ Alike x.2 y.2)
      (sendFile fileName file stSize stack calls)
      (Lab3.sendFile fileName file stack (calls.map SendCalls.toLab3)) := by
  cases fileName with
  | none => exact Option.Rel.some ⟨rfl, rfl⟩
  | some name =>
    cases file with
    | none => exact Option.Rel.some ⟨rfl, rfl⟩
    | some content =>
      have hsize := hsize (Option.some_ne_none _) (Option.some_ne_none _)
      have hbody : ∀ c ∈ calls, ∀ s t, Alike s t →
          Alike (sendBody stSize s c).1 (Lab3.sendBody t c.toLab3).1 ∧
            (sendBody stSize s c).2 = (Lab3.sendBody t c.toLab3).2.map Exit.returned :=
        fun c hc s t halike => sendBody_alike hsize halike (hurgent c hc)
      exact callLoop_simulates hbody
        (show Alike (Sender.start stack content) (Lab3.Sender.start stack content) from rfl)

/-! ## Whole runs -/

/-- What the program of lab3 meets there. -/
def World.toLab3 (w : World) : Lab3.World where
  kernel := w.kernel
  files := w.files
  stack := w.stack
  stream := w.stream
  recvs := w.recvs
  sends := w.sends.map SendCalls.toLab3

/-- What a run of lab3 leaves. -/
def Finished.ofLab3 (done : Lab3.Finished) : Finished := ⟨some done.status, done.files, done.calls⟩

/-- Nothing that is new in lab4 fails: the handler is installed, the file that is sent has a
size, no urgent send ends the process, and the socket that is received from gets an owner. -/
structure Undisturbed (w : World) (o : Options) : Prop where
  installed : w.installed = true
  sized : o.fileDirection = -1 →
    ∀ name, o.fileName = some name → w.files.openRead name ≠ none → w.stSize name ≠ 0
  urgent : o.fileDirection = -1 → ∀ c ∈ w.sends, c.sigpipe = false
  owned : o.fileDirection = 1 → w.owned = true

variable {w : World} {o : Options}

theorem sendsTo_toLab3 (w : World) (client : Int) :
    (w.sendsTo client).map SendCalls.toLab3 = w.toLab3.sendsTo client := by
  rw [World.sendsTo, Lab3.World.sendsTo]
  split
  · rw [World.toLab3, List.map_map, List.map_map]
    rfl
  · rfl

theorem sendsTo_urgent (h : ∀ c ∈ w.sends, c.sigpipe = false) (client : Int) :
    ∀ c ∈ w.sendsTo client, c.sigpipe = false := by
  rw [World.sendsTo]
  split
  · intro c hc
    obtain ⟨d, -, rfl⟩ := List.mem_map.mp hc
    rfl
  · exact h

/-- The loop of `recieveFile` over a descriptor that is none leaves what `fcntl` leaves. -/
theorem recieveFile_agrees (name : String) (opened : Bool) (prior : Option (List UInt8))
    (howned : w.owned = true) (client : Int) :
    (recieveFile (some name) opened (w.owned && decide (0 ≤ client)) prior w.stack w.stream
      (w.recvsFrom client)).map (fun x => x.2.file) =
    (Lab3.recieveFile (some name) opened prior w.toLab3.stack w.toLab3.stream
      (w.toLab3.recvsFrom client)).map fun x => x.2.file := by
  by_cases hclient : client < 0
  · have hrecvs : w.toLab3.recvsFrom client = [⟨none, none⟩] := if_pos hclient
    rw [howned, Bool.true_and, decide_eq_false (Int.not_le.mpr hclient), hrecvs]
    cases opened <;> rfl
  · rw [howned, Bool.true_and, decide_eq_true (Int.not_lt.mp hclient)]
    rfl

/-- The results alone. -/
theorem sendFile_result (stSize : Int) (fileName : Option String) (file : Option (List UInt8))
    (hsize : fileName ≠ none → file ≠ none → stSize ≠ 0) (stack : Nat → UInt8)
    {calls : List SendCalls} (hurgent : ∀ c ∈ calls, c.sigpipe = false) :
    (sendFile fileName file stSize stack calls).map Prod.fst =
      (Lab3.sendFile fileName file stack (calls.map SendCalls.toLab3)).map fun x =>
        .returned x.1 := by
  have hagrees := sendFile_agrees fileName file hsize stack hurgent
  revert hagrees
  generalize sendFile fileName file stSize stack calls = x
  generalize Lab3.sendFile fileName file stack (calls.map SendCalls.toLab3) = y
  intro hagrees
  cases hagrees with
  | none => rfl
  | some hboth => exact congrArg some hboth.1

theorem exchange_agrees (h : Undisturbed w o) (client : Int) :
    exchange w o.fileDirection o.fileName client =
      (Lab3.exchange w.toLab3 o.fileDirection o.fileName client).map .finished := by
  rw [exchange.eq_def, Lab3.exchange.eq_def]
  by_cases hsend : o.fileDirection = -1
  · rw [if_pos hsend, if_pos hsend, ← sendsTo_toLab3]
    have hresult := sendFile_result ((o.fileName.map w.stSize).getD 0)
      (o.fileName.map Lab3.printed) (o.fileName.bind w.files.openRead) (fun _ hfile => by
        cases hname : o.fileName with
        | none =>
          rw [hname] at hfile
          exact absurd rfl hfile
        | some name =>
          rw [hname] at hfile
          exact h.sized hsend name hname hfile) w.stack (sendsTo_urgent (h.urgent hsend) client)
    have hmapped := congrArg (Option.map (Exit.exchanged w.files)) hresult
    rw [Option.map_map, Option.map_map] at hmapped
    rw [Option.map_map]
    exact hmapped
  · rw [if_neg hsend, if_neg hsend]
    by_cases hreceive : o.fileDirection = 1
    · rw [if_pos hreceive, if_pos hreceive]
      cases hname : o.fileName with
      | none => rfl
      | some name =>
        have hfile := congrArg (Option.map fun file =>
          Exchanged.finished (w.files.store name file)) (recieveFile_agrees (Lab3.printed name)
            (w.files.mayWrite name) (w.files.content name) (h.owned hreceive) client)
        rw [Option.map_map, Option.map_map] at hfile
        rw [Option.map_map]
        exact hfile
    · rw [if_neg hreceive, if_neg hreceive]
      rfl

theorem finish_agrees (h : Undisturbed w o) (listener client : Int) (calls : List Call) :
    finish w o listener client calls =
      (Lab3.finish w.toLab3 o listener client calls).map Finished.ofLab3 := by
  rw [finish, Lab3.finish, exchange_agrees h, Option.map_map, Option.map_map]
  rfl

/-- **Lab4 is lab3.** Unless something that is new in lab4 fails, a run of its program leaves
what the program of lab3 leaves: the status, the files and the calls that set up and close the
connection, whatever the arguments, the uninitialised variables, the files and the results of
the calls are. -/
theorem main_agrees (argv : List CString) (i : Options.Indeterminate)
    (h : Undisturbed w (Options.read i argv)) :
    main argv i w = (Lab3.main argv i w.toLab3).map Finished.ofLab3 := by
  rw [main, if_neg (by rw [h.installed]; decide), Lab3.main]
  by_cases hargc : argv.length < 2
  · rw [if_pos hargc, if_pos hargc]
    rfl
  · rw [if_neg hargc, if_neg hargc]
    dsimp only
    by_cases hlisten : (Options.read i argv).listen = true
    · rw [if_pos hlisten, if_pos hlisten]
      have hkernel : w.toLab3.kernel = w.kernel := rfl
      have hexists : Lab3.fileExists w.toLab3.files (Options.read i argv).fileName =
          fileExists w.files (Options.read i argv).fileName := rfl
      rw [hexists, hkernel]
      by_cases hzero : fileExists w.files (Options.read i argv).fileName = 0
      · rw [if_pos hzero, if_pos hzero]
        rfl
      rw [if_neg hzero, if_neg hzero]
      by_cases hminus : fileExists w.files (Options.read i argv).fileName = -1
      · rw [if_pos hminus, if_pos hminus]
        rfl
      rw [if_neg hminus, if_neg hminus]
      cases (createListener w.kernel i.hostAddr (Options.read i argv).port).value with
      | none => rfl
      | some listener =>
        dsimp only
        obtain ⟨client, calls⟩ := acceptClient w.kernel listener
        cases client with
        | none => rfl
        | some client => exact finish_agrees h _ _ _
    · rw [if_neg hlisten, if_neg hlisten]
      exact finish_agrees h _ _ _

/-! ## Two bytes are sent -/

/-- The file `x` has two bytes, and the connection takes them. -/
def sending : World where
  installed := true
  kernel := accepting
  files := Lab3.refused.files
  stSize _ := 2
  owned := true
  stack _ := 0
  stream := []
  recvs := []
  sends := [⟨2, some 2, false⟩]

def sendX : List CString := ["ns", "-s", "-p", "7", "-f", "x"].map ascii

theorem main_agrees_sending : ∃ done, main sendX Lab3.nullVariables sending = some done ∧
    done.status = some 1 ∧ done.calls.length = 4 ∧
      done.files.content (ascii "x") = some [65, 66] := by
  have hundisturbed : Undisturbed sending (Options.read Lab3.nullVariables sendX) :=
    { installed := rfl
      sized := fun _ _ _ _ => show (2 : Int) ≠ 0 by omega
      urgent := fun _ c hc => by rw [List.mem_singleton.mp hc]
      owned := fun _ => rfl }
  rw [main_agrees sendX Lab3.nullVariables hundisturbed]
  exact ⟨_, rfl, rfl, rfl, rfl⟩

/-- On a connection that has been reset the send fails, and the urgent send kills the process. -/
example : (main sendX Lab3.nullVariables { sending with sends := [⟨2, none, true⟩] }).map
    Finished.status = some none := rfl

end Spolks.Lab4
