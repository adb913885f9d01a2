import Spolks.Sockcore.Setup
import Spolks.Transfer.Main
import Spolks.Transfer.Outcomes
import Spolks.Transfer.Sides

/-!
# Two programs of lab3

One program sends its file and another receives it, over a connection that both have set up.
Either of them may be the one that listens. The calls that their loops make are those of a run
of the connection.

* `programs_run`: what both programs leave after a run.
* `programs_leave_iff`: the files that the receiving program can leave.
-/

namespace Spolks.Lab3

open Lib Transfer Sockcore Connection

theorem main_server {w : World} {i : Options.Indeterminate} {argv : List CString} {listener : Int}
    (h : 2 ≤ argv.length) (hlisten : (Options.read i argv).listen = true)
    (hexists : fileExists w.files (Options.read i argv).fileName = 1)
    (hlistener : (createListener w.kernel i.hostAddr (Options.read i argv).port).value =
      some listener) (hclient : 0 ≤ w.kernel.accept listener) :
    main argv i w =
      finish w (Options.read i argv) listener (w.kernel.accept listener)
        ((createListener w.kernel i.hostAddr (Options.read i argv).port).calls ++
          [.accept listener]) := by
  have haccept : acceptClient w.kernel listener =
      (some (w.kernel.accept listener), [.accept listener]) := if_neg (Int.not_lt.mpr hclient)
  have hminus : ¬ (1 : Int) = -1 := by omega
  rw [main, if_neg (Nat.not_lt.mpr h)]
  simp only [hlisten, if_true, hexists, if_neg Int.one_ne_zero, if_neg hminus, hlistener, haccept]

/-- A program: its arguments, what its variables hold at the start, and what it meets. -/
structure Program where
  argv : List CString
  indeterminate : Options.Indeterminate
  world : World

namespace Program

def options (p : Program) : Options := Options.read p.indeterminate p.argv

def run (p : Program) : Option Finished := main p.argv p.indeterminate p.world

/-- The program gets to its transfer with a descriptor. -/
def Connects (p : Program) : Prop :=
  if p.options.listen then
    fileExists p.world.files p.options.fileName = 1 ∧
      ∃ listener, (createListener p.world.kernel p.indeterminate.hostAddr p.options.port).value =
          some listener ∧ 0 ≤ p.world.kernel.accept listener
  else
    0 ≤ (connectToRemote p.world.kernel p.indeterminate.clientAddr p.options.address
      p.options.port).value

/-- The sending program with the calls of a run. -/
def sending (p : Program) (content : List UInt8) (es : List Event) : Program :=
  { p with world := { p.world with sends := sendCalls content.length es } }

/-- The receiving program with the calls of a run and the bytes that arrive. -/
def receiving (p : Program) (stream : List UInt8) (es : List Event) : Program :=
  { p with world := { p.world with stream := stream, recvs := recvCalls es } }

variable {p : Program}

/-- Once it is connected, the program goes on with its transfer. -/
theorem run_connected (h : p.Connects) (hdirection : p.options.fileDirection ≠ 0) :
    ∃ listener client calls, 0 ≤ client ∧
      p.run = finish p.world p.options listener client calls := by
  have hargc : 2 ≤ p.argv.length := Options.two_le_of_fileDirection hdirection
  unfold Connects at h
  by_cases hlisten : p.options.listen = true
  · rw [if_pos hlisten] at h
    obtain ⟨hexists, listener, hlistener, hclient⟩ := h
    exact ⟨_, _, _, hclient, main_server hargc hlisten hexists hlistener hclient⟩
  · rw [if_neg hlisten] at h
    exact ⟨_, _, _, h, main_client hargc (Bool.not_eq_true _ ▸ hlisten)⟩

end Program

/-! ## One program -/

section

variable {p : Program} {name : CString} {r : Int}

/-- A program that sends leaves its files as they are, and its status does not tell whether
the file has been sent. -/
theorem run_sends (h : p.Connects) (hdirection : p.options.fileDirection = -1) {o : Sender}
    (hsend : sendFile (p.options.fileName.map printed)
      (p.options.fileName.bind p.world.files.openRead) p.world.stack p.world.sends = some (r, o)) :
    ∃ done, p.run = some done ∧ done.status = 1 ∧ done.files = p.world.files := by
  obtain ⟨listener, client, calls, hclient, hrun⟩ :=
    p.run_connected h (by rw [hdirection]; decide)
  have hsends : p.world.sendsTo client = p.world.sends := if_neg (Int.not_lt.mpr hclient)
  rw [hrun, finish, exchange.eq_def, if_pos hdirection, hsends, hsend]
  exact ⟨_, rfl, rfl, rfl⟩

/-- A program that receives replaces one file. -/
theorem run_receives (h : p.Connects) (hdirection : p.options.fileDirection = 1)
    (hname : p.options.fileName = some name) {got : Receiver}
    (hrecv : recieveFile (some (printed name)) (p.world.files.mayWrite name)
      (p.world.files.content name) p.world.stack p.world.stream p.world.recvs = some (r, got)) :
    ∃ done, p.run = some done ∧ done.status = 1 ∧
      done.files = p.world.files.store name got.file := by
  obtain ⟨listener, client, calls, hclient, hrun⟩ :=
    p.run_connected h (by rw [hdirection]; decide)
  have hrecvs : p.world.recvsFrom client = p.world.recvs := if_neg (Int.not_lt.mpr hclient)
  rw [hrun, finish, exchange.eq_def, hdirection, if_neg (by decide), if_pos rfl, hname]
  simp only [hrecvs, hrecv]
  exact ⟨_, rfl, rfl, rfl⟩

end

/-! ## Both programs -/

/-- `p` is to send the file `source`, which holds `content`, and `q` to receive it as `target`;
both get to the transfer. -/
structure Paired (p q : Program) (source target : CString) (content : List UInt8) : Prop where
  sends : p.options.fileDirection = -1
  sends_from : p.options.fileName = some source
  readable : p.world.files.openRead source = some content
  sender_connects : p.Connects
  receives : q.options.fileDirection = 1
  receives_to : q.options.fileName = some target
  writable : q.world.files.mayWrite target = true
  receiver_connects : q.Connects

/-- The connection before both loops are entered. -/
def opened (p q : Program) (content : List UInt8) : Connection :=
  Connection.start content p.world.stack q.world.stack

variable {room : Nat} {p q : Program} {source target : CString} {content : List UInt8}
  {es : List Event} {s : Connection} {r : Int}

/-- When `sendFile` has returned in a run, its program comes to its end. -/
theorem Paired.sender_run (h : Paired p q source target content)
    (hrun : exec (step room) (opened p q content) es = some s)
    (hended : s.ended = some (.returned r)) :
    ∃ done, (p.sending content es).run = some done ∧ done.status = 1 ∧
      done.files = p.world.files := by
  have hsides := (sides_of_run hrun).sender.ends
  rw [hended] at hsides
  apply run_sends (p := p.sending content es) (r := r) (o := s.sender) h.sender_connects h.sends
  show sendFile (p.options.fileName.map printed) (p.options.fileName.bind p.world.files.openRead)
    p.world.stack (sendCalls content.length es) = _
  rw [h.sends_from, Option.map_some, Option.bind_some, h.readable]
  exact hsides

/-- When `recieveFile` has returned in a run, its program comes to its end. -/
theorem Paired.receiver_run (h : Paired p q source target content)
    (hrun : exec (step room) (opened p q content) es = some s) (hresult : s.result = some r) :
    ∃ done, (q.receiving s.delivered es).run = some done ∧ done.status = 1 ∧
      done.files = q.world.files.store target s.receiver.file := by
  have hsides := ((sides_of_run hrun).receiver []).ends
  rw [hresult, List.append_nil, extend, List.append_nil] at hsides
  apply run_receives (p := q.receiving s.delivered es) (r := r) h.receiver_connects h.receives
    h.receives_to
  show recieveFile (some (printed target)) (q.world.files.mayWrite target) _ q.world.stack
    s.delivered (recvCalls es) = _
  rw [h.writable, recieveFile, if_pos rfl]
  exact hsides

/-- **What both programs leave.** After any run of the connection, a program whose function has
returned ends with the status 1, whatever its function has returned. The sender's files are as
they were, and so are the receiver's but the destination, which holds the beginning of the
sent file that has been stored. When both have ended without faults, this is the file, or it does
not end with a full block and lacks no more than the buffers of the connection hold. A reset is a
fault whatever it comes from, the `close(client)` of a receiver that has left bytes unread
included. -/
theorem programs_run (h : Paired p q source target content)
    (hrun : exec (step room) (opened p q content) es = some s) :
    (∀ r, s.ended = some (.returned r) →
      ∃ done, (p.sending content es).run = some done ∧ done.status = 1 ∧
        done.files = p.world.files) ∧
    (∀ r, s.result = some r →
      ∃ done, (q.receiving s.delivered es).run = some done ∧ done.status = 1 ∧
        done.files = q.world.files.store target (some s.stored)) ∧
    s.stored <+: content ∧
    ((∀ e ∈ es, Event.Calm e) → s.ended ≠ none → s.result ≠ none →
      s.stored = content ∨ ¬ BUFFSIZE ∣ s.stored.length ∧
        content.length ≤ s.stored.length + room) := by
  have hinv : Inv content room s := inv_of_run hrun
  refine ⟨fun r => h.sender_run hrun, fun r hresult => ?_, hinv.stored_prefix, ?_⟩
  · rw [← hinv.isOpen]
    exact h.receiver_run hrun hresult
  · intro hcalm hended hresult
    obtain ⟨r, hr⟩ := Option.ne_none_iff_exists'.mp hresult
    obtain ⟨-, hfile⟩ := outcome_calm_sound ⟨s, ⟨es, hcalm, hrun⟩, hended, hr, hinv.isOpen⟩
    exact hfile.imp_right And.right

/-- A program on a host that accepts connections, with the file `x` of two bytes. -/
def onAccepting (args : List String) : Program where
  argv := args.map ascii
  indeterminate := nullVariables
  world := { refused with kernel := accepting }

/-- The sender listens, and the receiver connects to it. -/
theorem paired_two : Paired (onAccepting ["ns", "-l", "-s", "-p", "7", "-f", "x"])
    (onAccepting ["ns", "-r", "-p", "7", "-f", "x"]) (ascii "x") (ascii "x") [65, 66] where
  sends := rfl
  sends_from := rfl
  readable := rfl
  sender_connects := by
    rw [Program.Connects, if_pos (by rfl)]
    exact ⟨rfl, 5, rfl, by decide⟩
  receives := rfl
  receives_to := rfl
  writable := rfl
  receiver_connects := by
    rw [Program.Connects, if_neg (by decide)]
    decide

/-- The receiver leaves one byte of the two. -/
theorem programs_run_early : ∃ done,
    ((onAccepting ["ns", "-r", "-p", "7", "-f", "x"]).receiving earlyFinal.delivered
      earlyEvents).run = some done ∧ done.status = 1 ∧ done.files.content (ascii "x") = some [65] := by
  obtain ⟨-, hreceiver, -⟩ := programs_run paired_two (Option.some_get earlyEvents_run).symm
  obtain ⟨done, hdone, hstatus, hfiles⟩ := hreceiver 1 (by decide +kernel)
  have hstored : earlyFinal.stored = [65] := by decide +kernel
  refine ⟨done, hdone, hstatus, ?_⟩
  rw [hfiles, FileSystem.store_content]
  exact congrArg some hstored

/-- Some run of such events, at the end of which both sides have ended, lets the receiving
program end with these files. -/
def Leaves (A : Event → Prop) (room : Nat) (p q : Program) (content : List UInt8)
    (files : FileSystem) : Prop :=
  ∃ es s, (∀ e ∈ es, A e) ∧ exec (step room) (opened p q content) es = some s ∧
    s.ended ≠ none ∧ s.result ≠ none ∧
    ∃ done, (q.receiving s.delivered es).run = some done ∧ done.files = files

/-- What is left is an outcome of the transfer, stored under the name of the destination. -/
theorem Paired.leaves_iff (h : Paired p q source target content) {A : Event → Prop}
    {files : FileSystem} : Leaves A room p q content files ↔
      ∃ r file, Outcome A room (opened p q content) r file ∧
        files = q.world.files.store target (some file) := by
  constructor
  · rintro ⟨es, s, hall, hrun, hended, hresult, done, hdone, rfl⟩
    obtain ⟨r, hr⟩ := Option.ne_none_iff_exists'.mp hresult
    have hinv : Inv content room s := inv_of_run hrun
    obtain ⟨done', hdone', -, hfiles⟩ := h.receiver_run hrun hr
    rw [hdone] at hdone'
    cases hdone'
    rw [hinv.isOpen] at hfiles
    exact ⟨r, s.stored, ⟨s, ⟨es, hall, hrun⟩, hended, hr, hinv.isOpen⟩, hfiles⟩
  · rintro ⟨r, file, ⟨s, ⟨es, hall, hrun⟩, hended, hr, hfile⟩, rfl⟩
    obtain ⟨done, hdone, -, hfiles⟩ := h.receiver_run hrun hr
    rw [hfile] at hfiles
    refine ⟨es, s, hall, hrun, hended, ?_, done, hdone, hfiles⟩
    rw [hr]
    exact Option.some_ne_none _

/-- **The files that two programs can leave**, when both have ended and the buffers of the
connection hold at least one block: with faults (a reset by the receiver's own `close(client)` is
one), the destination can hold any beginning of the sent file and nothing else; without, the
file, or a beginning that does not end with a full block and lacks no more than the buffers hold.
No other file is touched. -/
theorem programs_leave_iff (h : Paired p q source target content) (hroom : BUFFSIZE ≤ room)
    (files : FileSystem) :
    (Leaves (fun _ => True) room p q content files ↔
      ∃ file, file <+: content ∧ files = q.world.files.store target (some file)) ∧
    (Leaves Event.Calm room p q content files ↔
      ∃ file, (file = content ∨ file <+: content ∧ ¬ BUFFSIZE ∣ file.length ∧
          content.length ≤ file.length + room) ∧
        files = q.world.files.store target (some file)) := by
  rw [h.leaves_iff, h.leaves_iff]
  constructor
  · constructor
    · rintro ⟨r, file, hout, hfiles⟩
      exact ⟨file, ((outcome_any_iff hroom).mp hout).1, hfiles⟩
    · rintro ⟨file, hbegin, hfiles⟩
      exact ⟨1, file, (outcome_any_iff hroom).mpr ⟨hbegin, Or.inl rfl⟩, hfiles⟩
  · constructor
    · rintro ⟨r, file, hout, hfiles⟩
      exact ⟨file, ((outcome_calm_iff hroom).mp hout).2, hfiles⟩
    · rintro ⟨file, hfile, hfiles⟩
      exact ⟨1, file, (outcome_calm_iff hroom).mpr ⟨rfl, hfile⟩, hfiles⟩

theorem programs_leave_iff_early : Leaves Event.Calm 1024
    (onAccepting ["ns", "-l", "-s", "-p", "7", "-f", "x"])
    (onAccepting ["ns", "-r", "-p", "7", "-f", "x"]) [65, 66]
    (refused.files.store (ascii "x") (some [65])) := by
  refine (programs_leave_iff paired_two (Nat.le_refl _) _).2.mpr ⟨[65], Or.inr ⟨?_, ?_, ?_⟩, rfl⟩
  · exact List.prefix_append [65] [66]
  · exact Nat.not_dvd_of_pos_of_lt Nat.one_pos (by decide)
  · exact Nat.le_add_left 2 1023

end Spolks.Lab3
