import Spolks.Transfer.Main

/-!
# `lab4/main.c`: one run of the program

The same program as in lab3 with a handler for `SIGURG`, which is installed first, and with
the transfer of lab4, which a division by zero or `SIGPIPE` can end. Behind the transfer a key
is pressed.
-/

namespace Spolks.Lab4

open Lib Transfer Sockcore
open Lab3 (FileSystem printed)

def fileExists (fs : FileSystem) (fileName : Option CString) : Int := Lab3.fileExists fs fileName

/-- What a run of the program meets. -/
structure World where
  /-- Whether `signal` installs the handler. -/
  installed : Bool
  kernel : Kernel
  files : FileSystem
  stSize : CString → Int
  /-- Whether `fcntl` accepts the process as the owner of the socket. -/
  owned : Bool
  stack : Nat → UInt8
  stream : List UInt8
  recvs : List RecvCalls
  sends : List SendCalls

namespace World

/-- A receive from a descriptor that is none fails. -/
def recvsFrom (w : World) (client : Int) : List RecvCalls :=
  if client < 0 then [⟨none, none⟩] else w.recvs

/-- A send to a descriptor that is none fails. -/
def sendsTo (w : World) (client : Int) : List SendCalls :=
  if client < 0 then w.sends.map fun c => { c with send := none, sigpipe := false } else w.sends

end World

/-- How the `switch` on `fileDirection` is left. -/
inductive Exchanged where
  | finished (files : FileSystem)
  /-- The process is killed by a division by zero or by `SIGPIPE`. -/
  | killed

def Exit.exchanged (files : FileSystem) : Exit → Exchanged
  | .returned _ => .finished files
  | .divisionByZero | .brokenPipe => .killed

/-- `none` when the calls run out before the loop is left. -/
def exchange (w : World) (fileDirection : Int) (fileName : Option CString) (client : Int) :
    Option Exchanged :=
  if fileDirection = -1 then
    (sendFile (fileName.map printed) (fileName.bind w.files.openRead)
      ((fileName.map w.stSize).getD 0) w.stack (w.sendsTo client)).map fun (exit, _) =>
        exit.exchanged w.files
  else if fileDirection = 1 then
    match fileName with
    | none => some (.finished w.files)
    | some name =>
      (recieveFile (some (printed name)) (w.files.mayWrite name) (w.owned && decide (0 ≤ client))
        (w.files.content name) w.stack w.stream (w.recvsFrom client)).map fun (_, got) =>
          .finished (w.files.store name got.file)
  else some (.finished w.files)

/-- What a run leaves; the status is `none` when the process has been killed. -/
structure Finished where
  status : Option Int
  files : FileSystem
  calls : List Call

/-- The part of `main` behind the set-up of the connection. -/
def finish (w : World) (o : Options) (listener client : Int) (calls : List Call) :
    Option Finished :=
  (exchange w o.fileDirection o.fileName client).map fun
    | .finished files => ⟨some 1, files, calls ++ [.close client, .close listener]⟩
    | .killed => ⟨none, w.files, calls⟩

def main (argv : List CString) (i : Options.Indeterminate) (w : World) : Option Finished :=
  if w.installed = false then some ⟨some (-1), w.files, []⟩
  else if argv.length < 2 then some ⟨some (-1), w.files, []⟩
  else
    let o := Options.read i argv
    let fExists := fileExists w.files o.fileName
    if o.listen then
      if fExists = 0 then some ⟨some (-1), w.files, []⟩
      else if fExists = -1 then some ⟨some (-1), w.files, []⟩
      else
        let listening := createListener w.kernel i.hostAddr o.port
        match listening.value with
        | none => some ⟨some (-1), w.files, listening.calls⟩
        | some listener =>
          match acceptClient w.kernel listener with
          | (none, calls) => some ⟨some (-1), w.files, listening.calls ++ calls⟩
          | (some client, calls) => finish w o listener client (listening.calls ++ calls)
    else
      let connected := connectToRemote w.kernel i.clientAddr o.address o.port
      finish w o i.listener connected.value connected.calls

end Spolks.Lab4
