import Spolks.Sockcore.Setup
import Spolks.Transfer.Complete
import Spolks.Transfer.Options

/-!
# `lab3/main.c`: one run of the program

`main` reads its options, sets up the connection and sends or receives the file. It does not
look at what `connectToRemote` returns before it calls `recieveFile`, which truncates the
destination, and `connectToRemote` connects to an address that `bindAddr` has not understood:
`failed_connection_keeps_iff` says which destinations survive.
-/

namespace Spolks.Lab3

open Lib Transfer Sockcore

/-- The files, `none` being one that does not exist, and what `open` lets the process do
with them: read them, and create or truncate them. -/
structure FileSystem where
  content : CString → Option (List UInt8)
  mayRead : CString → Bool
  mayWrite : CString → Bool

namespace FileSystem

def openRead (fs : FileSystem) (name : CString) : Option (List UInt8) :=
  if fs.mayRead name then fs.content name else none

def store (fs : FileSystem) (name : CString) (file : Option (List UInt8)) : FileSystem :=
  { fs with content := fun other => if other = name then file else fs.content other }

@[simp] theorem store_content (fs : FileSystem) (name : CString) (file : Option (List UInt8)) :
    (fs.store name file).content name = file := if_pos rfl

end FileSystem

def fileExists (fs : FileSystem) : Option CString → Int
  | none => -1
  | some name => if (fs.openRead name).isSome then 1 else 0

/-- What a run of the program meets: the results of the calls on sockets, the files, the
memory of the buffer, the stream that arrives and the results of the calls in the loops. -/
structure World where
  kernel : Kernel
  files : FileSystem
  stack : Nat → UInt8
  stream : List UInt8
  recvs : List RecvCalls
  sends : List SendCalls

namespace World

/-- A receive from a descriptor that is none fails. -/
def recvsFrom (w : World) (client : Int) : List RecvCalls :=
  if client < 0 then [⟨none, none⟩] else w.recvs

/-- A send to a descriptor that is none fails. -/
def sendsTo (w : World) (client : Int) : List SendCalls :=
  if client < 0 then w.sends.map fun c => { c with send := none } else w.sends

/-- What a receiver stores of what arrives over a connection, if there is one. -/
def arrives (w : World) (client : Int) : List UInt8 := stored w.stream (w.recvsFrom client)

end World

/-- The bytes of a name as a text. -/
def printed (name : CString) : String := String.ofList (name.map fun b => Char.ofNat b.toNat)

/-- The files after the `switch` on `fileDirection`; `none` when the calls run out before
the loop is left. -/
def exchange (w : World) (fileDirection : Int) (fileName : Option CString) (client : Int) :
    Option FileSystem :=
  if fileDirection = -1 then
    (sendFile (fileName.map printed) (fileName.bind w.files.openRead) w.stack
      (w.sendsTo client)).map fun _ => w.files
  else if fileDirection = 1 then
    match fileName with
    | none => some w.files
    | some name =>
      (recieveFile (some (printed name)) (w.files.mayWrite name) (w.files.content name) w.stack
        w.stream (w.recvsFrom client)).map fun (_, got) => w.files.store name got.file
  else some w.files

/-- What a run leaves: the exit status, the files and the calls on sockets, other than
those of the transfer. -/
structure Finished where
  status : Int
  files : FileSystem
  calls : List Call

/-- The part of `main` behind the set-up of the connection. -/
def finish (w : World) (o : Options) (listener client : Int) (calls : List Call) :
    Option Finished :=
  (exchange w o.fileDirection o.fileName client).map fun files =>
    ⟨1, files, calls ++ [.close client, .close listener]⟩

def main (argv : List CString) (i : Options.Indeterminate) (w : World) : Option Finished :=
  if argv.length < 2 then some ⟨-1, w.files, []⟩
  else
    let o := Options.read i argv
    let fExists := fileExists w.files o.fileName
    if o.listen then
      if fExists = 0 then some ⟨-1, w.files, []⟩
      else if fExists = -1 then some ⟨-1, w.files, []⟩
      else
        let listening := createListener w.kernel i.hostAddr o.port
        match listening.value with
        | none => some ⟨-1, w.files, listening.calls⟩
        | some listener =>
          match acceptClient w.kernel listener with
          | (none, calls) => some ⟨-1, w.files, listening.calls ++ calls⟩
          | (some client, calls) => finish w o listener client (listening.calls ++ calls)
    else
      let connected := connectToRemote w.kernel i.clientAddr o.address o.port
      finish w o i.listener connected.value connected.calls

/-! ## A connection that fails -/

section

variable {w : World} {i : Options.Indeterminate} {argv : List CString} {client : Int}

theorem main_client (h : 2 ≤ argv.length) (hclient : (Options.read i argv).listen = false) :
    main argv i w =
      finish w (Options.read i argv) i.listener
        (connectToRemote w.kernel i.clientAddr (Options.read i argv).address
          (Options.read i argv).port).value
        (connectToRemote w.kernel i.clientAddr (Options.read i argv).address
          (Options.read i argv).port).calls := by
  rw [main, if_neg (Nat.not_lt.mpr h)]
  simp only [hclient, Bool.false_eq_true, if_false]

/-- Without a connection one receive is made, which fails. -/
theorem recvsFrom_failed (w : World) (hfail : client < 0) :
    w.recvsFrom client = [⟨none, none⟩] := if_pos hfail

theorem arrives_failed (w : World) (hfail : client < 0) : w.arrives client = [] := by
  rw [World.arrives, recvsFrom_failed w hfail, stored_failed _ rfl]

theorem recvsFrom_possible (client : Int)
    (h : Along recieveBody PossibleReceive (Receiver.start w.stack w.stream (some [])) w.recvs) :
    Along recieveBody PossibleReceive (Receiver.start w.stack w.stream (some []))
      (w.recvsFrom client) := by
  by_cases hfail : client < 0
  · rw [recvsFrom_failed w hfail]
    refine ⟨fun n hn => ?_, fun _ => trivial⟩
    cases hn
  · rwa [show w.recvsFrom client = w.recvs from if_neg hfail]

/-- The loop over a descriptor that is none is left at once. -/
theorem exchange_failed (fileName : Option CString) (hfail : client < 0) :
    ∃ files, exchange w 1 fileName client = some files := by
  cases fileName with
  | none => exact ⟨w.files, rfl⟩
  | some name =>
    cases hwrite : w.files.mayWrite name with
    | false => exact ⟨_, by simp [exchange, recieveFile, hwrite]; rfl⟩
    | true =>
      have hloop : callLoop recieveBody (Receiver.start w.stack w.stream (some []))
          [⟨none, none⟩] = some (-1, _) := callLoop_exit rfl
      exact ⟨_, by simp [exchange, recieveFile, hwrite, recvsFrom_failed w hfail, hloop]; rfl⟩

/-- What arrives replaces what was in the file. -/
theorem exchange_stores {fileName : Option CString} {files : FileSystem}
    (h : Along recieveBody PossibleReceive (Receiver.start w.stack w.stream (some [])) w.recvs)
    (hrun : exchange w 1 fileName client = some files) {name : CString}
    (hname : fileName = some name) :
    files.content name =
      if w.files.mayWrite name then some (w.arrives client) else w.files.content name := by
  subst hname
  rw [exchange, if_neg (by decide), if_pos rfl] at hrun
  obtain ⟨⟨r, got⟩, hloop, rfl⟩ := Option.map_eq_some_iff.mp hrun
  rw [FileSystem.store_content]
  cases hwrite : w.files.mayWrite name with
  | false =>
    rw [recieveFile, hwrite] at hloop
    cases hloop
    rfl
  | true =>
    rw [recieveFile, hwrite, if_pos rfl] at hloop
    exact recieveLoop_stored (recvsFrom_possible client h) rfl hloop

end

/-- The file under the given name is as it was. -/
def Kept (fileName : Option CString) (before after : FileSystem) : Prop :=
  ∀ name, fileName = some name → after.content name = before.content name

/-- **What a failed connection costs.** Let a step of the connection fail for a client that is to
receive a file. Either this is reported, then nothing arrives and the client returns, or the
address has not been understood and the client is connected all the same. When it returns, the
destination is as it was exactly when it could not be opened for writing or held exactly what
arrives. -/
theorem failed_connection_keeps_iff (w : World) (i : Options.Indeterminate) (argv : List CString)
    (hclient : (Options.read i argv).listen = false)
    (hreceive : (Options.read i argv).fileDirection = 1)
    (hfail : ConnectFails w.kernel i.clientAddr (Options.read i argv).address
      (Options.read i argv).port)
    (hpossible : Along recieveBody PossibleReceive (Receiver.start w.stack w.stream (some []))
      w.recvs) :
    let client := (connectToRemote w.kernel i.clientAddr (Options.read i argv).address
      (Options.read i argv).port).value
    (client < 0 ∧ w.arrives client = [] ∧ (∃ done, main argv i w = some done) ∨
      0 ≤ client ∧ (bindAddr w.kernel i.clientAddr (Options.read i argv).address
        (Options.read i argv).port).1 = -1) ∧
      ∀ done, main argv i w = some done →
        (Kept (Options.read i argv).fileName w.files done.files ↔
          ∀ name, (Options.read i argv).fileName = some name →
            w.files.mayWrite name = false ∨ w.files.content name = some (w.arrives client)) := by
  intro client
  have hargc : 2 ≤ argv.length := Options.two_le_of_fileDirection (by rw [hreceive]; decide)
  rw [main_client hargc hclient, finish, hreceive]
  refine ⟨?_, fun done hdone => ?_⟩
  · by_cases hneg : client < 0
    · left
      obtain ⟨files, hrun⟩ := exchange_failed (w := w) (Options.read i argv).fileName hneg
      exact ⟨hneg, arrives_failed w hneg, _, Option.map_eq_some_iff.mpr ⟨files, hrun, rfl⟩⟩
    · right
      have hconnected := mt connectToRemote_neg_iff.mpr hneg
      rw [not_or] at hconnected
      refine ⟨by omega, ?_⟩
      rcases hfail with hsocket | haddr | hconnect
      · exact absurd hsocket hconnected.1
      · exact haddr
      · exact absurd hconnect hconnected.2
  obtain ⟨files, hrun, rfl⟩ := Option.map_eq_some_iff.mp hdone
  apply forall_congr'
  intro name
  apply forall_congr'
  intro hname
  rw [exchange_stores hpossible hrun hname]
  cases hwrite : w.files.mayWrite name with
  | false => simp
  | true =>
    rw [if_pos rfl]
    constructor
    · intro hkept
      exact Or.inr hkept.symm
    · rintro (hno | hsame)
      · cases hno
      · exact hsame.symm

/-- A host that refuses every connection. -/
def refusing : Kernel where
  socket := 3
  bind _ _ := -1
  listen _ := -1
  accept _ := -1
  connect _ _ := -1
  inetPton _ := none
  socket_ge := by decide
  bind_result _ _ := Or.inr rfl
  listen_result _ := Or.inr rfl
  accept_ge _ := Int.le_refl (-1)
  connect_result _ _ := Or.inr rfl
  bind_bad _ := rfl
  listen_bad := rfl
  accept_bad := rfl
  connect_bad _ := rfl

/-- A file `x` that holds two bytes, on a host that refuses every connection. -/
def refused : World where
  kernel := refusing
  files :=
    { content := fun name => if name = ascii "x" then some [65, 66] else none
      mayRead := fun _ => true
      mayWrite := fun _ => true }
  stack _ := 0
  stream := []
  recvs := []
  sends := []

def nullVariables : Options.Indeterminate where
  fileName := none
  address := none
  port := none
  listener := 0
  hostAddr := ⟨0, 0, INADDR_ANY⟩
  clientAddr := ⟨0, 0, INADDR_ANY⟩

def receiveX : List CString := ["ns", "-r", "-p", "7", "-f", "x"].map ascii

theorem failed_connection_keeps_refused :
    ∃ done, main receiveX nullVariables refused = some done ∧
      (Kept (some (ascii "x")) refused.files done.files ↔
        ∀ name, some (ascii "x") = some name →
          refused.files.mayWrite name = false ∨ refused.files.content name = some []) := by
  have hkeeps := failed_connection_keeps_iff refused nullVariables receiveX rfl rfl
    (Or.inr (Or.inr rfl)) trivial
  have hneg : (connectToRemote refused.kernel nullVariables.clientAddr
      (Options.read nullVariables receiveX).address
      (Options.read nullVariables receiveX).port).value < 0 := by decide
  rcases hkeeps.1 with ⟨-, hnothing, done, hdone⟩ | ⟨hpos, -⟩
  · have hiff := hkeeps.2 done hdone
    rw [hnothing] at hiff
    exact ⟨done, hdone, hiff⟩
  · exact absurd hneg (Int.not_lt.mpr hpos)

/-! ## A host without the name -/

/-- One byte arrives, and the file `x` is empty. -/
def masked : World where
  kernel := accepting
  files :=
    { content := fun name => if name = ascii "x" then some [] else none
      mayRead := fun _ => true
      mayWrite := fun _ => true }
  stack _ := 0
  stream := [67]
  recvs := [⟨some 1, some 1⟩]
  sends := []

def receiveFromNosuch : List CString := ["ns", "-r", "-a", "nosuch", "-p", "7", "-f", "x"].map ascii

/-- The two bytes are lost when the connection is refused; and the empty file is written to when
the address is not understood, the program being connected to the address in its variable. -/
theorem failed_connection_truncates :
    (∃ done, main receiveX nullVariables refused = some done ∧
      done.files.content (ascii "x") = some []) ∧
    (∃ done, main receiveFromNosuch nullVariables masked = some done ∧
      done.files.content (ascii "x") = some [67]) ∧
    ¬ ∀ (w : World) (i : Options.Indeterminate) (argv : List CString),
      (Options.read i argv).listen = false → (Options.read i argv).fileDirection = 1 →
      ConnectFails w.kernel i.clientAddr (Options.read i argv).address
        (Options.read i argv).port →
      ∀ done, main argv i w = some done →
        Kept (Options.read i argv).fileName w.files done.files := by
  have hrun : ∃ done, main receiveX nullVariables refused = some done ∧
      done.files.content (ascii "x") = some [] := ⟨_, rfl, rfl⟩
  refine ⟨hrun, ⟨_, rfl, rfl⟩, fun hall => ?_⟩
  obtain ⟨done, hdone, hempty⟩ := hrun
  have hkept := hall refused nullVariables receiveX rfl rfl (Or.inr (Or.inr rfl)) done hdone
    (ascii "x") rfl
  rw [hempty] at hkept
  cases hkept

end Spolks.Lab3
