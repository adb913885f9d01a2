import Spolks.Lib.Access
import Spolks.Sockcore.Setup
import Spolks.Transfer.Lab4Main

/-!
# `lab3/main.c` and `lab4/main.c`: are the variables assigned?

`main` declares its variables without a value and assigns some of them in the option loop.
`mainAccesses` lists the accesses to them along the path of a run. The paths are the same
in both labs, except that `client` is a global variable in lab4, and that lab4 may not
install its handler.

* `wellDefined_iff`: the arguments with which nothing is read that has not been assigned.
* `main_indeterminate`: with these the values of the uninitialised variables do not matter.
-/

namespace Spolks.Transfer

open Lib Sockcore

inductive Variable where
  | fileName
  | address
  | port
  | listener
  | client
  deriving DecidableEq

/-- What the `switch` of the option loop assigns, of these variables. -/
def Opt.assigns (opt : Opt) : Option (Access Variable) :=
  match opt.letter with
  | 'f' => some (.assign .fileName)
  | 'a' => some (.assign .address)
  | 'p' => some (.assign .port)
  | _ => none

def optionAccesses (argv : List CString) : List (Access Variable) :=
  (getopt Options.optstring none argv.tail).filterMap Opt.assigns

/-- The accesses behind the set-up of the connection; `left` says whether the `switch` on
`fileDirection` is left. -/
def finishAccesses (fileDirection : Int) (left : Bool) : List (Access Variable) :=
  (if fileDirection = -1 ∨ fileDirection = 1 then [.read .fileName, .read .client] else []) ++
    if left then [.read .client, .read .listener] else []

/-- The accesses of `main`, given what `fileExists` returns and which exchanges are left. -/
def mainAccesses (k : Kernel) (fileExists : Option CString → Int) (left : Options → Int → Bool)
    (argv : List CString) (i : Options.Indeterminate) : List (Access Variable) :=
  if argv.length < 2 then []
  else
    let o := Options.read i argv
    optionAccesses argv ++ .read .fileName ::
      if o.listen then
        if fileExists o.fileName = 0 then []
        else if fileExists o.fileName = -1 then []
        else .read .port ::
          match (createListener k i.hostAddr o.port).value with
          | none => []
          | some listener => .assign .listener :: .read .listener ::
            match (acceptClient k listener).1 with
            | none => []
            | some client => .assign .client :: finishAccesses o.fileDirection (left o client)
      else .read .address :: .read .port :: .assign .client ::
        finishAccesses o.fileDirection
          (left o (connectToRemote k i.clientAddr o.address o.port).value)

/-- A descriptor that a call of the run has returned. -/
def Opened (k : Kernel) (calls : List Call) (fd : Int) : Prop :=
  0 ≤ fd ∧ (.socket ∈ calls ∧ k.socket = fd ∨ ∃ l, .accept l ∈ calls ∧ k.accept l = fd)

/-- With these arguments every variable has been assigned when it is read or passed on, on
every path; a file name or a port that is not given is passed on as `NULL`; and only
descriptors that have been opened are closed. -/
structure WellDefined {W : Type} (kernel : W → Kernel)
    (accesses : Options.Indeterminate → W → List (Access Variable))
    (calls : Options.Indeterminate → W → List Call) (argv : List CString) : Prop where
  assigned : ∀ i w, DefinitelyAssigned [] (accesses i w)
  fileName_null : 2 ≤ argv.length → ¬ Options.Given 'f' argv →
    ∀ i, (Options.read i argv).fileName = none
  port_null : 2 ≤ argv.length → ¬ Options.Given 'p' argv → ∀ i, (Options.read i argv).port = none
  closes : ∀ i w fd, .close fd ∈ calls i w → Opened (kernel w) (calls i w) fd

section

variable {argv : List CString} {i : Options.Indeterminate} {k : Kernel}
  {fileExists : Option CString → Int} {left : Options → Int → Bool} {known : List Variable}

/-! ## The option loop -/

theorem optionAccesses_assign : ∀ a ∈ optionAccesses argv, ∃ v, a = .assign v := by
  intro a ha
  obtain ⟨opt, -, hopt⟩ := List.mem_filterMap.mp ha
  unfold Opt.assigns at hopt
  split at hopt
  · cases hopt
    exact ⟨_, rfl⟩
  · cases hopt
    exact ⟨_, rfl⟩
  · cases hopt
    exact ⟨_, rfl⟩
  · cases hopt

/-- The loop assigns a variable exactly when an option for it is given. -/
theorem mem_optionAccesses {v : Variable} {c : Char}
    (h : ∀ opt : Opt, opt.assigns = some (.assign v) ↔ opt.letter = c) :
    v ∈ assigned (optionAccesses argv) ↔ Options.Given c argv := by
  rw [mem_assigned, optionAccesses, List.mem_filterMap]
  simp only [h, Options.Given]

theorem fileName_mem : Variable.fileName ∈ assigned (optionAccesses argv) ↔
    Options.Given 'f' argv := by
  apply mem_optionAccesses
  intro opt
  unfold Opt.assigns
  split <;> simp_all

theorem port_mem : Variable.port ∈ assigned (optionAccesses argv) ↔ Options.Given 'p' argv := by
  apply mem_optionAccesses
  intro opt
  unfold Opt.assigns
  split <;> simp_all

theorem listener_notMem : Variable.listener ∉ assigned (optionAccesses argv) := by
  rw [mem_assigned, optionAccesses, List.mem_filterMap]
  rintro ⟨opt, -, hopt⟩
  unfold Opt.assigns at hopt
  split at hopt <;> cases hopt

/-! ## The paths -/

theorem finishAccesses_assigned {fileDirection : Int} {b : Bool}
    (hname : Variable.fileName ∈ known) (hclient : Variable.client ∈ known)
    (hlistener : Variable.listener ∈ known) :
    DefinitelyAssigned known (finishAccesses fileDirection b) := by
  rw [finishAccesses, definitelyAssigned_append]
  constructor
  · split
    · exact ⟨hname, hclient, trivial⟩
    · trivial
  · cases b with
    | true => exact ⟨List.mem_append_left _ hclient, List.mem_append_left _ hlistener, trivial⟩
    | false => trivial

/-- With a file name, a port and `-l`, every read follows an assignment. -/
theorem mainAccesses_assigned (hf : Options.Given 'f' argv) (hl : Options.Given 'l' argv)
    (hp : Options.Given 'p' argv) :
    DefinitelyAssigned known (mainAccesses k fileExists left argv i) := by
  unfold mainAccesses
  split
  · trivial
  simp only [(Options.read_listen_iff i).mpr hl, if_true]
  rw [definitelyAssigned_append]
  refine ⟨definitelyAssigned_of_assign optionAccesses_assign, ?_⟩
  have hname : Variable.fileName ∈ known ++ assigned (optionAccesses argv) :=
    List.mem_append_right _ (fileName_mem.mpr hf)
  have hport : Variable.port ∈ known ++ assigned (optionAccesses argv) :=
    List.mem_append_right _ (port_mem.mpr hp)
  generalize known ++ assigned (optionAccesses argv) = all at hname hport
  refine ⟨hname, ?_⟩
  split
  · trivial
  split
  · trivial
  refine ⟨hport, ?_⟩
  split
  · trivial
  refine ⟨List.mem_cons_self, ?_⟩
  split
  · trivial
  apply finishAccesses_assigned
  · exact List.mem_cons_of_mem _ (List.mem_cons_of_mem _ hname)
  · exact List.mem_cons_self
  · exact List.mem_cons_of_mem _ List.mem_cons_self

/-- `fileExists` reads the file name on every path behind the loop. -/
theorem given_fileName (hargc : 2 ≤ argv.length) (hknown : Variable.fileName ∉ known)
    (h : DefinitelyAssigned known (mainAccesses k fileExists left argv i)) :
    Options.Given 'f' argv := by
  rw [mainAccesses, if_neg (by omega)] at h
  have hread := (definitelyAssigned_append.mp h).2.1
  rw [List.mem_append] at hread
  exact fileName_mem.mp (hread.resolve_left hknown)

/-- A server with a file that exists passes its port on. -/
theorem given_port (hargc : 2 ≤ argv.length) (hknown : Variable.port ∉ known)
    (hl : Options.Given 'l' argv) (hexists : fileExists (Options.read i argv).fileName = 1)
    (h : DefinitelyAssigned known (mainAccesses k fileExists left argv i)) :
    Options.Given 'p' argv := by
  rw [mainAccesses, if_neg (by omega)] at h
  simp only [(Options.read_listen_iff i).mpr hl, if_true, hexists] at h
  rw [if_neg (by decide), if_neg (by decide), definitelyAssigned_append] at h
  have hread := h.2.2.1
  rw [List.mem_append] at hread
  exact port_mem.mp (hread.resolve_left hknown)

/-- A client that gets to its end closes a listener that it has not. -/
theorem given_listen (hargc : 2 ≤ argv.length) (hknown : Variable.listener ∉ known)
    (hleft : ∀ o client, left o client = true)
    (h : DefinitelyAssigned known (mainAccesses k fileExists left argv i)) :
    Options.Given 'l' argv := by
  by_contra hl
  have hlisten : (Options.read i argv).listen = false := by
    rw [← Bool.not_eq_true, Options.read_listen_iff]
    exact hl
  rw [mainAccesses, if_neg (by omega)] at h
  simp only [hlisten, Bool.false_eq_true, if_false, hleft] at h
  rw [definitelyAssigned_append] at h
  have hread := (definitelyAssigned_append.mp h.2.2.2.2).2.2.1
  have hnone (d : Int) : assigned (if d = -1 ∨ d = 1 then
      [Access.read Variable.fileName, Access.read Variable.client] else []) = [] := by
    split <;> rfl
  rw [hnone, List.append_nil, List.mem_cons, List.mem_append] at hread
  rcases hread with hclient | hknown' | hoption
  · cases hclient
  · exact hknown hknown'
  · exact listener_notMem hoption

/-! ## The descriptors -/

variable {addrIn : SockAddrIn} {port : Option CString}

/-- The calls of a run with `-l`. -/
inductive ListenCalls (k : Kernel) (addrIn : SockAddrIn) (port : Option CString) :
    List Call → Prop where
  /-- There is no file to send. -/
  | refused : ListenCalls k addrIn port []
  | notCreated : ListenCalls k addrIn port (createListener k addrIn port).calls
  | notAccepted {l : Int} (hl : (createListener k addrIn port).value = some l) :
    ListenCalls k addrIn port ((createListener k addrIn port).calls ++ [.accept l, .close l])
  /-- The transfer goes on, or has killed the process. -/
  | notClosed (l : Int) :
    ListenCalls k addrIn port ((createListener k addrIn port).calls ++ [.accept l])
  | closed {l : Int} (hl : (createListener k addrIn port).value = some l) (h : 0 ≤ k.accept l) :
    ListenCalls k addrIn port ((createListener k addrIn port).calls ++ [.accept l] ++
      [.close (k.accept l), .close l])

/-- They close only descriptors that they have opened. -/
theorem ListenCalls.closes {calls : List Call} (h : ListenCalls k addrIn port calls) :
    ∀ fd, .close fd ∈ calls → Opened k calls fd := by
  obtain ⟨hsocket, hno⟩ := @createListener_calls k addrIn port
  intro fd hfd
  cases h with
  | refused => cases hfd
  | notCreated => exact absurd hfd (hno fd)
  | @notAccepted l hl =>
    obtain ⟨heq, hge⟩ := createListener_opened hl
    have hclosed : fd = l := by simpa [hno] using hfd
    rw [hclosed]
    exact ⟨hge, Or.inl ⟨List.mem_append_left _ hsocket, heq⟩⟩
  | notClosed l => simp [hno] at hfd
  | @closed l hl haccept =>
    obtain ⟨heq, hge⟩ := createListener_opened hl
    have hclosed : fd = k.accept l ∨ fd = l := by simpa [hno] using hfd
    rcases hclosed with rfl | rfl
    · exact ⟨haccept, Or.inr ⟨l, by simp, rfl⟩⟩
    · exact ⟨hge, Or.inl ⟨by simp [hsocket], heq⟩⟩

/-! ## From the paths to the arguments -/

/-- What a lab has to show: that its accesses are those of `mainAccesses` as far as the three
options are concerned, and which calls it makes. -/
theorem wellDefined_iff_of {W : Type} {kernel : W → Kernel}
    {accesses : Options.Indeterminate → W → List (Access Variable)}
    {calls : Options.Indeterminate → W → List Call}
    (hshort : argv.length < 2 → ∀ i w, DefinitelyAssigned [] (accesses i w) ∧ calls i w = [])
    (hgiven : Options.Given 'f' argv → Options.Given 'l' argv → Options.Given 'p' argv →
      ∀ i w, DefinitelyAssigned [] (accesses i w))
    (hneeds : 2 ≤ argv.length → (∀ i w, DefinitelyAssigned [] (accesses i w)) →
      Options.Given 'f' argv ∧ Options.Given 'l' argv ∧ Options.Given 'p' argv)
    (hcalls : Options.Given 'l' argv → ∀ i w,
      ListenCalls (kernel w) i.hostAddr (Options.read i argv).port (calls i w)) :
    WellDefined kernel accesses calls argv ↔ argv.length < 2 ∨
      (Options.Given 'f' argv ∧ Options.Given 'l' argv ∧ Options.Given 'p' argv) := by
  constructor
  · intro h
    by_cases hargc : argv.length < 2
    · exact Or.inl hargc
    · exact Or.inr (hneeds (by omega) h.assigned)
  · rintro (hargc | ⟨hf, hl, hp⟩)
    · refine ⟨fun i w => (hshort hargc i w).1, fun h => ?_, fun h => ?_, fun i w fd hfd => ?_⟩
      · omega
      · omega
      · rw [(hshort hargc i w).2] at hfd
        cases hfd
    · exact ⟨hgiven hf hl hp, fun _ hno => absurd hf hno, fun _ hno => absurd hp hno,
        fun i w => (hcalls hl i w).closes⟩

end

end Spolks.Transfer

namespace Spolks.Lab3

open Lib Transfer Sockcore

def accesses (argv : List CString) (i : Options.Indeterminate) (w : World) :
    List (Access Variable) :=
  mainAccesses w.kernel (fileExists w.files)
    (fun o client => (exchange w o.fileDirection o.fileName client).isSome) argv i

/-- The calls of a run; none of a transfer that goes on. -/
def calls (argv : List CString) (i : Options.Indeterminate) (w : World) : List Call :=
  ((main argv i w).map Finished.calls).getD []

variable {argv : List CString} {i : Options.Indeterminate} {w : World}

theorem calls_finish {o : Options} {l : Int}
    (hl : (createListener w.kernel i.hostAddr o.port).value = some l)
    (haccept : 0 ≤ w.kernel.accept l) :
    ListenCalls w.kernel i.hostAddr o.port
      (((finish w o l (w.kernel.accept l)
        ((createListener w.kernel i.hostAddr o.port).calls ++ [.accept l])).map Finished.calls).getD
          []) := by
  unfold finish
  cases exchange w o.fileDirection o.fileName (w.kernel.accept l) with
  | none => exact .refused
  | some files => exact .closed hl haccept

theorem calls_listen (hl : Options.Given 'l' argv) :
    ListenCalls w.kernel i.hostAddr (Options.read i argv).port (calls argv i w) := by
  unfold calls main
  split
  · exact .refused
  simp only [(Options.read_listen_iff i).mpr hl, if_true]
  split
  · exact .refused
  split
  · exact .refused
  cases hvalue : (createListener w.kernel i.hostAddr (Options.read i argv).port).value with
  | none => exact .notCreated
  | some l =>
    rcases acceptClient_cases w.kernel l with hrejected | ⟨hge, haccepted⟩
    · simp only [hrejected]
      exact .notAccepted hvalue
    · simp only [haccepted]
      exact calls_finish hvalue hge

/-- With the options that are needed, what uninitialised variables hold does not matter. -/
theorem main_indeterminate (hf : Options.Given 'f' argv) (hl : Options.Given 'l' argv)
    (hp : Options.Given 'p' argv) {i i' : Options.Indeterminate} (hhost : i.hostAddr = i'.hostAddr)
    (w : World) : main argv i w = main argv i' w := by
  have hname := Options.read_fileName_eq hf i i'
  have hport := Options.read_port_eq hp i i'
  have hdirection := Options.read_fileDirection_eq i i' argv
  have hlisten := (Options.read_listen_iff i).mpr hl
  have hlisten' := (Options.read_listen_iff i').mpr hl
  unfold main finish
  simp only [hname, hport, hdirection, hlisten, hlisten', hhost, if_true]

/-- Files that may be read or not and never written, and no connection. -/
def idle (readable : Bool) : World where
  kernel := refusing
  files :=
    { content := fun _ => some []
      mayRead := fun _ => readable
      mayWrite := fun _ => false }
  stack _ := 0
  stream := []
  recvs := []
  sends := []

theorem exchange_idle (fileDirection : Int) (fileName : Option CString) (client : Int) :
    (exchange (idle false) fileDirection fileName client).isSome = true := by
  unfold exchange
  split
  · cases fileName with
    | none => rfl
    | some name => rfl
  · split
    · cases fileName with
      | none => rfl
      | some name => rfl
    · rfl

theorem fileExists_idle {fileName : Option CString} (h : fileName.isSome = true) :
    fileExists (idle true).files fileName = 1 := by
  obtain ⟨name, rfl⟩ := Option.isSome_iff_exists.mp h
  rfl

theorem main_wellDefined_iff (argv : List CString) :
    WellDefined World.kernel (accesses argv) (calls argv) argv ↔ argv.length < 2 ∨
      (Options.Given 'f' argv ∧ Options.Given 'l' argv ∧ Options.Given 'p' argv) := by
  apply wellDefined_iff_of
  · intro hargc i w
    rw [accesses, mainAccesses, if_pos hargc, calls, main, if_pos hargc]
    exact ⟨trivial, rfl⟩
  · exact fun hf hl hp i w => mainAccesses_assigned hf hl hp
  · intro hargc h
    have hf := given_fileName hargc List.not_mem_nil (h nullVariables (idle false))
    have hl := given_listen hargc List.not_mem_nil (fun o client => exchange_idle _ _ client)
      (h nullVariables (idle false))
    exact ⟨hf, hl, given_port hargc List.not_mem_nil hl
      (fileExists_idle (Options.read_fileName_isSome hf _)) (h nullVariables (idle true))⟩
  · exact fun hl i w => calls_listen hl

end Spolks.Lab3

namespace Spolks.Lab4

open Lib Transfer Sockcore
open Lab3 (nullVariables refusing)

/-- Whether `main` goes on behind the `switch` on `fileDirection`. -/
def Exchanged.left : Option Exchanged → Bool
  | some (.finished _) => true
  | _ => false

/-- `client` is a global variable, which is `0` from the start. -/
def accesses (argv : List CString) (i : Options.Indeterminate) (w : World) :
    List (Access Variable) :=
  .assign .client ::
    if w.installed = false then []
    else mainAccesses w.kernel (fileExists w.files)
      (fun o client => Exchanged.left (exchange w o.fileDirection o.fileName client)) argv i

/-- The calls of a run; none of a transfer that goes on. -/
def calls (argv : List CString) (i : Options.Indeterminate) (w : World) : List Call :=
  ((main argv i w).map Finished.calls).getD []

variable {argv : List CString} {i : Options.Indeterminate} {w : World}

theorem calls_finish {o : Options} {l : Int}
    (hl : (createListener w.kernel i.hostAddr o.port).value = some l)
    (haccept : 0 ≤ w.kernel.accept l) :
    ListenCalls w.kernel i.hostAddr o.port
      (((finish w o l (w.kernel.accept l)
        ((createListener w.kernel i.hostAddr o.port).calls ++ [.accept l])).map Finished.calls).getD
          []) := by
  unfold finish
  cases exchange w o.fileDirection o.fileName (w.kernel.accept l) with
  | none => exact .refused
  | some exchanged =>
    cases exchanged with
    | finished files => exact .closed hl haccept
    | killed => exact .notClosed l

theorem calls_listen (hl : Options.Given 'l' argv) :
    ListenCalls w.kernel i.hostAddr (Options.read i argv).port (calls argv i w) := by
  unfold calls main
  split
  · exact .refused
  split
  · exact .refused
  simp only [(Options.read_listen_iff i).mpr hl, if_true]
  split
  · exact .refused
  split
  · exact .refused
  cases hvalue : (createListener w.kernel i.hostAddr (Options.read i argv).port).value with
  | none => exact .notCreated
  | some l =>
    rcases acceptClient_cases w.kernel l with hrejected | ⟨hge, haccepted⟩
    · simp only [hrejected]
      exact .notAccepted hvalue
    · simp only [haccepted]
      exact calls_finish hvalue hge

/-- With the options that are needed, what uninitialised variables hold does not matter. -/
theorem main_indeterminate (hf : Options.Given 'f' argv) (hl : Options.Given 'l' argv)
    (hp : Options.Given 'p' argv) {i i' : Options.Indeterminate} (hhost : i.hostAddr = i'.hostAddr)
    (w : World) : main argv i w = main argv i' w := by
  have hname := Options.read_fileName_eq hf i i'
  have hport := Options.read_port_eq hp i i'
  have hdirection := Options.read_fileDirection_eq i i' argv
  have hlisten := (Options.read_listen_iff i).mpr hl
  have hlisten' := (Options.read_listen_iff i').mpr hl
  unfold main finish
  simp only [hname, hport, hdirection, hlisten, hlisten', hhost, if_true]

/-- Files that may be read or not and never written, and no connection. -/
def idle (readable : Bool) : World where
  installed := true
  kernel := refusing
  files :=
    { content := fun _ => some []
      mayRead := fun _ => readable
      mayWrite := fun _ => false }
  stSize _ := 0
  owned := true
  stack _ := 0
  stream := []
  recvs := []
  sends := []

theorem exchange_idle (fileDirection : Int) (fileName : Option CString) (client : Int) :
    Exchanged.left (exchange (idle false) fileDirection fileName client) = true := by
  unfold exchange
  split
  · cases fileName with
    | none => rfl
    | some name => rfl
  · split
    · cases fileName with
      | none => rfl
      | some name => rfl
    · rfl

theorem main_wellDefined_iff (argv : List CString) :
    WellDefined World.kernel (accesses argv) (calls argv) argv ↔ argv.length < 2 ∨
      (Options.Given 'f' argv ∧ Options.Given 'l' argv ∧ Options.Given 'p' argv) := by
  apply wellDefined_iff_of
  · intro hargc i w
    rw [accesses, mainAccesses, if_pos hargc, ite_self, calls, main, if_pos hargc, ite_self]
    exact ⟨trivial, rfl⟩
  · intro hf hl hp i w
    unfold accesses
    split
    · trivial
    · exact mainAccesses_assigned hf hl hp
  · intro hargc h
    have hno (v : Variable) (hv : v ≠ .client) : v ∉ [Variable.client] := by simpa using hv
    have hidle (readable : Bool) : DefinitelyAssigned [Variable.client] (mainAccesses refusing
        (fileExists (idle readable).files) (fun o client => Exchanged.left
          (exchange (idle readable) o.fileDirection o.fileName client)) argv nullVariables) :=
      h nullVariables (idle readable)
    have hf := given_fileName hargc (hno _ (by decide)) (hidle false)
    have hl := given_listen hargc (hno _ (by decide)) (fun o client => exchange_idle _ _ client)
      (hidle false)
    exact ⟨hf, hl, given_port hargc (hno _ (by decide)) hl
      (Lab3.fileExists_idle (Options.read_fileName_isSome hf _)) (hidle true)⟩
  · exact fun hl i w => calls_listen hl

end Spolks.Lab4

namespace Spolks.Transfer

open Sockcore

/-- **Definite assignment.** In both labs every variable is assigned before it is read, on
every path, exactly when there are no arguments, or a file name, a port and `-l` are given. -/
theorem wellDefined_iff (argv : List CString) :
    (WellDefined Lab3.World.kernel (Lab3.accesses argv) (Lab3.calls argv) argv ↔
      argv.length < 2 ∨
        (Options.Given 'f' argv ∧ Options.Given 'l' argv ∧ Options.Given 'p' argv)) ∧
    (WellDefined Lab4.World.kernel (Lab4.accesses argv) (Lab4.calls argv) argv ↔
      argv.length < 2 ∨
        (Options.Given 'f' argv ∧ Options.Given 'l' argv ∧ Options.Given 'p' argv)) :=
  ⟨Lab3.main_wellDefined_iff argv, Lab4.main_wellDefined_iff argv⟩

/-- A client that is given all it needs. -/
def clientX : List CString := ["ns", "-r", "-a", "localhost", "-p", "7", "-f", "x"].map Lib.ascii

/-- It closes the descriptor that its uninitialised variable `listener` happens to hold. -/
theorem client_not_wellDefined :
    Call.close 5 ∈ Lab3.calls clientX { Lab3.nullVariables with listener := 5 } (Lab3.idle false) ∧
      ¬ ∀ argv, WellDefined Lab3.World.kernel (Lab3.accesses argv) (Lab3.calls argv) argv ∧
        WellDefined Lab4.World.kernel (Lab4.accesses argv) (Lab4.calls argv) argv := by
  refine ⟨by decide, fun hall => ?_⟩
  have hneeds := (Lab3.main_wellDefined_iff clientX).mp (hall clientX).1
  revert hneeds
  decide

end Spolks.Transfer
