import Spolks.Lib.Terminated
import Spolks.Sockcore.Address

/-!
# `spolks_lib/sockcore.c`: setting up TCP sockets

What the system calls return is given by a `Kernel`. A result records, besides the value,
the address structure as it is left and the calls made on the way; `none` is `exit(-1)`.
Messages are not modelled.

`ConnectFails` says that one of the steps of `connectToRemote` fails, and
`connectToRemote_neg_iff` when it reports a failure.
-/

namespace Spolks.Sockcore

/-- The results of the calls on sockets: a descriptor, `0` or `-1`. Calls on the descriptor
of a socket that could not be created fail. -/
structure Kernel where
  socket : Int
  bind : Int → SockAddrIn → Int
  listen : Int → Int
  accept : Int → Int
  connect : Int → SockAddrIn → Int
  inetPton : CString → Option InAddr
  socket_ge : -1 ≤ socket
  bind_result : ∀ fd addr, bind fd addr = 0 ∨ bind fd addr = -1
  listen_result : ∀ fd, listen fd = 0 ∨ listen fd = -1
  accept_ge : ∀ fd, -1 ≤ accept fd
  connect_result : ∀ fd addr, connect fd addr = 0 ∨ connect fd addr = -1
  bind_bad : ∀ addr, bind (-1) addr = -1
  listen_bad : listen (-1) = -1
  accept_bad : accept (-1) = -1
  connect_bad : ∀ addr, connect (-1) addr = -1

inductive Call where
  | socket
  | bind (fd : Int) (addr : SockAddrIn)
  | listen (fd : Int)
  | accept (fd : Int)
  | connect (fd : Int) (addr : SockAddrIn)
  | close (fd : Int)
  deriving DecidableEq

/-- What a function leaves: its value, the address structure and the calls that it made. -/
structure Outcome (α : Type) where
  value : α
  addr : SockAddrIn
  calls : List Call

def INADDR_ANY : InAddr := ⟨0, 0, 0, 0⟩

def INADDR_LOOPBACK : InAddr := ⟨127, 0, 0, 1⟩

def localhost : CString := Lib.ascii "localhost"

/-- The part of `bindAddr` behind the port. -/
def bindHost (k : Kernel) (addrIn : SockAddrIn) : Option CString → Int × SockAddrIn
  | none => (1, { addrIn with addr := INADDR_ANY })
  | some addr =>
    if addr = localhost then (1, { addrIn with addr := INADDR_LOOPBACK })
    else
      match k.inetPton addr with
      | none => (-1, addrIn)
      | some a => (1, { addrIn with addr := a })

def bindAddr (k : Kernel) (addrIn : SockAddrIn) (addr port : Option CString) : Int × SockAddrIn :=
  let addrIn := { addrIn with family := AF_INET }
  match port with
  | none => (-1, addrIn)
  | some port =>
    if isDigitOnly port then bindHost k { addrIn with port := u16 (atoi port) } addr
    else (-1, addrIn)

def bindSocket (k : Kernel) (socket : Int) (addrIn : SockAddrIn) : Int :=
  if k.bind socket addrIn < 0 then -1 else 1

def createListener (k : Kernel) (hostAddr : SockAddrIn) (port : Option CString) :
    Outcome (Option Int) :=
  let listener := k.socket
  let (result, hostAddr) := if listener ≠ 0 then bindAddr k hostAddr none port else (0, hostAddr)
  let calls := [.socket]
  let (result, calls) :=
    if result ≠ 0 then (bindSocket k listener hostAddr, calls ++ [.bind listener hostAddr])
    else (result, calls)
  let (result, calls) :=
    if result ≠ 0 then (k.listen listener, calls ++ [.listen listener]) else (result, calls)
  ⟨if result < 0 then none else some listener, hostAddr, calls⟩

/-- The address of the client, which nothing reads, is left out. -/
def acceptClient (k : Kernel) (listener : Int) : Option Int × List Call :=
  let client := k.accept listener
  if client < 0 then (none, [.accept listener, .close listener])
  else (some client, [.accept listener])

def connectToRemote (k : Kernel) (clientAddr : SockAddrIn) (addr port : Option CString) :
    Outcome Int :=
  let client := k.socket
  let calls := [.socket]
  if client ≠ 0 then
    let (result, clientAddr) := bindAddr k clientAddr addr port
    let (result, calls) :=
      if result ≠ 0 then (k.connect client clientAddr, calls ++ [.connect client clientAddr])
      else (result, calls)
    if result < 0 then ⟨result, clientAddr, calls ++ [.close client]⟩
    else ⟨client, clientAddr, calls⟩
  else ⟨-1, clientAddr, calls⟩

variable {k : Kernel} {clientAddr : SockAddrIn} {addr port : Option CString}

theorem bindHost_result (addrIn : SockAddrIn) :
    (bindHost k addrIn addr).1 = 1 ∨ (bindHost k addrIn addr).1 = -1 := by
  cases addr with
  | none => exact Or.inl rfl
  | some a =>
    rw [bindHost]
    split
    · exact Or.inl rfl
    · cases k.inetPton a with
      | none => exact Or.inr rfl
      | some _ => exact Or.inl rfl

/-- `bindAddr` never returns `0`, the only value after which the next call is left out. -/
theorem bindAddr_result (addrIn : SockAddrIn) :
    (bindAddr k addrIn addr port).1 = 1 ∨ (bindAddr k addrIn addr port).1 = -1 := by
  cases port with
  | none => exact Or.inr rfl
  | some p =>
    rw [bindAddr]
    split
    · exact bindHost_result _
    · exact Or.inr rfl

/-- The socket is connected to what `bindAddr` leaves, whether it has succeeded or not. -/
theorem connectToRemote_value (h : k.socket ≠ 0) :
    (connectToRemote k clientAddr addr port).value =
      if k.connect k.socket (bindAddr k clientAddr addr port).2 < 0 then
        k.connect k.socket (bindAddr k clientAddr addr port).2
      else k.socket := by
  have hne : (bindAddr k clientAddr addr port).1 ≠ 0 := by
    rcases @bindAddr_result k addr port clientAddr with hone | hminus
    · rw [hone]
      decide
    · rw [hminus]
      decide
  simp only [connectToRemote]
  rw [if_pos h, if_pos hne]
  split <;> rfl

/-- There is no socket, the address is not understood or the connection is refused. -/
def ConnectFails (k : Kernel) (clientAddr : SockAddrIn) (addr port : Option CString) : Prop :=
  k.socket ≤ 0 ∨ (bindAddr k clientAddr addr port).1 = -1 ∨
    k.connect k.socket (bindAddr k clientAddr addr port).2 = -1

/-- `connectToRemote` reports a failure when the socket cannot be created or has the descriptor
`0`, and when `connect` fails on the address as `bindAddr` has left it. -/
theorem connectToRemote_neg_iff :
    (connectToRemote k clientAddr addr port).value < 0 ↔
      k.socket ≤ 0 ∨ k.connect k.socket (bindAddr k clientAddr addr port).2 = -1 := by
  by_cases hzero : k.socket = 0
  · have hvalue : (connectToRemote k clientAddr addr port).value = -1 := by
      simp only [connectToRemote]
      rw [if_neg (by rw [hzero]; decide)]
    rw [hvalue, hzero]
    simp
  rw [connectToRemote_value hzero]
  rcases k.connect_result k.socket (bindAddr k clientAddr addr port).2 with hok | hfail
  · rw [hok]
    have := k.socket_ge
    constructor
    · intro hneg
      rw [if_neg (by decide)] at hneg
      exact Or.inl (by omega)
    · rintro (hle | habs)
      · -- a call on the descriptor -1 would have failed
        have hbad : k.socket = -1 := by omega
        rw [hbad, k.connect_bad] at hok
        exact absurd hok (by decide)
      · exact absurd habs (by decide)
  · rw [hfail]
    simp

end Spolks.Sockcore
