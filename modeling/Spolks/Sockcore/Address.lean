import Mathlib.Data.Int.Basic

/-!
# `spolks_lib/sockcore.c`: addresses

`addrFromHostname` fills a `struct sockaddr_in` from the text of an address or of a host
name. The functions of the C library that it asks, `inet_addr` and `gethostbyname`, are
the fields of a `Resolver`; a string is the list of its bytes before the `NUL`.
-/

namespace Spolks.Sockcore

abbrev CString := List UInt8

/-- A `struct in_addr`: the bytes of an IPv4 address in network order. -/
structure InAddr where
  b₀ : UInt8
  b₁ : UInt8
  b₂ : UInt8
  b₃ : UInt8
  deriving DecidableEq

def InAddr.bytes (a : InAddr) : List UInt8 := [a.b₀, a.b₁, a.b₂, a.b₃]

@[simp] theorem InAddr.bytes_length (a : InAddr) : a.bytes.length = 4 := rfl

theorem InAddr.bytes_inj {a b : InAddr} : a.bytes = b.bytes ↔ a = b := by
  cases a
  cases b
  simp [InAddr.bytes]

/-- `(u_int) -1`, by which `inet_addr` reports that a string is no address. -/
def inaddrNone : InAddr := ⟨255, 255, 255, 255⟩

/-- A `struct sockaddr_in`; `port` is the number that `sin_port` holds in network order. -/
structure SockAddrIn where
  family : Nat
  port : Nat
  addr : InAddr
  deriving DecidableEq

def AF_INET : Nat := 2

/-- A `struct hostent` with its first address, which is an IPv4 address of four bytes. -/
structure HostEnt where
  addrType : Nat
  addr : InAddr

structure Resolver where
  inetAddr : CString → InAddr
  gethostbyname : CString → Option HostEnt

/-- An `int` assigned to a 16-bit field. -/
def u16 (x : Int) : Nat := (x % 65536).toNat

def isDigitOnly (str : CString) : Bool := str.all fun c => 48 ≤ c ∧ c ≤ 57

/-- `strtol` on digits; it saturates at the largest `long`. -/
def strtol (str : CString) : Nat :=
  min (str.foldl (fun v c => v * 10 + (c.toNat - 48)) 0) 9223372036854775807

/-- `atoi` keeps the low 32 bits of what `strtol` returns. -/
def atoi (str : CString) : Int := (strtol str : Int).bmod 4294967296

/-- The part of `addr_from_hostname` behind the port. -/
def addrOfHost (res : Resolver) (addrIn : SockAddrIn) (addr : CString) : Int × SockAddrIn :=
  let addrIn := { addrIn with addr := res.inetAddr addr }
  if addrIn.addr = inaddrNone then
    match res.gethostbyname addr with
    | none => (-1, addrIn)
    | some hp => (1, { addrIn with family := hp.addrType, addr := hp.addr })
  else (1, addrIn)

/-- The result and the structure that `addr_from_hostname` leaves; a failure leaves what
had been stored by then. -/
def addrFromHostname (res : Resolver) (addrIn : SockAddrIn) (addr : CString)
    (port : Option CString) : Int × SockAddrIn :=
  let addrIn := { addrIn with family := AF_INET }
  match port with
  | none => addrOfHost res addrIn addr
  | some port =>
    if isDigitOnly port then
      addrOfHost res { addrIn with port := u16 (atoi port) } addr
    else (-1, addrIn)

end Spolks.Sockcore
