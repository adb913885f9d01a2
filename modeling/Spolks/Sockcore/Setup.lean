import Spolks.Sockcore.Connect

/-!
# `spolks_lib/sockcore.c`: which failures of a set-up are reported

`connectToRemote`, `createListener` and `createUDPListener` keep the results of their steps
in one variable and go on while it is not `0`. A failure is `-1` in each of them, so it does
not stop the chain, and the next result overwrites it. A socket with the descriptor `0` does.

* `connectToRemote_of_ne`, `createListener_of_ne`, `createUDPListener_of_ne`: the calls that
  are made, and what decides the value.
* `setup_reports_iff`: when each of them reports every failure.
* `clientUDP_reports`: `clientUDP` does so always.
-/

namespace Spolks.Sockcore

/-- `createUDPListener`, the socket being one of `createUDPSocket`. -/
def createUDPListener (k : Kernel) (hostAddr : SockAddrIn) (port : Option CString) :
    Outcome (Option Int) :=
  let listener := k.socket
  let (result, hostAddr) := if listener ≠ 0 then bindAddr k hostAddr none port else (0, hostAddr)
  let calls := [.socket]
  let (result, calls) :=
    if result ≠ 0 then (bindSocket k listener hostAddr, calls ++ [.bind listener hostAddr])
    else (result, calls)
  ⟨if result < 0 then none else some listener, hostAddr, calls⟩

/-- `clientUDP`, which looks at what `bindAddr` returns. -/
def clientUDP (k : Kernel) (clientAddr : SockAddrIn) (addr port : Option CString) : Outcome Int :=
  let client := k.socket
  let calls := [.socket]
  if client ≠ 0 then
    let (result, clientAddr) := bindAddr k clientAddr addr port
    if result < 0 then ⟨result, clientAddr, calls ++ [.close client]⟩
    else ⟨client, clientAddr, calls⟩
  else ⟨-1, clientAddr, calls⟩

/-- What a call returns. -/
def Call.result (k : Kernel) : Call → Int
  | .socket => k.socket
  | .bind fd addr => k.bind fd addr
  | .listen fd => k.listen fd
  | .accept fd => k.accept fd
  | .connect fd addr => k.connect fd addr
  | .close _ => 0

/-- The calls that are given the address structure. -/
def Call.takesAddress : Call → Bool
  | .bind _ _ | .connect _ _ => true
  | _ => false

/-- The strings that `bindAddr` accepts. -/
def Accepts (k : Kernel) (addr port : Option CString) : Prop :=
  (∃ p, port = some p ∧ isDigitOnly p = true) ∧
    ∀ a, addr = some a → a = localhost ∨ (k.inetPton a).isSome = true

/-- A descriptor is yielded only when `bindAddr` has succeeded and every call of the chain
has been made and has succeeded. When `bindAddr` rejects its arguments, the address
structure is given to no call, and no descriptor is yielded. -/
def ReportsFailures (k : Kernel) (bound : Int × SockAddrIn) (chain : List Call)
    (value : Option Int) (calls : List Call) : Prop :=
  (∀ fd, value = some fd → 0 ≤ fd →
    bound.1 = 1 ∧ ∀ c ∈ chain, c ∈ calls ∧ 0 ≤ c.result k) ∧
  (bound.1 = -1 → (∀ c ∈ calls, c.takesAddress = false) ∧ ∀ fd, value = some fd → fd < 0)

section

variable {k : Kernel} {addrIn : SockAddrIn} {addr port : Option CString}

/-! ## `bindAddr` -/

theorem bindHost_accepts_iff : (bindHost k addrIn addr).1 = 1 ↔
    ∀ a, addr = some a → a = localhost ∨ (k.inetPton a).isSome = true := by
  cases addr with
  | none => simp [bindHost]
  | some a =>
    rw [bindHost]
    by_cases hlocal : a = localhost
    · simp [hlocal]
    · rw [if_neg hlocal]
      cases hpton : k.inetPton a with
      | none => simp [hlocal, hpton]
      | some b => simp [hpton]

theorem bindAddr_accepts_iff : (bindAddr k addrIn addr port).1 = 1 ↔ Accepts k addr port := by
  cases port with
  | none => simp [bindAddr, Accepts]
  | some p =>
    rw [bindAddr, Accepts]
    by_cases hdigits : isDigitOnly p = true
    · rw [if_pos hdigits, bindHost_accepts_iff]
      simp [hdigits]
    · rw [if_neg hdigits]
      simp [hdigits]

theorem bindAddr_rejects_iff : (bindAddr k addrIn addr port).1 = -1 ↔ ¬ Accepts k addr port := by
  rw [← @bindAddr_accepts_iff k addrIn]
  rcases @bindAddr_result k addr port addrIn with hone | hminus
  · simp [hone]
  · simp [hminus]

theorem bindAddr_ne_zero : (bindAddr k addrIn addr port).1 ≠ 0 := by
  rcases @bindAddr_result k addr port addrIn with hone | hminus
  · omega
  · omega

theorem bindSocket_ne_zero (fd : Int) : bindSocket k fd addrIn ≠ 0 := by
  unfold bindSocket
  split <;> decide

/-! ## The calls of each chain -/

theorem connectToRemote_of_eq (h : k.socket = 0) :
    connectToRemote k addrIn addr port = ⟨-1, addrIn, [.socket]⟩ := by
  simp only [connectToRemote]
  rw [if_neg (by rw [h]; decide)]

/-- `connect` is called in every case, and its result alone decides. -/
theorem connectToRemote_of_ne (h : k.socket ≠ 0) :
    (connectToRemote k addrIn addr port).calls =
        [.socket, .connect k.socket (bindAddr k addrIn addr port).2] ++
          (if k.connect k.socket (bindAddr k addrIn addr port).2 < 0 then [.close k.socket]
          else []) := by
  simp only [connectToRemote]
  rw [if_pos h, if_pos bindAddr_ne_zero]
  split <;> rfl

theorem createListener_of_eq (h : k.socket = 0) :
    createListener k addrIn port = ⟨some 0, addrIn, [.socket]⟩ := by
  simp [createListener, h]

/-- `bind` and `listen` are called in every case, and the result of `listen` alone decides. -/
theorem createListener_of_ne (h : k.socket ≠ 0) :
    createListener k addrIn port =
      ⟨if k.listen k.socket < 0 then none else some k.socket, (bindAddr k addrIn none port).2,
        [.socket, .bind k.socket (bindAddr k addrIn none port).2, .listen k.socket]⟩ := by
  simp only [createListener]
  rw [if_pos h, if_pos bindAddr_ne_zero, if_pos (bindSocket_ne_zero _)]
  rfl

/-- A listener that is yielded is the socket. -/
theorem createListener_opened {l : Int} (h : (createListener k addrIn port).value = some l) :
    k.socket = l ∧ 0 ≤ l := by
  by_cases hsocket : k.socket = 0
  · rw [createListener_of_eq hsocket] at h
    cases h
    exact ⟨hsocket, Int.le_refl 0⟩
  · rw [createListener_of_ne hsocket] at h
    have hge := k.socket_ge
    have hbad := k.listen_bad
    by_cases hlisten : k.listen k.socket < 0
    · rw [if_pos hlisten] at h
      cases h
    · rw [if_neg hlisten] at h
      cases h
      refine ⟨rfl, ?_⟩
      by_contra hneg
      rw [show k.socket = -1 by omega, hbad] at hlisten
      omega

theorem createListener_calls : .socket ∈ (createListener k addrIn port).calls ∧
    ∀ fd, .close fd ∉ (createListener k addrIn port).calls := by
  by_cases hsocket : k.socket = 0
  · rw [createListener_of_eq hsocket]
    simp
  · rw [createListener_of_ne hsocket]
    simp

theorem acceptClient_cases (k : Kernel) (l : Int) :
    acceptClient k l = (none, [.accept l, .close l]) ∨
      0 ≤ k.accept l ∧ acceptClient k l = (some (k.accept l), [.accept l]) := by
  unfold acceptClient
  by_cases hneg : k.accept l < 0
  · exact Or.inl (if_pos hneg)
  · exact Or.inr ⟨by omega, if_neg hneg⟩

theorem createUDPListener_of_eq (h : k.socket = 0) :
    createUDPListener k addrIn port = ⟨some 0, addrIn, [.socket]⟩ := by
  simp [createUDPListener, h]

/-- `bind` is called in every case, and its result alone decides. -/
theorem createUDPListener_of_ne (h : k.socket ≠ 0) :
    createUDPListener k addrIn port =
      ⟨if k.bind k.socket (bindAddr k addrIn none port).2 < 0 then none else some k.socket,
        (bindAddr k addrIn none port).2,
        [.socket, .bind k.socket (bindAddr k addrIn none port).2]⟩ := by
  simp only [createUDPListener]
  rw [if_pos h, if_pos bindAddr_ne_zero]
  unfold bindSocket
  split <;> rfl

/-! ## Reported and unreported failures -/

theorem reportsFailures_of_accepted {bound : Int × SockAddrIn} {chain calls : List Call}
    {value : Option Int} (h : bound.1 = 1) : ReportsFailures k bound chain value calls ↔
      ∀ fd, value = some fd → 0 ≤ fd → ∀ c ∈ chain, c ∈ calls ∧ 0 ≤ c.result k := by
  constructor
  · intro hreports fd hvalue hfd
    exact (hreports.1 fd hvalue hfd).2
  · intro hall
    refine ⟨fun fd hvalue hfd => ⟨h, hall fd hvalue hfd⟩, fun hminus => ?_⟩
    rw [h] at hminus
    cases hminus

/-- A rejected address that a call is given all the same. -/
theorem not_reportsFailures {bound : Int × SockAddrIn} {chain calls : List Call}
    {value : Option Int} {c : Call} (h : bound.1 = -1) (hc : c ∈ calls)
    (hgiven : c.takesAddress = true) : ¬ ReportsFailures k bound chain value calls := by
  intro hreports
  rw [(hreports.2 h).1 c hc] at hgiven
  cases hgiven

theorem reportsFailures_of_neg {bound : Int × SockAddrIn} {chain calls : List Call} {v : Int}
    (hv : v < 0) (hcalls : ∀ c ∈ calls, c.takesAddress = false) :
    ReportsFailures k bound chain (some v) calls := by
  refine ⟨fun fd hvalue hfd => ?_, fun _ => ⟨hcalls, fun fd hvalue => ?_⟩⟩
  · cases hvalue
    exact absurd hfd (Int.not_le.mpr hv)
  · cases hvalue
    exact hv

theorem connectToRemote_reports_iff :
    ReportsFailures k (bindAddr k addrIn addr port)
        [.socket, .connect k.socket (bindAddr k addrIn addr port).2]
        (some (connectToRemote k addrIn addr port).value)
        (connectToRemote k addrIn addr port).calls ↔
      k.socket = 0 ∨ Accepts k addr port := by
  by_cases hsocket : k.socket = 0
  · rw [connectToRemote_of_eq hsocket]
    refine iff_of_true (reportsFailures_of_neg (show (-1 : Int) < 0 by decide) (fun c hc => ?_)) (Or.inl hsocket)
    rw [List.mem_singleton.mp hc]
    rfl
  by_cases haccepts : Accepts k addr port
  · rw [reportsFailures_of_accepted (bindAddr_accepts_iff.mpr haccepts)]
    refine iff_of_true (fun fd hvalue hfd => ?_) (Or.inr haccepts)
    rw [Option.some.injEq, connectToRemote_value hsocket] at hvalue
    split at hvalue
    · omega
    · subst hvalue
      rw [connectToRemote_of_ne hsocket]
      intro c hc
      refine ⟨List.mem_append_left _ hc, ?_⟩
      rcases List.mem_cons.mp hc with rfl | hc
      · exact hfd
      · rw [List.mem_singleton.mp hc, Call.result]
        omega
  · refine iff_of_false ?_ (not_or.mpr ⟨hsocket, haccepts⟩)
    refine not_reportsFailures (bindAddr_rejects_iff.mpr haccepts)
      (c := .connect k.socket (bindAddr k addrIn addr port).2) ?_ rfl
    rw [connectToRemote_of_ne hsocket]
    exact List.mem_append_left _ (List.mem_cons_of_mem _ List.mem_cons_self)

/-- The structure in which `bindAddr` leaves a port it accepts, for any local address. -/
theorem bindAddr_listener {p : CString} (h : isDigitOnly p = true) :
    (bindAddr k addrIn none (some p)).2 = ⟨AF_INET, u16 (atoi p), INADDR_ANY⟩ := by
  simp only [bindAddr, if_pos h, bindHost]

/-- A listener that is yielded has been bound, unless `listen` fails. -/
theorem listener_chain_iff (a : SockAddrIn) :
    (∀ fd, (if k.listen k.socket < 0 then none else some k.socket) = some fd → 0 ≤ fd →
      ∀ c ∈ [Call.socket, .bind k.socket a, .listen k.socket],
        c ∈ [Call.socket, .bind k.socket a, .listen k.socket] ∧ 0 ≤ c.result k) ↔
      k.bind k.socket a = 0 ∨ k.listen k.socket = -1 := by
  rcases k.listen_result k.socket with hlisten | hlisten
  · have hge : 0 ≤ k.socket := by
      have hminus := k.socket_ge
      by_contra hneg
      have hbad : k.socket = -1 := by omega
      rw [hbad, k.listen_bad] at hlisten
      cases hlisten
    constructor
    · intro hall
      have hbind : 0 ≤ k.bind k.socket a :=
        (hall k.socket (if_neg (by omega)) hge (.bind k.socket a) (by simp)).2
      rcases k.bind_result k.socket a with hok | hfail
      · exact Or.inl hok
      · omega
    · intro h fd _ _ c hc
      have hbind : k.bind k.socket a = 0 := h.resolve_right (by omega)
      refine ⟨hc, ?_⟩
      simp only [List.mem_cons, List.not_mem_nil, or_false] at hc
      rcases hc with rfl | rfl | rfl
      · exact hge
      · exact Int.le_of_eq hbind.symm
      · exact Int.le_of_eq hlisten.symm
  · refine iff_of_true (fun fd hvalue => ?_) (Or.inr hlisten)
    rw [if_pos (by omega)] at hvalue
    cases hvalue

/-- A UDP listener is yielded only when it has been bound. -/
theorem udpListener_chain (a : SockAddrIn) (fd : Int)
    (hvalue : (if k.bind k.socket a < 0 then none else some k.socket) = some fd) (hfd : 0 ≤ fd) :
    ∀ c ∈ [Call.socket, .bind k.socket a], c ∈ [Call.socket, .bind k.socket a] ∧ 0 ≤ c.result k := by
  intro c hc
  refine ⟨hc, ?_⟩
  split at hvalue
  · cases hvalue
  · cases hvalue
    rcases List.mem_cons.mp hc with rfl | hc
    · exact hfd
    · rw [List.mem_singleton.mp hc, Call.result]
      omega

theorem accepts_none_iff : Accepts k none port ↔ ∃ p, port = some p ∧ isDigitOnly p = true := by
  constructor
  · exact fun h => h.1
  · intro h
    refine ⟨h, fun a ha => ?_⟩
    cases ha

theorem createListener_reports_iff :
    ReportsFailures k (bindAddr k addrIn none port)
        [.socket, .bind k.socket (bindAddr k addrIn none port).2, .listen k.socket]
        (createListener k addrIn port).value (createListener k addrIn port).calls ↔
      k.socket ≠ 0 ∧ ∃ p, port = some p ∧ isDigitOnly p = true ∧
        (k.bind k.socket ⟨AF_INET, u16 (atoi p), INADDR_ANY⟩ = 0 ∨ k.listen k.socket = -1) := by
  by_cases hsocket : k.socket = 0
  · rw [createListener_of_eq hsocket]
    refine iff_of_false (fun hreports => ?_) (fun h => h.1 hsocket)
    -- the descriptor 0 is yielded although nothing has been bound
    have hbind := ((hreports.1 0 rfl (Int.le_refl 0)).2 (.listen k.socket) (by simp)).1
    simp at hbind
  by_cases haccepts : Accepts k none port
  · obtain ⟨p, rfl, hdigits⟩ := accepts_none_iff.mp haccepts
    rw [reportsFailures_of_accepted (bindAddr_accepts_iff.mpr haccepts),
      createListener_of_ne hsocket, bindAddr_listener hdigits, listener_chain_iff]
    constructor
    · intro h
      exact ⟨hsocket, p, rfl, hdigits, h⟩
    · rintro ⟨-, q, hq, -, h⟩
      cases hq
      exact h
  · refine iff_of_false ?_ ?_
    · refine not_reportsFailures (bindAddr_rejects_iff.mpr haccepts)
        (c := .bind k.socket (bindAddr k addrIn none port).2) ?_ rfl
      rw [createListener_of_ne hsocket]
      simp
    · rintro ⟨-, p, hp, hdigits, -⟩
      exact haccepts (accepts_none_iff.mpr ⟨p, hp, hdigits⟩)

theorem createUDPListener_reports_iff :
    ReportsFailures k (bindAddr k addrIn none port)
        [.socket, .bind k.socket (bindAddr k addrIn none port).2]
        (createUDPListener k addrIn port).value (createUDPListener k addrIn port).calls ↔
      k.socket ≠ 0 ∧ ∃ p, port = some p ∧ isDigitOnly p = true := by
  by_cases hsocket : k.socket = 0
  · rw [createUDPListener_of_eq hsocket]
    refine iff_of_false (fun hreports => ?_) (fun h => h.1 hsocket)
    have hbind := ((hreports.1 0 rfl (Int.le_refl 0)).2
      (.bind k.socket (bindAddr k addrIn none port).2) (by simp)).1
    simp at hbind
  by_cases haccepts : Accepts k none port
  · rw [reportsFailures_of_accepted (bindAddr_accepts_iff.mpr haccepts),
      createUDPListener_of_ne hsocket]
    exact iff_of_true (udpListener_chain _) ⟨hsocket, accepts_none_iff.mp haccepts⟩
  · refine iff_of_false ?_ (fun h => haccepts (accepts_none_iff.mpr h.2))
    refine not_reportsFailures (bindAddr_rejects_iff.mpr haccepts)
      (c := .bind k.socket (bindAddr k addrIn none port).2) ?_ rfl
    rw [createUDPListener_of_ne hsocket]
    simp

end

/-- **Which failures are reported.** `connectToRemote` reports every failure exactly when the
socket is `0` or `bindAddr` accepts the strings, `createListener` when the socket is not `0`,
the port is accepted, and `bind` succeeds or `listen` fails, and `createUDPListener` when the
socket is not `0` and the port is accepted. -/
theorem setup_reports_iff (k : Kernel) (addrIn : SockAddrIn) (addr port : Option CString) :
    (ReportsFailures k (bindAddr k addrIn addr port)
        [.socket, .connect k.socket (bindAddr k addrIn addr port).2]
        (some (connectToRemote k addrIn addr port).value)
        (connectToRemote k addrIn addr port).calls ↔
      k.socket = 0 ∨ Accepts k addr port) ∧
    (ReportsFailures k (bindAddr k addrIn none port)
        [.socket, .bind k.socket (bindAddr k addrIn none port).2, .listen k.socket]
        (createListener k addrIn port).value (createListener k addrIn port).calls ↔
      k.socket ≠ 0 ∧ ∃ p, port = some p ∧ isDigitOnly p = true ∧
        (k.bind k.socket ⟨AF_INET, u16 (atoi p), INADDR_ANY⟩ = 0 ∨ k.listen k.socket = -1)) ∧
    (ReportsFailures k (bindAddr k addrIn none port)
        [.socket, .bind k.socket (bindAddr k addrIn none port).2]
        (createUDPListener k addrIn port).value (createUDPListener k addrIn port).calls ↔
      k.socket ≠ 0 ∧ ∃ p, port = some p ∧ isDigitOnly p = true) :=
  ⟨connectToRemote_reports_iff, createListener_reports_iff, createUDPListener_reports_iff⟩

/-- A host on which every call on an open descriptor succeeds. -/
def accepting : Kernel where
  socket := 5
  bind fd _ := if fd = -1 then -1 else 0
  listen fd := if fd = -1 then -1 else 0
  accept fd := if fd = -1 then -1 else 6
  connect fd _ := if fd = -1 then -1 else 0
  inetPton _ := none
  socket_ge := by decide
  bind_result fd _ := by split <;> simp
  listen_result fd := by split <;> simp
  accept_ge fd := by split <;> simp
  connect_result fd _ := by split <;> simp
  bind_bad _ := rfl
  listen_bad := rfl
  accept_bad := rfl
  connect_bad _ := rfl

/-- The port `http` is rejected, and all three functions yield the descriptor `5`. -/
theorem setup_failure_masked :
    ((bindAddr accepting ⟨0, 0, INADDR_ANY⟩ none (some (Lib.ascii "http"))).1 = -1 ∧
      (connectToRemote accepting ⟨0, 0, INADDR_ANY⟩ none (some (Lib.ascii "http"))).value = 5 ∧
      (createListener accepting ⟨0, 0, INADDR_ANY⟩ (some (Lib.ascii "http"))).value = some 5 ∧
      (createUDPListener accepting ⟨0, 0, INADDR_ANY⟩ (some (Lib.ascii "http"))).value = some 5) ∧
    ¬ (∀ (k : Kernel) (addrIn : SockAddrIn) (addr port : Option CString),
      ReportsFailures k (bindAddr k addrIn addr port)
        [.socket, .connect k.socket (bindAddr k addrIn addr port).2]
        (some (connectToRemote k addrIn addr port).value)
        (connectToRemote k addrIn addr port).calls ∧
      ReportsFailures k (bindAddr k addrIn none port)
        [.socket, .bind k.socket (bindAddr k addrIn none port).2, .listen k.socket]
        (createListener k addrIn port).value (createListener k addrIn port).calls ∧
      ReportsFailures k (bindAddr k addrIn none port)
        [.socket, .bind k.socket (bindAddr k addrIn none port).2]
        (createUDPListener k addrIn port).value (createUDPListener k addrIn port).calls) := by
  refine ⟨by decide, fun hall => ?_⟩
  obtain ⟨hconnect, -⟩ := hall accepting ⟨0, 0, INADDR_ANY⟩ none (some (Lib.ascii "http"))
  have hneg := (hconnect.2 (by decide)).2 5 (by decide)
  exact absurd hneg (by decide)

/-- The sibling for UDP clients gives no rejected address away. -/
theorem clientUDP_reports (k : Kernel) (addrIn : SockAddrIn) (addr port : Option CString) :
    ReportsFailures k (bindAddr k addrIn addr port) [.socket]
      (some (clientUDP k addrIn addr port).value) (clientUDP k addrIn addr port).calls := by
  simp only [clientUDP]
  split
  · rcases @bindAddr_result k addr port addrIn with hone | hminus
    · rw [if_neg (by omega), reportsFailures_of_accepted hone]
      intro fd hvalue hfd c hc
      cases hvalue
      rw [List.mem_singleton.mp hc]
      exact ⟨List.mem_singleton_self _, hfd⟩
    · rw [if_pos (by omega)]
      apply reportsFailures_of_neg (show (bindAddr k addrIn addr port).1 < 0 by omega)
      intro c hc
      rcases List.mem_cons.mp hc with rfl | hc
      · rfl
      · rw [List.mem_singleton.mp hc]
        rfl
  · apply reportsFailures_of_neg (show (-1 : Int) < 0 by decide)
    intro c hc
    rw [List.mem_singleton.mp hc]
    rfl

end Spolks.Sockcore
