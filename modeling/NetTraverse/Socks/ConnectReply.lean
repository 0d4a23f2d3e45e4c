import NetTraverse.Socks.Handler

/-!
# The reply to CONNECT

What `tcp_socket::connect` returns and what the reply of `socks5_handler` says,
beside what becomes of the attempt to connect. `connect` returns -1 at once
whatever happens, and the reply reports success whatever happens, with the octets of
the address that the socket had before, in the wrong order. `replyTruthful_never`
puts this together.
-/

namespace NetTraverse

/-- The attempt ends with a connection. -/
def Attempt.succeeds : Attempt → Bool
  | .success => true
  | .inProgress soError => soError = 0
  | .failure _ => false

/-- The attempt has ended. -/
def Progress.completed : Progress → Bool
  | .succeeded | .failed => true
  | .unmade | .pending => false

section

variable (env : SocksEnv) (s : ByteStream) (target : Target)

/-- `connect` returns once the attempt has ended. -/
def ConnectWaits : Prop :=
  ∀ v t, Prog.run env.stream (s, .unmade) (tcpConnect (some target)) = some (v, t) → t.2.completed

/-- It returns 0 exactly when the attempt succeeded. -/
def ConnectReports : Prop :=
  ∀ v t, Prog.run env.stream (s, .unmade) (tcpConnect (some target)) = some (v, t) →
    (v = 0 ↔ env.attempt.succeeds)

/-- A message and the state in which CONNECT sends it. -/
def Sends (data : List UInt8) (p : Progress) : Prop :=
  (.asyncWrite data, (s, p)) ∈ Prog.calls env.stream (s, .unmade) (socks5Connect (some target))

/-- Success is reported only of an attempt that succeeds. -/
def ReportsSuccess : Prop :=
  ∀ data p, Sends env s target data p → data[1]? = some 0x00 → env.attempt.succeeds

/-- The reply has the address and the port of the connected socket. -/
def ReportsAddress : Prop :=
  ∀ data p, Sends env s target data p →
    (data.drop 4).take 4 = (env.localAddress p).sinAddr ∧ data.drop 8 = (env.localAddress p).sinPort

structure ReplyTruthful : Prop where
  waits : ConnectWaits env s target
  reports : ConnectReports env s target
  success : ReportsSuccess env s target
  address : ReportsAddress env s target

end

namespace ConnectReplyLemmas

open HandlerLemmas

variable {env : SocksEnv} {s : ByteStream} {target : Target}

/-- `connect` returns -1 after one system call. -/
theorem run_tcpConnect :
    Prog.run env.stream (s, .unmade) (tcpConnect (some target)) =
      some (-1, (s, env.connect.2)) := by
  rw [tcpConnect_eq]
  rfl

/-- CONNECT sends one message. -/
theorem sends_iff {data : List UInt8} {p : Progress} : Sends env s target data p ↔
    data = riply (env.localAddress .unmade).ipv4 (env.localAddress .unmade).port ∧
      p = env.connect.2 := by
  rw [Sends, calls_socks5Connect]
  simp [connectCalls]

/-- The reply has the octets of the address from last to first, and the port as it
should be. -/
theorem riply_eq (a : SockAddr) :
    riply a.ipv4 a.port = [0x05, 0x00, 0x00, 0x01] ++ (a.sinAddr.reverse ++ a.sinPort) := by
  obtain ⟨hi, lo, hport⟩ := List.length_eq_two.mp a.length_sinPort
  obtain ⟨a₀, a₁, a₂, a₃, haddr⟩ : ∃ a₀ a₁ a₂ a₃, a.sinAddr = [a₀, a₁, a₂, a₃] := by
    match a.sinAddr, a.length_sinAddr with
    | [a₀, a₁, a₂, a₃], _ => exact ⟨a₀, a₁, a₂, a₃, rfl⟩
  have h₀ := a₀.toNat_lt
  have h₁ := a₁.toNat_lt
  have h₂ := a₂.toNat_lt
  have h₃ := a₃.toNat_lt
  have hhi := hi.toNat_lt
  have hlo := lo.toNat_lt
  rw [haddr, hport, riply]
  simp [← UInt8.toNat_inj, SockAddr.toNat_ipv4 haddr, SockAddr.toNat_port hport,
    Nat.shiftRight_eq_div_pow]
  omega

end ConnectReplyLemmas

open ConnectReplyLemmas

variable {env : SocksEnv} {s : ByteStream} {target : Target}

/-- `connect` does not wait for an attempt that is in progress. -/
theorem connectWaits_iff :
    ConnectWaits env s target ↔ ∀ soError, env.attempt ≠ .inProgress soError := by
  have hwaits : ConnectWaits env s target ↔ env.connect.2.completed := by
    simp [ConnectWaits, run_tcpConnect]
  rw [hwaits, SocksEnv.connect]
  cases env.attempt <;> simp [Progress.completed]

/-- It is right about attempts that fail. -/
theorem connectReports_iff : ConnectReports env s target ↔ env.attempt.succeeds = false := by
  simp [ConnectReports, run_tcpConnect]

/-- The reply is right about attempts that succeed. -/
theorem reportsSuccess_iff : ReportsSuccess env s target ↔ env.attempt.succeeds = true := by
  simp [ReportsSuccess, sends_iff, riply]

/-- The reply is right about an address whose reverse the socket had before, with
the same port. -/
theorem reportsAddress_iff : ReportsAddress env s target ↔
    (env.localAddress .unmade).sinAddr.reverse = (env.localAddress env.connect.2).sinAddr ∧
      (env.localAddress .unmade).sinPort = (env.localAddress env.connect.2).sinPort := by
  set unbound := env.localAddress .unmade
  have hhead : ([0x05, 0x00, 0x00, 0x01] : List UInt8).length = 4 := rfl
  have hoctets : ((riply unbound.ipv4 unbound.port).drop 4).take 4 = unbound.sinAddr.reverse := by
    rw [riply_eq, List.drop_left' hhead, List.take_left' (by simp)]
  have hport : (riply unbound.ipv4 unbound.port).drop 8 = unbound.sinPort := by
    rw [riply_eq, ← List.append_assoc, List.drop_left' (by simp)]
  constructor
  · intro h
    have hsent := h _ _ (sends_iff.mpr ⟨rfl, rfl⟩)
    rwa [hoctets, hport] at hsent
  · rintro h data p hsent
    obtain ⟨rfl, rfl⟩ := sends_iff.mp hsent
    rwa [hoctets, hport]

/-- No attempt, and no address, gets a truthful reply. -/
theorem replyTruthful_never (env : SocksEnv) (s : ByteStream) (target : Target) :
    ¬ ReplyTruthful env s target := by
  intro h
  have hfails := connectReports_iff.mp h.reports
  have hsucceeds := reportsSuccess_iff.mp h.success
  exact absurd (hfails.symm.trans hsucceeds) nofun

/-- A refused connection is reported as a success. -/
theorem replyTruthful_refused : ¬ ReplyTruthful (.plain none (.failure 111)) ⟨[], .silent⟩
    ⟨⟨[], [], some (.sockaddrIn [127, 0, 0, 1] [0, 80])⟩, true⟩ := by
  intro h
  have hsucceeds := reportsSuccess_iff.mp h.success
  cases hsucceeds

end NetTraverse
