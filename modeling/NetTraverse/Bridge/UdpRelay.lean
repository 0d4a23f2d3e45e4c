import NetTraverse.Bridge.UdpPeers

/-!
# The way of a DATA message and back

`foward` looks the target of a DATA message up under an address that it builds from
the header, and writes the endpoint of the sender over that of the target before it
sends the buffer on. So what arrives names its sender, and as a message of the target
it goes the way back and arrives as it was (`withEndpoint_withEndpoint`).
-/

namespace NetTraverse

open Transition

/-- An IPv4 address and a port, both in network byte order. -/
structure Endpoint where
  ipv4 : List UInt8
  port : List UInt8
  length_ipv4 : ipv4.length = 4
  length_port : port.length = 2

namespace Endpoint

/-- The address that `recvfrom` reports and `foward` builds. -/
def address (e : Endpoint) : SockAddr := .sockaddrIn e.ipv4 e.port

@[simp] theorem sinPort_address (e : Endpoint) : e.address.sinPort = e.port := by
  have h : (e.port ++ (e.ipv4 ++ List.replicate 8 0)).takeD 2 0 = e.port := by
    rw [List.takeD_eq_take _ (by simp [e.length_port]), List.take_left' e.length_port]
  simpa [address, SockAddr.sockaddrIn, SockAddr.sinPort] using h

@[simp] theorem sinAddr_address (e : Endpoint) : e.address.sinAddr = e.ipv4 := by
  have hdrop : e.address.bytes.drop 4 = e.ipv4 ++ List.replicate 8 0 := by
    have hfront : ([2, 0] ++ e.port).length = 4 := by simp [e.length_port]
    rw [address, SockAddr.sockaddrIn, List.append_assoc ([2, 0] ++ e.port), List.drop_left' hfront]
  rw [SockAddr.sinAddr, hdrop, List.takeD_eq_take _ (by simp [e.length_ipv4]),
    List.take_left' e.length_ipv4]

end Endpoint

/-- A DATA message that is longer than its header. -/
structure DataMessage where
  /-- `address_format::type`, which nobody looks at. -/
  type : UInt8
  endpoint : Endpoint
  payload : List UInt8
  payload_ne_nil : payload ≠ []

namespace DataMessage

def bytes (msg : DataMessage) : List UInt8 :=
  [typeData, msg.type] ++ msg.endpoint.ipv4 ++ msg.endpoint.port ++ msg.payload

/-- The message with another endpoint. -/
def withEndpoint (msg : DataMessage) (e : Endpoint) : DataMessage := { msg with endpoint := e }

@[simp] theorem withEndpoint_withEndpoint (msg : DataMessage) (e : Endpoint) :
    (msg.withEndpoint e).withEndpoint msg.endpoint = msg := rfl

theorem length_bytes (msg : DataMessage) : msg.bytes.length = 8 + msg.payload.length := by
  simp [bytes, msg.endpoint.length_ipv4, msg.endpoint.length_port]
  omega

end DataMessage

/-- The bytes of the message. -/
def UdpCall.content (c : UdpCall) : List UInt8 := c.buffer.mem.take c.buffer.size

namespace UdpRelayLemmas

open UdpBridgeLemmas UdpPeersLemmas

variable {dump : List (List (List UInt8)) → List UInt8} {c : UdpCall} {msg : DataMessage}

theorem length_content : c.content.length = c.buffer.size := by
  rw [UdpCall.content, List.length_take, Nat.min_eq_left c.fits]

/-- The message lies at the front of the allocation. -/
theorem mem_eq (h : c.content = msg.bytes) :
    c.buffer.mem = msg.bytes ++ c.buffer.mem.drop c.buffer.size := by
  rw [← h, UdpCall.content, List.take_append_drop]

theorem size_eq (h : c.content = msg.bytes) : c.buffer.size = 8 + msg.payload.length := by
  rw [← length_content, h, msg.length_bytes]

theorem header_lt_size (h : c.content = msg.bytes) : messageHeaderSize < c.buffer.size := by
  have hpayload := List.length_pos_iff.mpr msg.payload_ne_nil
  rw [size_eq h, messageHeaderSize]
  omega

theorem type_eq (h : c.content = msg.bytes) : c.type = some typeData := by
  rw [UdpCall.type, mem_eq h]
  rfl

/-- What is behind the first two bytes, the address and the port. -/
theorem drop_two {rest : List UInt8} (h : c.buffer.mem = msg.bytes ++ rest) :
    c.buffer.mem.drop 2 = msg.endpoint.ipv4 ++ (msg.endpoint.port ++ (msg.payload ++ rest)) := by
  rw [h]
  simp [DataMessage.bytes]

theorem drop_six {rest : List UInt8} (h : c.buffer.mem = msg.bytes ++ rest) :
    c.buffer.mem.drop 6 = msg.endpoint.port ++ (msg.payload ++ rest) := by
  have hdrop : c.buffer.mem.drop 6 = (c.buffer.mem.drop 2).drop 4 := by rw [List.drop_drop]
  rw [hdrop, drop_two h, List.drop_left' msg.endpoint.length_ipv4]

theorem drop_eight {rest : List UInt8} (h : c.buffer.mem = msg.bytes ++ rest) :
    c.buffer.mem.drop 8 = msg.payload ++ rest := by
  have hdrop : c.buffer.mem.drop 8 = (c.buffer.mem.drop 6).drop 2 := by rw [List.drop_drop]
  rw [hdrop, drop_six h, List.drop_left' msg.endpoint.length_port]

/-- The address that is looked up is the one that the message names. -/
theorem target_eq (h : c.content = msg.bytes) : c.target = msg.endpoint.address := by
  rw [UdpCall.target, drop_two (mem_eq h), drop_six (mem_eq h),
    List.take_left' msg.endpoint.length_ipv4, List.take_left' msg.endpoint.length_port]
  rfl

/-- What is sent on differs from the message in the endpoint only. -/
theorem relayed_eq (h : c.content = msg.bytes) {src : Endpoint} (hsender : c.sender = src.address) :
    c.relayed = (msg.withEndpoint src).bytes := by
  have htwo : c.buffer.mem.take 2 = [typeData, msg.type] := by
    rw [mem_eq h]
    simp [DataMessage.bytes]
  have hlength : (msg.withEndpoint src).bytes.length = c.buffer.size := by
    rw [DataMessage.length_bytes, size_eq h]
    rfl
  calc c.relayed
      = ((msg.withEndpoint src).bytes ++ c.buffer.mem.drop c.buffer.size).take c.buffer.size := by
        rw [UdpCall.relayed, hsender, htwo, drop_eight (mem_eq h)]
        simp [DataMessage.bytes, DataMessage.withEndpoint]
    _ = (msg.withEndpoint src).bytes := List.take_left' hlength

/-- Every message that `foward` takes for a DATA message with a payload is one. -/
theorem exists_dataMessage (htype : c.type = some typeData)
    (hlong : messageHeaderSize < c.buffer.size) : ∃ msg : DataMessage, c.content = msg.bytes := by
  have hlen : 8 < c.content.length := by rwa [length_content]
  have hhead : c.content.head? = some typeData := by
    rw [UdpCall.content, List.head?_take, if_neg (Nat.ne_of_gt (Nat.zero_lt_of_lt hlong))]
    exact htype
  match hc : c.content, hlen, hhead with
  | _ :: b₁ :: a₀ :: a₁ :: a₂ :: a₃ :: p₀ :: p₁ :: x :: xs, _, hhead =>
    obtain rfl := Option.some.inj hhead
    exact ⟨⟨b₁, ⟨[a₀, a₁, a₂, a₃], [p₀, p₁], rfl, rfl⟩, x :: xs, by simp⟩, rfl⟩

/-- The target is in the table once the sender is. -/
theorem isSome_enter {peerMap : PeerMap} {a : SockAddr} :
    ((c.enter peerMap).find? a).isSome ↔ a = c.sender ∨ (peerMap.find? a).isSome := by
  rw [find?_enter]
  split
  · next hand => simp [hand.1]
  · next hnot =>
    constructor
    · exact .inr
    · rintro (rfl | h)
      · exact Option.isSome_iff_ne_none.mpr fun hnone => hnot ⟨rfl, hnone⟩
      · exact h

/-- A call with a DATA message sends it on if the table has its target. -/
theorem sent_eq {s s' : UdpRun} (hinv : UdpInv s) (h : c.content = msg.bytes) {src : Endpoint}
    (hsender : c.sender = src.address) (hstep : udpStep dump s c = some s') :
    s'.faulted = false ∧
      s'.sent = if msg.endpoint.address = c.sender ∨ (s.peerMap.find? msg.endpoint.address).isSome
        then [.relay msg.endpoint.address (msg.withEndpoint src).bytes] else [] := by
  unfold udpStep at hstep
  split at hstep
  · rw [foward_data (type_eq h) (header_lt_size h), target_eq h] at hstep
    cases hfind : (c.enter s.peerMap).find? msg.endpoint.address with
    | none =>
      rw [hfind] at hstep
      obtain rfl := Option.some.inj hstep
      refine ⟨rfl, (if_neg ?_).symm⟩
      rw [← isSome_enter, hfind]
      decide
    | some peer =>
      rw [hfind] at hstep
      obtain rfl := Option.some.inj hstep
      refine ⟨rfl, ?_⟩
      rw [if_pos (isSome_enter.mp (by rw [hfind]; rfl))]
      show [Sent.relay peer.addr c.relayed] = _
      rw [keyed_enter hinv hfind, relayed_eq h hsender]
  · cases hstep

end UdpRelayLemmas

open UdpRelayLemmas UdpPeersLemmas

variable {dump : List (List (List UInt8)) → List UInt8}

/-- A DATA message with a payload is sent on to the peer that it names, if there is one,
with the endpoint of the sender in place of that of the peer. What the peer got it can
pass to `foward` after any other calls: while the sender is in the table, the message
goes back to it as it was. -/
theorem data_answered {s s₁ : UdpRun} (hinv : UdpInv s) {c : UdpCall} (src : Endpoint)
    (msg : DataMessage) (hsender : c.sender = src.address) (hcontent : c.content = msg.bytes)
    (hstep : udpStep dump s c = some s₁) :
    s₁.faulted = false ∧
    s₁.sent = (if msg.endpoint.address = src.address ∨
        (s.peerMap.find? msg.endpoint.address).isSome
      then [.relay msg.endpoint.address (msg.withEndpoint src).bytes] else []) ∧
    ∀ calls s₂ answer s₃, exec (udpStep dump) s₁ calls = some s₂ →
      answer.sender = msg.endpoint.address → answer.content = (msg.withEndpoint src).bytes →
      (s₂.peerMap.find? src.address).isSome → udpStep dump s₂ answer = some s₃ →
      s₃.faulted = false ∧ s₃.sent = [.relay src.address msg.bytes] := by
  obtain ⟨halive, hsent⟩ := sent_eq hinv hcontent hsender hstep
  refine ⟨halive, by rw [hsent, hsender], ?_⟩
  intro calls s₂ answer s₃ hrun hanswerer hanswer hlisted hback
  have hinv₂ : UdpInv s₂ :=
    exec_invariant (fun _ _ _ h hcall => udpInv_step h hcall) (udpInv_step hinv hstep) hrun
  obtain ⟨halive₃, hsent₃⟩ := sent_eq hinv₂ hanswer hanswerer hback
  refine ⟨halive₃, ?_⟩
  rw [hsent₃, DataMessage.withEndpoint_withEndpoint]
  exact if_pos (.inr hlisted)

namespace UdpDemo

def asker : Endpoint := ⟨[10, 0, 0, 1], [0, 7], rfl, rfl⟩
def answerer : Endpoint := ⟨[10, 0, 0, 2], [0, 9], rfl, rfl⟩
def question : DataMessage := ⟨0, answerer, [65, 66], by decide⟩

/-- One peer says PING and another one sends it a message. -/
def calls : List UdpCall :=
  [.instant answerer.address [typePing] 10, .instant asker.address question.bytes 20]

end UdpDemo

open UdpDemo in
/-- The peer passes on what it got. -/
theorem data_answered_demo :
    ∃ s₂ s₃, exec (udpStep fun _ => []) (.start 0) calls = some s₂ ∧
      s₂.sent = [.relay answerer.address (question.withEndpoint asker).bytes] ∧
      udpStep (fun _ => []) s₂
        (.instant answerer.address (question.withEndpoint asker).bytes 30) = some s₃ ∧
      s₃.sent = [.relay asker.address question.bytes] := by
  have hknown : (udpStep (fun _ => []) (.start 0) (.instant answerer.address [typePing] 10)).map
      (fun s => (s.peerMap.find? answerer.address).isSome) = some true := by decide +kernel
  have hlisted : (exec (udpStep fun _ => []) (.start 0) calls).map
      (fun s => (s.peerMap.find? asker.address).isSome) = some true := by decide +kernel
  have hback : ((exec (udpStep fun _ => []) (.start 0) calls).bind fun s =>
      udpStep (fun _ => []) s
        (.instant answerer.address (question.withEndpoint asker).bytes 30)).isSome := by
    decide +kernel
  obtain ⟨s₃, hback⟩ := Option.isSome_iff_exists.mp hback
  obtain ⟨s₂, hrun, hback⟩ := Option.bind_eq_some_iff.mp hback
  obtain ⟨s, hping, hrest⟩ := exec_cons_iff.mp hrun
  obtain ⟨_, hquestion, hlast⟩ := exec_cons_iff.mp hrest
  obtain rfl := Option.some.inj hlast
  rw [hping] at hknown
  rw [hrun] at hlisted
  obtain ⟨-, hsent, hanswer⟩ := data_answered (udpInv_step (udpInv_start 0) hping) asker question
    rfl rfl hquestion
  exact ⟨_, s₃, hrun, hsent.trans (if_pos (.inr (Option.some.inj hknown))), hback,
    (hanswer [] _ _ s₃ rfl rfl rfl (Option.some.inj hlisted) hback).2⟩

end NetTraverse
