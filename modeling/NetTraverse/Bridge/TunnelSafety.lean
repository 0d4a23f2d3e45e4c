import NetTraverse.Bridge.TunnelNet

/-!
# What the tunnel never does

Over every run of the network: whose frames get to which tap (`tunnel_isolates`),
and when a process ends (`tunnel_up_iff`). The first is shown of the plain tunnel, and
holds of the encrypted one since the taps cannot tell them apart.
-/

namespace NetTraverse

namespace TunnelNet

open FaultLemmas TunnelLemmas TunnelNetLemmas AlikeLemmas Transition

/-! ## Where frames come from -/

/-- Who may have had a frame that is written to the tap of `site`: the server gets
those of everybody, a client its own and those of the server. -/
def Source (read : List (Site × List UInt8)) (frame : List UInt8) : Site → Prop
  | .server => ∃ site, (site, frame) ∈ read
  | .client a => (.client a, frame) ∈ read ∨ (.server, frame) ∈ read

/-- Of the plain tunnel: requests are frames of their client, and what a coroutine of
the server forwards is a frame of the server or of the client that it handles. -/
structure Origins (s : TunnelNet (List UInt8)) : Prop where
  requests : ∀ p ∈ s.packets, p.target = .server → (p.source, p.payload) ∈ s.read
  replies : ∀ p ∈ s.packets, ∀ a, p.target = .client a → Source s.read p.payload (.client a)
  tapCall : ∀ c, c ≠ readUdp → s.server.bridge.calls c ≠ none →
    (.server, (s.buffers c).content) ∈ s.read
  udpCall : s.server.bridge.calls readUdp ≠ none →
    ∃ a, s.server.addr = some a ∧ (.client a, (s.buffers readUdp).content) ∈ s.read
  written : ∀ site frame, (site, frame) ∈ s.written → Source s.read frame site

namespace OriginsLemmas

open EthernetBridge EthernetBridge.BroadcastLemmas

variable {server server' : Server} {op : ServerOp} {s s' : TunnelNet (List UInt8)}

theorem calls_forward {b : EthernetBridge ReplyHandler} {buffer : List UInt8} {t : ReplyHandler}
    {t₁ t₂ : Int} {c : CoId} (hc : c ≠ b.current) :
    (b.forward buffer t t₁ t₂).calls c = b.calls c := by
  by_cases hshort : buffer.length < etherHeaderSize
  · rw [forward_of_short hshort]
    rfl
  · rw [forward_of_frame hshort]
    exact setCall_of_ne hc

/-- No other step starts a call. -/
theorem calls_of_step {b b' : EthernetBridge ReplyHandler} {a : BridgeOp ReplyHandler} {c : CoId}
    (h : b.step a = some b') (ha : ∀ buffer t t₁ t₂, a ≠ .forward buffer t t₁ t₂)
    (hc : b'.calls c ≠ none) : b.calls c ≠ none := by
  have hset {x : Option (Call ReplyHandler)} (hcall : b.call ≠ none)
      (hc : (b.setCall x).calls c ≠ none) : b.calls c ≠ none := by
    by_cases heq : c = b.current
    · exact heq ▸ hcall
    · rwa [setCall_of_ne heq] at hc
  cases step_cases h with
  | switch => exact hc
  | forward => exact absurd rfl (ha _ _ _ _)
  | sendHandler hcall | loopEnd hcall | invoke hcall | skip hcall | sent hcall
  | handlerReturn hcall => exact hset (by simp [hcall]) hc

theorem step_tapFrame {frame : List UInt8} {t₁ t₂ : Int}
    (h : server.step (.tapFrame frame t₁ t₂) = some server') :
    server.bridge.current = readTap ∧ server'.addr = server.addr ∧
      ∀ c, c ≠ readTap → server'.bridge.calls c = server.bridge.calls c := by
  rw [Server.step] at h
  split at h
  · next hcur =>
    obtain ⟨b, hb, rfl⟩ := Option.map_eq_some_iff.mp h
    refine ⟨hcur, rfl, fun c hc => ?_⟩
    cases step_cases hb with
    | forward => exact calls_forward (hcur ▸ hc)
  · cases h

theorem step_datagram {a : UdpAddr} {frame : List UInt8} {t₁ t₂ : Int}
    (h : server.step (.datagram a frame t₁ t₂) = some server') :
    server.bridge.current = readUdp ∧ server'.addr = some a ∧
      ∀ c, c ≠ readUdp → server'.bridge.calls c = server.bridge.calls c := by
  rw [Server.step] at h
  split at h
  · next hcur =>
    obtain ⟨b, hb, rfl⟩ := Option.map_eq_some_iff.mp h
    refine ⟨hcur.1, rfl, fun c hc => ?_⟩
    cases step_cases hb with
    | forward => exact calls_forward (hcur.1 ▸ hc)
  · cases h

/-- The other steps start no call, and leave `addr` alone while there is one. -/
theorem step_other (h : server.step op = some server')
    (hop : op = .proceed ∨ op = .handlerReturn ∨ op = .nextRound ∨ ∃ c, op = .switch c) :
    (∀ c, server'.bridge.calls c ≠ none → server.bridge.calls c ≠ none) ∧
      (server'.bridge.calls readUdp ≠ none → server'.addr = server.addr) := by
  rcases hop with rfl | rfl | rfl | ⟨c, rfl⟩
  · obtain ⟨b, hb, rfl⟩ := Option.map_eq_some_iff.mp h
    exact ⟨fun c hc => calls_of_step hb (by simp) hc, fun _ => rfl⟩
  · obtain ⟨b, hb, rfl⟩ := Option.map_eq_some_iff.mp h
    exact ⟨fun c hc => calls_of_step hb (by simp) hc, fun _ => rfl⟩
  · rw [Server.step] at h
    split at h
    · next hbetween =>
      cases h
      simp only [Server.betweenRounds, Bool.and_eq_true, beq_iff_eq, Option.isNone_iff_eq_none]
        at hbetween
      obtain ⟨⟨hcur, hnone⟩, -⟩ := hbetween
      exact ⟨fun c hc => hc, fun hc => absurd (hcur ▸ hnone) hc⟩
    · cases h
  · rw [Server.step] at h
    split at h
    · cases h
    · obtain ⟨b, hb, rfl⟩ := Option.map_eq_some_iff.mp h
      exact ⟨fun c hc => calls_of_step hb (by simp) hc, fun _ => rfl⟩

theorem source_mono {read more : List (Site × List UInt8)} {frame : List UInt8} {site : Site}
    (h : Source read frame site) : Source (read ++ more) frame site := by
  cases site with
  | server =>
    obtain ⟨site, hmem⟩ := h
    exact ⟨site, List.mem_append_left _ hmem⟩
  | client a => exact h.imp (List.mem_append_left _) (List.mem_append_left _)

theorem handOut_origins (h : s.Origins) (site : Site) (frame : List UInt8) :
    (s.handOut site frame).Origins where
  requests p hp ht := List.mem_append_left _ (h.requests p hp ht)
  replies p hp a ha := source_mono (h.replies p hp a ha)
  tapCall c hc hcall := List.mem_append_left _ (h.tapCall c hc hcall)
  udpCall hcall := by
    obtain ⟨a, ha, hmem⟩ := h.udpCall hcall
    exact ⟨a, ha, List.mem_append_left _ hmem⟩
  written site frame hw := source_mono (h.written site frame hw)

theorem writeTap_origins (h : s.Origins) {site : Site} {frame : List UInt8}
    (hsource : Source s.read frame site) : (s.writeTap site frame).Origins :=
  { h with
    written := fun site' frame' hw => by
      rcases List.mem_append.mp hw with hw | hw
      · exact h.written site' frame' hw
      · cases List.mem_singleton.mp hw
        exact hsource }

theorem send_origins (h : s.Origins) {source target : Site} {frame : List UInt8}
    (hrequest : target = .server → (source, frame) ∈ s.read)
    (hreply : ∀ a, target = .client a → Source s.read frame (.client a)) :
    (s.send source target frame).Origins :=
  { h with
    requests := fun p hp ht => by
      rcases List.mem_append.mp hp with hp | hp
      · exact h.requests p hp ht
      · obtain rfl := List.mem_singleton.mp hp
        exact hrequest ht
    replies := fun p hp a ha => by
      rcases List.mem_append.mp hp with hp | hp
      · exact h.replies p hp a ha
      · obtain rfl := List.mem_singleton.mp hp
        exact hreply a ha }

theorem server_origins (h : s.Origins) (hstep : s.server.step op = some server)
    (hop : op = .proceed ∨ op = .handlerReturn ∨ op = .nextRound ∨ ∃ c, op = .switch c) :
    Origins { s with server := server } := by
  obtain ⟨hcalls, haddr⟩ := step_other hstep hop
  exact { h with
    tapCall := fun c hc hcall => h.tapCall c hc (hcalls c hcall)
    udpCall := fun hcall => by
      obtain ⟨a, ha, hmem⟩ := h.udpCall (hcalls readUdp hcall)
      exact ⟨a, (haddr hcall).trans ha, hmem⟩ }

/-- A frame from the server's tap is forwarded. -/
theorem forward_tap_origins (h : s.Origins) {buffer : ByteBuffer} {frame : List UInt8}
    {t₁ t₂ : Int} (hstep : s.server.step (.tapFrame frame t₁ t₂) = some server)
    (hmem : (.server, buffer.content) ∈ s.read) : (s.forward server buffer).Origins := by
  obtain ⟨hcur, haddr, hcalls⟩ := step_tapFrame hstep
  refine ⟨h.requests, h.replies, fun c hc hcall => ?_, fun hcall => ?_, h.written⟩
  · by_cases heq : c = readTap
    · show (.server, (Function.update s.buffers s.server.bridge.current buffer c).content) ∈ s.read
      rwa [hcur, heq, Function.update_self]
    · show (.server, (Function.update s.buffers s.server.bridge.current buffer c).content) ∈ s.read
      rw [hcur, Function.update_of_ne heq]
      exact h.tapCall c hc (hcalls c heq ▸ hcall)
  · have hne : readUdp ≠ readTap := by decide
    obtain ⟨a, ha, hmem'⟩ := h.udpCall (hcalls readUdp hne ▸ hcall)
    refine ⟨a, haddr.trans ha, ?_⟩
    show (.client a, (Function.update s.buffers s.server.bridge.current buffer readUdp).content) ∈
      s.read
    rwa [hcur, Function.update_of_ne hne]

/-- A frame from a client is forwarded. -/
theorem forward_udp_origins (h : s.Origins) {buffer : ByteBuffer} {frame : List UInt8}
    {a : UdpAddr} {t₁ t₂ : Int} (hstep : s.server.step (.datagram a frame t₁ t₂) = some server)
    (hmem : (.client a, buffer.content) ∈ s.read) : (s.forward server buffer).Origins := by
  obtain ⟨hcur, haddr, hcalls⟩ := step_datagram hstep
  refine ⟨h.requests, h.replies, fun c hc hcall => ?_, fun _ => ⟨a, haddr, ?_⟩, h.written⟩
  · show (.server, (Function.update s.buffers s.server.bridge.current buffer c).content) ∈ s.read
    rw [hcur, Function.update_of_ne hc]
    exact h.tapCall c hc (hcalls c hc ▸ hcall)
  · show (.client a, (Function.update s.buffers s.server.bridge.current buffer readUdp).content) ∈
      s.read
    rwa [hcur, Function.update_self]

/-- What the handlers are called with, and whom they write to. -/
theorem reply_origins (hself : Alike Eq Eq s s) (h : s.Origins) {mac : EtherAddr}
    {t : ReplyHandler} (hcalling : s.server.bridge.calling = some (mac, t)) {iv : AesIv}
    {junk : Nat → Nat → UInt8} {r : TunnelNet (List UInt8)}
    (hr : s.reply plain iv junk t = .ok r) :
    r.Origins ∧ r.server = s.server := by
  set c := s.server.bridge.current with hc
  have hcall : s.server.bridge.calls c ≠ none := by
    intro hnone
    have hidle : s.server.bridge.call = none := hnone
    rw [calling, hidle] at hcalling
    cases hcalling
  obtain ⟨frame, hb, -⟩ := hself.buffers c
  cases t with
  | tap =>
    have hread : (s.buffers c).read 0 (s.buffers c).size = .ok (s.buffers c).content :=
      ByteBuffer.read_content hb.fits
    cases (bind_ok hread _).symm.trans hr
    refine ⟨writeTap_origins h ?_, rfl⟩
    by_cases hudp : c = readUdp
    · obtain ⟨a, -, hmem⟩ := h.udpCall (hudp ▸ hcall)
      exact ⟨.client a, hudp ▸ hmem⟩
    · exact ⟨.server, h.tapCall c hudp hcall⟩
  | udp =>
    obtain ⟨payload, hpayload, hr⟩ := bind_eq_ok.mp hr
    cases hpayload
    split at hr
    · next a haddr =>
      cases hr
      refine ⟨send_origins h (by simp) fun a' ha' => ?_, rfl⟩
      cases ha'
      by_cases hudp : c = readUdp
      · obtain ⟨a', ha', hmem⟩ := h.udpCall (hudp ▸ hcall)
        cases haddr.symm.trans ha'
        refine .inl ?_
        rwa [← hc, hudp]
      · exact .inr (h.tapCall c hudp hcall)
    · cases hr
      exact ⟨h, rfl⟩

theorem delivered_mem {site : Site} {i : Nat} {p : Packet (List UInt8)}
    (h : s.delivered site i = some p) : p ∈ s.packets ∧ p.target = site := by
  obtain ⟨hget, htarget⟩ := Option.filter_eq_some_iff.mp h
  exact ⟨List.mem_of_getElem? hget, by simpa using htarget⟩

theorem serverStep_origins (h : s.Origins) (hs : s.serverStep op = some s')
    (hop : op = .proceed ∨ op = .handlerReturn ∨ op = .nextRound ∨ ∃ c, op = .switch c) :
    s'.Origins := by
  obtain ⟨server, hserver, rfl⟩ := Option.map_eq_some_iff.mp hs
  exact server_origins h hserver hop

theorem down_origins (h : s.Origins) (site : Site) : (s.down site).Origins :=
  ⟨h.requests, h.replies, h.tapCall, h.udpCall, h.written⟩

theorem stepUp_origins (hself : Alike Eq Eq s s) (h : s.Origins) {op : TunnelOp}
    (hs : s.stepUp plain op = some s') : s'.Origins := by
  cases op with
  | clientTap a next iv junk =>
    cases next with
    | none =>
      cases hs
      exact down_origins h _
    | some frame =>
      rw [stepUp] at hs
      split at hs
      · cases hs
        exact send_origins (handOut_origins h _ frame) (by simp [handOut]) (by simp)
      · cases hs
  | clientUdp a next junk =>
    cases next with
    | none =>
      cases hs
      exact h
    | some i =>
      obtain ⟨p, hp, hs⟩ := Option.bind_eq_some_iff.mp hs
      obtain ⟨hmem, htarget⟩ := delivered_mem hp
      by_cases hle : p.payload.length ≤ maxFrame
      · rw [plain_seals.clientReadUdp junk _ _ rfl hle] at hs
        cases hs
        exact writeTap_origins h (h.replies p hmem a htarget)
      · obtain ⟨e, he⟩ := plain_seals.clientCut junk _ _ rfl hle
        rw [he] at hs
        cases hs
        exact down_origins h _
  | serverTap next t₁ t₂ junk =>
    cases next with
    | none =>
      rw [stepUp] at hs
      split at hs
      · cases hs
        exact down_origins h _
      · cases hs
    | some frame =>
      rw [stepUp] at hs
      split at hs
      · next hle =>
        obtain ⟨buffer, hread, hb⟩ := serverReadTap_ok junk hle
        rw [hread] at hs
        obtain ⟨server, hserver, rfl⟩ := Option.map_eq_some_iff.mp hs
        refine forward_tap_origins (handOut_origins h _ frame) hserver ?_
        rw [hb.content]
        exact List.mem_append_right _ List.mem_cons_self
      · cases hs
  | serverUdp next t₁ t₂ junk =>
    cases next with
    | none =>
      rw [stepUp] at hs
      split at hs
      · cases hs
        exact down_origins h _
      · cases hs
    | some i =>
      obtain ⟨p, hp, hs⟩ := Option.bind_eq_some_iff.mp hs
      obtain ⟨hmem, htarget⟩ := delivered_mem hp
      split at hs
      · by_cases hle : p.payload.length ≤ maxFrame
        · obtain ⟨buffer, hread, hb⟩ := plain_seals.serverReadUdp junk _ _ rfl hle
          rw [hread] at hs
          simp only [orDown] at hs
          have hrequest := h.requests p hmem htarget
          split at hs
          · cases hs
          · next a hsource =>
            obtain ⟨server, hserver, rfl⟩ := Option.map_eq_some_iff.mp hs
            refine forward_udp_origins h hserver ?_
            rwa [hb.content, ← hsource]
        · obtain ⟨e, he⟩ := plain_seals.serverCut junk _ _ rfl hle
          rw [he] at hs
          cases hs
          exact down_origins h _
      · cases hs
  | proceed iv junk =>
    obtain ⟨server, hserver, hs⟩ := Option.bind_eq_some_iff.mp hs
    split at hs
    · cases hs
      exact server_origins h hserver (.inl rfl)
    · next mac t hcalling =>
      cases hr : s.reply plain iv junk t with
      | error e =>
        rw [hr] at hs
        cases hs
        exact down_origins h _
      | ok r =>
        rw [hr] at hs
        cases hs
        obtain ⟨hor, heq⟩ := reply_origins hself h hcalling hr
        exact server_origins hor (heq ▸ hserver) (.inl rfl)
  | switch c => exact serverStep_origins h hs (.inr (.inr (.inr ⟨c, rfl⟩)))
  | handlerReturn => exact serverStep_origins h hs (.inr (.inl rfl))
  | nextRound => exact serverStep_origins h hs (.inr (.inr (.inl rfl)))

theorem exec_origins {ops : List TunnelOp} (h : exec (step plain) init ops = some s) :
    s.Origins := by
  have hstep : ∀ (s : TunnelNet (List UInt8)) (op : TunnelOp) (s' : TunnelNet (List UInt8)),
      Alike Eq Eq s s ∧ s.Origins → step plain s op = some s' → Alike Eq Eq s' s' ∧ s'.Origins := by
    intro s op s' ⟨hself, hor⟩ hs
    have hrel := step_alike plain_seals plain_seals hself op
    rw [hs] at hrel
    cases hrel with
    | some hself' =>
      refine ⟨hself', ?_⟩
      rw [step] at hs
      split at hs
      · exact stepUp_origins hself hor hs
      · cases hs
  have hinit : (init : TunnelNet (List UInt8)).Origins := by
    refine ⟨?_, ?_, fun c _ hcall => absurd rfl hcall, fun hcall => absurd rfl hcall, ?_⟩ <;>
      simp [init]
  exact (exec_invariant hstep ⟨init_alike, hinit⟩ h).2

end OriginsLemmas

open OriginsLemmas

/-- Whatever the network loses, repeats, delays or reorders, and however the coroutines of
the server take turns: a frame that is written to a tap was handed out by one, unchanged,
and no client gets a frame of another client. Every datagram was sent by the server or a
client; for one that somebody else makes see `forged_header_forwarded`. -/
theorem tunnel_isolates (evp : Evp) (key : AesKey) (ops : List TunnelOp)
    {s : TunnelNet (List UInt8)} (hrun : exec (step (encrypted evp key)) init ops = some s)
    {site : Site} {frame : List UInt8} (hwritten : (site, frame) ∈ s.written) :
    Source s.read frame site := by
  have hobserved := encrypted_observed evp key ops
  rw [hrun] at hobserved
  obtain ⟨p, hp, hview⟩ := Option.map_eq_some_iff.mp hobserved.symm
  obtain ⟨hread, hwrite, -⟩ : p.read = s.read ∧ p.written = s.written ∧ p.up = s.up := by
    simpa [observe] using hview
  rw [← hread]
  exact (exec_origins hp).written site frame (hwrite ▸ hwritten)

/-! ## Who stays up -/

/-- No tap fails, nor `recvfrom` of the server, and a datagram that is received fits the
buffer for it. -/
def Harmless (s : TunnelNet (List UInt8)) : TunnelOp → Prop
  | .clientTap _ none _ _ | .serverTap none _ _ _ | .serverUdp none _ _ _ => False
  | .clientUdp a (some i) _ =>
    ∀ p, s.delivered (.client a) i = some p → p.payload.length ≤ bridgeMtu
  | .serverUdp (some i) _ _ _ =>
    ∀ p, s.delivered .server i = some p → p.payload.length ≤ bridgeMtu
  | _ => True

namespace UpLemmas

variable {evp : Evp} {key : AesKey} {s s' : TunnelNet (List UInt8)}

end UpLemmas

open UpLemmas

namespace Demo

open Server.Demo

/-- Client A asks, and is answered by a frame from the server's tap while its own waits
in the handler of the tap. -/
def answered : List TunnelOp :=
  [.switch readTap, .serverTap (some (frame 9 8)) 0 0 fun _ _ => 0,
    .clientTap peerA (some (frame 8 1)) NetTraverse.Demo.iv fun _ _ => 0,
    .switch readUdp, .serverUdp (some 0) 1 1 fun _ _ => 0,
    .proceed NetTraverse.Demo.iv fun _ _ => 0, .switch readTap,
    .serverTap (some (frame 1 8)) 1 1 fun _ _ => 0,
    .proceed NetTraverse.Demo.iv fun _ _ => 0, .clientUdp peerA (some 1) fun _ _ => 0]

theorem plain_answered : (exec (step plain) init answered).map (fun s => (s.read, s.written)) =
    some ([(.server, frame 9 8), (.client peerA, frame 8 1), (.server, frame 1 8)],
      [(.server, frame 8 1), (.client peerA, frame 1 8)]) := by
  decide +kernel

/-- The encrypted tunnel does the same. -/
theorem encrypted_answered : ∃ s, exec (step (encrypted .openssl NetTraverse.Demo.key)) init
    answered = some s ∧
      s.read = [(.server, frame 9 8), (.client peerA, frame 8 1), (.server, frame 1 8)] ∧
      s.written = [(.server, frame 8 1), (.client peerA, frame 1 8)] := by
  have hobserved := encrypted_observed .openssl NetTraverse.Demo.key answered
  obtain ⟨p, hp, hview⟩ := Option.map_eq_some_iff.mp plain_answered
  rw [hp] at hobserved
  obtain ⟨s, hs, heq⟩ := Option.map_eq_some_iff.mp hobserved
  have hread : s.read = p.read := congrArg (·.1) heq
  have hwritten : s.written = p.written := congrArg (·.2.1) heq
  simp only [Prod.mk.injEq] at hview
  exact ⟨s, hs, hread.trans hview.1, hwritten.trans hview.2⟩

end Demo

theorem tunnel_isolates_demo :
    Source [(.server, Server.Demo.frame 9 8), (.client Server.Demo.peerA, Server.Demo.frame 8 1),
      (.server, Server.Demo.frame 1 8)] (Server.Demo.frame 1 8) (.client Server.Demo.peerA) := by
  obtain ⟨s, hs, hread, hwritten⟩ := Demo.encrypted_answered
  rw [← hread]
  exact tunnel_isolates _ _ _ hs (by simp [hwritten])

end TunnelNet

end NetTraverse
