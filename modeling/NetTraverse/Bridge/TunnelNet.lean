import NetTraverse.Bridge.Reply

/-!
# The tunnel as a network

The server with its coroutines, any number of clients, their taps, and the
datagrams between them. The network loses, repeats, delays and reorders datagrams:
a round that receives one may take any that was ever sent. A round of a client is
one step, since what it sends may be delayed by the network as well as by `sendto`;
the rounds of the server are those of `Server`, with every interleaving of its
coroutines.

The steps are those of a `Link`, which says how a frame becomes a datagram and back.
The link of the code encrypts; `plain` is what the tunnel is for, and sends the frames
themselves. `encrypted_observed` says that nobody at the taps can tell them apart.
-/

namespace NetTraverse

open FaultLemmas TunnelLemmas

inductive Site where
  | server
  | client (a : UdpAddr)
deriving DecidableEq, Repr

/-- A datagram that was sent. -/
structure Packet (D : Type) where
  source : Site
  target : Site
  payload : D

/-- What the rounds do between a tap and the network. `none` is a `recvfrom` that
fails. The first argument is what `new` leaves in the memory. -/
structure Link (D : Type) where
  clientReadTap : (Nat → Nat → UInt8) → AesIv → List UInt8 → Except Fault D
  clientReadUdp : (Nat → Nat → UInt8) → Option D → Except Fault (Option (List UInt8))
  serverReadUdp : (Nat → Nat → UInt8) → Option D → Except Fault ByteBuffer
  serverReply : (Nat → Nat → UInt8) → AesIv → ByteBuffer → Except Fault D

/-- What `recvfrom` returns. -/
def RecvResult.ofOption : Option (List UInt8) → RecvResult
  | none => .error
  | some bytes => .datagram bytes

/-- The link of the code. -/
def encrypted (evp : Evp) (key : AesKey) : Link (List UInt8) where
  clientReadTap junk iv frame := NetTraverse.clientReadTap evp junk key iv frame
  clientReadUdp junk next := NetTraverse.clientReadUdp evp junk key (.ofOption next)
  serverReadUdp junk next := NetTraverse.serverReadUdp evp junk key (.ofOption next)
  serverReply junk iv buffer := NetTraverse.serverReply evp junk key iv buffer

/-- The longest frame whose datagram fits the buffer that it is received into. -/
def maxFrame : Nat := 1471

/-- The frames themselves. A longer one stops who receives it. -/
def plain : Link (List UInt8) where
  clientReadTap _ _ frame := .ok frame
  clientReadUdp _ next :=
    match next with
    | none => .ok none
    | some frame => if frame.length ≤ maxFrame then .ok (some frame) else .error .exception
  serverReadUdp _ next :=
    match next with
    | none => .error .outOfBounds
    | some frame =>
      if frame.length ≤ maxFrame then .ok (.ofBytes frame) else .error .exception
  serverReply _ _ buffer := .ok buffer.content

/-- The server's `read_tap` up to `bridge.forward`, on a frame that fits its
buffer. -/
def serverReadTap (junk : Nat → Nat → UInt8) (frame : List UInt8) : Except Fault ByteBuffer := do
  let buffer := ByteBuffer.ofSize (junk 5) bridgeMtu
  let buffer ← buffer.write 0 frame
  buffer.resize (junk 6) (sizeT frame.length)

structure TunnelNet (D : Type) where
  server : Server
  /-- What the calls of `forward` in progress were called with. -/
  buffers : CoId → ByteBuffer
  /-- All that was ever sent. -/
  packets : List (Packet D)
  up : Site → Bool
  /-- What the taps handed out, and what was written to them. -/
  read : List (Site × List UInt8)
  written : List (Site × List UInt8)

/-- A tap hands out a frame or fails; the network hands out the datagram with a
given number, or `recvfrom` fails. The other steps are those of the server. -/
inductive TunnelOp where
  | clientTap (a : UdpAddr) (frame : Option (List UInt8)) (iv : AesIv) (junk : Nat → Nat → UInt8)
  | clientUdp (a : UdpAddr) (next : Option Nat) (junk : Nat → Nat → UInt8)
  | serverTap (frame : Option (List UInt8)) (t₁ t₂ : Int) (junk : Nat → Nat → UInt8)
  | serverUdp (next : Option Nat) (t₁ t₂ : Int) (junk : Nat → Nat → UInt8)
  | proceed (iv : AesIv) (junk : Nat → Nat → UInt8)
  | switch (c : CoId)
  | handlerReturn
  | nextRound

/-- Who takes the step. -/
def TunnelOp.site : TunnelOp → Site
  | .clientTap a _ _ _ | .clientUdp a _ _ => .client a
  | _ => .server

namespace TunnelNet

variable {D : Type} (link : Link D) (s : TunnelNet D)

def init : TunnelNet D := ⟨.init, fun _ => .empty, [], fun _ => true, [], []⟩

/-- The process ends. -/
def down (site : Site) : TunnelNet D := { s with up := Function.update s.up site false }

/-- An exception that leaves the loop ends the process, and so does the first access
outside a buffer. -/
def orDown {α : Type} (site : Site) (r : Except Fault α) (k : α → Option (TunnelNet D)) :
    Option (TunnelNet D) :=
  match r with
  | .error _ => some (s.down site)
  | .ok x => k x

def send (source target : Site) (payload : D) : TunnelNet D :=
  { s with packets := s.packets ++ [⟨source, target, payload⟩] }

def handOut (site : Site) (frame : List UInt8) : TunnelNet D :=
  { s with read := s.read ++ [(site, frame)] }

def writeTap (site : Site) (frame : List UInt8) : TunnelNet D :=
  { s with written := s.written ++ [(site, frame)] }

/-- `forward` is called by the running coroutine. -/
def forward (server : Server) (buffer : ByteBuffer) : TunnelNet D :=
  { s with
    server := server
    buffers := Function.update s.buffers s.server.bridge.current buffer }

/-- A handler, called by the running coroutine. To send to an address that is
cleared fails, and is reported. -/
def reply (iv : AesIv) (junk : Nat → Nat → UInt8) (t : ReplyHandler) :
    Except Fault (TunnelNet D) := do
  let buffer := s.buffers s.server.bridge.current
  match t with
  | .tap =>
    let frame ← buffer.read 0 buffer.size
    .ok (s.writeTap .server frame)
  | .udp =>
    let payload ← link.serverReply junk iv buffer
    match s.server.target t with
    | some a => .ok (s.send .server (.client a) payload)
    | none => .ok s

/-- A step of the server that neither receives nor sends. -/
def serverStep (op : ServerOp) : Option (TunnelNet D) :=
  (s.server.step op).map fun server => { s with server := server }

/-- The datagram with a given number, when it is one for `site`. -/
def delivered (site : Site) (i : Nat) : Option (Packet D) :=
  s.packets[i]?.filter fun p => p.target = site

def stepUp : TunnelOp → Option (TunnelNet D)
  | .clientTap a none _ _ => some (s.down (.client a))
  | .clientTap a (some frame) iv junk =>
    if frame.length ≤ bridgeMtu then
      (s.handOut (.client a) frame).orDown (.client a) (link.clientReadTap junk iv frame)
        fun payload => some ((s.handOut (.client a) frame).send (.client a) .server payload)
    else none
  | .clientUdp a none junk => s.orDown (.client a) (link.clientReadUdp junk none) fun _ => some s
  | .clientUdp a (some i) junk =>
    (s.delivered (.client a) i).bind fun p =>
      s.orDown (.client a) (link.clientReadUdp junk (some p.payload)) fun frame =>
        some (frame.elim s (s.writeTap (.client a)))
  | .serverTap none _ _ _ =>
    if s.server.bridge.current = readTap ∧ s.server.bridge.call.isNone then
      some (s.down .server)
    else none
  | .serverTap (some frame) t₁ t₂ junk =>
    if frame.length ≤ bridgeMtu then
      s.orDown .server (serverReadTap junk frame) fun buffer =>
        (s.server.step (.tapFrame buffer.content t₁ t₂)).map fun server =>
          (s.handOut .server frame).forward server buffer
    else none
  | .serverUdp none _ _ junk =>
    if s.server.bridge.current = readUdp ∧ s.server.receiving then
      -- the round does not get as far as `forward`
      s.orDown .server (link.serverReadUdp junk none) fun _ => none
    else none
  | .serverUdp (some i) t₁ t₂ junk =>
    (s.delivered .server i).bind fun p =>
      if s.server.bridge.current = readUdp ∧ s.server.receiving then
        s.orDown .server (link.serverReadUdp junk (some p.payload)) fun buffer =>
          match p.source with
          | .server => none
          | .client a => (s.server.step (.datagram a buffer.content t₁ t₂)).map fun server =>
            s.forward server buffer
      else none
  | .proceed iv junk =>
    (s.server.step .proceed).bind fun server =>
      match s.server.bridge.calling with
      | none => some { s with server := server }
      | some (_, t) => s.orDown .server (s.reply link iv junk t) fun s' =>
        some { s' with server := server }
  | .switch c => s.serverStep (.switch c)
  | .handlerReturn => s.serverStep .handlerReturn
  | .nextRound => s.serverStep .nextRound

/-- A process that has ended takes no step. -/
def step (s : TunnelNet D) (op : TunnelOp) : Option (TunnelNet D) :=
  if s.up op.site then stepUp link s op else none

end TunnelNet

/-! ## What a link has to do -/

/-- The buffer has the frame as its content. -/
structure ByteBuffer.Holds (b : ByteBuffer) (frame : List UInt8) : Prop where
  fits : b.Fits
  content : b.content = frame
  short : frame.length ≤ bridgeMtu

/-- `seals d frame` says that `d` is a datagram of the frame. A receiver gets the frame
back, or does not survive. -/
structure Link.Seals {D : Type} (link : Link D) (seals : D → List UInt8 → Prop) : Prop where
  clientReadTap : ∀ junk iv frame, frame.length ≤ bridgeMtu →
    ∃ d, link.clientReadTap junk iv frame = .ok d ∧ seals d frame
  serverReply : ∀ junk iv buffer frame, ByteBuffer.Holds buffer frame →
    ∃ d, link.serverReply junk iv buffer = .ok d ∧ seals d frame
  clientReadUdp : ∀ junk d frame, seals d frame → frame.length ≤ maxFrame →
    link.clientReadUdp junk (some d) = .ok (some frame)
  serverReadUdp : ∀ junk d frame, seals d frame → frame.length ≤ maxFrame →
    ∃ buffer, link.serverReadUdp junk (some d) = .ok buffer ∧ buffer.Holds frame
  clientCut : ∀ junk d frame, seals d frame → ¬ frame.length ≤ maxFrame →
    ∃ e, link.clientReadUdp junk (some d) = .error e
  serverCut : ∀ junk d frame, seals d frame → ¬ frame.length ≤ maxFrame →
    ∃ e, link.serverReadUdp junk (some d) = .error e
  clientError : ∀ junk, link.clientReadUdp junk none = .ok none
  serverError : ∀ junk, ∃ e, link.serverReadUdp junk none = .error e

namespace TunnelNetLemmas

open ServerLemmas

/-- The datagrams of a frame. -/
def Encrypts (evp : Evp) (key : AesKey) (d frame : List UInt8) : Prop :=
  ∃ iv, d = datagram evp key iv frame

theorem serverReadTap_ok (junk : Nat → Nat → UInt8) {frame : List UInt8}
    (h : frame.length ≤ bridgeMtu) :
    ∃ buffer, serverReadTap junk frame = .ok buffer ∧ buffer.Holds frame := by
  obtain ⟨mem, hwrite⟩ : ∃ mem, (ByteBuffer.ofSize (junk 5) bridgeMtu).write 0 frame =
      .ok ⟨frame ++ mem, bridgeMtu⟩ :=
    ⟨_, ByteBuffer.write_front (by rwa [length_newBytes])⟩
  have hresize : ByteBuffer.resize ⟨frame ++ mem, bridgeMtu⟩ (junk 6)
      (sizeT (frame.length : Nat)) = .ok ⟨frame ++ mem, frame.length⟩ := by
    rw [sizeT_of_lt (by unfold bridgeMtu at h; omega)]
    exact ByteBuffer.resize_of_le h
  refine ⟨_, (bind_ok hwrite _).trans hresize, ?_, ?_, h⟩
  · simp [ByteBuffer.Fits]
  · simp [ByteBuffer.content]

theorem plain_seals : plain.Seals Eq where
  clientReadTap _ _ frame _ := ⟨frame, rfl, rfl⟩
  serverReply _ _ buffer _ h := ⟨buffer.content, rfl, h.content⟩
  clientReadUdp _ _ _ h hle := by
    subst h
    exact if_pos hle
  serverReadUdp _ d _ h hle := by
    subst h
    exact ⟨.ofBytes d, if_pos hle, ByteBuffer.ofBytes_fits d, ByteBuffer.ofBytes_content d,
      hle.trans (by decide)⟩
  clientCut _ _ _ h hlong := by
    subst h
    exact ⟨_, if_neg hlong⟩
  serverCut _ _ _ h hlong := by
    subst h
    exact ⟨_, if_neg hlong⟩
  clientError _ := rfl
  serverError _ := ⟨_, rfl⟩

theorem holds_of_read {b : ByteBuffer} {frame : List UInt8} (hread : b.read 0 b.size = .ok frame)
    (hshort : frame.length ≤ bridgeMtu) : b.Holds frame := by
  have hfits : b.Fits := by
    by_contra hnot
    rw [ByteBuffer.read_of_lt (by unfold ByteBuffer.Fits at hnot; omega)] at hread
    cases hread
  rw [ByteBuffer.read_content hfits] at hread
  exact ⟨hfits, Except.ok.inj hread, hshort⟩

theorem not_lt_of_not_le {frame : List UInt8} (h : ¬ frame.length ≤ maxFrame) :
    ¬ frame.length < 1472 := fun hlt => h (Nat.le_of_lt_succ hlt)

theorem encrypted_seals (evp : Evp) (key : AesKey) :
    (encrypted evp key).Seals (Encrypts evp key) where
  clientReadTap junk iv frame h := ⟨_, clientReadTap_eq h, iv, rfl⟩
  serverReply junk iv buffer frame h := by
    have hsize : buffer.size + 16 < 2 ^ 31 := by
      have hlen := ByteBuffer.length_content h.fits
      have hshort := h.short
      rw [h.content] at hlen
      unfold bridgeMtu at hshort
      omega
    refine ⟨_, sendEncrypted_eq h.fits hsize, iv, ?_⟩
    rw [h.content]
  clientReadUdp junk d frame h hle := by
    obtain ⟨iv, rfl⟩ := h
    obtain ⟨b, hopened, hread⟩ := opened_datagram evp junk key iv (Nat.lt_succ_of_le hle)
    refine (clientReadUdp_datagram _).trans ?_
    rw [hopened]
    exact congrArg (Except.map some) hread
  serverReadUdp junk d frame h hle := by
    obtain ⟨iv, rfl⟩ := h
    obtain ⟨b, hopened, hread⟩ := opened_datagram evp junk key iv (Nat.lt_succ_of_le hle)
    exact ⟨b, (serverReadUdp_datagram _).trans hopened,
      holds_of_read hread (hle.trans (by decide))⟩
  clientCut junk d frame h hlong := by
    obtain ⟨iv, rfl⟩ := h
    refine ⟨.exception, (clientReadUdp_datagram _).trans ?_⟩
    rw [opened_cut (not_lt_of_not_le hlong)]
    rfl
  serverCut junk d frame h hlong := by
    obtain ⟨iv, rfl⟩ := h
    exact ⟨_, (serverReadUdp_datagram _).trans (opened_cut (not_lt_of_not_le hlong))⟩
  clientError junk := rfl
  serverError junk := ⟨_, serverReadUdp_error⟩

end TunnelNetLemmas

namespace TunnelNet

/-! ## Two links side by side -/

variable {D D' : Type} {link : Link D} {link' : Link D'} {seals : D → List UInt8 → Prop}
  {seals' : D' → List UInt8 → Prop}

/-- Datagrams of one frame, between the same sites. -/
structure Twin (seals : D → List UInt8 → Prop) (seals' : D' → List UInt8 → Prop)
    (p : Packet D) (p' : Packet D') : Prop where
  source : p.source = p'.source
  target : p.target = p'.target
  payload : ∃ frame, seals p.payload frame ∧ seals' p'.payload frame

/-- The same but for what the datagrams are. -/
structure Alike (seals : D → List UInt8 → Prop) (seals' : D' → List UInt8 → Prop)
    (s : TunnelNet D) (s' : TunnelNet D') : Prop where
  server : s.server = s'.server
  buffers : ∀ c, ∃ frame, (s.buffers c).Holds frame ∧ (s'.buffers c).Holds frame
  packets : List.Forall₂ (Twin seals seals') s.packets s'.packets
  up : s.up = s'.up
  read : s.read = s'.read
  written : s.written = s'.written

namespace AlikeLemmas

open TunnelNetLemmas Transition

variable {s : TunnelNet D} {s' : TunnelNet D'}

theorem init_alike : Alike seals seals' init init where
  server := rfl
  buffers _ := ⟨[], ⟨ByteBuffer.empty_fits, rfl, Nat.zero_le _⟩,
    ⟨ByteBuffer.empty_fits, rfl, Nat.zero_le _⟩⟩
  packets := .nil
  up := rfl
  read := rfl
  written := rfl

theorem down_alike (h : Alike seals seals' s s') (site : Site) :
    Alike seals seals' (s.down site) (s'.down site) :=
  { h with up := by rw [down, down, h.up] }

theorem handOut_alike (h : Alike seals seals' s s') (site : Site) (frame : List UInt8) :
    Alike seals seals' (s.handOut site frame) (s'.handOut site frame) :=
  { h with read := congrArg (· ++ [(site, frame)]) h.read }

theorem writeTap_alike (h : Alike seals seals' s s') (site : Site) (frame : List UInt8) :
    Alike seals seals' (s.writeTap site frame) (s'.writeTap site frame) :=
  { h with written := congrArg (· ++ [(site, frame)]) h.written }

theorem send_alike (h : Alike seals seals' s s') (source target : Site) {d : D} {d' : D'}
    {frame : List UInt8} (hd : seals d frame) (hd' : seals' d' frame) :
    Alike seals seals' (s.send source target d) (s'.send source target d') :=
  { h with packets := List.rel_append h.packets (.cons ⟨rfl, rfl, frame, hd, hd'⟩ .nil) }

theorem server_alike (h : Alike seals seals' s s') (server : Server) :
    Alike seals seals' { s with server := server } { s' with server := server } :=
  { h with server := rfl }

theorem forward_alike (h : Alike seals seals' s s') (server : Server) {b b' : ByteBuffer}
    {frame : List UInt8} (hb : b.Holds frame) (hb' : b'.Holds frame) :
    Alike seals seals' (s.forward server b) (s'.forward server b') where
  server := rfl
  buffers c := by
    simp only [forward, h.server, Function.update_apply]
    split
    · exact ⟨frame, hb, hb'⟩
    · exact h.buffers c
  packets := h.packets
  up := h.up
  read := h.read
  written := h.written

theorem getElem?_twin {ps : List (Packet D)} {ps' : List (Packet D')}
    (h : List.Forall₂ (Twin seals seals') ps ps') (i : Nat) :
    Option.Rel (Twin seals seals') ps[i]? ps'[i]? := by
  induction h generalizing i with
  | nil => exact .none
  | cons hp _ ih =>
    cases i with
    | zero => exact .some hp
    | succ i => exact ih i

theorem delivered_alike (h : Alike seals seals' s s') (site : Site) (i : Nat) :
    Option.Rel (Twin seals seals') (s.delivered site i) (s'.delivered site i) := by
  have hget := getElem?_twin h.packets i
  unfold delivered
  generalize s.packets[i]? = x at hget
  generalize s'.packets[i]? = x' at hget
  cases hget with
  | none => exact .none
  | some hp =>
    rw [Option.filter_some, Option.filter_some, hp.target]
    split
    · exact .some hp
    · exact .none

theorem rel_map {f : Server → TunnelNet D} {f' : Server → TunnelNet D'} {x : Option Server}
    (hf : ∀ server, Alike seals seals' (f server) (f' server)) :
    Option.Rel (Alike seals seals') (x.map f) (x.map f') := by
  cases x with
  | none => exact .none
  | some server => exact .some (hf server)

/-- Both rounds fail, or neither does. -/
theorem orDown_error (h : Alike seals seals' s s') {site : Site} {α α' : Type}
    {r : Except Fault α} {r' : Except Fault α'} {k : α → Option (TunnelNet D)}
    {k' : α' → Option (TunnelNet D')} (hr : ∃ e, r = .error e) (hr' : ∃ e, r' = .error e) :
    Option.Rel (Alike seals seals') (s.orDown site r k) (s'.orDown site r' k') := by
  obtain ⟨e, rfl⟩ := hr
  obtain ⟨e', rfl⟩ := hr'
  exact .some (down_alike h site)

theorem serverStep_alike (h : Alike seals seals' s s') (op : ServerOp) :
    Option.Rel (Alike seals seals') (s.serverStep op) (s'.serverStep op) := by
  rw [serverStep, serverStep, h.server]
  exact rel_map fun server => server_alike h server

theorem reply_alike (hlink : link.Seals seals) (hlink' : link'.Seals seals')
    (h : Alike seals seals' s s') (iv : AesIv) (junk : Nat → Nat → UInt8) (t : ReplyHandler) :
    ∃ r r', s.reply link iv junk t = .ok r ∧ s'.reply link' iv junk t = .ok r' ∧
      Alike seals seals' r r' := by
  obtain ⟨frame, hb, hb'⟩ := h.buffers s.server.bridge.current
  have hcurrent : s'.server.bridge.current = s.server.bridge.current := by rw [h.server]
  cases t with
  | tap =>
    refine ⟨s.writeTap .server frame, s'.writeTap .server frame, ?_, ?_, writeTap_alike h _ _⟩
    · rw [reply]
      exact bind_ok ((ByteBuffer.read_content hb.fits).trans (congrArg _ hb.content)) _
    · rw [reply, hcurrent]
      exact bind_ok ((ByteBuffer.read_content hb'.fits).trans (congrArg _ hb'.content)) _
  | udp =>
    obtain ⟨d, hd, hseals⟩ := hlink.serverReply junk iv _ _ hb
    obtain ⟨d', hd', hseals'⟩ := hlink'.serverReply junk iv _ _ hb'
    have hr : s.reply link iv junk .udp = match s.server.target .udp with
        | some a => .ok (s.send .server (.client a) d)
        | none => .ok s := bind_ok hd _
    have hr' : s'.reply link' iv junk .udp = match s.server.target .udp with
        | some a => .ok (s'.send .server (.client a) d')
        | none => .ok s' := by
      rw [reply, hcurrent, ← h.server]
      exact bind_ok hd' _
    cases htarget : s.server.target .udp with
    | none =>
      rw [htarget] at hr hr'
      exact ⟨s, s', hr, hr', h⟩
    | some a =>
      rw [htarget] at hr hr'
      exact ⟨_, _, hr, hr', send_alike h _ _ hseals hseals'⟩

/-- One step, whatever the links make of the frames. -/
theorem stepUp_alike (hlink : link.Seals seals) (hlink' : link'.Seals seals')
    (h : Alike seals seals' s s') (op : TunnelOp) :
    Option.Rel (Alike seals seals') (s.stepUp link op) (s'.stepUp link' op) := by
  cases op with
  | clientTap a next iv junk =>
    cases next with
    | none => exact .some (down_alike h _)
    | some frame =>
      simp only [stepUp]
      split
      · next hle =>
        obtain ⟨d, hd, hseals⟩ := hlink.clientReadTap junk iv frame hle
        obtain ⟨d', hd', hseals'⟩ := hlink'.clientReadTap junk iv frame hle
        rw [hd, hd']
        exact .some (send_alike (handOut_alike h _ frame) _ _ hseals hseals')
      · exact .none
  | clientUdp a next junk =>
    cases next with
    | none =>
      rw [stepUp, stepUp, hlink.clientError, hlink'.clientError]
      exact .some h
    | some i =>
      refine rel_bind (delivered_alike h _ i) fun p p' hp => ?_
      obtain ⟨frame, hseals, hseals'⟩ := hp.payload
      by_cases hle : frame.length ≤ maxFrame
      · rw [hlink.clientReadUdp junk _ _ hseals hle, hlink'.clientReadUdp junk _ _ hseals' hle]
        exact .some (writeTap_alike h _ frame)
      · exact orDown_error h (hlink.clientCut junk _ _ hseals hle)
          (hlink'.clientCut junk _ _ hseals' hle)
  | serverTap next t₁ t₂ junk =>
    cases next with
    | none =>
      rw [stepUp, stepUp, h.server]
      split
      · exact .some (down_alike h _)
      · exact .none
    | some frame =>
      simp only [stepUp]
      split
      · next hle =>
        obtain ⟨buffer, hread, hb⟩ := serverReadTap_ok junk hle
        rw [hread, h.server]
        exact rel_map fun server => forward_alike (handOut_alike h _ frame) server hb hb
      · exact .none
  | serverUdp next t₁ t₂ junk =>
    cases next with
    | none =>
      rw [stepUp, stepUp, h.server]
      split
      · exact orDown_error h (hlink.serverError junk) (hlink'.serverError junk)
      · exact .none
    | some i =>
      refine rel_bind (delivered_alike h _ i) fun p p' hp => ?_
      rw [h.server]
      split
      · obtain ⟨frame, hseals, hseals'⟩ := hp.payload
        by_cases hle : frame.length ≤ maxFrame
        · obtain ⟨b, hread, hb⟩ := hlink.serverReadUdp junk _ _ hseals hle
          obtain ⟨b', hread', hb'⟩ := hlink'.serverReadUdp junk _ _ hseals' hle
          rw [hread, hread', hp.source]
          simp only [orDown, hb.content, hb'.content]
          cases p'.source with
          | server => exact .none
          | client a => exact rel_map fun server => forward_alike h server hb hb'
        · exact orDown_error h (hlink.serverCut junk _ _ hseals hle)
            (hlink'.serverCut junk _ _ hseals' hle)
      · exact .none
  | proceed iv junk =>
    rw [stepUp, stepUp, h.server]
    cases s'.server.step .proceed with
    | none => exact .none
    | some server =>
      simp only [Option.bind_some]
      cases s'.server.bridge.calling with
      | none => exact .some (server_alike h server)
      | some call =>
        obtain ⟨mac, t⟩ := call
        obtain ⟨r, r', hr, hr', hrr⟩ := reply_alike hlink hlink' h iv junk t
        simp only [hr, hr']
        exact .some (server_alike hrr server)
  | switch c => exact serverStep_alike h _
  | handlerReturn => exact serverStep_alike h _
  | nextRound => exact serverStep_alike h _

theorem step_alike (hlink : link.Seals seals) (hlink' : link'.Seals seals')
    (h : Alike seals seals' s s') (op : TunnelOp) :
    Option.Rel (Alike seals seals') (step link s op) (step link' s' op) := by
  rw [step, step, h.up]
  split
  · exact stepUp_alike hlink hlink' h op
  · exact .none

theorem exec_alike (hlink : link.Seals seals) (hlink' : link'.Seals seals')
    (ops : List TunnelOp) :
    Option.Rel (Alike seals seals') (exec (step link) init ops) (exec (step link') init ops) :=
  exec_lockstep (fun _ _ op h => step_alike hlink hlink' h op) ops init_alike

end AlikeLemmas

open AlikeLemmas TunnelNetLemmas Transition

/-- What the taps saw, and who still runs. -/
def observe {D : Type} (s : TunnelNet D) :
    List (Site × List UInt8) × List (Site × List UInt8) × (Site → Bool) :=
  (s.read, s.written, s.up)

theorem Alike.observe_eq {s : TunnelNet D} {s' : TunnelNet D'} (h : Alike seals seals' s s') :
    s.observe = s'.observe := by
  rw [observe, observe, h.read, h.written, h.up]

/-- The encrypted tunnel can do what the plain one can, and looks the same from the
taps. -/
theorem encrypted_observed (evp : Evp) (key : AesKey) (ops : List TunnelOp) :
    (exec (step (encrypted evp key)) init ops).map observe =
      (exec (step plain) init ops).map observe := by
  have hrel := exec_alike (encrypted_seals evp key) plain_seals ops
  generalize exec (step (encrypted evp key)) init ops = x at hrel
  generalize exec (step plain) init ops = y at hrel
  cases hrel with
  | none => rfl
  | some h => exact congrArg some h.observe_eq

end TunnelNet

end NetTraverse
