import NetTraverse.Bridge.Broadcast
import NetTraverse.Bridge.Server

/-!
# Where the server sends a frame

`read_tap` and `read_udp` of the server on one bridge. The reply handler of
`read_udp` captures by reference the `addr` of the round that creates it. Every
round has its `addr` at the same place in the frame of `read_udp`, so a stored
handler sends to whatever the round of the moment has there.
`repliesToLearned_iff` says when that is the peer that the address was learned
from.
-/

namespace NetTraverse

/-- `ipv4()` and `port()` of an `address`. -/
structure UdpAddr where
  ipv4 : UInt32
  port : UInt16
deriving DecidableEq, Repr

/-- What happened so far. -/
structure History where
  /-- The peer whose datagram `read_udp` is at work on. -/
  handling : Option UdpAddr
  /-- The peer whose datagram brought the most recent frame from an address;
  `none` when that came from the tap, or there is none. -/
  learned : EtherAddr → Option UdpAddr

namespace History

variable (h : History)

/-- A frame that came from a peer or the tap. -/
def frame (buffer : List UInt8) (origin : Option UdpAddr) : History :=
  if buffer.length < etherHeaderSize then h
  else { h with learned := Function.update h.learned (frameSrc buffer) origin }

end History

/-- The coroutines of the server. -/
def readTap : CoId := 1
def readUdp : CoId := 2

structure Server where
  bridge : EthernetBridge ReplyHandler
  /-- The storage of `addr` in the loop of `read_udp`. The constructor clears
  it. -/
  addr : Option UdpAddr
  /-- `read_udp` is in `async_read_from`. -/
  receiving : Bool
  history : History

/-- `tapFrame` and `datagram` are what the two reads return, the latter with the
frame that the datagram decrypts to. `nextRound` is the way from `forward` back to
`async_read_from`. -/
inductive ServerOp where
  | switch (c : CoId)
  | tapFrame (frame : List UInt8) (t₁ t₂ : Int)
  | datagram (peer : UdpAddr) (frame : List UInt8) (t₁ t₂ : Int)
  | proceed
  | handlerReturn
  | nextRound

/-- The call of a handler: for which address, where that was learned, and where
the handler sends to. -/
structure Reply where
  mac : EtherAddr
  learned : Option UdpAddr
  target : Option UdpAddr
deriving DecidableEq

/-- A frame for an address that was learned from a peer goes to that peer. -/
def Reply.ToLearned (r : Reply) : Prop := ∀ a, r.learned = some a → r.target = some a

namespace Server

def init : Server := ⟨.init, none, true, ⟨none, fun _ => none⟩⟩

variable (s : Server)

/-- `read_udp` is outside `forward` and has not read on. -/
def betweenRounds : Bool :=
  s.bridge.current == readUdp && s.bridge.call.isNone && !s.receiving

def step (s : Server) : ServerOp → Option Server
  | .switch c =>
    if s.betweenRounds then none
    else (s.bridge.step (.switch c)).map fun b => { s with bridge := b }
  | .tapFrame frame t₁ t₂ =>
    if s.bridge.current = readTap then
      (s.bridge.step (.forward frame .tap t₁ t₂)).map fun b =>
        { s with bridge := b, history := s.history.frame frame none }
    else none
  | .datagram peer frame t₁ t₂ =>
    if s.bridge.current = readUdp ∧ s.receiving then
      (s.bridge.step (.forward frame .udp t₁ t₂)).map fun b =>
        { s with
          bridge := b
          addr := some peer
          receiving := false
          history := { s.history.frame frame (some peer) with handling := some peer } }
    else none
  | .proceed => (s.bridge.step .proceed).map fun b => { s with bridge := b }
  | .handlerReturn => (s.bridge.step .handlerReturn).map fun b => { s with bridge := b }
  | .nextRound =>
    if s.betweenRounds then
      some { s with
        addr := none
        receiving := true
        history := { s.history with handling := none } }
    else none

/-- The address that a handler passes to `sendto`. -/
def target : ReplyHandler → Option UdpAddr
  | .tap => none
  | .udp => s.addr

/-- The handlers that a step calls. -/
def replies : ServerOp → List Reply
  | .proceed => s.bridge.calling.toList.map fun (mac, t) => ⟨mac, s.history.learned mac, s.target t⟩
  | _ => []

/-- When the handler of an address that was learned from a peer is called,
`read_udp` is at work on a datagram from that peer. -/
def InRound : ServerOp → Prop
  | .proceed => ∀ mac t a, s.bridge.calling = some (mac, t) → s.history.learned mac = some a →
      s.history.handling = some a
  | _ => True

structure Inv : Prop where
  bridge : s.bridge.Inv
  addr : s.addr = s.history.handling
  /-- Addresses that were learned from a peer have the handler of `read_udp`. -/
  stores : s.bridge.Stores fun mac t => (s.history.learned mac).isSome → t = .udp

/-! ## The steps -/

variable {s} {s' : Server} {a : ServerOp}

namespace ReplyLemmas

open EthernetBridge EthernetBridge.BroadcastLemmas

theorem learned_frame {h : History} {buffer : List UInt8} {origin : Option UdpAddr}
    {k : EtherAddr} (hk : etherHeaderSize ≤ buffer.length → k ≠ frameSrc buffer) :
    (h.frame buffer origin).learned k = h.learned k := by
  rw [History.frame]
  split
  · rfl
  · next hlong => exact Function.update_of_ne (hk (not_lt.mp hlong)) _ _

theorem learned_frame_src {h : History} {buffer : List UInt8} {origin : Option UdpAddr}
    (hlong : etherHeaderSize ≤ buffer.length) :
    (h.frame buffer origin).learned (frameSrc buffer) = origin := by
  rw [History.frame, if_neg (not_lt.mpr hlong)]
  exact Function.update_self _ _ _

/-- A frame is learned by the table and by the history alike. -/
theorem stores_frame {b : EthernetBridge ReplyHandler} {buffer : List UInt8}
    {origin : Option UdpAddr} {t : ReplyHandler} {t₁ t₂ : Int} (hinv : s.Inv)
    (horigin : origin.isSome → t = .udp)
    (hb : s.bridge.step (.forward buffer t t₁ t₂) = some b) :
    b.Stores fun mac t => ((s.history.frame buffer origin).learned mac).isSome → t = .udp := by
  cases step_cases hb with
  | forward hidle =>
    refine stores_forward hinv.bridge hidle hinv.stores ?_ ?_
    · intro k t hk h
      rwa [learned_frame hk]
    · intro hlong
      rwa [learned_frame_src hlong]

theorem step_inv (hinv : s.Inv) (h : s.step a = some s') : s'.Inv := by
  have hother {b : EthernetBridge ReplyHandler} {op : BridgeOp ReplyHandler}
      (hop : ∀ buffer t t₁ t₂, op ≠ .forward buffer t t₁ t₂) (hb : s.bridge.step op = some b) :
      Inv { s with bridge := b } :=
    ⟨BroadcastLemmas.step_inv hinv.bridge (step_cases hb), hinv.addr,
      stores_step hinv.stores (step_cases hb) hop⟩
  cases a with
  | switch c =>
    rw [step] at h
    split at h
    · cases h
    · obtain ⟨b, hb, rfl⟩ := Option.map_eq_some_iff.mp h
      exact hother (by simp) hb
  | proceed =>
    obtain ⟨b, hb, rfl⟩ := Option.map_eq_some_iff.mp h
    exact hother (by simp) hb
  | handlerReturn =>
    obtain ⟨b, hb, rfl⟩ := Option.map_eq_some_iff.mp h
    exact hother (by simp) hb
  | tapFrame frame t₁ t₂ =>
    rw [step] at h
    split at h
    · obtain ⟨b, hb, rfl⟩ := Option.map_eq_some_iff.mp h
      refine ⟨BroadcastLemmas.step_inv hinv.bridge (step_cases hb), ?_,
        stores_frame hinv (by simp) hb⟩
      rw [hinv.addr, History.frame]
      split <;> rfl
    · cases h
  | datagram peer frame t₁ t₂ =>
    rw [step] at h
    split at h
    · obtain ⟨b, hb, rfl⟩ := Option.map_eq_some_iff.mp h
      exact ⟨BroadcastLemmas.step_inv hinv.bridge (step_cases hb), rfl,
        stores_frame hinv (fun _ => rfl) hb⟩
    · cases h
  | nextRound =>
    rw [step] at h
    split at h
    · cases h
      exact ⟨hinv.bridge, rfl, hinv.stores⟩
    · cases h

theorem init_inv : init.Inv where
  bridge := BroadcastLemmas.init_inv
  addr := rfl
  stores := { record := nofun, sendHandler := nofun }

/-- A handler sends to the peer of the round. -/
theorem replies_iff (hinv : s.Inv) : (∀ r ∈ s.replies a, r.ToLearned) ↔ s.InRound a := by
  cases a with
  | proceed =>
    cases hcalling : s.bridge.calling with
    | none => simp [replies, InRound, hcalling]
    | some call =>
      obtain ⟨mac, t⟩ := call
      have hudp : (s.history.learned mac).isSome → t = .udp := stores_calling hinv.stores hcalling
      have htarget {a : UdpAddr} (ha : s.history.learned mac = some a) :
          s.target t = s.history.handling := by
        rw [hudp (by simp [ha]), target, hinv.addr]
      -- `hudp` and `addr` carry both directions
      constructor
      · intro h mac' t' a heq ha
        cases hcalling.symm.trans heq
        have hto := h ⟨mac, s.history.learned mac, s.target t⟩ (by simp [replies, hcalling])
        exact (htarget ha).symm.trans (hto a ha)
      · intro h r hr a ha
        obtain rfl : r = ⟨mac, s.history.learned mac, s.target t⟩ := by
          simpa [replies, hcalling] using hr
        exact (htarget ha).trans (h mac t a hcalling ha)
  | _ => exact iff_of_true (by simp [replies]) trivial

end ReplyLemmas

open ReplyLemmas Transition

/-- Every frame for an address that was learned from a peer goes to that peer,
exactly when all handlers of such addresses are called in a round of their own
peer. -/
theorem repliesToLearned_iff (ops : List ServerOp) (hrun : Runs step init ops) :
    (∀ r ∈ outputs step replies init ops, r.ToLearned) ↔ AllSteps step InRound init ops := by
  rw [forall_mem_outputs_iff hrun]
  exact allSteps_congr (fun _ _ _ hI _ h => step_inv hI h) (fun _ _ _ hI _ => replies_iff hI)
    init_inv hrun

namespace Demo

/-- A frame from the address `src` to the address `dst`. -/
def frame (dst src : UInt8) : List UInt8 := [2, 0, 0, 0, 0, dst, 2, 0, 0, 0, 0, src, 8, 0]

def peerA : UdpAddr := ⟨0x0a000001, 4000⟩
def peerB : UdpAddr := ⟨0x0a000002, 4000⟩

/-- The frame of peer A waits in the handler of the tap while a frame for A comes
from the tap. -/
def inRound : List ServerOp :=
  [.switch readTap, .tapFrame (frame 9 8) 0 0, .switch readUdp,
    .datagram peerA (frame 8 1) 1 1, .proceed, .switch readTap, .tapFrame (frame 1 8) 1 1, .proceed]

/-- Peer A is learned, and B sends a frame to A. -/
def nextRound : List ServerOp :=
  [.switch readUdp, .datagram peerA (frame 9 1) 0 0, .nextRound,
    .datagram peerB (frame 1 2) 1 1, .proceed]

end Demo

theorem repliesToLearned_iff_demo :
    (∀ r ∈ outputs step replies init Demo.inRound, r.ToLearned) ↔
      AllSteps step InRound init Demo.inRound :=
  repliesToLearned_iff _ (Option.isSome_iff_exists.mp (by decide +kernel))

/-- B gets its own frame back. -/
theorem repliesToLearned_nextRound :
    ¬ ∀ ops, Runs step init ops → ∀ r ∈ outputs step replies init ops, r.ToLearned := by
  intro hall
  have hout : outputs step replies init Demo.nextRound =
      [⟨.ofBytes (Demo.frame 1 2), some Demo.peerA, some Demo.peerB⟩] := by
    decide +kernel
  have hto := hall Demo.nextRound (Option.isSome_iff_exists.mp (by decide +kernel)) _
    (by rw [hout]; exact List.mem_cons_self) Demo.peerA rfl
  exact absurd hto (by decide)

end Server

end NetTraverse
