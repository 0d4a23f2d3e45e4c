import NetTraverse.Crypto.ByteBuffer
import NetTraverse.Lib.OrdMap
import NetTraverse.Network.Address

/-!
# `udp_bridge`

The peer table of `udp_bridge.hpp` and one call of `foward` whose sends do not
suspend. A `peer` is made without a time, which `keep_alive` sets later; a `Stamp`
says whether that has happened. `foward_cases` says what one call can do.
-/

namespace NetTraverse

/-- `last_active_`. What it holds before it is set is arbitrary. -/
structure Stamp where
  value : Int
  initialised : Bool
deriving DecidableEq, Repr

structure Peer where
  addr : SockAddr
  lastActive : Stamp
  ping : Int
deriving DecidableEq, Repr

/-- `std::to_string`, of a number that may be negative. -/
def signedDecimal (n : Int) : List UInt8 :=
  if n < 0 then 45 :: decimal n.natAbs else decimal n.toNat

namespace Peer

/-- The constructor, on memory that holds `junk`. -/
def new (addr : SockAddr) (junk : Int × Int) : Peer := ⟨addr, ⟨junk.1, false⟩, junk.2⟩

def keepAlive (p : Peer) (now : Int) : Peer := { p with lastActive := ⟨now, true⟩ }

/-- `toJson`: the values of `ip`, `last_active`, `ping` and `port`. -/
def toJson (p : Peer) : List (List UInt8) :=
  [inetNtop p.addr.sinAddr, signedDecimal p.lastActive.value, signedDecimal p.ping,
    decimal p.addr.port.toNat]

/-- The test of the sweep. -/
def expired (p : Peer) (now : Int) : Bool := p.lastActive.value + 60 < now

end Peer

abbrev PeerMap := OrdMap SockAddr Peer

/-- `message_header::message_type` -/
def typePing : UInt8 := 0
def typePong : UInt8 := 1
def typeInfo : UInt8 := 2
def typeData : UInt8 := 3

/-- `sizeof(address_format) + sizeof(message_header)` -/
def messageHeaderSize : Nat := 8

/-- A message in the hands of `foward`. -/
structure UdpCall where
  sender : SockAddr
  buffer : ByteBuffer
  fits : buffer.Fits
  /-- What a new `peer` finds in its memory. -/
  junk : Int × Int
  /-- The clock when the message is processed, when the sweep comes to an address, and
  in the end. -/
  now : Int
  examined : SockAddr → Int
  done : Int
  now_le : ∀ a, now ≤ examined a
  examined_mono : Monotone examined
  le_done : ∀ a, examined a ≤ done

/-- A datagram that `foward` sends. -/
inductive Sent where
  | info (dest : SockAddr) (text : List UInt8)
  | relay (dest : SockAddr) (data : List UInt8)
deriving DecidableEq, Repr

structure Forwarding where
  peerMap : PeerMap
  sent : List Sent

namespace UdpCall

variable (dump : List (List (List UInt8)) → List UInt8) (c : UdpCall) (peerMap : PeerMap)

/-- The table with the sender in it. -/
def enter : PeerMap :=
  if (peerMap.find? c.sender).isNone then peerMap.insert c.sender (.new c.sender c.junk)
  else peerMap

/-- The end of `foward`: `keep_alive` on the sender, and the sweep. -/
def finish : PeerMap :=
  let kept := match peerMap.find? c.sender with
    | some peer => peerMap.insert c.sender (peer.keepAlive c.now)
    | none => peerMap
  kept.sweep fun a peer => peer.expired (c.examined a)

/-- The message with the endpoint of the sender written over that of the target. -/
def rewrite : Except Fault (List UInt8) := do
  let buffer ← c.buffer.write 2 c.sender.sinAddr
  let buffer ← buffer.write 6 c.sender.sinPort
  buffer.read 0 buffer.size

/-- `foward`. `dump` is that of the JSON library. -/
def foward : Except Fault Forwarding := do
  let peerMap := c.enter peerMap
  let header ← c.buffer.read 0 1
  if header = [typePing] then .ok ⟨c.finish peerMap, []⟩
  else if header = [typePong] then .ok ⟨c.finish peerMap, []⟩
  else if header = [typeInfo] then
    let reply := dump (peerMap.entries.map fun e => e.2.toJson)
    .ok ⟨c.finish peerMap, [.info c.sender reply]⟩
  else if header = [typeData] then
    if c.buffer.size ≤ messageHeaderSize then .ok ⟨peerMap, []⟩
    else
      let ipv4 ← c.buffer.read 2 4
      let port ← c.buffer.read 6 2
      match peerMap.find? (.sockaddrIn ipv4 port) with
      | none => .ok ⟨peerMap, []⟩
      | some peer =>
        let data ← c.rewrite
        .ok ⟨c.finish peerMap, [.relay peer.addr data]⟩
  else .ok ⟨peerMap, []⟩

/-! ## What a call can do -/

/-- The type of the message, if a byte is there. -/
def type : Option UInt8 := c.buffer.mem.head?

/-- Whom a DATA message is for. -/
def target : SockAddr :=
  .sockaddrIn ((c.buffer.mem.drop 2).take 4) ((c.buffer.mem.drop 6).take 2)

/-- A DATA message after its way through `foward`. -/
def relayed : List UInt8 :=
  (c.buffer.mem.take 2 ++ (c.sender.sinAddr ++ c.sender.sinPort) ++ c.buffer.mem.drop 8).take
    c.buffer.size

/-- The message is one of those that `foward` relays. -/
def Relays (d : SockAddr) : Prop :=
  c.type = some typeData ∧ messageHeaderSize < c.buffer.size ∧ d = c.target ∧
    ((c.enter peerMap).find? d).isSome

/-- `foward` gets to its end with the message. -/
def Completes : Prop :=
  c.type = some typePing ∨ c.type = some typePong ∨ c.type = some typeInfo ∨
    ∃ d, c.Relays peerMap d

end UdpCall

open FaultLemmas

namespace UdpBridgeLemmas

variable {dump : List (List (List UInt8)) → List UInt8} {c : UdpCall} {peerMap : PeerMap}

theorem rewrite_eq (h : 8 ≤ c.buffer.mem.length) : c.rewrite = .ok c.relayed := by
  have htake : (c.buffer.mem.take 2).length = 2 := by
    rw [List.length_take]
    omega
  have hfirst : c.buffer.write 2 c.sender.sinAddr =
      .ok ⟨(c.buffer.mem.take 2 ++ c.sender.sinAddr) ++ c.buffer.mem.drop 6, c.buffer.size⟩ := by
    rw [ByteBuffer.write_of_le (by rw [SockAddr.length_sinAddr]; omega), SockAddr.length_sinAddr]
  have hsecond : ByteBuffer.write
      ⟨(c.buffer.mem.take 2 ++ c.sender.sinAddr) ++ c.buffer.mem.drop 6, c.buffer.size⟩ 6
        c.sender.sinPort = .ok ⟨(c.buffer.mem.take 2 ++ c.sender.sinAddr) ++ c.sender.sinPort ++
          c.buffer.mem.drop 8, c.buffer.size⟩ := by
    rw [ByteBuffer.write_after (by simp [htake]) (by simp; omega), SockAddr.length_sinPort,
      List.drop_drop]
  have hfits : c.buffer.size ≤ c.buffer.mem.length := c.fits
  rw [UdpCall.rewrite, bind_ok hfirst, bind_ok hsecond, ByteBuffer.read_of_le (by simp; omega),
    UdpCall.relayed]
  simp

/-! ### The table -/

theorem find?_enter (a : SockAddr) : (c.enter peerMap).find? a =
    if a = c.sender ∧ peerMap.find? a = none then some (.new c.sender c.junk)
    else peerMap.find? a := by
  unfold UdpCall.enter
  split
  · next hnone =>
    rw [OrdMap.find?_insert]
    by_cases ha : a = c.sender
    · subst ha
      simp [Option.isNone_iff_eq_none.mp hnone]
    · simp [ha]
  · next hsome =>
    rw [if_neg]
    rintro ⟨rfl, hnone⟩
    exact hsome (Option.isNone_iff_eq_none.mpr hnone)

/-- The sender is in the table. -/
theorem find?_enter_sender : ∃ peer, (c.enter peerMap).find? c.sender = some peer := by
  rw [find?_enter]
  cases h : peerMap.find? c.sender with
  | none => exact ⟨_, if_pos ⟨rfl, rfl⟩⟩
  | some peer => exact ⟨peer, if_neg (by simp)⟩

theorem find?_finish {peer : Peer} (h : peerMap.find? c.sender = some peer) (a : SockAddr) :
    (c.finish peerMap).find? a =
      (if a = c.sender then some (peer.keepAlive c.now) else peerMap.find? a).filter
        fun p => !p.expired (c.examined a) := by
  rw [UdpCall.finish, h, OrdMap.sweep_eq_filter, OrdMap.find?_filter, OrdMap.find?_insert]

/-! ### The message -/

theorem read_type {type : UInt8} (h : c.type = some type) : c.buffer.read 0 1 = .ok [type] := by
  obtain ⟨rest, hmem⟩ := List.head?_eq_some_iff.mp h
  rw [ByteBuffer.read_of_le (by rw [hmem]; simp), hmem]
  rfl

theorem read_nothing (h : c.type = none) : c.buffer.read 0 1 = .error .outOfBounds := by
  refine ByteBuffer.read_of_lt ?_
  rw [List.head?_eq_none_iff.mp h]
  decide

/-- A DATA message that is long enough. -/
theorem foward_data (h : c.type = some typeData) (hlong : messageHeaderSize < c.buffer.size) :
    c.foward dump peerMap = match (c.enter peerMap).find? c.target with
      | none => .ok ⟨c.enter peerMap, []⟩
      | some peer => .ok ⟨c.finish (c.enter peerMap), [.relay peer.addr c.relayed]⟩ := by
  have hlen : 8 < c.buffer.mem.length := lt_of_lt_of_le hlong c.fits
  have hipv4 : c.buffer.read 2 4 = .ok ((c.buffer.mem.drop 2).take 4) :=
    ByteBuffer.read_of_le (by omega)
  have hport : c.buffer.read 6 2 = .ok ((c.buffer.mem.drop 6).take 2) :=
    ByteBuffer.read_of_le (by omega)
  have hrewrite : c.rewrite = .ok c.relayed := rewrite_eq (by omega)
  rw [UdpCall.foward, bind_ok (read_type h), if_neg (by decide), if_neg (by decide),
    if_neg (by decide), if_pos rfl, if_neg (Nat.not_le.mpr hlong), bind_ok hipv4, bind_ok hport]
  unfold UdpCall.target
  split
  · rfl
  · exact bind_ok hrewrite _

/-- A call faults, gets to its end, or returns early. -/
theorem foward_cases :
    (c.type = none ∧ c.foward dump peerMap = .error .outOfBounds) ∨
    (c.Completes peerMap ∧ ∃ sent, c.foward dump peerMap = .ok ⟨c.finish (c.enter peerMap), sent⟩ ∧
      ∀ d data, .relay d data ∈ sent ↔ c.Relays peerMap c.target ∧ data = c.relayed ∧
        ∃ peer, (c.enter peerMap).find? c.target = some peer ∧ d = peer.addr) ∨
    (c.type ≠ none ∧ ¬ c.Completes peerMap ∧
      c.foward dump peerMap = .ok ⟨c.enter peerMap, []⟩) := by
  by_cases hnone : c.type = none
  · refine .inl ⟨hnone, ?_⟩
    rw [UdpCall.foward, bind_error (read_nothing hnone)]
  obtain ⟨type, htype⟩ := Option.ne_none_iff_exists'.mp hnone
  -- only a DATA message is relayed
  have hrelays (d : SockAddr) (h : c.Relays peerMap d) : type = typeData :=
    Option.some.inj (htype.symm.trans h.1)
  by_cases hdata : type = typeData
  · subst hdata
    have hcompletes : c.Completes peerMap ↔ c.Relays peerMap c.target := by
      simp only [UdpCall.Completes, htype]
      constructor
      · rintro (h | h | h | ⟨d, h⟩)
        · cases h
        · cases h
        · cases h
        · exact h.2.2.1 ▸ h
      · exact fun h => .inr (.inr (.inr ⟨_, h⟩))
    rw [hcompletes]
    by_cases hlong : messageHeaderSize < c.buffer.size
    · rw [foward_data htype hlong]
      cases hfind : (c.enter peerMap).find? c.target with
      | none => exact .inr (.inr ⟨hnone, fun h => by simpa [hfind] using h.2.2.2, rfl⟩)
      | some peer =>
        have h : c.Relays peerMap c.target := ⟨htype, hlong, rfl, by rw [hfind]; rfl⟩
        refine .inr (.inl ⟨h, _, rfl, fun d data => ?_⟩)
        simp [h, and_comm]
    · refine .inr (.inr ⟨hnone, fun h => hlong h.2.1, ?_⟩)
      rw [UdpCall.foward, bind_ok (read_type htype), if_neg (by decide), if_neg (by decide),
        if_neg (by decide), if_pos rfl, if_pos (Nat.not_lt.mp hlong)]
  · have hno (d : SockAddr) : ¬ c.Relays peerMap d := fun h => hdata (hrelays d h)
    rw [UdpCall.foward, bind_ok (read_type htype)]
    by_cases hping : type = typePing
    · rw [if_pos (by rw [hping])]
      exact .inr (.inl ⟨.inl (hping ▸ htype), [], rfl, by simp [hno]⟩)
    rw [if_neg (by simpa using hping)]
    by_cases hpong : type = typePong
    · rw [if_pos (by rw [hpong])]
      exact .inr (.inl ⟨.inr (.inl (hpong ▸ htype)), [], rfl, by simp [hno]⟩)
    rw [if_neg (by simpa using hpong)]
    by_cases hinfo : type = typeInfo
    · rw [if_pos (by rw [hinfo])]
      exact .inr (.inl ⟨.inr (.inr (.inl (hinfo ▸ htype))), _, rfl, by simp [hno]⟩)
    rw [if_neg (by simpa using hinfo), if_neg (by simpa using hdata)]
    refine .inr (.inr ⟨hnone, ?_, rfl⟩)
    simp [UdpCall.Completes, htype, hping, hpong, hinfo, hno]

end UdpBridgeLemmas

end NetTraverse
