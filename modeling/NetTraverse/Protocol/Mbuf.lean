import NetTraverse.Lib.Effect

/-!
# The packet parser

`mbuf` of `protocol_test.cpp`. The parser is a program that asks for bytes of `raw`,
so that what it reads can be told from what it computes; `raw` may hold anything
behind the bytes that were received. The pointers into `raw` are offsets.
-/

namespace NetTraverse

structure Mbuf where
  len : BitVec 16
  etherFrame : Nat
  etherLen : BitVec 16
  etherOff : BitVec 16
  ipFrame : Nat
  ipLen : BitVec 16
  ipOff : BitVec 16
  tcpFrame : Nat
  tcpLen : BitVec 16
  tcpOff : BitVec 16
  tcpSeq : BitVec 32
  tcpAck : BitVec 32
  protocolMask : BitVec 8
deriving DecidableEq, Repr

def mbufEther : BitVec 8 := 0x01
def mbufIp : BitVec 8 := 0x04
def mbufTcp : BitVec 8 := 0x10

/-- `sizeof(ether_frame)`, which is that of a pointer. -/
def sizeofEtherFrame : Nat := 8
def sizeofEtherHeader : BitVec 16 := 14
def sizeofIp : Nat := 20
def sizeofTcphdr : Nat := 20

def ethertypeIp : BitVec 16 := 0x0800
def ethertypeArp : BitVec 16 := 0x0806
def ipprotoTcp : UInt8 := 6

/-- A program that reads bytes by their index. -/
abbrev Parse := Prog Nat fun _ => UInt8

def byteAt (i : Nat) : Parse UInt8 := Prog.perform i

/-- `ntohs` of the field at `i`. -/
def ntohsAt (i : Nat) : Parse (BitVec 16) := do
  let hi ← byteAt i
  let lo ← byteAt (i + 1)
  pure (hi.toBitVec ++ lo.toBitVec)

/-- `ntohl` of the field at `i`. -/
def ntohlAt (i : Nat) : Parse (BitVec 32) := do
  let hi ← ntohsAt i
  let lo ← ntohsAt (i + 2)
  pure (hi ++ lo)

/-- `ntohl` swaps the four bytes of a word. -/
def ntohl (w : BitVec 32) : BitVec 32 :=
  w.extractLsb' 0 8 ++ w.extractLsb' 8 8 ++ w.extractLsb' 16 8 ++ w.extractLsb' 24 8

/-- `ip_hl` is the low half of its byte, and `doff` the high half. -/
def ipHl (b : UInt8) : BitVec 16 := (b.toBitVec.extractLsb' 0 4).setWidth 16
def doff (b : UInt8) : BitVec 16 := (b.toBitVec.extractLsb' 4 4).setWidth 16

/-- The one bit `ack` of the flags. -/
def ackFlag (b : UInt8) : BitVec 32 := (b.toBitVec.extractLsb' 4 1).setWidth 32

namespace Mbuf

/-- A zeroed object after `read`. -/
def received (len : Nat) : Mbuf where
  len := BitVec.ofNat 16 len
  etherFrame := 0
  etherLen := 0
  etherOff := 0
  ipFrame := 0
  ipLen := 0
  ipOff := 0
  tcpFrame := 0
  tcpLen := 0
  tcpOff := 0
  tcpSeq := 0
  tcpAck := 0
  protocolMask := 0

/-- `tcp_frame->ack` is the flag, and not the acknowledgment number, `ack_seq`. -/
def parseTcp (m : Mbuf) : Parse (Int × Mbuf) :=
  if m.ipLen.toNat < sizeofTcphdr then pure (-1, m)
  else do
    let tcpFrame := m.ipFrame + m.ipOff.toNat
    let b ← byteAt (tcpFrame + 12)
    let tcpOff := doff b <<< 2
    let seq ← ntohlAt (tcpFrame + 4)
    let flags ← byteAt (tcpFrame + 13)
    pure (0, { m with
      tcpFrame := tcpFrame
      tcpOff := tcpOff
      tcpLen := m.ipLen - tcpOff
      tcpSeq := seq
      tcpAck := ntohl (ackFlag flags) })

def parseArp (m : Mbuf) : Parse (Int × Mbuf) := pure (0, m)

/-- The switch on the protocol; the other cases do nothing. -/
def parseIpPayload (m : Mbuf) (protocol : UInt8) : Parse (Int × Mbuf) :=
  if protocol = ipprotoTcp then do
    let (ret, m) ← m.parseTcp
    pure (if ret ≠ 0 then -1 else 0, m)
  else pure (0, m)

def parseIp (m : Mbuf) : Parse (Int × Mbuf) :=
  if m.etherLen.toNat < sizeofIp then pure (-1, m)
  else do
    let ipFrame := m.etherFrame + m.etherOff.toNat
    let b ← byteAt ipFrame
    let ipOff := ipHl b <<< 2
    let total ← ntohsAt (ipFrame + 2)
    let m := { m with ipFrame := ipFrame, ipOff := ipOff, ipLen := total - ipOff }
    if m.ipOff.toNat > m.ipLen.toNat then pure (-1, m)
    else do
      let protocol ← byteAt (ipFrame + 9)
      parseIpPayload { m with protocolMask := m.protocolMask ||| mbufIp } protocol

/-- The switch on the type of the frame. -/
def parseEtherPayload (m : Mbuf) (type : BitVec 16) : Parse (Int × Mbuf) :=
  if type = ethertypeIp then m.parseIp
  else if type = ethertypeArp then m.parseArp
  else pure (0, m)

/-- The type is read once more for the message at the end. -/
def parserEther (m : Mbuf) : Parse (Int × Mbuf) :=
  if m.len.toNat < sizeofEtherFrame then pure (-1, m)
  else do
    let m := { m with
      etherFrame := 0
      etherLen := m.len
      etherOff := sizeofEtherHeader
      protocolMask := m.protocolMask ||| mbufEther }
    let type ← ntohsAt (m.etherFrame + 12)
    let (ret, m) ← m.parseEtherPayload type
    if ret ≠ 0 then pure (-1, m)
    else do
      let _ ← ntohsAt (m.etherFrame + 12)
      pure (0, m)

end Mbuf

end NetTraverse
