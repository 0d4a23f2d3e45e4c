import NetTraverse.Protocol.Acceptance

/-!
# Assembled TCP frames

What a TCP segment in an IPv4 packet in an Ethernet frame looks like, and what the
parser makes of it. `parserEther_bytes` says which fields come back; `parsesBack_never`
that two of those that should never do.
-/

namespace NetTraverse

/-- The parts of a frame. -/
structure TcpFrame where
  /-- The two Ethernet addresses. -/
  macs : List UInt8
  tos : UInt8
  /-- Identification, fragment offset and time to live. -/
  ident : List UInt8
  /-- The checksum of the header and the two IP addresses. -/
  addrs : List UInt8
  ipOptions : List UInt8
  ports : List UInt8
  seq : BitVec 32
  ack : BitVec 32
  flags : UInt8
  /-- Window, checksum and urgent pointer. -/
  window : List UInt8
  tcpOptions : List UInt8
  payload : List UInt8
  macs_length : macs.length = 12
  ident_length : ident.length = 5
  addrs_length : addrs.length = 10
  ports_length : ports.length = 4
  window_length : window.length = 6
  ipOptions_words : ipOptions.length % 4 = 0
  ipOptions_le : ipOptions.length ≤ 40
  tcpOptions_words : tcpOptions.length % 4 = 0
  tcpOptions_le : tcpOptions.length ≤ 40
  fits : 54 + ipOptions.length + tcpOptions.length + payload.length ≤ 1518

namespace TcpFrame

variable (f : TcpFrame)

def ipHeaderLen : Nat := 20 + f.ipOptions.length
def tcpHeaderLen : Nat := 20 + f.tcpOptions.length
/-- The length of the IP payload. -/
def segmentLen : Nat := f.tcpHeaderLen + f.payload.length

def be16 (n : Nat) : List UInt8 := [UInt8.ofNat (n / 256), UInt8.ofNat n]

def be32 (w : BitVec 32) : List UInt8 :=
  [⟨w.extractLsb' 24 8⟩, ⟨w.extractLsb' 16 8⟩, ⟨w.extractLsb' 8 8⟩, ⟨w.extractLsb' 0 8⟩]

/-- The type of the frame and the IP header up to the identification. -/
def ipHead : List UInt8 :=
  [0x08, 0x00, UInt8.ofNat (0x40 + f.ipHeaderLen / 4), f.tos] ++
    be16 (f.ipHeaderLen + f.segmentLen)

def tcpHead : List UInt8 :=
  be32 f.seq ++ be32 f.ack ++ [UInt8.ofNat (0x10 * (f.tcpHeaderLen / 4)), f.flags]

/-- The frame as it is sent. -/
def bytes : List UInt8 :=
  f.macs ++ (f.ipHead ++ (f.ident ++ (ipprotoTcp :: (f.addrs ++ f.ipOptions)))) ++
    (f.ports ++ (f.tcpHead ++ (f.window ++ f.tcpOptions ++ f.payload)))

/-- `raw` after the frame was read into it. -/
def raw (junk : Nat → UInt8) (i : Nat) : UInt8 := (f.bytes[i]?).getD (junk i)

end TcpFrame

namespace Mbuf

open Prog RawFrame

/-- The parser gives back what the frame was assembled from. -/
structure ParsesBack (f : TcpFrame) (junk : Nat → UInt8) (ret : Int) (m : Mbuf) : Prop where
  accepted : ret = 0
  ipOff : m.ipOff.toNat = f.ipHeaderLen
  tcpOff : m.tcpOff.toNat = f.tcpHeaderLen
  tcpSeq : m.tcpSeq = f.seq
  tcpAck : m.tcpAck = f.ack
  mask : m.protocolMask = mbufEther ||| mbufIp ||| mbufTcp

variable {f : TcpFrame} {junk : Nat → UInt8}

namespace TcpFramesLemmas

open AcceptanceLemmas

theorem length_bytes : f.bytes.length = 14 + f.ipHeaderLen + f.segmentLen := by
  simp [TcpFrame.bytes, TcpFrame.ipHead, TcpFrame.tcpHead, TcpFrame.be16, TcpFrame.be32,
    TcpFrame.segmentLen, TcpFrame.ipHeaderLen, TcpFrame.tcpHeaderLen, f.macs_length, f.ident_length,
    f.addrs_length, f.ports_length, f.window_length]
  omega

theorem getElem?_middle {front mid rest : List UInt8} {n j : Nat} (hfront : front.length = n)
    (hj : j < mid.length) : (front ++ (mid ++ rest))[n + j]? = mid[j]? := by
  rw [List.getElem?_append_right (by omega), hfront, Nat.add_sub_cancel_left,
    List.getElem?_append_left hj]

theorem raw_of_getElem? {i : Nat} {b : UInt8} (h : f.bytes[i]? = some b) : f.raw junk i = b := by
  rw [TcpFrame.raw, h]
  rfl

/-- The bytes behind the Ethernet addresses. -/
theorem bytes_ipHead {j : Nat} (hj : j < 6) : f.bytes[12 + j]? = f.ipHead[j]? := by
  have hbytes : f.bytes = f.macs ++ (f.ipHead ++ (f.ident ++ (ipprotoTcp :: (f.addrs ++
      f.ipOptions)) ++ (f.ports ++ (f.tcpHead ++ (f.window ++ f.tcpOptions ++ f.payload))))) := by
    simp [TcpFrame.bytes]
  rw [hbytes, getElem?_middle f.macs_length hj]

theorem bytes_protocol : f.bytes[23 + 0]? = some ipprotoTcp := by
  have hbytes : f.bytes = (f.macs ++ f.ipHead ++ f.ident) ++ ([ipprotoTcp] ++ (f.addrs ++
      f.ipOptions ++ (f.ports ++ (f.tcpHead ++ (f.window ++ f.tcpOptions ++ f.payload))))) := by
    simp [TcpFrame.bytes]
  have hfront : (f.macs ++ f.ipHead ++ f.ident).length = 23 := by
    simp [f.macs_length, f.ident_length, TcpFrame.ipHead, TcpFrame.be16]
  rw [hbytes, getElem?_middle hfront (by decide)]
  rfl

/-- The bytes behind the ports. -/
theorem bytes_tcpHead {j : Nat} (hj : j < 10) :
    f.bytes[18 + f.ipHeaderLen + j]? = f.tcpHead[j]? := by
  have hbytes : f.bytes = (f.macs ++ (f.ipHead ++ (f.ident ++ (ipprotoTcp :: (f.addrs ++
      f.ipOptions)))) ++ f.ports) ++ (f.tcpHead ++ (f.window ++ f.tcpOptions ++ f.payload)) := by
    simp [TcpFrame.bytes]
  rw [hbytes, getElem?_middle ?_ hj]
  simp [f.macs_length, f.ident_length, f.addrs_length, f.ports_length, TcpFrame.ipHead,
    TcpFrame.be16, TcpFrame.ipHeaderLen]
  omega

/-! ### The fields -/

theorem etherType_raw : etherType (f.raw junk) = ethertypeIp := by
  have h₀ : f.raw junk 12 = 0x08 := raw_of_getElem? (bytes_ipHead (j := 0) (by decide))
  have h₁ : f.raw junk 13 = 0x00 := raw_of_getElem? (bytes_ipHead (j := 1) (by decide))
  rw [etherType, h₀, h₁]
  rfl

theorem headerLen_raw : headerLen (f.raw junk) = f.ipHeaderLen := by
  have h : f.raw junk 14 = UInt8.ofNat (0x40 + f.ipHeaderLen / 4) :=
    raw_of_getElem? (bytes_ipHead (j := 2) (by decide))
  have hwords := f.ipOptions_words
  have hle := f.ipOptions_le
  rw [headerLen, h, UInt8.toNat_ofNat', TcpFrame.ipHeaderLen]
  omega

theorem totalLen_raw : totalLen (f.raw junk) = f.ipHeaderLen + f.segmentLen := by
  have h₀ : f.raw junk 16 = UInt8.ofNat ((f.ipHeaderLen + f.segmentLen) / 256) :=
    raw_of_getElem? (bytes_ipHead (j := 4) (by decide))
  have h₁ : f.raw junk 17 = UInt8.ofNat (f.ipHeaderLen + f.segmentLen) :=
    raw_of_getElem? (bytes_ipHead (j := 5) (by decide))
  have hfits := f.fits
  rw [totalLen, h₀, h₁, UInt8.toNat_ofNat', UInt8.toNat_ofNat', TcpFrame.ipHeaderLen,
    TcpFrame.segmentLen, TcpFrame.tcpHeaderLen]
  omega

theorem payloadLen_raw : payloadLen (f.raw junk) = f.segmentLen := by
  have hfits := f.fits
  rw [payloadLen, headerLen_raw, totalLen_raw, TcpFrame.ipHeaderLen,
    TcpFrame.segmentLen, TcpFrame.tcpHeaderLen]
  omega

theorem isTcp_raw : isTcp (f.raw junk) := raw_of_getElem? bytes_protocol

/-- The bytes of a word, one after the other. -/
theorem append_bytes (w : BitVec 32) :
    w.extractLsb' 24 8 ++ w.extractLsb' 16 8 ++ (w.extractLsb' 8 8 ++ w.extractLsb' 0 8) = w := by
  rw [BitVec.extractLsb'_append_extractLsb'_eq_extractLsb' (by decide),
    BitVec.extractLsb'_append_extractLsb'_eq_extractLsb' (by decide),
    BitVec.extractLsb'_append_extractLsb'_eq_extractLsb' (by decide)]
  exact BitVec.extractLsb'_eq_self

/-- The object that the parser for TCP gets. -/
abbrev ipReceived (f : TcpFrame) (junk : Nat → UInt8) : Mbuf :=
  (received f.bytes.length).etherParsed.ipParsed (f.raw junk)

theorem ipOff_received : (ipReceived f junk).ipOff.toNat = f.ipHeaderLen :=
  toNat_ipOff.trans headerLen_raw

theorem raw_tcpFrame {j : Nat} {b : UInt8} (hj : j < 10) (h : f.tcpHead[j]? = some b) :
    f.raw junk ((ipReceived f junk).ipFrame + (ipReceived f junk).ipOff.toNat + (4 + j)) = b := by
  have hframe : (ipReceived f junk).ipFrame = 14 := rfl
  have hat : 14 + f.ipHeaderLen + (4 + j) = 18 + f.ipHeaderLen + j := by omega
  rw [ipOff_received, hframe, hat]
  exact raw_of_getElem? ((bytes_tcpHead hj).trans h)

theorem tcpSeq_parsed :
    ((ipReceived f junk).tcpParsed (f.raw junk)).tcpSeq = f.seq := by
  have h₀ := @raw_tcpFrame f junk 0 _ (by decide) rfl
  have h₁ := @raw_tcpFrame f junk 1 _ (by decide) rfl
  have h₂ := @raw_tcpFrame f junk 2 _ (by decide) rfl
  have h₃ := @raw_tcpFrame f junk 3 _ (by decide) rfl
  simp only [tcpParsed]
  rw [h₀, h₁, h₂, h₃]
  exact append_bytes f.seq

theorem tcpOff_parsed :
    ((ipReceived f junk).tcpParsed (f.raw junk)).tcpOff.toNat = f.tcpHeaderLen := by
  have h := @raw_tcpFrame f junk 8 _ (by decide) rfl
  have hwords := f.tcpOptions_words
  have hle := f.tcpOptions_le
  simp only [tcpParsed]
  rw [h, toNat_doff, UInt8.toNat_ofNat', TcpFrame.tcpHeaderLen]
  omega

theorem tcpAck_parsed :
    ((ipReceived f junk).tcpParsed (f.raw junk)).tcpAck = ntohl (ackFlag f.flags) := by
  have h := @raw_tcpFrame f junk 9 _ (by decide) rfl
  simp only [tcpParsed]
  rw [h]

end TcpFramesLemmas

open TcpFramesLemmas AcceptanceLemmas

/-- What the parser makes of an assembled frame. A segment shorter than the IP
header is rejected; otherwise all fields come back but the acknowledgment number, in
whose place is the flag, and the bit for TCP. -/
theorem parserEther_bytes (f : TcpFrame) (junk : Nat → UInt8) :
    if f.ipHeaderLen ≤ f.segmentLen then
      ∃ m, eval (f.raw junk) (received f.bytes.length).parserEther = (0, m) ∧
        m.ipOff.toNat = f.ipHeaderLen ∧ m.tcpOff.toNat = f.tcpHeaderLen ∧ m.tcpSeq = f.seq ∧
        m.tcpAck = ntohl (ackFlag f.flags) ∧ m.protocolMask = mbufEther ||| mbufIp
    else (eval (f.raw junk) (received f.bytes.length).parserEther).1 = -1 := by
  have hcases := @eval_parserEther_ip (f.raw junk) (received f.bytes.length) etherType_raw
  have hlen : 20 ≤ (received f.bytes.length).len.toNat := by
    have hfits := f.fits
    have hbytes := @length_bytes f
    simp only [received, BitVec.toNat_ofNat]
    simp only [TcpFrame.ipHeaderLen, TcpFrame.segmentLen, TcpFrame.tcpHeaderLen] at hbytes
    omega
  have hpayload : 20 ≤ f.segmentLen := by
    unfold TcpFrame.segmentLen TcpFrame.tcpHeaderLen
    omega
  rw [headerLen_raw, payloadLen_raw, if_pos isTcp_raw] at hcases
  split
  · next hle =>
    rw [if_pos ⟨hlen, hle, fun _ => hpayload⟩] at hcases
    have hmask : 0 ||| mbufEther ||| mbufIp = mbufEther ||| mbufIp := by decide
    exact ⟨_, hcases, ipOff_received, tcpOff_parsed, tcpSeq_parsed, tcpAck_parsed, hmask⟩
  · next hshort => rwa [if_neg fun h => hshort h.2.1] at hcases

/-- No frame is given back: nothing sets the bit for TCP. -/
theorem parsesBack_never (f : TcpFrame) (junk : Nat → UInt8) :
    ¬ ParsesBack f junk (eval (f.raw junk) (received f.bytes.length).parserEther).1
      (eval (f.raw junk) (received f.bytes.length).parserEther).2 := by
  have hcases := parserEther_bytes f junk
  intro hback
  split at hcases
  · obtain ⟨m, hm, -, -, -, -, hmask⟩ := hcases
    have hmask' := hback.mask
    rw [hm, hmask] at hmask'
    exact absurd hmask' (by decide)
  · have haccepted := hback.accepted
    rw [hcases] at haccepted
    exact absurd haccepted (by decide)

namespace TcpFramesLemmas

/-- An acknowledgment without options and with a payload of 4 bytes. -/
def ackFrame : TcpFrame where
  macs := List.replicate 12 2
  tos := 0
  ident := [0, 1, 0, 0, 64]
  addrs := [0, 0, 10, 0, 0, 1, 10, 0, 0, 2]
  ipOptions := []
  ports := [0, 80, 200, 1]
  seq := 1000
  ack := 2000
  flags := 0x10
  window := [1, 0, 0, 0, 0, 0]
  tcpOptions := []
  payload := [1, 2, 3, 4]
  macs_length := rfl
  ident_length := rfl
  addrs_length := rfl
  ports_length := rfl
  window_length := rfl
  ipOptions_words := rfl
  ipOptions_le := by decide
  tcpOptions_words := rfl
  tcpOptions_le := by decide
  fits := by decide

end TcpFramesLemmas

/-- The acknowledgment number 2000 comes back as the flag, and the bit for TCP is
missing. -/
theorem parsesBack_ack :
    ¬ ∀ (f : TcpFrame) (junk : Nat → UInt8),
      ParsesBack f junk (eval (f.raw junk) (received f.bytes.length).parserEther).1
        (eval (f.raw junk) (received f.bytes.length).parserEther).2 := by
  intro hall
  have hcases := parserEther_bytes ackFrame fun _ => 0
  rw [if_pos (by decide)] at hcases
  obtain ⟨m, hm, -, -, -, hack, -⟩ := hcases
  have hback := (hall ackFrame fun _ => 0).tcpAck
  rw [hm, hack] at hback
  exact absurd hback (by decide)

end Mbuf

end NetTraverse
