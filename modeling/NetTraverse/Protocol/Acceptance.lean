import NetTraverse.Protocol.Mbuf

/-!
# What the packet parser reads and accepts

The checks of the parser compare the length of the frame with the size of a pointer
and with that of an IP header alone, and the lengths in the packet with one another
only. `readsReceived_iff` says which frames are parsed without a read behind the
bytes received, and `acceptsConsistent_iff` on which ones the answer is right.
-/

namespace NetTraverse

/-! ## The fields of a frame -/

namespace RawFrame

variable (raw : Nat → UInt8)

def etherType : BitVec 16 := (raw 12).toBitVec ++ (raw 13).toBitVec

/-- `4 * ip_hl` -/
def headerLen : Nat := 4 * ((raw 14).toNat % 16)

/-- The total length that the IP header claims. -/
def totalLen : Nat := 256 * (raw 16).toNat + (raw 17).toNat

/-- The length of the IP payload by these two, as the parser subtracts them. -/
def payloadLen : Nat := (2 ^ 16 - headerLen raw + totalLen raw) % 2 ^ 16

def isTcp : Prop := raw 23 = ipprotoTcp

/-- `4 * doff` -/
def dataOffset : Nat := 4 * ((raw (14 + headerLen raw + 12)).toNat / 16)

instance : Decidable (isTcp raw) := inferInstanceAs (Decidable (_ = _))

/-- The IP header is complete and agrees with the frame, and so does the TCP header
with the IP payload. -/
structure Consistent (len : Nat) : Prop where
  complete : 34 ≤ len
  header : 20 ≤ headerLen raw
  total : headerLen raw ≤ totalLen raw
  frame : totalLen raw + 14 ≤ len
  tcp : isTcp raw → 20 ≤ totalLen raw - headerLen raw ∧ 20 ≤ dataOffset raw ∧
    dataOffset raw ≤ totalLen raw - headerLen raw

/-- Whatever the parser reads was received: the frame is rejected before the first
read, or it has an Ethernet header, and what follows is rejected early enough or is
there. -/
def Covered (len : Nat) : Prop :=
  len < 8 ∨ 14 ≤ len ∧
    (etherType raw = ethertypeIp → len < 20 ∨
      (headerLen raw ≤ payloadLen raw → 24 ≤ len ∧
        (isTcp raw → 20 ≤ payloadLen raw → 28 + headerLen raw ≤ len)))

end RawFrame

namespace Mbuf

open Prog RawFrame

variable {raw : Nat → UInt8} {m : Mbuf}

/-! ## What the stages leave -/

def etherParsed (m : Mbuf) : Mbuf :=
  { m with
    etherFrame := 0
    etherLen := m.len
    etherOff := sizeofEtherHeader
    protocolMask := m.protocolMask ||| mbufEther }

/-- The parser for the payload, on the object that `parser_ether` hands to it. -/
def payloadParsed (raw : Nat → UInt8) (m : Mbuf) : Parse (Int × Mbuf) :=
  m.etherParsed.parseEtherPayload (etherType raw)

def ipParsed (raw : Nat → UInt8) (m : Mbuf) : Mbuf :=
  { m with
    ipFrame := 14
    ipOff := ipHl (raw 14) <<< 2
    ipLen := ((raw 16).toBitVec ++ (raw 17).toBitVec) - ipHl (raw 14) <<< 2
    protocolMask := m.protocolMask ||| mbufIp }

def tcpParsed (raw : Nat → UInt8) (m : Mbuf) : Mbuf :=
  let tcpFrame := m.ipFrame + m.ipOff.toNat
  { m with
    tcpFrame := tcpFrame
    tcpOff := doff (raw (tcpFrame + 12)) <<< 2
    tcpLen := m.ipLen - doff (raw (tcpFrame + 12)) <<< 2
    tcpSeq := (raw (tcpFrame + 4)).toBitVec ++ (raw (tcpFrame + 5)).toBitVec ++
      ((raw (tcpFrame + 6)).toBitVec ++ (raw (tcpFrame + 7)).toBitVec)
    tcpAck := ntohl (ackFlag (raw (tcpFrame + 13))) }

namespace AcceptanceLemmas

theorem toNat_append (hi lo : UInt8) :
    (hi.toBitVec ++ lo.toBitVec).toNat = 256 * hi.toNat + lo.toNat := by
  have hlo : lo.toBitVec.toNat < 2 ^ 8 := lo.toBitVec.isLt
  rw [BitVec.toNat_append, ← Nat.shiftLeft_add_eq_or_of_lt hlo, Nat.shiftLeft_eq]
  show hi.toNat * 2 ^ 8 + lo.toNat = _
  omega

theorem toNat_ipHl (b : UInt8) : (ipHl b <<< 2).toNat = 4 * (b.toNat % 16) := by
  have hb : (ipHl b).toNat = b.toNat % 16 := by
    simp [ipHl]
    omega
  rw [BitVec.toNat_shiftLeft, hb, Nat.shiftLeft_eq]
  omega

theorem toNat_doff (b : UInt8) : (doff b <<< 2).toNat = 4 * (b.toNat / 16) := by
  have hlt := b.toNat_lt
  have hb : (doff b).toNat = b.toNat / 16 := by
    simp [doff, Nat.shiftRight_eq_div_pow]
    omega
  rw [BitVec.toNat_shiftLeft, hb, Nat.shiftLeft_eq]
  omega

theorem toNat_ipOff : (m.ipParsed raw).ipOff.toNat = headerLen raw :=
  toNat_ipHl (raw 14)

theorem toNat_ipLen : (m.ipParsed raw).ipLen.toNat = payloadLen raw := by
  simp only [ipParsed]
  rw [BitVec.toNat_sub, toNat_append, toNat_ipHl]
  rfl

/-! ### The stages -/

@[simp] theorem eval_ntohsAt (i : Nat) :
    eval raw (ntohsAt i) = (raw i).toBitVec ++ (raw (i + 1)).toBitVec := by
  simp [ntohsAt, byteAt]

@[simp] theorem asked_ntohsAt (i : Nat) : asked raw (ntohsAt i) = [i, i + 1] := by
  simp [ntohsAt, byteAt]

theorem eval_parseTcp : eval raw m.parseTcp =
    if m.ipLen.toNat < 20 then (-1, m) else (0, m.tcpParsed raw) := by
  unfold parseTcp sizeofTcphdr
  split
  · rfl
  · simp [byteAt, ntohlAt, tcpParsed, Nat.add_assoc]

theorem asked_parseTcp : asked raw m.parseTcp =
    if m.ipLen.toNat < 20 then [] else
      [12, 4, 5, 6, 7, 13].map (m.ipFrame + m.ipOff.toNat + ·) := by
  unfold parseTcp sizeofTcphdr
  split
  · rfl
  · simp [byteAt, ntohlAt, Nat.add_assoc]

theorem eval_parseIpPayload : eval raw (m.parseIpPayload (raw 23)) =
    if isTcp raw then
      if m.ipLen.toNat < 20 then (-1, m) else (0, m.tcpParsed raw)
    else (0, m) := by
  by_cases htcp : raw 23 = ipprotoTcp
  · rw [parseIpPayload, if_pos htcp, eval_bind, eval_parseTcp, if_pos (show isTcp raw from htcp)]
    by_cases hshort : m.ipLen.toNat < 20
    · simp [hshort]
    · simp [hshort]
  · rw [parseIpPayload, if_neg htcp, if_neg (show ¬ isTcp raw from htcp), eval_pure]

theorem asked_parseIpPayload : asked raw (m.parseIpPayload (raw 23)) =
    if isTcp raw then asked raw m.parseTcp else [] := by
  by_cases htcp : raw 23 = ipprotoTcp
  · rw [parseIpPayload, if_pos htcp, asked_bind, if_pos (show isTcp raw from htcp)]
    simp
  · rw [parseIpPayload, if_neg htcp, if_neg (show ¬ isTcp raw from htcp), asked_pure]

/-- The object after the IP header is read and before it is checked. -/
theorem eval_parseIp : eval raw m.etherParsed.parseIp =
    if m.len.toNat < 20 then (-1, m.etherParsed)
    else if payloadLen raw < headerLen raw then
      (-1, { m.etherParsed.ipParsed raw with protocolMask := m.etherParsed.protocolMask })
    else eval raw ((m.etherParsed.ipParsed raw).parseIpPayload (raw 23)) := by
  rw [parseIp, sizeofIp, ← toNat_ipOff (m := m.etherParsed), ← toNat_ipLen (m := m.etherParsed)]
  show (eval raw (if m.len.toNat < 20 then _ else _)) = _
  split
  · rfl
  · simp only [byteAt, eval_bind, eval_perform, eval_ntohsAt]
    show eval raw (if (m.etherParsed.ipParsed raw).ipOff.toNat >
      (m.etherParsed.ipParsed raw).ipLen.toNat then _ else _) = _
    split
    · rfl
    · simp only [eval_bind, eval_perform]
      rfl

theorem asked_parseIp : asked raw m.etherParsed.parseIp =
    if m.len.toNat < 20 then []
    else [14, 16, 17] ++ if payloadLen raw < headerLen raw then []
      else 23 :: asked raw ((m.etherParsed.ipParsed raw).parseIpPayload (raw 23)) := by
  rw [parseIp, sizeofIp, ← toNat_ipOff (m := m.etherParsed), ← toNat_ipLen (m := m.etherParsed)]
  show (asked raw (if m.len.toNat < 20 then _ else _)) = _
  split
  · rfl
  · simp only [byteAt, asked_bind, asked_perform, asked_ntohsAt, eval_perform, eval_ntohsAt]
    show [14] ++ ([16, 17] ++ asked raw (if (m.etherParsed.ipParsed raw).ipOff.toNat >
      (m.etherParsed.ipParsed raw).ipLen.toNat then _ else _)) = _
    split
    · rfl
    · simp only [asked_bind, asked_perform, eval_perform]
      rfl

theorem eval_parserEther : eval raw m.parserEther =
    if m.len.toNat < 8 then (-1, m)
    else (if (eval raw (m.payloadParsed raw)).1 ≠ 0 then -1 else 0,
      (eval raw (m.payloadParsed raw)).2) := by
  rw [parserEther, sizeofEtherFrame]
  split
  · rfl
  · simp only [eval_bind, eval_ntohsAt]
    show eval raw (if (eval raw (m.payloadParsed raw)).1 ≠ 0 then _ else _) = _
    split
    · rfl
    · simp only [eval_bind]
      rfl

theorem payloadParsed_ip (htype : etherType raw = ethertypeIp) :
    m.payloadParsed raw = m.etherParsed.parseIp := by
  rw [payloadParsed, parseEtherPayload, if_pos htype]

/-- Anything but IP is accepted without another read. -/
theorem payloadParsed_other (htype : etherType raw ≠ ethertypeIp) :
    m.payloadParsed raw = pure (0, m.etherParsed) := by
  rw [payloadParsed, parseEtherPayload, if_neg htype]
  split <;> rfl

/-- The parsers for the payload leave the frame where it is. -/
theorem etherFrame_payload : (eval raw (m.payloadParsed raw)).2.etherFrame = 0 := by
  by_cases htype : etherType raw = ethertypeIp
  · rw [payloadParsed_ip htype, eval_parseIp, eval_parseIpPayload]
    split_ifs <;> rfl
  · rw [payloadParsed_other htype, eval_pure]
    rfl

theorem asked_parserEther : asked raw m.parserEther =
    if m.len.toNat < 8 then []
    else [12, 13] ++ (asked raw (m.payloadParsed raw) ++
      if (eval raw (m.payloadParsed raw)).1 ≠ 0 then [] else [12, 13]) := by
  rw [parserEther, sizeofEtherFrame]
  split
  · rfl
  · simp only [asked_bind, asked_ntohsAt, eval_ntohsAt]
    show [12, 13] ++ (asked raw (m.payloadParsed raw) ++
      asked raw (if (eval raw (m.payloadParsed raw)).1 ≠ 0 then _ else _)) = _
    split
    · rfl
    · have hframe := @etherFrame_payload raw m
      simp only [asked_bind, asked_ntohsAt]
      show [12, 13] ++ (asked raw (m.payloadParsed raw) ++
        ([(eval raw (m.payloadParsed raw)).2.etherFrame + 12,
          (eval raw (m.payloadParsed raw)).2.etherFrame + 12 + 1] ++ [])) = _
      rw [hframe, List.append_nil]

/-! ### The reads -/

theorem forall_asked_parseTcp {len : Nat} (hframe : m.ipFrame = 14)
    (hoff : m.ipOff.toNat = headerLen raw) (hlen : m.ipLen.toNat = payloadLen raw) :
    (∀ i ∈ asked raw m.parseTcp, i < len) ↔
      (20 ≤ payloadLen raw → 28 + headerLen raw ≤ len) := by
  rw [asked_parseTcp, hframe, hoff, hlen]
  split
  · next hshort => simp [hshort]
  · next hshort =>
    simp
    omega

theorem forall_asked_parseIp {len : Nat} (hlen : m.len.toNat = len) :
    (∀ i ∈ asked raw m.etherParsed.parseIp, i < len) ↔
      (len < 20 ∨ (headerLen raw ≤ payloadLen raw → 24 ≤ len ∧
        (isTcp raw → 20 ≤ payloadLen raw → 28 + headerLen raw ≤ len))) := by
  have htcp :=
    @forall_asked_parseTcp raw (m.etherParsed.ipParsed raw) len rfl toNat_ipOff toNat_ipLen
  rw [asked_parseIp, hlen, asked_parseIpPayload]
  split
  · next hshort => simp [hshort]
  · next hshort =>
    have hheader : ∀ i ∈ [14, 16, 17], i < len := by
      simp
      omega
    rw [List.forall_mem_append, and_iff_right hheader, or_iff_right hshort]
    split
    · next hrejected => simp [hrejected]
    · next hpassed =>
      rw [List.forall_mem_cons]
      have hle : headerLen raw ≤ payloadLen raw := Nat.le_of_not_lt hpassed
      by_cases hproto : isTcp raw
      · rw [if_pos hproto, htcp]
        simp only [hle, hproto, forall_const]
        exact Iff.rfl
      · rw [if_neg hproto]
        simp [hle, hproto, Nat.succ_le_iff]

end AcceptanceLemmas

open AcceptanceLemmas

/-- All that the parser reads was received exactly when the frame is rejected, or is
no IP frame, before the parser comes to its end. -/
theorem readsReceived_iff (raw : Nat → UInt8) (m : Mbuf) :
    (∀ i ∈ asked raw m.parserEther, i < m.len.toNat) ↔ Covered raw m.len.toNat := by
  rw [asked_parserEther, Covered]
  split
  · next hshort => simp [hshort]
  · next hshort =>
    have hagain : (∀ i ∈ [12, 13], i < m.len.toNat) ↔ 14 ≤ m.len.toNat := by
      simp
      omega
    have hmessage : 14 ≤ m.len.toNat →
        ∀ i ∈ if (eval raw (m.payloadParsed raw)).1 ≠ 0 then [] else [12, 13], i < m.len.toNat := by
      intro hlen
      split
      · simp
      · exact hagain.mpr hlen
    rw [or_iff_right hshort, List.forall_mem_append, List.forall_mem_append, hagain]
    refine and_congr_right fun hlen => ?_
    rw [and_iff_left (hmessage hlen)]
    by_cases htype : etherType raw = ethertypeIp
    · rw [payloadParsed_ip htype, forall_asked_parseIp rfl]
      simp [htype]
    · rw [payloadParsed_other htype]
      simp [htype]

namespace Demo

/-- What `raw` holds when it was zero before. -/
def rawOf (bytes : List UInt8) (i : Nat) : UInt8 := bytes.getD i 0

/-- The IPv4 packet in a frame of 60 bytes claims to be of 1500 bytes, 60 of them the header,
and to carry a TCP segment. -/
def cutOff : List UInt8 :=
  List.replicate 12 2 ++ [0x08, 0x00, 0x4f, 0, 0x05, 0xdc, 0, 0, 0, 0, 64, 6] ++
    List.replicate 36 10

end Demo

/-- A frame of 13 bytes has half a type, and one of 60 bytes may announce a TCP header
that lies behind it. -/
theorem readsReceived_short :
    (¬ ∀ raw (m : Mbuf), m.len.toNat ≤ 1518 →
      ∀ i ∈ asked raw m.parserEther, i < m.len.toNat) ∧
    ¬ ∀ raw (m : Mbuf), 60 ≤ m.len.toNat → m.len.toNat ≤ 1518 →
      ∀ i ∈ asked raw m.parserEther, i < m.len.toNat := by
  constructor
  · intro hall
    have hread := hall (Demo.rawOf []) (received 13) (by decide) 13 (by decide)
    exact absurd hread (by decide)
  · intro hall
    have hread := hall (Demo.rawOf Demo.cutOff) (received 60) (by decide) (by decide) 86 (by decide)
    exact absurd hread (by decide)

/-! ## Acceptance -/

namespace AcceptanceLemmas

/-- What the parser for an IP packet comes to. -/
theorem eval_parseIp_cases :
    if 20 ≤ m.len.toNat ∧ headerLen raw ≤ payloadLen raw ∧ (isTcp raw → 20 ≤ payloadLen raw) then
      eval raw m.etherParsed.parseIp =
        (0, if isTcp raw then (m.etherParsed.ipParsed raw).tcpParsed raw
          else m.etherParsed.ipParsed raw)
    else (eval raw m.etherParsed.parseIp).1 = -1 := by
  rw [eval_parseIp, eval_parseIpPayload, toNat_ipLen]
  split
  · next h =>
    rw [if_neg (Nat.not_lt.mpr h.1), if_neg (Nat.not_lt.mpr h.2.1)]
    split
    · next htcp => rw [if_neg (Nat.not_lt.mpr (h.2.2 htcp))]
    · rfl
  · next h =>
    split
    · rfl
    · split
      · rfl
      · split
        · next htcp =>
          rw [if_pos (by by_contra hlong; exact h ⟨by omega, by omega, fun _ => by omega⟩)]
        · next hother => exact absurd ⟨by omega, by omega, fun htcp => absurd htcp hother⟩ h

theorem eval_parserEther_ip (htype : etherType raw = ethertypeIp) :
    if 20 ≤ m.len.toNat ∧ headerLen raw ≤ payloadLen raw ∧ (isTcp raw → 20 ≤ payloadLen raw) then
      eval raw m.parserEther =
        (0, if isTcp raw then (m.etherParsed.ipParsed raw).tcpParsed raw
          else m.etherParsed.ipParsed raw)
    else (eval raw m.parserEther).1 = -1 := by
  have hip := @eval_parseIp_cases raw m
  rw [eval_parserEther, payloadParsed_ip htype]
  split at hip
  · next h =>
    rw [if_pos h, if_neg (by omega), hip]
    rfl
  · next h =>
    rw [if_neg h]
    split
    · rfl
    · simp [hip]

end AcceptanceLemmas

/-- The parser accepts the frame exactly when it is consistent, and then has the
exact lengths of the payloads. -/
def AcceptsConsistent (raw : Nat → UInt8) (m : Mbuf) : Prop :=
  ((eval raw m.parserEther).1 = 0 ↔ Consistent raw m.len.toNat) ∧
    ((eval raw m.parserEther).1 = 0 →
      (eval raw m.parserEther).2.ipLen.toNat + headerLen raw = totalLen raw ∧
        (isTcp raw → (eval raw m.parserEther).2.tcpLen.toNat + dataOffset raw =
          (eval raw m.parserEther).2.ipLen.toNat))

/-- The IP payload of a consistent frame is not shorter than the header, and what
is wrong with another frame shows in the lengths that the parser compares. -/
def Told (raw : Nat → UInt8) (len : Nat) : Prop :=
  (Consistent raw len → 2 * headerLen raw ≤ totalLen raw) ∧
    (¬ Consistent raw len →
      len < 20 ∨ payloadLen raw < headerLen raw ∨ isTcp raw ∧ payloadLen raw < 20)

namespace AcceptanceLemmas

theorem payloadLen_of_consistent {len : Nat} (h : Consistent raw len) :
    payloadLen raw + headerLen raw = totalLen raw := by
  have htotal := h.total
  have hle : headerLen raw < 2 ^ 16 := by
    unfold headerLen
    omega
  have hbound : totalLen raw < 2 ^ 16 := by
    have h₁ := (raw 16).toNat_lt
    have h₂ := (raw 17).toNat_lt
    unfold totalLen
    omega
  unfold payloadLen
  omega

theorem ipLen_parsed : (if isTcp raw then (m.etherParsed.ipParsed raw).tcpParsed raw
    else m.etherParsed.ipParsed raw).ipLen.toNat = payloadLen raw := by
  split
  · exact toNat_ipLen (m := m.etherParsed)
  · exact toNat_ipLen

/-- The subtraction for the TCP payload does not wrap. -/
theorem tcpLen_parsed (h : dataOffset raw ≤ payloadLen raw) :
    ((m.etherParsed.ipParsed raw).tcpParsed raw).tcpLen.toNat + dataOffset raw =
      payloadLen raw := by
  have hoff : (doff (raw ((m.etherParsed.ipParsed raw).ipFrame +
      (m.etherParsed.ipParsed raw).ipOff.toNat + 12)) <<< 2).toNat = dataOffset raw := by
    rw [toNat_doff, toNat_ipOff]
    rfl
  have hlen : (m.etherParsed.ipParsed raw).ipLen.toNat = payloadLen raw := toNat_ipLen
  have hlt := (m.etherParsed.ipParsed raw).ipLen.isLt
  simp only [tcpParsed]
  rw [BitVec.toNat_sub, hoff, hlen]
  omega

end AcceptanceLemmas

/-- The answer of the parser is right exactly where the frame tells it. -/
theorem acceptsConsistent_iff (raw : Nat → UInt8) (m : Mbuf)
    (htype : etherType raw = ethertypeIp) :
    AcceptsConsistent raw m ↔ Told raw m.len.toNat := by
  have hcases := @eval_parserEther_ip raw m htype
  unfold AcceptsConsistent Told
  split at hcases
  · next h =>
    obtain ⟨hlen, hheader, htcp⟩ := h
    have hnone : ¬ (m.len.toNat < 20 ∨ payloadLen raw < headerLen raw ∨
        isTcp raw ∧ payloadLen raw < 20) := by
      rintro (hshort | hshort | ⟨hproto, hshort⟩)
      · omega
      · omega
      · have := htcp hproto
        omega
    simp only [hcases, true_iff, true_imp_iff, ipLen_parsed]
    constructor
    · rintro ⟨hcons, -⟩
      have hpayload := payloadLen_of_consistent hcons
      exact ⟨fun _ => by omega, fun hnot => absurd hcons hnot⟩
    · rintro ⟨-, htold⟩
      have hcons : Consistent raw m.len.toNat := by
        by_contra hnot
        exact hnone (htold hnot)
      have hpayload := payloadLen_of_consistent hcons
      refine ⟨hcons, hpayload, fun hproto => ?_⟩
      rw [if_pos hproto]
      exact tcpLen_parsed (by have := (hcons.tcp hproto).2.2; omega)
  · next h =>
    have hne : ¬ (-1 : Int) = 0 := by decide
    simp only [hcases, hne, false_iff, false_imp_iff, and_true]
    constructor
    · intro hnot
      refine ⟨fun hcons => absurd hcons hnot, fun _ => ?_⟩
      by_contra hall
      push Not at hall
      exact h ⟨hall.1, hall.2.1, hall.2.2⟩
    · rintro ⟨htold, -⟩ hcons
      have hpayload := payloadLen_of_consistent hcons
      have hlong := htold hcons
      exact h ⟨by have := hcons.complete; omega, by omega,
        fun hproto => by have := (hcons.tcp hproto).1; omega⟩

namespace Demo

/-- An IPv4 packet of 44 bytes with a TCP segment that carries four bytes. -/
def segment : List UInt8 :=
  List.replicate 12 2 ++ [0x08, 0x00, 0x45, 0, 0, 44, 0, 0, 0, 0, 64, 6] ++
    List.replicate 10 10 ++ [0x0f, 0xa0, 0, 80, 0, 0, 0, 1, 0, 0, 0, 2, 0x50, 0x10] ++
    List.replicate 6 0 ++ [1, 2, 3, 4]

theorem segment_consistent : Consistent (rawOf segment) 58 where
  complete := by decide
  header := by decide
  total := by decide
  frame := by decide
  tcp := fun _ => by decide

end Demo

theorem acceptsConsistent_iff_demo : AcceptsConsistent (Demo.rawOf Demo.segment) (received 58) :=
  (acceptsConsistent_iff _ _ (by decide)).mpr
    ⟨fun _ => by decide, fun h => absurd Demo.segment_consistent h⟩

/-- A frame that claims neither a header nor any length is accepted. -/
theorem acceptsConsistent_zero :
    ¬ ∀ raw (m : Mbuf), m.len.toNat ≤ 1518 → etherType raw = ethertypeIp →
      AcceptsConsistent raw m := by
  intro hall
  have hlaw := (hall (fun i => if i = 12 then 8 else 0) (received 60) (by decide) (by decide)).1
  exact absurd (hlaw.mp (by decide)).header (by decide)

end Mbuf

end NetTraverse
