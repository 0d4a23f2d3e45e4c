import NetTraverse.Bridge.Server
import NetTraverse.Crypto.AesLaws

/-!
# Frames that nobody sent

Nothing in a datagram says that it comes from a holder of the key. Its initial value
and the length of the frame are not part of what is encrypted, so whoever sees one
datagram, and knows the first block of its frame, makes another one of it: with any
first block, which is both addresses of the frame, and with any shorter length.
-/

namespace NetTraverse

open FaultLemmas AesLemmas AesLawLemmas CipherBuffer TunnelLemmas ServerLemmas

/-- A datagram with its initial value changed and another length, without the key. -/
def forge (mask : AesIv) (len : Nat) (datagram : List UInt8) : List UInt8 :=
  ((ivOf datagram).xor mask).1 ++ xorBytes (le32 len) ++ cipherOf datagram

namespace ForgeryLemmas

variable {evp : Evp} {c : AesKey → Cbc.BlockCipher 16} {key : AesKey} {iv mask : AesIv}
  {frame : List UInt8} {len : Nat}

theorem ivOf_val {bytes : List UInt8} (h : aesBlockSize ≤ bytes.length) :
    (ivOf bytes).1 = bytes.take aesBlockSize := Cbc.Block.ofBytes_val h

/-- `xor_mess` does not matter to the change. -/
theorem xorBytes_xor {iv obfuscated : AesIv} (h : obfuscated.1 = xorBytes iv.1) :
    xorBytes (obfuscated.xor mask).1 = (iv.xor mask).1 := by
  simp only [Cbc.Block.xor, h]
  apply List.ext_getElem
  · simp
  · intro i h₁ h₂
    simp only [xorBytes, List.getElem_map, List.getElem_zipWith]
    rw [UInt8.xor_assoc, UInt8.xor_comm, UInt8.xor_assoc, UInt8.xor_comm 15, UInt8.xor_assoc,
      UInt8.xor_self, UInt8.xor_zero, UInt8.xor_comm]

theorem forge_message (mask : AesIv) (len originLen : Nat) (cipher : List UInt8) :
    xorBytes (forge mask len (xorBytes (message iv originLen cipher))) =
      message (iv.xor mask) len cipher := by
  have happend (a b : List UInt8) : xorBytes (a ++ b) = xorBytes a ++ xorBytes b := List.map_append
  have hiv : (xorBytes iv.1).length = aesBlockSize := by
    rw [length_xorBytes]
    exact iv.2
  have hhead : (xorBytes iv.1 ++ xorBytes (le32 originLen)).length = headerSize := by
    rw [List.length_append, hiv, length_xorBytes, length_le32]
    rfl
  have hparts : xorBytes (message iv originLen cipher) =
      xorBytes iv.1 ++ xorBytes (le32 originLen) ++ xorBytes cipher := by
    rw [message, happend, happend]
  have hfirst : (ivOf (xorBytes (message iv originLen cipher))).1 = xorBytes iv.1 := by
    rw [ivOf_val (by rw [length_xorBytes, length_message, aesBlockSize]; omega), hparts,
      List.append_assoc, List.take_left' hiv]
  have hcipher : cipherOf (xorBytes (message iv originLen cipher)) = xorBytes cipher := by
    rw [hparts, cipherOf, List.drop_left' hhead]
  rw [forge, hcipher, happend, happend, xorBytes_xor hfirst, xorBytes_xorBytes,
    xorBytes_xorBytes, message]

theorem length_forge (mask : AesIv) (len : Nat) (datagram : List UInt8)
    (h : headerSize ≤ datagram.length) : (forge mask len datagram).length = datagram.length := by
  have hiv : ((ivOf datagram).xor mask).1.length = 16 := ((ivOf datagram).xor mask).2
  rw [forge, List.length_append, List.length_append, hiv, length_xorBytes, length_le32, cipherOf,
    List.length_drop]
  unfold headerSize aesBlockSize at *
  omega

/-- What the receiver finds in a forged datagram. -/
theorem receivedBytes_forge (evp : Evp) (key : AesKey) (iv mask : AesIv) (len : Nat)
    (h : frame.length < 1472) :
    receivedBytes (forge mask len (datagram evp key iv frame)) =
      message (iv.xor mask) len (evp.encrypt key iv frame) := by
  have hlen := length_datagram evp key iv frame
  have hforge := length_forge mask len (datagram evp key iv frame)
    (by rw [hlen, headerSize, aesBlockSize]; omega)
  rw [receivedBytes, List.take_of_length_le (by rw [hforge, hlen, bridgeMtu]; omega), datagram]
  exact forge_message mask len frame.length _

theorem carries_forge (key : AesKey) (iv mask : AesIv) (len : Nat) (hcbc : evp.IsCbc c)
    (hlong : aesBlockSize ≤ frame.length) :
    Carries evp key (message (iv.xor mask) len (evp.encrypt key iv frame))
      (Cbc.xorFront mask frame) := by
  have hplain : Cbc.decryptMessage (c key) iv (evp.encrypt key iv frame) = some frame :=
    (hcbc key iv _).symm.trans (Evp.decrypt_encrypt_eq frame)
  rw [Carries, ivOf_message, cipherOf_message, hcbc]
  exact Cbc.decryptMessage_xor (by decide) hplain hlong

theorem content_forge (hcbc : evp.IsCbc c) (junk : Nat → Nat → UInt8)
    (hlong : aesBlockSize ≤ frame.length) (hlen : len ≤ frame.length) (h32 : len < 2 ^ 32) :
    (decrypted junk (message (iv.xor mask) len (evp.encrypt key iv frame))
      (Cbc.xorFront mask frame)).content = (Cbc.xorFront mask frame).take len := by
  have hclaimed : claimedLen (message (iv.xor mask) len (evp.encrypt key iv frame)) = len :=
    claimedLen_message h32 _
  have hcarries := carries_forge key iv mask len hcbc hlong
  rw [content_decrypted (length_of_carries hcarries).2, hclaimed]
  rwa [hclaimed, Cbc.length_xorFront mask hlong]

end ForgeryLemmas

open ForgeryLemmas

/-- From the datagram of a frame that the server has room for, and the first block of the
frame, anybody makes one that the server takes for a frame with any first block, and any
length up to that of the frame: it passes it to `forward`, which learns its source address,
if it has one, for whoever sent it. -/
theorem forged_header_forwarded (evp : Evp) (c : AesKey → Cbc.BlockCipher 16)
    (hcbc : evp.IsCbc c) (junk : Nat → Nat → UInt8) (key : AesKey) (iv : AesIv)
    (replyIv : EtherAddr → AesIv) (table : MacTable ReplyHandler) (t₁ t₂ : Int)
    (first new : AesIv) (rest : List UInt8) (hshort : (first.1 ++ rest).length < 1472) (len : Nat)
    (hlen : len ≤ (first.1 ++ rest).length) :
    serverRound evp junk key replyIv table t₁ t₂
        (.datagram (forge (new.xor first) len (datagram evp key iv (first.1 ++ rest)))) =
      .ok (forward table t₁ t₂ ((new.1 ++ rest).take len) .udp) := by
  have hfirst : first.1.length = aesBlockSize := first.2
  have hlong : aesBlockSize ≤ (first.1 ++ rest).length := by
    rw [List.length_append, hfirst]
    exact Nat.le_add_right _ _
  have hnew : Cbc.xorFront (new.xor first) (first.1 ++ rest) = new.1 ++ rest := by
    have hof : Cbc.Block.ofBytes 16 (first.1 ++ rest) = first :=
      Subtype.ext ((Cbc.Block.ofBytes_val hlong).trans (List.take_left' hfirst))
    have hrest : (first.1 ++ rest).drop 16 = rest := List.drop_left' hfirst
    rw [Cbc.xorFront, hof, Cbc.Block.xor_comm, Cbc.Block.xor_xor, hrest]
  have hreceived := receivedBytes_forge evp key iv (new.xor first) len hshort
  have hcarries := carries_forge key iv (new.xor first) len hcbc hlong
  rw [← hreceived] at hcarries
  rw [serverRound_of_carries hcarries, hreceived, content_forge hcbc junk hlong hlen (by omega),
    hnew]

/-- A datagram becomes one with the source address 06:06:06:06:06:06. -/
theorem forged_header_forwarded_demo :
    ∃ d r, serverRound .openssl (fun _ _ => 0) Demo.key (fun _ => Demo.iv) .empty 0 0
        (.datagram d) = .ok r ∧ r.learned = some (.ofBytes [6, 6, 6, 6, 6, 6]) := by
  have hround := forged_header_forwarded .openssl _ Evp.openssl_isCbc (fun _ _ => 0) Demo.key
    Demo.iv (fun _ => Demo.iv) .empty 0 0 ⟨List.replicate 16 1, rfl⟩ ⟨List.replicate 16 6, rfl⟩
    [1, 2, 3] (by decide) 19 (by decide)
  refine ⟨_, _, hround, ?_⟩
  rw [forward_learned (by decide)]
  rfl

end NetTraverse
