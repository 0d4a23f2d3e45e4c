import NetTraverse.Crypto.Aes

/-!
# What `AES_encrypt` and `AES_decrypt` promise

* `aesDecrypt_aesEncrypt`: decryption undoes encryption, and the layout of the
  encrypted buffer.
* `decryptsOnly_iff`: when `AES_decrypt` of any bytes returns nothing but bytes
  that it has decrypted. The length in the header is compared with the length of
  the packet, not with that of the plaintext.
-/

namespace NetTraverse

open AesLemmas CipherBuffer

/-! ## Round trip -/

/-- For plaintexts of at most `2 ^ 31 - 17` bytes. No access is outside a buffer,
that of `origin_len + 36` bytes among them, since neither call is a fault. -/
theorem aesDecrypt_aesEncrypt (evp : Evp) (junk junk' : Nat → Nat → UInt8) (key : List UInt8)
    (iv : AesIv) (plain : ByteBuffer) (hfits : plain.Fits) (hsize : plain.size ≤ 2 ^ 31 - 17) :
    ∃ cipher, aesEncrypt evp junk (aesKey key) iv plain = .ok cipher ∧
      cipher.content = iv.1 ++ le32 plain.size ++ evp.encrypt (aesKey key) iv plain.content ∧
      cipher.size = 20 + 16 * (plain.size / 16 + 1) ∧ cipher.size ≤ plain.size + 36 ∧
      ∃ p, aesDecrypt evp junk' (aesKey key) cipher = .ok p ∧ p.content = plain.content ∧
        p.size = plain.size ∧ p.Fits := by
  have hlen := ByteBuffer.length_content hfits
  set enc := evp.encrypt (aesKey key) iv plain.content with henc
  set cipher := ByteBuffer.ofBytes (message iv plain.size enc) with hcipher
  have hcontent : cipher.content = message iv plain.size enc := ByteBuffer.ofBytes_content _
  have henclen : enc.length = 16 * (plain.size / 16 + 1) := by
    rw [henc, Evp.length_encrypt, hlen]
    rfl
  have hcsize : cipher.size = 20 + 16 * (plain.size / 16 + 1) := by
    show (message iv plain.size enc).length = _
    rw [length_message, henclen, Nat.add_comm]
  have hdecrypt : aesDecrypt evp junk' (aesKey key) cipher =
      .ok (decrypted junk' (message iv plain.size enc) plain.content) := by
    have hhead : headerSize ≤ cipher.size := by
      rw [hcsize]
      exact Nat.le_add_right _ _
    have hsmall : cipher.size < 2 ^ 31 + headerSize := by
      rw [hcsize]
      simp only [headerSize, aesBlockSize]
      omega
    rw [aesDecrypt_eq (ByteBuffer.ofBytes_fits _) hhead hsmall, hcontent, ivOf_message,
      cipherOf_message, Evp.decrypt_encrypt_eq]
    rfl
  have hmin : min (claimedLen (message iv plain.size enc)) (message iv plain.size enc).length =
      plain.size := by
    rw [claimedLen_message (by omega), length_message, henclen]
    omega
  have hlong : plain.content.length < (message iv plain.size enc).length := by
    rw [length_message, henclen, hlen]
    omega
  refine ⟨cipher, aesEncrypt_eq hfits (by omega), hcontent, hcsize, by omega, _, hdecrypt, ?_,
    hmin, decrypted_fits hlong⟩
  rw [decrypted, ByteBuffer.content, hmin, ← hlen, List.take_left]

namespace Evp.Demo

def key : List UInt8 := [115, 101, 99, 114, 101, 116]
def iv : AesIv := Cbc.Block.ofBytes 16 []

end Evp.Demo

theorem aesDecrypt_aesEncrypt_demo :
    ∃ cipher, aesEncrypt .openssl (fun _ _ => 1) (aesKey Evp.Demo.key) Evp.Demo.iv
        (.ofBytes [1, 2, 3]) = .ok cipher ∧
      cipher.content = Evp.Demo.iv.1 ++ le32 3 ++
        Evp.encrypt .openssl (aesKey Evp.Demo.key) Evp.Demo.iv [1, 2, 3] ∧
      cipher.size = 36 ∧ cipher.size ≤ 39 ∧
      ∃ p, aesDecrypt .openssl (fun _ _ => 2) (aesKey Evp.Demo.key) cipher = .ok p ∧
        p.content = [1, 2, 3] ∧ p.size = 3 ∧ p.Fits :=
  aesDecrypt_aesEncrypt .openssl (fun _ _ => 1) (fun _ _ => 2) Evp.Demo.key Evp.Demo.iv
    (.ofBytes [1, 2, 3]) (ByteBuffer.ofBytes_fits _) (by decide)

/-! ## Decryption of any bytes -/

/-- `AES_decrypt` throws, or returns the beginning of what the ciphertext
decrypts to, whatever the fresh allocations contain. -/
def DecryptsOnly (evp : Evp) (c : AesKey → Cbc.BlockCipher 16) (key : AesKey)
    (buffer : ByteBuffer) : Prop :=
  ∀ junk, aesDecrypt evp junk key buffer = .error .exception ∨
    ∃ r plain, aesDecrypt evp junk key buffer = .ok r ∧ r.Fits ∧
      Cbc.decryptMessage (c key) (ivOf buffer.content) (cipherOf buffer.content) = some plain ∧
      r.content <+: plain

/-- There is an IV; and if what is passed to the cipher decrypts, it is not
shorter than the header claims, and the whole ciphertext decrypts. -/
structure HonestLength (c : AesKey → Cbc.BlockCipher 16) (key : AesKey) (bytes : List UInt8) :
    Prop where
  hasIv : aesBlockSize ≤ bytes.length
  claimed : headerSize ≤ bytes.length → ∀ cipher plain, passedCipher bytes = some cipher →
    Cbc.decryptMessage (c key) (ivOf bytes) cipher = some plain →
      claimedLen bytes ≤ plain.length ∧
        (Cbc.decryptMessage (c key) (ivOf bytes) (cipherOf bytes)).isSome

namespace AesLawLemmas

variable {evp : Evp} {c : AesKey → Cbc.BlockCipher 16} {key : AesKey} {buffer : ByteBuffer}
  {junk : Nat → Nat → UInt8} {bytes cipher plain : List UInt8}

/-- Only from 4 GiB on is the ciphertext passed in part. -/
theorem passedCipher_whole (h : headerSize ≤ bytes.length) (hp : passedCipher bytes = some cipher) :
    cipher = cipherOf bytes ∨ cipher.length + 2 ^ 32 ≤ (cipherOf bytes).length := by
  have hsize := cipherSize_ofBytes h
  rw [passedCipher, hsize] at hp
  split at hp
  · cases hp
  · next hneg =>
    have heq := Option.some.inj hp
    have hint : (cInt ((cipherOf bytes).length % 2 ^ 32)).toNat =
        (cipherOf bytes).length % 2 ^ 32 := by
      unfold cInt at hneg ⊢
      omega
    rw [hint] at heq
    by_cases hlt : (cipherOf bytes).length < 2 ^ 32
    · rw [Nat.mod_eq_of_lt hlt, List.take_length] at heq
      exact .inl heq.symm
    · refine .inr ?_
      rw [← heq, List.length_take]
      omega

/-- What is returned, when the header does not claim too much. -/
theorem content_decrypted (hlen : plain.length < bytes.length)
    (h : claimedLen bytes ≤ plain.length) :
    (decrypted junk bytes plain).content = plain.take (claimedLen bytes) := by
  rw [decrypted, ByteBuffer.content, Nat.min_eq_left (by omega), List.take_append_of_le_length h]

/-- When it claims too much, the byte after the plaintext is that of the
allocation. -/
theorem getElem?_decrypted (hlen : plain.length < bytes.length)
    (h : plain.length < claimedLen bytes) (b : UInt8) {whole : List UInt8}
    (hpre : (decrypted (fun _ _ => b) bytes plain).content <+: whole) :
    whole[plain.length]? = some b := by
  have hget : (decrypted (fun _ _ => b) bytes plain).content[plain.length]? = some b := by
    show ((plain ++ (newBytes (fun _ => b) bytes.length).drop plain.length).take
      (min (claimedLen bytes) bytes.length))[plain.length]? = _
    rw [List.getElem?_take_of_lt (by omega), List.getElem?_append_right (le_refl _),
      Nat.sub_self, List.getElem?_drop, Nat.add_zero, newBytes, List.getElem?_map,
      List.getElem?_range hlen]
    rfl
  obtain ⟨rest, rfl⟩ := hpre
  obtain ⟨hbound, -⟩ := List.getElem?_eq_some_iff.mp hget
  rw [List.getElem?_append_left hbound, hget]

theorem aesDecrypt_of_passed (hcbc : evp.IsCbc c) (hfits : buffer.Fits)
    (h : headerSize ≤ buffer.size) (hp : passedCipher buffer.content = some cipher)
    (hplain : Cbc.decryptMessage (c key) (ivOf buffer.content) cipher = some plain) :
    aesDecrypt evp junk key buffer = .ok (decrypted junk buffer.content plain) := by
  rw [aesDecrypt_of_header hfits h, hp]
  show (checked (evp.decrypt key (ivOf buffer.content) cipher)).map _ = _
  rw [hcbc, hplain]
  rfl

/-- The plaintext is shorter than the packet. -/
theorem length_lt_of_passed (hp : passedCipher bytes = some cipher)
    (hplain : Cbc.decryptMessage (c key) (ivOf bytes) cipher = some plain) :
    plain.length < bytes.length := by
  have hpre := (passedCipher_front hp).length_le
  rw [cipherOf, List.length_drop] at hpre
  unfold Cbc.decryptMessage at hplain
  split at hplain
  · have hlt := Cbc.length_lt_of_unpad hplain
    rw [Cbc.length_decryptBytes] at hlt
    omega
  · cases hplain

theorem honest_of_decryptsOnly (hcbc : evp.IsCbc c) (hfits : buffer.Fits)
    (h : DecryptsOnly evp c key buffer) : HonestLength c key buffer.content := by
  have hlen := ByteBuffer.length_content hfits
  refine ⟨?_, fun hhead cipher plain hp hplain => ?_⟩
  · by_contra hiv
    have hout : aesDecrypt evp (fun _ _ => 0) key buffer = .error .outOfBounds :=
      aesDecrypt_of_lt_iv hfits (by omega)
    rcases h fun _ _ => 0 with hthrow | ⟨r, plain, hr, -⟩
    · cases hout.symm.trans hthrow
    · cases hout.symm.trans hr
  · have hlt := length_lt_of_passed hp hplain
    have hresult (b : UInt8) : ∃ whole,
        Cbc.decryptMessage (c key) (ivOf buffer.content) (cipherOf buffer.content) = some whole ∧
          (decrypted (fun _ _ => b) buffer.content plain).content <+: whole := by
      have hok : aesDecrypt evp (fun _ _ => b) key buffer =
          .ok (decrypted (fun _ _ => b) buffer.content plain) :=
        aesDecrypt_of_passed hcbc hfits (by omega) hp hplain
      rcases h fun _ _ => b with hthrow | ⟨r, whole, hr, -, hwhole, hpre⟩
      · cases hok.symm.trans hthrow
      · cases hok.symm.trans hr
        exact ⟨whole, hwhole, hpre⟩
    obtain ⟨whole, hwhole, hpre⟩ := hresult 0
    refine ⟨?_, by rw [hwhole]; rfl⟩
    by_contra hclaim
    -- the same place of `whole` would hold 0 and 1
    obtain ⟨whole', hwhole', hpre'⟩ := hresult 1
    obtain rfl := Option.some.inj (hwhole.symm.trans hwhole')
    have hzero := getElem?_decrypted hlt (not_le.mp hclaim) 0 hpre
    have hone := getElem?_decrypted hlt (not_le.mp hclaim) 1 hpre'
    exact absurd (hzero.symm.trans hone) (by decide)

theorem decryptsOnly_of_honest (hcbc : evp.IsCbc c) (hfits : buffer.Fits)
    (h : HonestLength c key buffer.content) : DecryptsOnly evp c key buffer := by
  intro junk
  have hlen := ByteBuffer.length_content hfits
  have hiv := h.hasIv
  by_cases hhead : buffer.size < headerSize
  · exact .inl (aesDecrypt_of_lt_header hfits (by omega) hhead)
  · have hhead := not_lt.mp hhead
    cases hp : passedCipher buffer.content with
    | none =>
      rw [aesDecrypt_of_header hfits hhead, hp]
      exact .inl rfl
    | some cipher =>
      cases hplain : Cbc.decryptMessage (c key) (ivOf buffer.content) cipher with
      | none =>
        rw [aesDecrypt_of_header hfits hhead, hp]
        refine .inl ?_
        show (checked (evp.decrypt key (ivOf buffer.content) cipher)).map _ = _
        rw [hcbc, hplain]
        rfl
      | some plain =>
        obtain ⟨hclaim, hsome⟩ := h.claimed (by omega) cipher plain hp hplain
        obtain ⟨whole, hwhole⟩ := Option.isSome_iff_exists.mp hsome
        have hlt := length_lt_of_passed hp hplain
        refine .inr ⟨_, whole, aesDecrypt_of_passed hcbc hfits hhead hp hplain,
          decrypted_fits hlt, hwhole, ?_⟩
        rw [content_decrypted hlt hclaim]
        refine (List.take_prefix _ _).trans ?_
        rcases passedCipher_whole (by omega) hp with rfl | hlong
        · obtain rfl := Option.some.inj (hplain.symm.trans hwhole)
          exact List.prefix_rfl
        · exact Cbc.decryptMessage_front (passedCipher_front hp) (by omega) hplain hwhole

end AesLawLemmas

open AesLawLemmas

/-- For bytes of any length. -/
theorem decryptsOnly_iff (evp : Evp) (c : AesKey → Cbc.BlockCipher 16) (hcbc : evp.IsCbc c)
    (key : AesKey) (buffer : ByteBuffer) (hfits : buffer.Fits) :
    DecryptsOnly evp c key buffer ↔ HonestLength c key buffer.content :=
  ⟨honest_of_decryptsOnly hcbc hfits, decryptsOnly_of_honest hcbc hfits⟩

namespace Evp.Demo

/-- The block cipher of `Evp.openssl`. -/
def aes256 (key : AesKey) : Cbc.BlockCipher 16 := Aes256.cipher key.1

/-- Three encrypted bytes, with a header that claims `len`. -/
def packet (len : Nat) : List UInt8 :=
  message iv len (Evp.encrypt .openssl (aesKey key) iv [1, 2, 3])

theorem packet_length (len : Nat) : (packet len).length = 36 := by
  rw [packet, length_message, Evp.length_encrypt]
  rfl

theorem packet_passed (len : Nat) : passedCipher (packet len) = some (cipherOf (packet len)) := by
  refine passedCipher_of_lt ?_ ?_ <;> rw [packet_length] <;> decide

theorem packet_plain (len : Nat) : Cbc.decryptMessage (aes256 (aesKey key)) (ivOf (packet len))
    (cipherOf (packet len)) = some [1, 2, 3] := by
  rw [packet, ivOf_message, cipherOf_message]
  exact (openssl_isCbc _ _ _).symm.trans (Evp.decrypt_encrypt_eq _)

end Evp.Demo

open Evp.Demo

theorem decryptsOnly_iff_demo :
    DecryptsOnly .openssl aes256 (aesKey key) (.ofBytes (packet 3)) := by
  refine (decryptsOnly_iff .openssl aes256 Evp.openssl_isCbc (aesKey key) (.ofBytes (packet 3))
    (ByteBuffer.ofBytes_fits _)).mpr ?_
  rw [ByteBuffer.ofBytes_content]
  refine ⟨by rw [packet_length]; decide, fun _ cipher plain hp hplain => ?_⟩
  obtain rfl := Option.some.inj ((packet_passed 3).symm.trans hp)
  obtain rfl := Option.some.inj ((packet_plain 3).symm.trans hplain)
  refine ⟨?_, by rw [packet_plain]; rfl⟩
  rw [packet, claimedLen_message (by decide)]
  decide

/-- A header that claims ten bytes. -/
theorem decryptsOnly_overlong : ¬ ∀ (key : AesKey) (buffer : ByteBuffer), buffer.Fits →
    DecryptsOnly .openssl aes256 key buffer := by
  intro hall
  have honest := honest_of_decryptsOnly Evp.openssl_isCbc (ByteBuffer.ofBytes_fits (packet 10))
    (hall (aesKey key) _ (ByteBuffer.ofBytes_fits _))
  rw [ByteBuffer.ofBytes_content] at honest
  have hclaim := (honest.claimed (by rw [packet_length]; decide) _ _ (packet_passed 10)
    (packet_plain 10)).1
  rw [packet, claimedLen_message (by decide)] at hclaim
  exact absurd hclaim (by decide)

end NetTraverse
