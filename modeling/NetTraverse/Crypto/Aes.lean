import NetTraverse.Crypto.ByteBuffer
import NetTraverse.Crypto.Evp

/-!
# `AES_encrypt` and `AES_decrypt`

An encrypted buffer is an IV, the length of the plaintext in 32 bits, and the
ciphertext. The member `iv_` of `AES` is overwritten before each use, so the IV
that `RAND_bytes` draws is an argument here. `junk i` is what the `i`-th
allocation of a call contains.
-/

namespace NetTraverse

/-- `AES_key(const std::string &)`: cut off, or filled up with zeros. -/
def aesKey (key : List UInt8) : AesKey := Cbc.Block.ofBytes aesKeySize key

/-- The conversion to `std::uint32_t`. -/
def uint32T (n : Nat) : Nat := n % 2 ^ 32

/-- The conversion of an unsigned value to `int`. -/
def cInt (n : Nat) : Int := ((n : Int) + 2 ^ 31) % 2 ^ 32 - 2 ^ 31

/-- A `std::uint32_t` in memory. -/
def le32 (n : Nat) : List UInt8 :=
  [UInt8.ofNat n, UInt8.ofNat (n / 2 ^ 8), UInt8.ofNat (n / 2 ^ 16), UInt8.ofNat (n / 2 ^ 24)]

def ofLe32 (bytes : List UInt8) : Nat := bytes.foldr (fun b n => b.toNat + 2 ^ 8 * n) 0

/-! ## `cipher_buffer` -/

namespace CipherBuffer

/-- Where the ciphertext starts. -/
def headerSize : Nat := aesBlockSize + 4

/-- `cipher_buffer(const AES_IV &, length_type)`. -/
def ofPlain (junk : Nat → Nat → UInt8) (iv : AesIv) (originLen : Nat) :
    Except Fault ByteBuffer := do
  let buffer := ByteBuffer.ofSize (junk 0) (originLen + 4 + aesBlockSize * 2)
  let buffer ← buffer.write 0 iv.1
  let buffer ← buffer.index (junk 1) aesBlockSize
  buffer.write aesBlockSize (le32 originLen)

/-- `iv()` -/
def iv (buffer : ByteBuffer) : Except Fault AesIv := do
  let bytes ← buffer.read 0 aesBlockSize
  .ok (Cbc.Block.ofBytes aesBlockSize bytes)

/-- `plaintext_len()`, read. -/
def plaintextLen (junk : Nat → Nat → UInt8) (buffer : ByteBuffer) : Except Fault Nat := do
  let buffer ← buffer.index (junk 3) aesBlockSize
  let bytes ← buffer.read aesBlockSize 4
  .ok (ofLe32 bytes)

/-- `cipher_size()`: computed in `std::size_t`, returned in 32 bits. -/
def cipherSize (buffer : ByteBuffer) : Nat :=
  uint32T (sizeT ((buffer.size : Int) - aesBlockSize - 4))

end CipherBuffer

open CipherBuffer

/-! ## The two functions -/

/-- The input of an `Update` call. When the call refuses the length, `AES.cpp`
throws. -/
def evpInput (evp : Evp) (buffer : ByteBuffer) (off : Nat) (inl : Int) :
    Except Fault (List UInt8) :=
  if evp.updateTakes inl then buffer.read off inl.toNat else .error .exception

/-- `if (EVP_..(..) != 1) throw AES::ssl_internal_error(..)`. -/
def checked {α : Type} : Option α → Except Fault α
  | some a => .ok a
  | none => .error .exception

/-- `AES_encrypt`. -/
def aesEncrypt (evp : Evp) (junk : Nat → Nat → UInt8) (key : AesKey) (iv : AesIv)
    (plain : ByteBuffer) : Except Fault ByteBuffer := do
  let cipher ← ofPlain junk iv (uint32T plain.size)
  let cipher ← cipher.index (junk 2) headerSize
  let input ← evpInput evp plain 0 (cInt plain.size)
  let out := evp.encryptUpdate key iv input
  let cipher ← cipher.write headerSize out
  let cipher ← cipher.index (junk 3) headerSize
  let last := evp.encryptFinal key iv input
  let cipher ← cipher.write (headerSize + out.length) last
  let cipher ← cipher.resize (junk 4) (headerSize + uint32T (out.length + last.length))
  cipher.copy

/-- `AES_decrypt`. -/
def aesDecrypt (evp : Evp) (junk : Nat → Nat → UInt8) (key : AesKey) (buffer : ByteBuffer) :
    Except Fault ByteBuffer := do
  let cipher ← buffer.copy
  let iv ← CipherBuffer.iv cipher
  let plain := ByteBuffer.ofSize (junk 1) buffer.size
  let cipher ← cipher.index (junk 2) headerSize
  let input ← evpInput evp cipher headerSize (cInt (cipherSize cipher))
  let out ← checked (evp.decryptUpdate key iv input)
  let plain ← plain.write 0 out
  let last ← checked (evp.decryptFinal key iv input)
  let plain ← plain.write out.length last
  let len ← plaintextLen junk cipher
  if len < plain.size then plain.resize (junk 4) len else .ok plain

/-! ## What they compute -/

open FaultLemmas

namespace AesLemmas

variable {evp : Evp} {junk : Nat → Nat → UInt8} {key : AesKey} {iv : AesIv}

theorem evpInput_negative {buffer : ByteBuffer} {off : Nat} {inl : Int} (h : inl < 0) :
    evpInput evp buffer off inl = .error .exception := by
  rw [evpInput, evp.updateTakes_negative inl h, if_neg Bool.false_ne_true]

theorem evpInput_length (buffer : ByteBuffer) (off n : Nat) :
    evpInput evp buffer off n = buffer.read off n := by
  rw [evpInput, if_pos (evp.updateTakes_length n), Int.toNat_natCast]

theorem length_le32 (n : Nat) : (le32 n).length = 4 := rfl

theorem ofLe32_le32 {n : Nat} (h : n < 2 ^ 32) : ofLe32 (le32 n) = n := by
  simp only [ofLe32, le32, List.foldr_cons, List.foldr_nil, UInt8.toNat_ofNat']
  omega

theorem cInt_of_lt {n : Nat} (h : n < 2 ^ 31) : cInt n = n := by
  unfold cInt
  omega

theorem ofPlain_eq (n : Nat) :
    ofPlain junk iv n = .ok ⟨iv.1 ++ le32 n ++ (newBytes (junk 0) (n + 36)).drop 20, n + 36⟩ := by
  have hiv : iv.1.length = 16 := iv.2
  have hnew : (newBytes (junk 0) (n + 36)).length = n + 36 := length_newBytes _ _
  have h₁ : (ByteBuffer.ofSize (junk 0) (n + 36)).write 0 iv.1 =
      .ok ⟨iv.1 ++ (newBytes (junk 0) (n + 36)).drop 16, n + 36⟩ := by
    refine (ByteBuffer.write_front (by omega)).trans ?_
    rw [hiv]
  have h₂ : ByteBuffer.write ⟨iv.1 ++ (newBytes (junk 0) (n + 36)).drop 16, n + 36⟩ 16 (le32 n) =
      .ok ⟨iv.1 ++ le32 n ++ (newBytes (junk 0) (n + 36)).drop 20, n + 36⟩ := by
    refine (ByteBuffer.write_after hiv.symm (by rw [length_le32, List.length_drop]; omega)).trans ?_
    rw [length_le32, List.drop_drop]
  rw [ofPlain, show n + 4 + aesBlockSize * 2 = n + 36 from rfl]
  refine (bind_ok h₁ _).trans ((bind_ok (ByteBuffer.index_of_le ?_) _).trans h₂)
  exact Nat.le_add_left_of_le (by decide)

/-- The layout of an encrypted buffer. -/
def message (iv : AesIv) (len : Nat) (cipher : List UInt8) : List UInt8 :=
  iv.1 ++ le32 len ++ cipher

theorem length_message (len : Nat) (cipher : List UInt8) :
    (message iv len cipher).length = cipher.length + 20 := by
  have hiv : iv.1.length = 16 := iv.2
  simp [message, hiv, length_le32]
  omega

/-- `AES_encrypt` stays inside its buffers. -/
theorem aesEncrypt_eq {plain : ByteBuffer} (hfits : plain.Fits)
    (hsize : plain.size + 16 < 2 ^ 31) :
    aesEncrypt evp junk key iv plain =
      .ok (ByteBuffer.ofBytes (message iv plain.size (evp.encrypt key iv plain.content))) := by
  set n := plain.size with hn
  set out := evp.encryptUpdate key iv plain.content with hout
  set last := evp.encryptFinal key iv plain.content with hlast
  have hiv : iv.1.length = 16 := iv.2
  have hlen : out.length + last.length = 16 * (n / 16 + 1) := by
    rw [hout, hlast, evp.encrypt_length, ByteBuffer.length_content hfits]
    rfl
  have hhead : (iv.1 ++ le32 n).length = headerSize := by
    simp [hiv, length_le32, headerSize, aesBlockSize]
  have hn32 : uint32T n = n := Nat.mod_eq_of_lt (by omega)
  have hinl : cInt n = n := cInt_of_lt (by omega)
  let mem := newBytes (junk 0) (n + 36)
  have hmem : mem.length = n + 36 := length_newBytes _ _
  -- each write extends the part of the allocation that is filled
  have h₀ : ofPlain junk iv (uint32T n) = .ok ⟨iv.1 ++ le32 n ++ mem.drop 20, n + 36⟩ := by
    rw [hn32]
    exact ofPlain_eq n
  have h₁ : ByteBuffer.write ⟨iv.1 ++ le32 n ++ mem.drop 20, n + 36⟩ headerSize out =
      .ok ⟨iv.1 ++ le32 n ++ out ++ mem.drop (20 + out.length), n + 36⟩ := by
    refine (ByteBuffer.write_after hhead.symm (by rw [List.length_drop]; omega)).trans ?_
    rw [List.drop_drop]
  have h₂ : ByteBuffer.write ⟨iv.1 ++ le32 n ++ out ++ mem.drop (20 + out.length), n + 36⟩
      (headerSize + out.length) last =
      .ok ⟨iv.1 ++ le32 n ++ out ++ last ++ mem.drop (20 + out.length + last.length),
        n + 36⟩ := by
    refine (ByteBuffer.write_after (by rw [List.length_append, hhead])
      (by rw [List.length_drop]; omega)).trans ?_
    rw [List.drop_drop]
  have hinput : evpInput evp plain 0 (cInt n) = .ok plain.content := by
    rw [hinl, evpInput_length]
    exact ByteBuffer.read_content hfits
  have h32 : uint32T (out.length + last.length) = out.length + last.length :=
    Nat.mod_eq_of_lt (by omega)
  -- `operator[]` stays inside the buffer and leaves it alone
  have hindex : ∀ (bytes : List UInt8) (j : Nat → UInt8),
      ByteBuffer.index ⟨bytes, n + 36⟩ j headerSize = .ok ⟨bytes, n + 36⟩ := fun bytes j =>
    ByteBuffer.index_of_le (Nat.le_add_left_of_le (by decide))
  set full := iv.1 ++ le32 n ++ out ++ last with hfull
  have hfl : full.length = 20 + out.length + last.length := by
    rw [hfull, List.length_append, List.length_append, hhead]
    rfl
  have hresize : ByteBuffer.resize ⟨full ++ mem.drop (20 + out.length + last.length), n + 36⟩
      (junk 4) (headerSize + uint32T (out.length + last.length)) =
      .ok ⟨full ++ mem.drop (20 + out.length + last.length), full.length⟩ := by
    have hsz : headerSize + uint32T (out.length + last.length) = full.length := by
      rw [h32, hfl, headerSize, aesBlockSize]
      omega
    have hle : full.length ≤ n + 36 := by
      rw [hfl]
      omega
    rw [hsz]
    exact ByteBuffer.resize_of_le hle
  have hcopy : ByteBuffer.copy ⟨full ++ mem.drop (20 + out.length + last.length), full.length⟩ =
      .ok (ByteBuffer.ofBytes full) := by
    rw [ByteBuffer.copy_of_fits (by simp [ByteBuffer.Fits]), ByteBuffer.content, List.take_left]
  rw [aesEncrypt, ← hn, bind_ok h₀, bind_ok (hindex _ _), bind_ok hinput]
  dsimp only
  rw [← hout, ← hlast, bind_ok h₁, bind_ok (hindex _ _), bind_ok h₂, bind_ok hresize, hcopy,
    message, Evp.encrypt, ← List.append_assoc]

/-! ### Decryption -/

/-- The fields of a received buffer. -/
def ivOf (bytes : List UInt8) : AesIv := Cbc.Block.ofBytes aesBlockSize bytes

def claimedLen (bytes : List UInt8) : Nat := ofLe32 ((bytes.drop aesBlockSize).take 4)

def cipherOf (bytes : List UInt8) : List UInt8 := bytes.drop headerSize

theorem ivOf_message (len : Nat) (cipher : List UInt8) : ivOf (message iv len cipher) = iv := by
  have hiv : iv.1.length = aesBlockSize := iv.2
  apply Subtype.ext
  rw [ivOf, Cbc.Block.ofBytes_val (by rw [length_message, aesBlockSize]; omega), message,
    List.append_assoc, List.take_left' hiv]

theorem claimedLen_message {len : Nat} (hlen : len < 2 ^ 32) (cipher : List UInt8) :
    claimedLen (message iv len cipher) = len := by
  have hiv : iv.1.length = aesBlockSize := iv.2
  rw [claimedLen, message, List.append_assoc, List.drop_left' hiv,
    List.take_left' (length_le32 len), ofLe32_le32 hlen]

theorem cipherOf_message (len : Nat) (cipher : List UInt8) :
    cipherOf (message iv len cipher) = cipher := by
  have hhead : (iv.1 ++ le32 len).length = headerSize := by
    rw [List.length_append, iv.2, length_le32]
    rfl
  rw [cipherOf, message, List.drop_left' hhead]

/-- The result for a plaintext `plain`: the buffer is as long as the claimed
length says, up to the length of the message. -/
def decrypted (junk : Nat → Nat → UInt8) (bytes plain : List UInt8) : ByteBuffer :=
  ⟨plain ++ (newBytes (junk 1) bytes.length).drop plain.length,
    min (claimedLen bytes) bytes.length⟩

variable {buffer : ByteBuffer} {bytes : List UInt8}

theorem decrypted_fits {plain : List UInt8} (hlen : plain.length < bytes.length) :
    (decrypted junk bytes plain).Fits := by
  show min (claimedLen bytes) bytes.length ≤
    (plain ++ (newBytes (junk 1) bytes.length).drop plain.length).length
  rw [List.length_append, List.length_drop, length_newBytes]
  omega

theorem ofBytes_read (bytes : List UInt8) (off len : Nat) (h : off + len ≤ bytes.length) :
    (ByteBuffer.ofBytes bytes).read off len = .ok ((bytes.drop off).take len) :=
  ByteBuffer.read_of_le h

theorem iv_ofBytes (h : aesBlockSize ≤ bytes.length) :
    CipherBuffer.iv (ByteBuffer.ofBytes bytes) = .ok (ivOf bytes) := by
  have hread := ofBytes_read bytes 0 aesBlockSize (by omega)
  rw [CipherBuffer.iv, bind_ok hread, List.drop_zero, ivOf]
  refine congrArg Except.ok (Subtype.ext ?_)
  have htake : aesBlockSize ≤ (bytes.take aesBlockSize).length := by
    rw [List.length_take]
    omega
  rw [Cbc.Block.ofBytes_val htake, Cbc.Block.ofBytes_val h, List.take_take, Nat.min_self]

/-- A buffer shorter than an IV is read beyond its end. -/
theorem aesDecrypt_of_lt_iv (hfits : buffer.Fits) (h : buffer.size < aesBlockSize) :
    aesDecrypt evp junk key buffer = .error .outOfBounds := by
  have hlen := ByteBuffer.length_content hfits
  have hread : CipherBuffer.iv (ByteBuffer.ofBytes buffer.content) = .error .outOfBounds :=
    bind_error (ByteBuffer.read_of_lt (show buffer.content.length < _ by omega)) _
  rw [aesDecrypt, bind_ok (ByteBuffer.copy_of_fits hfits), bind_error hread]

/-- Between the IV and the ciphertext the subtraction wraps, and the length is
negative as an `int`. -/
theorem aesDecrypt_of_lt_header (hfits : buffer.Fits) (h : aesBlockSize ≤ buffer.size)
    (h' : buffer.size < headerSize) : aesDecrypt evp junk key buffer = .error .exception := by
  have hlen := ByteBuffer.length_content hfits
  have hcopy := ByteBuffer.copy_of_fits hfits
  set cipher := ByteBuffer.ofBytes buffer.content with hc
  have hsize : cipher.size = buffer.size := hlen
  have hgrow : cipher.index (junk 2) headerSize =
      .ok { cipher with mem := buffer.content ++ newBytes (junk 2) cipher.size } := by
    have hread : cipher.grow (junk 2) = .ok (buffer.content ++ newBytes (junk 2) cipher.size) := by
      refine bind_ok (ByteBuffer.read_content (ByteBuffer.ofBytes_fits _)) _ |>.trans ?_
      rw [ByteBuffer.ofBytes_content]
    rw [ByteBuffer.index, if_pos (by omega)]
    exact bind_ok hread _
  have hinput : evpInput evp { cipher with mem := buffer.content ++ newBytes (junk 2) cipher.size }
      headerSize (cInt (cipherSize
        { cipher with mem := buffer.content ++ newBytes (junk 2) cipher.size })) =
      .error .exception := by
    refine evpInput_negative ?_
    simp only [cipherSize, hsize, uint32T, sizeT, cInt, headerSize, aesBlockSize] at h h' ⊢
    omega
  rw [aesDecrypt, bind_ok hcopy, bind_ok (iv_ofBytes (by omega))]
  dsimp only
  rw [bind_ok hgrow, bind_error hinput]

/-- The ciphertext that `EVP_DecryptUpdate` gets: the first `cipher_size()` bytes
behind the header; none when that is negative as an `int`. -/
def passedCipher (bytes : List UInt8) : Option (List UInt8) :=
  if cInt (cipherSize (ByteBuffer.ofBytes bytes)) < 0 then none
  else some ((cipherOf bytes).take (cInt (cipherSize (ByteBuffer.ofBytes bytes))).toNat)

/-- `cipher_size()` is the length of the ciphertext, in 32 bits. -/
theorem cipherSize_ofBytes (h : headerSize ≤ bytes.length) :
    cipherSize (ByteBuffer.ofBytes bytes) = (cipherOf bytes).length % 2 ^ 32 := by
  rw [cipherOf, List.length_drop]
  show uint32T (sizeT ((bytes.length : Int) - aesBlockSize - 4)) = _
  simp only [uint32T, sizeT, headerSize, aesBlockSize] at h ⊢
  omega

theorem cInt_toNat_le (n : Nat) : (cInt n).toNat ≤ n := by
  unfold cInt
  omega

/-- What is passed is a prefix of the ciphertext. -/
theorem passedCipher_front {cipher : List UInt8} (h : passedCipher bytes = some cipher) :
    cipher <+: cipherOf bytes := by
  rw [passedCipher] at h
  split at h
  · exact absurd h nofun
  · rw [← Option.some.inj h]
    exact List.take_prefix _ _

/-- Below 2 GiB it is the whole of it. -/
theorem passedCipher_of_lt (h : headerSize ≤ bytes.length)
    (h' : bytes.length < 2 ^ 31 + headerSize) : passedCipher bytes = some (cipherOf bytes) := by
  have hinl : cInt (cipherSize (ByteBuffer.ofBytes bytes)) = (cipherOf bytes).length := by
    rw [cipherOf, List.length_drop]
    show cInt (uint32T (sizeT ((bytes.length : Int) - aesBlockSize - 4))) = _
    simp only [uint32T, sizeT, cInt, headerSize, aesBlockSize] at h h' ⊢
    omega
  rw [passedCipher, hinl, if_neg (by omega), Int.toNat_natCast, List.take_length]

/-- `AES_decrypt` on a buffer with a complete header. -/
theorem aesDecrypt_of_header (hfits : buffer.Fits) (h : headerSize ≤ buffer.size) :
    aesDecrypt evp junk key buffer =
      (checked (passedCipher buffer.content)).bind fun cipher =>
        (checked (evp.decrypt key (ivOf buffer.content) cipher)).map
          (decrypted junk buffer.content) := by
  have hlen := ByteBuffer.length_content hfits
  have hcopy := ByteBuffer.copy_of_fits hfits
  set bytes := buffer.content with hbytes
  have hsize : (ByteBuffer.ofBytes bytes).size = buffer.size := hlen
  have hindex : ∀ (j : Nat → UInt8) (i : Nat), i ≤ headerSize →
      (ByteBuffer.ofBytes bytes).index j i = .ok (ByteBuffer.ofBytes bytes) := fun j i hi =>
    ByteBuffer.index_of_le (by omega)
  have hcipher : (cipherOf bytes).length + 20 = buffer.size := by
    rw [cipherOf, List.length_drop, hlen]
    simp only [headerSize, aesBlockSize] at h ⊢
    omega
  have hinput : evpInput evp (ByteBuffer.ofBytes bytes) headerSize
      (cInt (cipherSize (ByteBuffer.ofBytes bytes))) = checked (passedCipher bytes) := by
    rw [passedCipher]
    split
    · next hneg => exact evpInput_negative hneg
    · next hneg =>
      obtain ⟨inl, hinl⟩ := Int.eq_ofNat_of_zero_le (not_lt.mp hneg)
      have hle := cInt_toNat_le (cipherSize (ByteBuffer.ofBytes bytes))
      have hmod : cipherSize (ByteBuffer.ofBytes bytes) ≤ (cipherOf bytes).length := by
        rw [cipherSize_ofBytes (by omega)]
        exact Nat.mod_le _ _
      rw [hinl, Int.toNat_natCast] at hle
      rw [hinl, evpInput_length,
        ofBytes_read _ _ _ (by rw [hlen]; simp only [headerSize, aesBlockSize]; omega)]
      rfl
  have hclaimed : plaintextLen junk (ByteBuffer.ofBytes bytes) = .ok (claimedLen bytes) := by
    rw [plaintextLen, bind_ok (hindex _ _ (by decide)),
      bind_ok (ofBytes_read _ _ _ (by rw [hlen]; exact h))]
    rfl
  rw [aesDecrypt, bind_ok hcopy, bind_ok (iv_ofBytes (by rw [hlen]; exact le_trans (by decide) h))]
  dsimp only
  rw [bind_ok (hindex _ _ (le_refl _)), hinput]
  cases hpassed : passedCipher bytes with
  | none => rfl
  | some cipher =>
    have hpre := (passedCipher_front hpassed).length_le
    show (checked (evp.decryptUpdate key (ivOf bytes) cipher) >>= _) =
      (checked (evp.decrypt key (ivOf bytes) cipher)).map _
    set new := newBytes (junk 1) buffer.size with hnew
    have hnewlen : new.length = buffer.size := length_newBytes _ _
    cases hu : evp.decryptUpdate key (ivOf bytes) cipher with
    | none => simp [Evp.decrypt, hu, checked, bind, Except.bind, Except.map]
    | some u =>
      have hulen := evp.decryptUpdate_length _ _ _ _ hu
      have hwrite : (ByteBuffer.ofSize (junk 1) buffer.size).write 0 u =
          .ok ⟨u ++ new.drop u.length, buffer.size⟩ := by
        rw [aesBlockSize] at hulen
        exact ByteBuffer.write_front (show u.length ≤ new.length by omega)
      rw [bind_ok (show checked (some u) = .ok u from rfl), bind_ok hwrite]
      cases hw : evp.decryptFinal key (ivOf bytes) cipher with
      | none => simp [Evp.decrypt, hu, hw, checked, bind, Except.bind, Except.map]
      | some w =>
        have hwhole := (evp.decrypt_whole _ _ _ _ _ hu hw).2
        have hwrite' : ByteBuffer.write ⟨u ++ new.drop u.length, buffer.size⟩ u.length w =
            .ok ⟨u ++ w ++ new.drop (u ++ w).length, buffer.size⟩ := by
          refine (ByteBuffer.write_after rfl (by rw [List.length_drop]; omega)).trans ?_
          rw [List.drop_drop, List.length_append]
        have hdec : evp.decrypt key (ivOf bytes) cipher = some (u ++ w) :=
          Evp.decrypt_eq_some.mpr ⟨u, w, hu, hw, rfl⟩
        rw [bind_ok (show checked (some w) = .ok w from rfl), bind_ok hwrite', bind_ok hclaimed,
          hdec]
        show _ = Except.ok (decrypted junk bytes (u ++ w))
        rw [decrypted, hlen, ← hnew]
        split
        · next hlt => rw [ByteBuffer.resize_of_le (le_of_lt hlt), Nat.min_eq_left (le_of_lt hlt)]
        · next hge => rw [Nat.min_eq_right (not_lt.mp hge)]

/-- A buffer of which the whole ciphertext is passed. -/
theorem aesDecrypt_eq (hfits : buffer.Fits) (h : headerSize ≤ buffer.size)
    (h' : buffer.size < 2 ^ 31 + headerSize) :
    aesDecrypt evp junk key buffer =
      (checked (evp.decrypt key (ivOf buffer.content) (cipherOf buffer.content))).map
        (decrypted junk buffer.content) := by
  have hlen := ByteBuffer.length_content hfits
  rw [aesDecrypt_of_header hfits h, passedCipher_of_lt (by omega) (by omega)]
  rfl

end AesLemmas

end NetTraverse
