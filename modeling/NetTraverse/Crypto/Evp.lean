import NetTraverse.Lib.Aes256

/-!
# The cipher interface of OpenSSL

`AES.cpp` calls `EVP_EncryptUpdate`, `EVP_EncryptFinal_ex`, `EVP_DecryptUpdate`
and `EVP_DecryptFinal_ex` for `EVP_aes_256_cbc()`, one call of each for a
message. They are not part of the repository, so they are parameters, with what
their documentation says of them. `Evp.openssl` computes them from AES-256.
-/

namespace NetTraverse

/-- `AES_BLOCK_SIZE` and `AES_KEY_SIZE`. -/
def aesBlockSize : Nat := 16
def aesKeySize : Nat := 32

/-- `AES_IV`. -/
abbrev AesIv := Cbc.Block 16

/-- `AES_key`. -/
abbrev AesKey := Cbc.Block 32

/-- The functions give the bytes that they write; `none` is a return value
other than 1. The input of a `Final` call is that of the `Update` before it. -/
structure Evp where
  encryptUpdate : AesKey → AesIv → List UInt8 → List UInt8
  encryptFinal : AesKey → AesIv → List UInt8 → List UInt8
  decryptUpdate : AesKey → AesIv → List UInt8 → Option (List UInt8)
  decryptFinal : AesKey → AesIv → List UInt8 → Option (List UInt8)
  /-- Whether the `Update` calls take a length `inl`. -/
  updateTakes : Int → Bool
  /-- They refuse a negative one, -/
  updateTakes_negative : ∀ inl, inl < 0 → updateTakes inl = false
  /-- and only that. -/
  updateTakes_length : ∀ n : Nat, updateTakes n = true
  /-- PKCS#7 fills the message up to the next whole block. -/
  encrypt_length : ∀ key iv plain,
    (encryptUpdate key iv plain).length + (encryptFinal key iv plain).length =
      aesBlockSize * (plain.length / aesBlockSize + 1)
  /-- Decryption under the same key and IV undoes encryption. -/
  decrypt_encrypt : ∀ key iv plain,
    ∃ u w, decryptUpdate key iv (encryptUpdate key iv plain ++ encryptFinal key iv plain) = some u ∧
      decryptFinal key iv (encryptUpdate key iv plain ++ encryptFinal key iv plain) = some w ∧
      u ++ w = plain
  /-- `EVP_DecryptUpdate` writes at most one block more than it reads. -/
  decryptUpdate_length : ∀ key iv cipher u, decryptUpdate key iv cipher = some u →
    u.length ≤ cipher.length + aesBlockSize
  /-- What is not a whole number of blocks is refused, and padding is never
  empty. -/
  decrypt_whole : ∀ key iv cipher u w, decryptUpdate key iv cipher = some u →
    decryptFinal key iv cipher = some w →
      cipher.length % aesBlockSize = 0 ∧ u.length + w.length < cipher.length

namespace Evp

/-- Both decryption calls on a ciphertext. -/
def decrypt (evp : Evp) (key : AesKey) (iv : AesIv) (cipher : List UInt8) :
    Option (List UInt8) := do
  let u ← evp.decryptUpdate key iv cipher
  let w ← evp.decryptFinal key iv cipher
  some (u ++ w)

/-- The ciphertext of a message. -/
def encrypt (evp : Evp) (key : AesKey) (iv : AesIv) (plain : List UInt8) : List UInt8 :=
  evp.encryptUpdate key iv plain ++ evp.encryptFinal key iv plain

section Calls

variable {evp : Evp} {key : AesKey} {iv : AesIv}

theorem length_encrypt (plain : List UInt8) :
    (evp.encrypt key iv plain).length = aesBlockSize * (plain.length / aesBlockSize + 1) := by
  rw [encrypt, List.length_append, evp.encrypt_length]

theorem decrypt_eq_some {cipher plain : List UInt8} :
    evp.decrypt key iv cipher = some plain ↔
      ∃ u w, evp.decryptUpdate key iv cipher = some u ∧ evp.decryptFinal key iv cipher = some w ∧
        u ++ w = plain := by
  simp [decrypt, Option.bind_eq_some_iff]

theorem decrypt_encrypt_eq (plain : List UInt8) :
    evp.decrypt key iv (evp.encrypt key iv plain) = some plain :=
  decrypt_eq_some.mpr (evp.decrypt_encrypt key iv plain)

/-- Only a whole number of blocks, at least one, can be decrypted. -/
theorem whole_of_decrypt {cipher plain : List UInt8}
    (h : evp.decrypt key iv cipher = some plain) :
    cipher.length % aesBlockSize = 0 ∧ plain.length < cipher.length := by
  obtain ⟨u, w, hu, hw, rfl⟩ := decrypt_eq_some.mp h
  rw [List.length_append]
  exact evp.decrypt_whole key iv cipher u w hu hw

/-- The mode of the cipher: CBC with PKCS#7 padding over the block cipher that
a key selects. -/
def IsCbc (evp : Evp) (c : AesKey → Cbc.BlockCipher 16) : Prop :=
  ∀ key iv cipher, evp.decrypt key iv cipher = Cbc.decryptMessage (c key) iv cipher

end Calls

/-! ## OpenSSL's own -/

section OpenSsl

variable (cipher : List UInt8)

/-- What `EVP_DecryptUpdate` emits of a ciphertext: all whole blocks but the
last one when nothing follows it. -/
def heldFrom : Nat := aesBlockSize * ((cipher.length - 1) / aesBlockSize)

theorem heldFrom_encryptMessage (c : Cbc.BlockCipher 16) (iv : AesIv) (plain : List UInt8) :
    heldFrom (Cbc.encryptMessage c iv plain) = aesBlockSize * (plain.length / aesBlockSize) := by
  rw [heldFrom, Cbc.length_encryptMessage, aesBlockSize]
  omega

theorem opensslRoundTrip (c : Cbc.BlockCipher 16) (iv : AesIv) (plain : List UInt8) :
    (Cbc.decryptBytes c iv (Cbc.encryptMessage c iv plain)).take
        (heldFrom (Cbc.encryptMessage c iv plain)) ++
      plain.drop (heldFrom (Cbc.encryptMessage c iv plain)) = plain := by
  have hle : aesBlockSize * (plain.length / aesBlockSize) ≤ plain.length :=
    Nat.mul_div_le _ _
  rw [heldFrom_encryptMessage, Cbc.decryptBytes_encryptMessage c (by decide), Cbc.pad,
    List.take_append_of_le_length hle, List.take_append_drop]

theorem opensslWhole {c : Cbc.BlockCipher 16} {iv : AesIv} {plain : List UInt8}
    (h : Cbc.decryptMessage c iv cipher = some plain) :
    cipher.length % aesBlockSize = 0 ∧
      ((Cbc.decryptBytes c iv cipher).take (heldFrom cipher)).length +
        (plain.drop (heldFrom cipher)).length < cipher.length := by
  rw [Cbc.decryptMessage] at h
  split at h
  · next hwhole =>
    obtain ⟨-, hblock⟩ := Cbc.prefix_of_unpad h
    have hlt := Cbc.length_lt_of_unpad h
    rw [Cbc.length_decryptBytes] at hblock hlt
    refine ⟨hwhole, ?_⟩
    rw [List.length_take, List.length_drop, Cbc.length_decryptBytes, heldFrom, aesBlockSize]
    omega
  · cases h

/-- `EVP_aes_256_cbc()`. `Update` emits whole blocks; when it decrypts it holds
the last whole block back, and `Final` takes the padding off it. -/
def openssl : Evp where
  encryptUpdate key iv plain :=
    (Cbc.encryptMessage (Aes256.cipher key.1) iv plain).take
      (aesBlockSize * (plain.length / aesBlockSize))
  encryptFinal key iv plain :=
    (Cbc.encryptMessage (Aes256.cipher key.1) iv plain).drop
      (aesBlockSize * (plain.length / aesBlockSize))
  decryptUpdate key iv cipher :=
    some ((Cbc.decryptBytes (Aes256.cipher key.1) iv cipher).take (heldFrom cipher))
  decryptFinal key iv cipher :=
    (Cbc.decryptMessage (Aes256.cipher key.1) iv cipher).map (List.drop (heldFrom cipher))
  updateTakes inl := decide (0 ≤ inl)
  updateTakes_negative _ h := decide_eq_false (not_le.mpr h)
  updateTakes_length n := decide_eq_true (Int.natCast_nonneg n)
  encrypt_length key iv plain := by
    rw [← List.length_append, List.take_append_drop, Cbc.length_encryptMessage]
    rfl
  decrypt_encrypt key iv plain := by
    rw [List.take_append_drop]
    refine ⟨_, _, rfl, ?_, opensslRoundTrip _ iv plain⟩
    rw [Cbc.decryptMessage_encryptMessage _ (by decide) (by decide)]
    rfl
  decryptUpdate_length key iv cipher u hu := by
    cases hu
    rw [List.length_take, Cbc.length_decryptBytes, aesBlockSize]
    omega
  decrypt_whole key iv cipher u w hu hw := by
    cases hu
    obtain ⟨plain, hplain, rfl⟩ := Option.map_eq_some_iff.mp hw
    exact opensslWhole cipher hplain

theorem openssl_isCbc : IsCbc openssl fun key => Aes256.cipher key.1 := by
  intro key iv cipher
  set raw := Cbc.decryptBytes (Aes256.cipher key.1) iv cipher with hraw
  cases hplain : Cbc.decryptMessage (Aes256.cipher key.1) iv cipher with
  | none => simp [decrypt, openssl, hplain]
  | some plain =>
    have hheld : heldFrom cipher ≤ plain.length ∧ plain <+: raw := by
      rw [Cbc.decryptMessage] at hplain
      split at hplain
      · obtain ⟨hpre, hlen⟩ := Cbc.prefix_of_unpad hplain
        rw [Cbc.length_decryptBytes] at hlen
        refine ⟨?_, hpre⟩
        rw [heldFrom, aesBlockSize]
        omega
      · cases hplain
    obtain ⟨hle, rest, hrest⟩ := hheld
    have htake : raw.take (heldFrom cipher) = plain.take (heldFrom cipher) := by
      rw [← hrest, List.take_append_of_le_length hle]
    refine decrypt_eq_some.mpr ⟨_, _, rfl, congrArg (Option.map (List.drop _)) hplain, ?_⟩
    rw [← hraw, htake, List.take_append_drop]

end OpenSsl

end Evp

end NetTraverse
