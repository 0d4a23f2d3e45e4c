import Mathlib

/-!
# Cipher block chaining with PKCS#7 padding

CBC mode over any block cipher on `n`-byte blocks, and the padding that makes a
message of any length a whole number of blocks. `decryptMessage_encryptMessage`
is the round trip.
-/

namespace Cbc

/-- A block of `n` bytes. -/
abbrev Block (n : Nat) := { bytes : List UInt8 // bytes.length = n }

variable {n : Nat}

namespace Block

def xor (a b : Block n) : Block n :=
  ⟨List.zipWith (· ^^^ ·) a.1 b.1, by simp [a.2, b.2]⟩

theorem xor_xor (a b : Block n) : (a.xor b).xor b = a := by
  apply Subtype.ext
  apply List.ext_getElem
  · simp [xor, a.2, b.2]
  · intro i h₁ h₂
    simp [xor]

/-- The first `n` bytes, filled up with zeros. -/
def ofBytes (n : Nat) (bytes : List UInt8) : Block n :=
  ⟨bytes.takeD n 0, List.takeD_length n bytes 0⟩

theorem ofBytes_val {bytes : List UInt8} (h : n ≤ bytes.length) :
    (ofBytes n bytes).1 = bytes.take n := List.takeD_eq_take 0 h

end Block

/-- A permutation of the blocks, with its inverse. -/
structure BlockCipher (n : Nat) where
  encrypt : Block n → Block n
  decrypt : Block n → Block n
  decrypt_encrypt : ∀ b, decrypt (encrypt b) = b

/-! ## Blocks and bytes -/

/-- The first `k` blocks of a byte string. -/
def takeBlocks (n : Nat) : Nat → List UInt8 → List (Block n)
  | 0, _ => []
  | k + 1, bytes => Block.ofBytes n bytes :: takeBlocks n k (bytes.drop n)

/-- The bytes of a list of blocks. -/
def joinBlocks (blocks : List (Block n)) : List UInt8 := (blocks.map Subtype.val).flatten

@[simp] theorem length_takeBlocks (k : Nat) (bytes : List UInt8) :
    (takeBlocks n k bytes).length = k := by
  induction k generalizing bytes with
  | zero => rfl
  | succ k ih => simp [takeBlocks, ih]

@[simp] theorem length_joinBlocks (blocks : List (Block n)) :
    (joinBlocks blocks).length = n * blocks.length := by
  induction blocks with
  | nil => rfl
  | cons b bs ih =>
    have hb : b.1.length = n := b.2
    have hcons : joinBlocks (b :: bs) = b.1 ++ joinBlocks bs := rfl
    rw [hcons, List.length_append, hb, ih, List.length_cons]
    ring

theorem joinBlocks_takeBlocks {k : Nat} {bytes : List UInt8} (h : bytes.length = n * k) :
    joinBlocks (takeBlocks n k bytes) = bytes := by
  induction k generalizing bytes with
  | zero => exact (List.length_eq_zero_iff.mp (by simpa using h)).symm
  | succ k ih =>
    have hlen : bytes.length = n + n * k := by rw [h]; ring
    have hcons : joinBlocks (takeBlocks n (k + 1) bytes) =
        (Block.ofBytes n bytes).1 ++ joinBlocks (takeBlocks n k (bytes.drop n)) := rfl
    rw [hcons, Block.ofBytes_val (by omega), ih (by rw [List.length_drop]; omega)]
    exact List.take_append_drop n bytes

theorem takeBlocks_joinBlocks (blocks : List (Block n)) :
    takeBlocks n blocks.length (joinBlocks blocks) = blocks := by
  induction blocks with
  | nil => rfl
  | cons b bs ih =>
    have hb : b.1.length = n := b.2
    have hcons : joinBlocks (b :: bs) = b.1 ++ joinBlocks bs := rfl
    have hfirst : Block.ofBytes n (b.1 ++ joinBlocks bs) = b := by
      apply Subtype.ext
      rw [Block.ofBytes_val (by rw [List.length_append]; omega), List.take_left' hb]
    rw [hcons, List.length_cons, takeBlocks, hfirst, List.drop_left' hb, ih]

/-! ## The mode -/

variable (c : BlockCipher n)

def encryptBlocks : Block n → List (Block n) → List (Block n)
  | _, [] => []
  | iv, p :: ps => c.encrypt (p.xor iv) :: encryptBlocks (c.encrypt (p.xor iv)) ps

def decryptBlocks : Block n → List (Block n) → List (Block n)
  | _, [] => []
  | iv, x :: xs => (c.decrypt x).xor iv :: decryptBlocks x xs

@[simp] theorem length_encryptBlocks (iv : Block n) (ps : List (Block n)) :
    (encryptBlocks c iv ps).length = ps.length := by
  induction ps generalizing iv with
  | nil => rfl
  | cons p ps ih => simp [encryptBlocks, ih]

@[simp] theorem length_decryptBlocks (iv : Block n) (xs : List (Block n)) :
    (decryptBlocks c iv xs).length = xs.length := by
  induction xs generalizing iv with
  | nil => rfl
  | cons x xs ih => simp [decryptBlocks, ih]

theorem decryptBlocks_encryptBlocks (iv : Block n) (ps : List (Block n)) :
    decryptBlocks c iv (encryptBlocks c iv ps) = ps := by
  induction ps generalizing iv with
  | nil => rfl
  | cons p ps ih =>
    rw [encryptBlocks, decryptBlocks, c.decrypt_encrypt, Block.xor_xor, ih]

/-! ## Padding -/

/-- The number of padding bytes, at least one and at most `n`. -/
def padLength (n : Nat) (length : Nat) : Nat := n - length % n

def pad (n : Nat) (bytes : List UInt8) : List UInt8 :=
  bytes ++ List.replicate (padLength n bytes.length) (UInt8.ofNat (padLength n bytes.length))

/-- Take the padding off; `none` when the last bytes are not a padding. -/
def unpad (n : Nat) (bytes : List UInt8) : Option (List UInt8) :=
  match bytes.getLast? with
  | none => none
  | some v =>
    if 0 < v.toNat ∧ v.toNat ≤ n ∧ v.toNat ≤ bytes.length ∧
        ∀ x ∈ bytes.drop (bytes.length - v.toNat), x = v then
      some (bytes.take (bytes.length - v.toNat))
    else none

theorem padLength_bounds (hn : 0 < n) (length : Nat) :
    0 < padLength n length ∧ padLength n length ≤ n := by
  have hmod : length % n < n := Nat.mod_lt _ hn
  unfold padLength
  omega

theorem length_pad (hn : 0 < n) (bytes : List UInt8) :
    (pad n bytes).length = n * (bytes.length / n + 1) := by
  have hmod : bytes.length % n < n := Nat.mod_lt _ hn
  have hdiv := Nat.div_add_mod bytes.length n
  rw [pad, List.length_append, List.length_replicate, padLength, Nat.mul_add, Nat.mul_one]
  omega

theorem unpad_pad (hn : 0 < n) (hn' : n < 256) (bytes : List UInt8) :
    unpad n (pad n bytes) = some bytes := by
  obtain ⟨hpos, hle⟩ := padLength_bounds hn bytes.length
  set k := padLength n bytes.length with hk
  have hv : (UInt8.ofNat k).toNat = k := by
    rw [UInt8.toNat_ofNat']
    exact Nat.mod_eq_of_lt (by omega)
  have hlast : (pad n bytes).getLast? = some (UInt8.ofNat k) := by
    rw [pad, ← hk, List.getLast?_append, List.getLast?_replicate, if_neg (by omega)]
    rfl
  have hlen : (pad n bytes).length - k = bytes.length := by simp [pad, ← hk]
  have hfit : k ≤ (pad n bytes).length := by simp [pad, ← hk]
  have htail : (pad n bytes).drop bytes.length = List.replicate k (UInt8.ofNat k) :=
    List.drop_left
  have hcond : 0 < k ∧ k ≤ n ∧ k ≤ (pad n bytes).length ∧
      ∀ x ∈ (pad n bytes).drop bytes.length, x = UInt8.ofNat k :=
    ⟨hpos, hle, hfit, fun x hx => List.eq_of_mem_replicate (htail ▸ hx)⟩
  rw [unpad, hlast]
  simp only [hv, hlen]
  rw [if_pos hcond]
  exact congrArg some List.take_left

/-- What is left after the padding was taken off is shorter. -/
theorem length_lt_of_unpad {bytes plain : List UInt8} (h : unpad n bytes = some plain) :
    plain.length < bytes.length := by
  rw [unpad] at h
  split at h
  · cases h
  · split at h
    · next hcond =>
      cases h
      rw [List.length_take]
      omega
    · cases h

theorem prefix_of_unpad {bytes plain : List UInt8} (h : unpad n bytes = some plain) :
    plain <+: bytes ∧ bytes.length ≤ plain.length + n := by
  rw [unpad] at h
  split at h
  · cases h
  · split at h
    · next hcond =>
      cases h
      refine ⟨List.take_prefix _ _, ?_⟩
      rw [List.length_take]
      omega
    · cases h

/-! ## Messages -/

/-- The whole blocks of a ciphertext, decrypted. -/
def decryptBytes (iv : Block n) (bytes : List UInt8) : List UInt8 :=
  joinBlocks (decryptBlocks c iv (takeBlocks n (bytes.length / n) bytes))

def encryptMessage (iv : Block n) (bytes : List UInt8) : List UInt8 :=
  joinBlocks (encryptBlocks c iv (takeBlocks n (bytes.length / n + 1) (pad n bytes)))

def decryptMessage (iv : Block n) (bytes : List UInt8) : Option (List UInt8) :=
  if bytes.length % n = 0 then unpad n (decryptBytes c iv bytes) else none

@[simp] theorem length_encryptMessage (iv : Block n) (bytes : List UInt8) :
    (encryptMessage c iv bytes).length = n * (bytes.length / n + 1) := by
  simp [encryptMessage]

theorem length_decryptBytes (iv : Block n) (bytes : List UInt8) :
    (decryptBytes c iv bytes).length = n * (bytes.length / n) := by
  simp [decryptBytes]

theorem decryptBytes_encryptMessage (hn : 0 < n) (iv : Block n) (bytes : List UInt8) :
    decryptBytes c iv (encryptMessage c iv bytes) = pad n bytes := by
  set blocks := encryptBlocks c iv (takeBlocks n (bytes.length / n + 1) (pad n bytes)) with hb
  have hblocks : takeBlocks n ((encryptMessage c iv bytes).length / n)
      (encryptMessage c iv bytes) = blocks := by
    have hcount : (encryptMessage c iv bytes).length / n = blocks.length := by
      rw [length_encryptMessage, Nat.mul_div_cancel_left _ hn, hb, length_encryptBlocks,
        length_takeBlocks]
    rw [hcount]
    exact takeBlocks_joinBlocks blocks
  rw [decryptBytes, hblocks, hb, decryptBlocks_encryptBlocks,
    joinBlocks_takeBlocks (length_pad hn bytes)]

theorem decryptMessage_encryptMessage (hn : 0 < n) (hn' : n < 256) (iv : Block n)
    (bytes : List UInt8) : decryptMessage c iv (encryptMessage c iv bytes) = some bytes := by
  rw [decryptMessage, length_encryptMessage, if_pos (Nat.mul_mod_right n _),
    decryptBytes_encryptMessage c hn, unpad_pad hn hn']

/-! ## Truncated ciphertexts -/

variable {c}

theorem takeBlocks_of_front {k : Nat} {a b : List UInt8} (h : a <+: b) (hk : n * k ≤ a.length) :
    takeBlocks n k b = takeBlocks n k a := by
  induction k generalizing a b with
  | zero => rfl
  | succ k ih =>
    have hlen : n + n * k ≤ a.length := by rw [Nat.mul_succ] at hk; omega
    have hle := h.length_le
    have hfirst : Block.ofBytes n b = Block.ofBytes n a := by
      apply Subtype.ext
      rw [Block.ofBytes_val (by omega), Block.ofBytes_val (by omega)]
      obtain ⟨rest, rfl⟩ := h
      exact List.take_append_of_le_length (by omega)
    rw [takeBlocks, takeBlocks, hfirst,
      ih (h.drop n) (by rw [List.length_drop]; omega)]

theorem takeBlocks_front {k j : Nat} (h : k ≤ j) (bytes : List UInt8) :
    takeBlocks n k bytes <+: takeBlocks n j bytes := by
  induction k generalizing j bytes with
  | zero => exact List.nil_prefix
  | succ k ih =>
    obtain ⟨j, rfl⟩ := Nat.exists_eq_add_of_lt h
    rw [show k + j + 1 = (k + j) + 1 from rfl, takeBlocks, takeBlocks]
    exact (List.prefix_cons_inj _).mpr (ih (Nat.le_add_right k j) _)

/-- A block depends on the ciphertext up to it only. -/
theorem decryptBlocks_front {iv : Block n} {xs ys : List (Block n)} (h : xs <+: ys) :
    decryptBlocks c iv xs <+: decryptBlocks c iv ys := by
  induction xs generalizing iv ys with
  | nil => exact List.nil_prefix
  | cons x xs ih =>
    obtain ⟨zs, rfl⟩ := h
    exact (List.prefix_cons_inj _).mpr (ih (List.prefix_append xs zs))

theorem joinBlocks_front {xs ys : List (Block n)} (h : xs <+: ys) :
    joinBlocks xs <+: joinBlocks ys := by
  obtain ⟨zs, rfl⟩ := h
  simp [joinBlocks]

theorem decryptBytes_front {iv : Block n} {a b : List UInt8} (h : a <+: b) :
    decryptBytes c iv a <+: decryptBytes c iv b := by
  refine joinBlocks_front (decryptBlocks_front ?_)
  rw [← takeBlocks_of_front h (Nat.mul_div_le _ _)]
  exact takeBlocks_front (Nat.div_le_div_right h.length_le) b

/-- What a ciphertext decrypts to that was cut by more than the last block is
the beginning of what the whole decrypts to. -/
theorem decryptMessage_front {iv : Block n} {a b p q : List UInt8} (h : a <+: b)
    (hlen : a.length + n ≤ b.length) (hp : decryptMessage c iv a = some p)
    (hq : decryptMessage c iv b = some q) : p <+: q := by
  rw [decryptMessage] at hp hq
  split at hp
  · split at hq
    · next hwhole =>
      obtain ⟨hppre, -⟩ := prefix_of_unpad hp
      obtain ⟨hqpre, hqlen⟩ := prefix_of_unpad hq
      have hplen := length_lt_of_unpad hp
      have halen := Nat.mul_div_le a.length n
      have hblen := Nat.div_add_mod b.length n
      rw [length_decryptBytes] at hqlen hplen
      exact List.prefix_of_prefix_length_le (hppre.trans (decryptBytes_front h)) hqpre (by omega)
    · cases hq
  · cases hp

/-! ## Changed initial values -/

namespace Block

theorem xor_assoc (a b d : Block n) : (a.xor b).xor d = a.xor (b.xor d) := by
  apply Subtype.ext
  apply List.ext_getElem
  · simp [xor, a.2, b.2, d.2]
  · intro i h₁ h₂
    simp [xor, UInt8.xor_assoc]

theorem xor_comm (a b : Block n) : a.xor b = b.xor a := by
  apply Subtype.ext
  apply List.ext_getElem
  · simp [xor, a.2, b.2]
  · intro i h₁ h₂
    simp only [xor, List.getElem_zipWith]
    exact UInt8.xor_comm _ _

end Block

/-- Bytes with their first block exclusive-ored. -/
def xorFront (mask : Block n) (bytes : List UInt8) : List UInt8 :=
  ((Block.ofBytes n bytes).xor mask).1 ++ bytes.drop n

theorem length_xorFront (mask : Block n) {bytes : List UInt8} (h : n ≤ bytes.length) :
    (xorFront mask bytes).length = bytes.length := by
  rw [xorFront, List.length_append, (_ : Block n).2, List.length_drop]
  omega

theorem drop_xorFront (mask : Block n) {bytes : List UInt8} {k : Nat} (h : n ≤ k) :
    (xorFront mask bytes).drop k = bytes.drop k := by
  have hfront : ((Block.ofBytes n bytes).xor mask).1.length = n := (_ : Block n).2
  rw [xorFront, List.drop_append, List.drop_eq_nil_of_le (by omega), List.nil_append,
    List.drop_drop, hfront]
  congr 1
  omega

theorem take_xorFront (mask : Block n) {bytes : List UInt8} {k : Nat} (hk : n ≤ k)
    (h : n ≤ bytes.length) : (xorFront mask bytes).take k = xorFront mask (bytes.take k) := by
  have hfront : ((Block.ofBytes n bytes).xor mask).1.length = n := (_ : Block n).2
  have hfirst : Block.ofBytes n (bytes.take k) = Block.ofBytes n bytes := by
    apply Subtype.ext
    rw [Block.ofBytes_val h, Block.ofBytes_val (by rw [List.length_take]; omega),
      List.take_take, Nat.min_eq_left hk]
  rw [xorFront, xorFront, hfirst, List.take_append, List.take_of_length_le (by omega), hfront,
    List.drop_take]

/-- The initial value is exclusive-ored onto the first block only. -/
theorem decryptBytes_xor (iv mask : Block n) {bytes : List UInt8} (hn : 0 < n)
    (h : n ≤ bytes.length) :
    decryptBytes c (iv.xor mask) bytes = xorFront mask (decryptBytes c iv bytes) := by
  obtain ⟨k, hk⟩ : ∃ k, bytes.length / n = k + 1 :=
    Nat.exists_eq_succ_of_ne_zero (Nat.ne_of_gt (Nat.div_pos h hn))
  have hjoin (b : Block n) (bs : List (Block n)) :
      joinBlocks (b :: bs) = b.1 ++ joinBlocks bs := rfl
  rw [decryptBytes, decryptBytes, hk, takeBlocks, decryptBlocks, decryptBlocks, hjoin, hjoin]
  set first := (c.decrypt (Block.ofBytes n bytes)).xor iv with hfirst
  have hlen : first.1.length = n := first.2
  have hof (rest : List UInt8) : Block.ofBytes n (first.1 ++ rest) = first := by
    apply Subtype.ext
    rw [Block.ofBytes_val (by rw [List.length_append]; omega), List.take_left' hlen]
  rw [xorFront, hof, List.drop_left' hlen, hfirst, Block.xor_assoc]

/-- The padding is behind the first block when the message is at least as long. -/
theorem unpad_xorFront {bytes plain : List UInt8} (mask : Block n)
    (h : unpad n bytes = some plain) (hlen : n ≤ plain.length) :
    unpad n (xorFront mask bytes) = some (xorFront mask plain) := by
  have hlt := length_lt_of_unpad h
  have hsame : (xorFront mask bytes).length = bytes.length := length_xorFront mask (by omega)
  have hlast : (xorFront mask bytes).getLast? = bytes.getLast? := by
    have hdrop (l : List UInt8) (hl : n < l.length) : l.getLast? = (l.drop n).getLast? := by
      rw [List.getLast?_drop, if_neg (by omega)]
    rw [hdrop _ (by omega), hdrop bytes (by omega), drop_xorFront mask (Nat.le_refl n)]
  rw [unpad] at h ⊢
  rw [hlast, hsame]
  split at h
  · cases h
  · next v hv =>
    split at h
    · next hcond =>
      cases h
      rw [List.length_take] at hlen
      have hk : n ≤ bytes.length - v.toNat := by omega
      rw [drop_xorFront mask hk, if_pos hcond, take_xorFront mask hk (by omega)]
    · cases h

/-- Who changes the initial value changes the first block of the message, and
nothing notices. -/
theorem decryptMessage_xor {iv mask : Block n} {bytes plain : List UInt8} (hn : 0 < n)
    (h : decryptMessage c iv bytes = some plain) (hlen : n ≤ plain.length) :
    decryptMessage c (iv.xor mask) bytes = some (xorFront mask plain) := by
  rw [decryptMessage] at h ⊢
  split at h
  · next hwhole =>
    have hlt := length_lt_of_unpad h
    have hbound := Nat.mul_div_le bytes.length n
    rw [length_decryptBytes] at hlt
    rw [if_pos hwhole, decryptBytes_xor iv mask hn (by omega), unpad_xorFront mask h hlen]
  · cases h

end Cbc
