import NetTraverse.Lib.Cbc

/-!
# The block cipher AES-256

The cipher of FIPS 197 with a key of eight words, and the proof that decryption
inverts encryption for every list of round keys.
-/

namespace Aes256

/-! ## The field -/

/-- Multiplication by `x`. The modulus is added when the top bit was set, once
for each of its lower terms, so the map is linear by its form. -/
def xtime (b : UInt8) : UInt8 :=
  (b <<< 1) ^^^ (b >>> 7) ^^^ ((b >>> 7) <<< 1) ^^^ ((b >>> 7) <<< 3) ^^^ ((b >>> 7) <<< 4)

theorem xtime_xor (a b : UInt8) : xtime (a ^^^ b) = xtime a ^^^ xtime b := by
  simp only [xtime, UInt8.shiftLeft_xor, UInt8.shiftRight_xor]
  ac_rfl

/-! ## Columns and states -/

/-- A column of the state, or a word of the key schedule. -/
@[ext]
structure Col where
  b0 : UInt8
  b1 : UInt8
  b2 : UInt8
  b3 : UInt8
deriving DecidableEq, Repr

def Col.map (f : UInt8 → UInt8) (c : Col) : Col := ⟨f c.b0, f c.b1, f c.b2, f c.b3⟩

def Col.xor (c k : Col) : Col := ⟨c.b0 ^^^ k.b0, c.b1 ^^^ k.b1, c.b2 ^^^ k.b2, c.b3 ^^^ k.b3⟩

theorem Col.xor_xor (c k : Col) : (c.xor k).xor k = c := by
  simp [Col.xor]

@[ext]
structure State where
  c0 : Col
  c1 : Col
  c2 : Col
  c3 : Col
deriving DecidableEq, Repr

def State.map (f : Col → Col) (s : State) : State := ⟨f s.c0, f s.c1, f s.c2, f s.c3⟩

theorem State.map_map {f g : Col → Col} (h : ∀ c, g (f c) = c) (s : State) :
    (s.map f).map g = s := by
  simp [State.map, h]

/-- The state of a block, column by column. -/
def State.ofBlock (b : Cbc.Block 16) : State :=
  let byteAt (i : Nat) : UInt8 := b.1.getD i 0
  ⟨⟨byteAt 0, byteAt 1, byteAt 2, byteAt 3⟩, ⟨byteAt 4, byteAt 5, byteAt 6, byteAt 7⟩,
    ⟨byteAt 8, byteAt 9, byteAt 10, byteAt 11⟩, ⟨byteAt 12, byteAt 13, byteAt 14, byteAt 15⟩⟩

def Col.toBytes (c : Col) : List UInt8 := [c.b0, c.b1, c.b2, c.b3]

def State.toBlock (s : State) : Cbc.Block 16 :=
  ⟨s.c0.toBytes ++ s.c1.toBytes ++ s.c2.toBytes ++ s.c3.toBytes, rfl⟩

theorem State.ofBlock_toBlock (s : State) : State.ofBlock s.toBlock = s := rfl

theorem State.toBlock_ofBlock (b : Cbc.Block 16) : (State.ofBlock b).toBlock = b := by
  obtain ⟨bytes, hlen⟩ := b
  match bytes, hlen with
  | [_, _, _, _, _, _, _, _, _, _, _, _, _, _, _, _], _ => rfl

/-! ## The steps of a round -/

def sbox : List UInt8 :=
  [
    0x63, 0x7c, 0x77, 0x7b, 0xf2, 0x6b, 0x6f, 0xc5, 0x30, 0x01, 0x67, 0x2b, 0xfe, 0xd7, 0xab, 0x76,
    0xca, 0x82, 0xc9, 0x7d, 0xfa, 0x59, 0x47, 0xf0, 0xad, 0xd4, 0xa2, 0xaf, 0x9c, 0xa4, 0x72, 0xc0,
    0xb7, 0xfd, 0x93, 0x26, 0x36, 0x3f, 0xf7, 0xcc, 0x34, 0xa5, 0xe5, 0xf1, 0x71, 0xd8, 0x31, 0x15,
    0x04, 0xc7, 0x23, 0xc3, 0x18, 0x96, 0x05, 0x9a, 0x07, 0x12, 0x80, 0xe2, 0xeb, 0x27, 0xb2, 0x75,
    0x09, 0x83, 0x2c, 0x1a, 0x1b, 0x6e, 0x5a, 0xa0, 0x52, 0x3b, 0xd6, 0xb3, 0x29, 0xe3, 0x2f, 0x84,
    0x53, 0xd1, 0x00, 0xed, 0x20, 0xfc, 0xb1, 0x5b, 0x6a, 0xcb, 0xbe, 0x39, 0x4a, 0x4c, 0x58, 0xcf,
    0xd0, 0xef, 0xaa, 0xfb, 0x43, 0x4d, 0x33, 0x85, 0x45, 0xf9, 0x02, 0x7f, 0x50, 0x3c, 0x9f, 0xa8,
    0x51, 0xa3, 0x40, 0x8f, 0x92, 0x9d, 0x38, 0xf5, 0xbc, 0xb6, 0xda, 0x21, 0x10, 0xff, 0xf3, 0xd2,
    0xcd, 0x0c, 0x13, 0xec, 0x5f, 0x97, 0x44, 0x17, 0xc4, 0xa7, 0x7e, 0x3d, 0x64, 0x5d, 0x19, 0x73,
    0x60, 0x81, 0x4f, 0xdc, 0x22, 0x2a, 0x90, 0x88, 0x46, 0xee, 0xb8, 0x14, 0xde, 0x5e, 0x0b, 0xdb,
    0xe0, 0x32, 0x3a, 0x0a, 0x49, 0x06, 0x24, 0x5c, 0xc2, 0xd3, 0xac, 0x62, 0x91, 0x95, 0xe4, 0x79,
    0xe7, 0xc8, 0x37, 0x6d, 0x8d, 0xd5, 0x4e, 0xa9, 0x6c, 0x56, 0xf4, 0xea, 0x65, 0x7a, 0xae, 0x08,
    0xba, 0x78, 0x25, 0x2e, 0x1c, 0xa6, 0xb4, 0xc6, 0xe8, 0xdd, 0x74, 0x1f, 0x4b, 0xbd, 0x8b, 0x8a,
    0x70, 0x3e, 0xb5, 0x66, 0x48, 0x03, 0xf6, 0x0e, 0x61, 0x35, 0x57, 0xb9, 0x86, 0xc1, 0x1d, 0x9e,
    0xe1, 0xf8, 0x98, 0x11, 0x69, 0xd9, 0x8e, 0x94, 0x9b, 0x1e, 0x87, 0xe9, 0xce, 0x55, 0x28, 0xdf,
    0x8c, 0xa1, 0x89, 0x0d, 0xbf, 0xe6, 0x42, 0x68, 0x41, 0x99, 0x2d, 0x0f, 0xb0, 0x54, 0xbb, 0x16
  ]

def invSbox : List UInt8 :=
  [
    0x52, 0x09, 0x6a, 0xd5, 0x30, 0x36, 0xa5, 0x38, 0xbf, 0x40, 0xa3, 0x9e, 0x81, 0xf3, 0xd7, 0xfb,
    0x7c, 0xe3, 0x39, 0x82, 0x9b, 0x2f, 0xff, 0x87, 0x34, 0x8e, 0x43, 0x44, 0xc4, 0xde, 0xe9, 0xcb,
    0x54, 0x7b, 0x94, 0x32, 0xa6, 0xc2, 0x23, 0x3d, 0xee, 0x4c, 0x95, 0x0b, 0x42, 0xfa, 0xc3, 0x4e,
    0x08, 0x2e, 0xa1, 0x66, 0x28, 0xd9, 0x24, 0xb2, 0x76, 0x5b, 0xa2, 0x49, 0x6d, 0x8b, 0xd1, 0x25,
    0x72, 0xf8, 0xf6, 0x64, 0x86, 0x68, 0x98, 0x16, 0xd4, 0xa4, 0x5c, 0xcc, 0x5d, 0x65, 0xb6, 0x92,
    0x6c, 0x70, 0x48, 0x50, 0xfd, 0xed, 0xb9, 0xda, 0x5e, 0x15, 0x46, 0x57, 0xa7, 0x8d, 0x9d, 0x84,
    0x90, 0xd8, 0xab, 0x00, 0x8c, 0xbc, 0xd3, 0x0a, 0xf7, 0xe4, 0x58, 0x05, 0xb8, 0xb3, 0x45, 0x06,
    0xd0, 0x2c, 0x1e, 0x8f, 0xca, 0x3f, 0x0f, 0x02, 0xc1, 0xaf, 0xbd, 0x03, 0x01, 0x13, 0x8a, 0x6b,
    0x3a, 0x91, 0x11, 0x41, 0x4f, 0x67, 0xdc, 0xea, 0x97, 0xf2, 0xcf, 0xce, 0xf0, 0xb4, 0xe6, 0x73,
    0x96, 0xac, 0x74, 0x22, 0xe7, 0xad, 0x35, 0x85, 0xe2, 0xf9, 0x37, 0xe8, 0x1c, 0x75, 0xdf, 0x6e,
    0x47, 0xf1, 0x1a, 0x71, 0x1d, 0x29, 0xc5, 0x89, 0x6f, 0xb7, 0x62, 0x0e, 0xaa, 0x18, 0xbe, 0x1b,
    0xfc, 0x56, 0x3e, 0x4b, 0xc6, 0xd2, 0x79, 0x20, 0x9a, 0xdb, 0xc0, 0xfe, 0x78, 0xcd, 0x5a, 0xf4,
    0x1f, 0xdd, 0xa8, 0x33, 0x88, 0x07, 0xc7, 0x31, 0xb1, 0x12, 0x10, 0x59, 0x27, 0x80, 0xec, 0x5f,
    0x60, 0x51, 0x7f, 0xa9, 0x19, 0xb5, 0x4a, 0x0d, 0x2d, 0xe5, 0x7a, 0x9f, 0x93, 0xc9, 0x9c, 0xef,
    0xa0, 0xe0, 0x3b, 0x4d, 0xae, 0x2a, 0xf5, 0xb0, 0xc8, 0xeb, 0xbb, 0x3c, 0x83, 0x53, 0x99, 0x61,
    0x17, 0x2b, 0x04, 0x7e, 0xba, 0x77, 0xd6, 0x26, 0xe1, 0x69, 0x14, 0x63, 0x55, 0x21, 0x0c, 0x7d
  ]

def subByte (b : UInt8) : UInt8 := sbox.getD b.toNat 0

def invSubByte (b : UInt8) : UInt8 := invSbox.getD b.toNat 0

theorem invSubByte_subByte (b : UInt8) : invSubByte (subByte b) = b := by
  have hall : ∀ i : Fin 256, invSubByte (subByte (UInt8.ofNat i)) = UInt8.ofNat i := by
    decide +kernel
  have hb := hall ⟨b.toNat, b.toNat_lt⟩
  rwa [UInt8.ofNat_toNat] at hb

/-- Row `i` rotates by `i` columns. -/
def shiftRows (s : State) : State :=
  ⟨⟨s.c0.b0, s.c1.b1, s.c2.b2, s.c3.b3⟩, ⟨s.c1.b0, s.c2.b1, s.c3.b2, s.c0.b3⟩,
    ⟨s.c2.b0, s.c3.b1, s.c0.b2, s.c1.b3⟩, ⟨s.c3.b0, s.c0.b1, s.c1.b2, s.c2.b3⟩⟩

def invShiftRows (s : State) : State :=
  ⟨⟨s.c0.b0, s.c3.b1, s.c2.b2, s.c1.b3⟩, ⟨s.c1.b0, s.c0.b1, s.c3.b2, s.c2.b3⟩,
    ⟨s.c2.b0, s.c1.b1, s.c0.b2, s.c3.b3⟩, ⟨s.c3.b0, s.c2.b1, s.c1.b2, s.c0.b3⟩⟩

theorem invShiftRows_shiftRows (s : State) : invShiftRows (shiftRows s) = s := rfl

/-- One byte of a mixed column. -/
def mixByte (a b c d : UInt8) : UInt8 := xtime a ^^^ (xtime b ^^^ b) ^^^ c ^^^ d

def mixColumn (c : Col) : Col :=
  ⟨mixByte c.b0 c.b1 c.b2 c.b3, mixByte c.b1 c.b2 c.b3 c.b0, mixByte c.b2 c.b3 c.b0 c.b1,
    mixByte c.b3 c.b0 c.b1 c.b2⟩

/-- The coefficients are 14, 11, 13 and 9. -/
def invMixByte (a b c d : UInt8) : UInt8 :=
  (xtime (xtime (xtime a)) ^^^ xtime (xtime a) ^^^ xtime a) ^^^
    (xtime (xtime (xtime b)) ^^^ xtime b ^^^ b) ^^^
    (xtime (xtime (xtime c)) ^^^ xtime (xtime c) ^^^ c) ^^^
    (xtime (xtime (xtime d)) ^^^ d)

def invMixColumn (c : Col) : Col :=
  ⟨invMixByte c.b0 c.b1 c.b2 c.b3, invMixByte c.b1 c.b2 c.b3 c.b0,
    invMixByte c.b2 c.b3 c.b0 c.b1, invMixByte c.b3 c.b0 c.b1 c.b2⟩

theorem xor_swap_left (a b c : UInt8) : a ^^^ (b ^^^ c) = b ^^^ (a ^^^ c) := by
  ac_rfl

theorem invMixByte_xor (a b c d a' b' c' d' : UInt8) :
    invMixByte (a ^^^ a') (b ^^^ b') (c ^^^ c') (d ^^^ d') =
      invMixByte a b c d ^^^ invMixByte a' b' c' d' := by
  simp only [invMixByte, xtime_xor]
  ac_rfl

/-- One column of the product of the two circulant matrices. It is that of the
identity already for polynomials in `x`, so no reduction takes place. -/
theorem invMixByte_columns (a : UInt8) :
    invMixByte (xtime a) a a (xtime a ^^^ a) = a ∧ invMixByte (xtime a ^^^ a) (xtime a) a a = 0 ∧
      invMixByte a (xtime a ^^^ a) (xtime a) a = 0 ∧
      invMixByte a a (xtime a ^^^ a) (xtime a) = 0 := by
  simp only [invMixByte, xtime_xor]
  generalize xtime (xtime (xtime (xtime a))) = a₄
  generalize xtime (xtime (xtime a)) = a₃
  generalize xtime (xtime a) = a₂
  generalize xtime a = a₁
  refine ⟨?_, ?_, ?_, ?_⟩
  all_goals
    simp [UInt8.xor_comm, xor_swap_left]

theorem invMixByte_mixByte (a b c d : UInt8) :
    invMixByte (mixByte a b c d) (mixByte b c d a) (mixByte c d a b) (mixByte d a b c) = a := by
  have h₁ : mixByte b c d a = a ^^^ xtime b ^^^ (xtime c ^^^ c) ^^^ d := by
    rw [mixByte]
    ac_rfl
  have h₂ : mixByte c d a b = a ^^^ b ^^^ xtime c ^^^ (xtime d ^^^ d) := by
    rw [mixByte]
    ac_rfl
  have h₃ : mixByte d a b c = (xtime a ^^^ a) ^^^ b ^^^ c ^^^ xtime d := by
    rw [mixByte]
    ac_rfl
  rw [mixByte, h₁, h₂, h₃, invMixByte_xor, invMixByte_xor, invMixByte_xor,
    (invMixByte_columns a).1, (invMixByte_columns b).2.1, (invMixByte_columns c).2.2.1,
    (invMixByte_columns d).2.2.2, UInt8.xor_zero, UInt8.xor_zero, UInt8.xor_zero]

theorem invMixColumn_mixColumn (c : Col) : invMixColumn (mixColumn c) = c := by
  simp only [invMixColumn, mixColumn, invMixByte_mixByte]

/-! ## The key schedule -/

/-- The round constant of word `8 * i`. -/
def rcon (i : Nat) : UInt8 := xtime^[i - 1] 1

/-- Word `i` from the word before it and the word eight before it. -/
def nextWord (i : Nat) (last old : Col) : Col :=
  if i % 8 = 0 then
    old.xor (((⟨last.b1, last.b2, last.b3, last.b0⟩ : Col).map subByte).xor ⟨rcon (i / 8), 0, 0, 0⟩)
  else if i % 8 = 4 then old.xor (last.map subByte)
  else old.xor last

/-- Extend a schedule by words; the last word comes first. -/
def expand : Nat → List Col → List Col
  | 0, words => words
  | k + 1, words =>
    expand k (nextWord words.length (words.getD 0 ⟨0, 0, 0, 0⟩)
      (words.getD 7 ⟨0, 0, 0, 0⟩) :: words)

/-- The fifteen round keys of a key of 32 bytes. -/
def roundKeys (key : List UInt8) : List State :=
  let word (i : Nat) : Col :=
    ⟨key.getD (4 * i) 0, key.getD (4 * i + 1) 0, key.getD (4 * i + 2) 0, key.getD (4 * i + 3) 0⟩
  let words := (expand 52 ((List.range 8).map word).reverse).reverse
  let wordAt (i : Nat) : Col := words.getD i ⟨0, 0, 0, 0⟩
  (List.range 15).map fun r =>
    ⟨wordAt (4 * r), wordAt (4 * r + 1), wordAt (4 * r + 2), wordAt (4 * r + 3)⟩

/-! ## The cipher -/

def addRoundKey (s k : State) : State :=
  ⟨s.c0.xor k.c0, s.c1.xor k.c1, s.c2.xor k.c2, s.c3.xor k.c3⟩

theorem addRoundKey_addRoundKey (s k : State) : addRoundKey (addRoundKey s k) k = s := by
  simp [addRoundKey, Col.xor_xor]

def subBytes (s : State) : State := s.map (Col.map subByte)

def invSubBytes (s : State) : State := s.map (Col.map invSubByte)

theorem invSubBytes_subBytes (s : State) : invSubBytes (subBytes s) = s :=
  State.map_map (fun c => by simp [Col.map, invSubByte_subByte]) s

def finalRound (s k : State) : State := addRoundKey (shiftRows (subBytes s)) k

def invFinalRound (s k : State) : State := invSubBytes (invShiftRows (addRoundKey s k))

def round (s k : State) : State := addRoundKey ((shiftRows (subBytes s)).map mixColumn) k

def invRound (s k : State) : State :=
  invSubBytes (invShiftRows ((addRoundKey s k).map invMixColumn))

theorem invFinalRound_finalRound (s k : State) : invFinalRound (finalRound s k) k = s := by
  rw [invFinalRound, finalRound, addRoundKey_addRoundKey, invShiftRows_shiftRows,
    invSubBytes_subBytes]

theorem invRound_round (s k : State) : invRound (round s k) k = s := by
  rw [invRound, round, addRoundKey_addRoundKey, State.map_map invMixColumn_mixColumn,
    invShiftRows_shiftRows, invSubBytes_subBytes]

/-- The rounds after the first key was added. -/
def rounds (s : State) : List State → State
  | [] => s
  | [k] => finalRound s k
  | k :: k' :: ks => rounds (round s k) (k' :: ks)

def invRounds (s : State) : List State → State
  | [] => s
  | [k] => invFinalRound s k
  | k :: k' :: ks => invRound (invRounds s (k' :: ks)) k

theorem invRounds_rounds (s : State) (ks : List State) : invRounds (rounds s ks) ks = s := by
  induction s, ks using rounds.induct with
  | case1 s => rfl
  | case2 s k => exact invFinalRound_finalRound s k
  | case3 s k k' ks ih => rw [rounds, invRounds, ih, invRound_round]

/-- The cipher on a block, for any round keys. -/
def encryptBlock (keys : List State) (b : Cbc.Block 16) : Cbc.Block 16 :=
  match keys with
  | [] => b
  | k :: ks => (rounds (addRoundKey (State.ofBlock b) k) ks).toBlock

def decryptBlock (keys : List State) (b : Cbc.Block 16) : Cbc.Block 16 :=
  match keys with
  | [] => b
  | k :: ks => (addRoundKey (invRounds (State.ofBlock b) ks) k).toBlock

theorem decryptBlock_encryptBlock (keys : List State) (b : Cbc.Block 16) :
    decryptBlock keys (encryptBlock keys b) = b := by
  cases keys with
  | nil => rfl
  | cons k ks =>
    rw [encryptBlock, decryptBlock, State.ofBlock_toBlock, invRounds_rounds,
      addRoundKey_addRoundKey, State.toBlock_ofBlock]

/-- AES-256 under a key. -/
def cipher (key : List UInt8) : Cbc.BlockCipher 16 where
  encrypt := encryptBlock (roundKeys key)
  decrypt := decryptBlock (roundKeys key)
  decrypt_encrypt := decryptBlock_encryptBlock (roundKeys key)

/-- The example vector of the standard. -/
example :
    ((cipher ((List.range 32).map UInt8.ofNat)).encrypt
      ⟨(List.range 16).map fun i => UInt8.ofNat (0x11 * i), rfl⟩).1 =
      [0x8e, 0xa2, 0xb7, 0xca, 0x51, 0x67, 0x45, 0xbf, 0xea, 0xfc, 0x49, 0x90, 0x4b, 0x49, 0x60,
        0x89] := by
  decide +kernel

end Aes256
