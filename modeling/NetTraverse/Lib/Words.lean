import NetTraverse.Lib.Region

/-!
# Little-endian words in a byte memory

`leBytes n v` are the low `n` bytes of `v`, the lowest first. `writeLe` and
`readLe` store and load a word of any whole number of bytes. A wide load is two
narrow ones side by side, which is how a store narrower than a field is seen
through the field.
-/

namespace Words

open Region

variable {aw w v : Nat}

def leBytes (n v : Nat) : List UInt8 :=
  (List.range n).map fun i => UInt8.ofNat (v >>> (8 * i))

/-- The number that a run of bytes spells, the lowest byte first. -/
def leValue (bs : List UInt8) : Nat := Nat.ofDigits 256 (bs.map UInt8.toNat)

@[simp]
theorem length_leBytes (n v : Nat) : (leBytes n v).length = n := by simp [leBytes]

theorem leValue_append (bs cs : List UInt8) :
    leValue (bs ++ cs) = leValue bs + 256 ^ bs.length * leValue cs := by
  simp only [leValue, List.map_append, Nat.ofDigits_append, List.length_map]

theorem leValue_lt (bs : List UInt8) : leValue bs < 256 ^ bs.length := by
  have h := Nat.ofDigits_lt_base_pow_length (b := 256) (l := bs.map UInt8.toNat) (by decide)
    (by simpa using fun b _ => b.toNat_lt)
  simpa [leValue] using h

theorem leValue_leBytes (n v : Nat) : leValue (leBytes n v) = v % 256 ^ n := by
  induction n with
  | zero => simp [leValue, leBytes, Nat.mod_one]
  | succ n ih =>
    have hlast : leBytes (n + 1) v = leBytes n v ++ [UInt8.ofNat (v >>> (8 * n))] := by
      simp only [leBytes, List.range_succ, List.map_append, List.map_cons, List.map_nil]
    have hdigit : leValue [UInt8.ofNat (v >>> (8 * n))] = v / 256 ^ n % 256 := by
      simp [leValue, Nat.shiftRight_eq_div_pow, Nat.pow_mul]
    rw [hlast, leValue_append, ih, hdigit, length_leBytes, Nat.mod_pow_succ]

/-! ## Loads and stores -/

variable (mem : BitVec aw → UInt8)

/-- The word of `w` bits at address `a`. -/
def readLe (w : Nat) (mem : BitVec aw → UInt8) (a : BitVec aw) : BitVec w :=
  BitVec.ofNat w (leValue (readBytes mem a (w / 8)))

def writeLe (mem : BitVec aw → UInt8) (a : BitVec aw) (x : BitVec w) : BitVec aw → UInt8 :=
  writeBytes mem a (leBytes (w / 8) x.toNat)

theorem pow_bytes (hw : 8 ∣ w) : 256 ^ (w / 8) = 2 ^ w := by
  obtain ⟨n, rfl⟩ := hw
  rw [Nat.mul_div_cancel_left n (by decide), Nat.pow_mul]

theorem toNat_readLe (hw : 8 ∣ w) (a : BitVec aw) :
    (readLe w mem a).toNat = leValue (readBytes mem a (w / 8)) := by
  have hlt := leValue_lt (readBytes mem a (w / 8))
  rw [length_readBytes, pow_bytes hw] at hlt
  rw [readLe, BitVec.toNat_ofNat, Nat.mod_eq_of_lt hlt]

theorem readLe_writeLe (hw : 8 ∣ w) (hfit : w / 8 ≤ 2 ^ aw) (a : BitVec aw) (x : BitVec w) :
    readLe w (writeLe mem a x) a = x := by
  have hbytes := readBytes_writeBytes mem a (leBytes (w / 8) x.toNat) (by simpa using hfit)
  rw [length_leBytes] at hbytes
  rw [readLe, writeLe, hbytes, leValue_leBytes, pow_bytes hw, Nat.mod_eq_of_lt x.isLt,
    BitVec.ofNat_toNat, BitVec.setWidth_eq]

theorem readLe_writeLe_apart {a b : BitVec aw} (x : BitVec v) (h : Apart a (v / 8) b (w / 8)) :
    readLe w (writeLe mem a x) b = readLe w mem b := by
  rw [readLe, writeLe, readBytes_writeBytes_apart mem (by simpa using h), readLe]

theorem writeLe_outside {a b : BitVec aw} (x : BitVec w) (h : w / 8 ≤ (b - a).toNat) :
    writeLe mem a x b = mem b :=
  writeBytes_outside mem a _ (by simpa using h)

theorem readLe_congr {mem mem' : BitVec aw → UInt8} {a : BitVec aw}
    (h : ∀ i < w / 8, mem (a + BitVec.ofNat aw i) = mem' (a + BitVec.ofNat aw i)) :
    readLe w mem a = readLe w mem' a := by
  rw [readLe, readBytes_congr h, readLe]

/-- The high part of a load starts where the low part ends. -/
theorem readLe_append (hw : 8 ∣ w) (hv : 8 ∣ v) (a : BitVec aw) :
    readLe (v + w) mem a = readLe v mem (a + BitVec.ofNat aw (w / 8)) ++ readLe w mem a := by
  apply BitVec.eq_of_toNat_eq
  have hbytes : (v + w) / 8 = w / 8 + v / 8 := by omega
  have hlow : leValue (readBytes mem a (w / 8)) < 2 ^ w := by
    have hlt := leValue_lt (readBytes mem a (w / 8))
    rwa [length_readBytes, pow_bytes hw] at hlt
  rw [BitVec.toNat_append, toNat_readLe mem (by omega), toNat_readLe mem hv, toNat_readLe mem hw,
    hbytes, readBytes_add, leValue_append, length_readBytes, pow_bytes hw,
    ← Nat.shiftLeft_add_eq_or_of_lt hlow, Nat.shiftLeft_eq]
  ring

end Words
