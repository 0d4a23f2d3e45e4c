import Mathlib

/-!
# Regions of a byte-addressed memory

`readBytes` and `writeBytes` move a run of cells out of and into a memory that
is indexed by machine words. Addresses wrap, as they do in the machine; a
region may not be longer than the address space. `store` does the same to a
buffer, whose cells are counted from its start.
-/

namespace Region

variable {w : Nat} {β : Type*}

/-- The `n` cells from address `a` upwards. -/
def readBytes (mem : BitVec w → β) (a : BitVec w) (n : Nat) : List β :=
  (List.range n).map fun i => mem (a + BitVec.ofNat w i)

/-- Store `bs` from address `a` upwards. -/
def writeBytes (mem : BitVec w → β) (a : BitVec w) (bs : List β) : BitVec w → β :=
  fun x => (bs[(x - a).toNat]?).getD (mem x)

@[simp]
theorem length_readBytes (mem : BitVec w → β) (a : BitVec w) (n : Nat) :
    (readBytes mem a n).length = n := by
  simp [readBytes]

theorem offset_toNat (a : BitVec w) {i : Nat} (hi : i < 2 ^ w) :
    (a + BitVec.ofNat w i - a).toNat = i := by
  have h : a + BitVec.ofNat w i - a = BitVec.ofNat w i := by
    rw [BitVec.add_comm, BitVec.add_sub_cancel]
  rw [h, BitVec.toNat_ofNat, Nat.mod_eq_of_lt hi]

/-- What was stored is what is read back. -/
theorem readBytes_writeBytes (mem : BitVec w → β) (a : BitVec w) (bs : List β)
    (hlen : bs.length ≤ 2 ^ w) : readBytes (writeBytes mem a bs) a bs.length = bs := by
  apply List.ext_getElem
  · simp
  · intro i hi hi'
    simp only [readBytes, writeBytes, List.getElem_map, List.getElem_range]
    rw [offset_toNat a (Nat.lt_of_lt_of_le hi' hlen), List.getElem?_eq_getElem hi']
    rfl

/-! ## Regions side by side -/

theorem writeBytes_outside (mem : BitVec w → β) (a : BitVec w) (bs : List β) {x : BitVec w}
    (hout : bs.length ≤ (x - a).toNat) : writeBytes mem a bs x = mem x := by
  simp only [writeBytes, List.getElem?_eq_none hout, Option.getD_none]

/-- What is read depends on the cells of the region only. -/
theorem readBytes_congr {mem mem' : BitVec w → β} {a : BitVec w} {n : Nat}
    (h : ∀ i < n, mem (a + BitVec.ofNat w i) = mem' (a + BitVec.ofNat w i)) :
    readBytes mem a n = readBytes mem' a n :=
  List.map_congr_left fun i hi => h i (List.mem_range.mp hi)

theorem readBytes_add (mem : BitVec w → β) (a : BitVec w) (m n : Nat) :
    readBytes mem a (m + n) = readBytes mem a m ++ readBytes mem (a + BitVec.ofNat w m) n := by
  simp only [readBytes, List.range_add, List.map_append, List.map_map]
  refine congrArg _ (List.map_congr_left fun i _ => ?_)
  simp only [Function.comp_apply, BitVec.ofNat_add, BitVec.add_assoc]

/-- Equal bytes are equal from the first one on. -/
theorem readBytes_of_le {mem mem' : BitVec w → β} {a : BitVec w} {m n : Nat} (hle : m ≤ n)
    (h : readBytes mem a n = readBytes mem' a n) : readBytes mem a m = readBytes mem' a m := by
  obtain ⟨d, rfl⟩ := Nat.exists_eq_add_of_le hle
  rw [readBytes_add, readBytes_add] at h
  exact (List.append_inj h (by simp)).1

theorem readBytes_succ (mem : BitVec w → β) (a : BitVec w) (n : Nat) :
    readBytes mem a (n + 1) = mem a :: readBytes mem (a + 1) n := by
  rw [Nat.add_comm, readBytes_add]
  simp [readBytes]

/-- An offset seen from further up in the region. -/
theorem toNat_sub_add {a x j : BitVec w} (hj : j.toNat ≤ (x - a).toNat) :
    (x - (a + j)).toNat = (x - a).toNat - j.toNat := by
  have hstep : x - (a + j) = x - a - j := by ring
  rw [hstep, BitVec.toNat_sub_of_le (BitVec.le_def.mpr hj)]

theorem toNat_sub_add_one {a x : BitVec w} (hne : x ≠ a) :
    (x - a).toNat = (x - (a + 1)).toNat + 1 := by
  have hpos : (x - a).toNat ≠ 0 := fun h => hne (sub_eq_zero.mp (BitVec.eq_of_toNat_eq h))
  have hlt := (x - a).isLt
  have hone : (1 : BitVec w).toNat = 1 :=
    (BitVec.toNat_ofNat 1 w).trans (Nat.mod_eq_of_lt (by omega))
  rw [toNat_sub_add (by omega), hone]
  omega

/-- The first cell, then the rest behind it. -/
theorem writeBytes_cons (mem : BitVec w → β) (a : BitVec w) (b : β) (bs : List β)
    (hlen : bs.length < 2 ^ w) :
    writeBytes mem a (b :: bs) = writeBytes (Function.update mem a b) (a + 1) bs := by
  funext x
  by_cases hx : x = a
  · have hback : a - (a + 1) = BitVec.allOnes w := by
      rw [← BitVec.neg_one_eq_allOnes]
      exact sub_add_cancel_left a 1
    rw [hx, writeBytes_outside _ (a + 1) bs, Function.update_self]
    · simp [writeBytes]
    · rw [hback, BitVec.toNat_allOnes]
      omega
  · simp only [writeBytes, toNat_sub_add_one hx, List.getElem?_cons_succ,
      Function.update_of_ne hx]

/-- The `m` cells from `a` and the `n` cells from `b` have none in common:
neither region starts inside the other. -/
def Apart (a : BitVec w) (m : Nat) (b : BitVec w) (n : Nat) : Prop :=
  m ≤ (b - a).toNat ∧ n ≤ (a - b).toNat

instance (a : BitVec w) (m : Nat) (b : BitVec w) (n : Nat) : Decidable (Apart a m b n) :=
  inferInstanceAs (Decidable (_ ∧ _))

theorem toNat_sub_add_toNat_sub {a b : BitVec w} (hne : a ≠ b) :
    (b - a).toNat + (a - b).toNat = 2 ^ w := by
  have hne' : a.toNat ≠ b.toNat := fun he => hne (BitVec.eq_of_toNat_eq he)
  have ha := a.isLt
  have hb := b.isLt
  rw [BitVec.toNat_sub, BitVec.toNat_sub]
  rcases Nat.lt_or_gt_of_ne hne' with hlt | hlt
  · rw [show 2 ^ w - a.toNat + b.toNat = b.toNat - a.toNat + 2 ^ w by omega, Nat.add_mod_right,
      Nat.mod_eq_of_lt (by omega), Nat.mod_eq_of_lt (by omega)]
    omega
  · rw [Nat.mod_eq_of_lt (by omega), show 2 ^ w - b.toNat + a.toNat = a.toNat - b.toNat + 2 ^ w by
      omega, Nat.add_mod_right, Nat.mod_eq_of_lt (by omega)]
    omega

/-- A cell of the second region lies past the end of the first. -/
theorem Apart.outside {a b : BitVec w} {m n i : Nat} (h : Apart a m b n) (hi : i < n) :
    m ≤ (b + BitVec.ofNat w i - a).toNat := by
  obtain ⟨hm, hn⟩ := h
  by_cases hab : a = b
  · simp only [hab, BitVec.sub_self, BitVec.toNat_zero] at hn
    omega
  · have hsum := toNat_sub_add_toNat_sub hab
    have hi' : i < 2 ^ w := by have := (a - b).isLt; omega
    have hshift : b + BitVec.ofNat w i - a = b - a + BitVec.ofNat w i := by
      rw [BitVec.sub_eq_add_neg, BitVec.sub_eq_add_neg, BitVec.add_assoc, BitVec.add_assoc,
        BitVec.add_comm (BitVec.ofNat w i)]
    rw [hshift, BitVec.toNat_add, BitVec.toNat_ofNat, Nat.mod_eq_of_lt hi',
      Nat.mod_eq_of_lt (by omega)]
    omega

/-- From inside the second region, its own end comes before the first. -/
theorem Apart.inside {a b j : BitVec w} {m n k : Nat} (h : Apart a m b n)
    (hj : j.toNat + k ≤ n) : k ≤ (a - (b + j)).toNat := by
  have hn := h.2
  rw [toNat_sub_add (by omega)]
  omega

/-- A store leaves a region alone that it is apart from. -/
theorem readBytes_writeBytes_apart (mem : BitVec w → β) {a b : BitVec w} {bs : List β} {n : Nat}
    (h : Apart a bs.length b n) : readBytes (writeBytes mem a bs) b n = readBytes mem b n :=
  readBytes_congr fun _ hi => writeBytes_outside mem a bs (h.outside hi)

/-! ## Buffers -/

/-- Store `bs` from cell `a` of a buffer upwards. -/
def store (buf : Stream' β) (a : Nat) (bs : List β) : Stream' β :=
  fun i => if a ≤ i then (bs[i - a]?).getD (buf i) else buf i

@[simp]
theorem store_nil (buf : Stream' β) (a : Nat) : store buf a [] = buf := by
  funext i
  simp [store]

/-- Two stores one after the other. -/
theorem store_store (buf : Stream' β) (a : Nat) (bs cs : List β) :
    store (store buf a bs) (a + bs.length) cs = store buf a (bs ++ cs) := by
  funext i
  simp only [store]
  by_cases hi : a ≤ i
  · rw [if_pos hi, if_pos hi]
    split
    · next hnext =>
      -- past the first run
      have hlen : bs.length ≤ i - a := by omega
      rw [List.getElem?_append_right hlen, List.getElem?_eq_none hlen, Nat.sub_sub]
      rfl
    · next hfront => rw [List.getElem?_append_left (by omega)]
  · rw [if_neg hi, if_neg hi, if_neg fun h => hi (Nat.le_of_add_right_le h)]

theorem take_add (s : Stream' β) (m n : Nat) :
    s.take (m + n) = s.take m ++ (s.drop m).take n := by
  induction n with
  | zero => simp
  | succ n ih =>
    rw [← Nat.add_assoc, Stream'.take_succ', ih, Stream'.take_succ', Stream'.get_drop,
      List.append_assoc]

end Region
