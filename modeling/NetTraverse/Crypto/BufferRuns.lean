import NetTraverse.Crypto.ByteBuffer
import NetTraverse.Lib.Transition

/-!
# Runs of `byte_buffer` operations

Some variables of type `byte_buffer`, and every operation of the class on them.
`bufferLaw_iff` says of which operations a run may consist so that each buffer
keeps an allocation of at least `size()` bytes and every operation does what its
name says.
-/

namespace NetTraverse

open ByteBuffer FaultLemmas

/-- `new std::uint8_t[n]` throws when `n` exceeds `PTRDIFF_MAX`. -/
def allocLimit : Nat := 2 ^ 63

def allocated {α : Type} (n : Nat) (x : Except Fault α) : Except Fault α :=
  if n < allocLimit then x else .error .exception

/-- `operator[]` and `resize` allocate `size_ * 2` bytes when they are asked for
more than there is. -/
def grown {α : Type} (b : ByteBuffer) (n : Nat) (x : Except Fault α) : Except Fault α :=
  if b.size < n then allocated (b.size * 2) x else x

/-- The operations. `v` is the variable that is constructed or operated on, `w`
the one that it is constructed from. `read` and `write` go through the non-const
`operator[]`. -/
inductive BufferOp where
  | empty (v : Nat)
  | sized (v : Nat) (size : UInt64) (junk : Nat → UInt8)
  | ofBytes (v : Nat) (bytes : List UInt8)
  | copy (v w : Nat)
  | move (v w : Nat)
  | resize (v : Nat) (size : UInt64) (junk : Nat → UInt8)
  | readConst (v : Nat) (index : UInt64)
  | read (v : Nat) (index : UInt64) (junk : Nat → UInt8)
  | write (v : Nat) (index : UInt64) (value : UInt8) (junk : Nat → UInt8)
  | fill (v : Nat) (buf : List UInt8) (offset : UInt64)

/-- What is in the variables. -/
abbrev Buffers := Nat → ByteBuffer

namespace Buffers

/-- All variables are constructed empty. -/
def init : Buffers := fun _ => ByteBuffer.empty

variable (s : Buffers)

def set (v : Nat) (b : ByteBuffer) : Buffers := Function.update s v b

def apply : BufferOp → Except Fault Buffers
  | .empty v => .ok (s.set v ByteBuffer.empty)
  | .sized v size junk => allocated size.toNat (.ok (s.set v (.ofSize junk size.toNat)))
  | .ofBytes v bytes => allocated bytes.length (.ok (s.set v (.ofBytes bytes)))
  | .copy v w => allocated (s w).size do
      let b ← (s w).copy
      .ok (s.set v b)
  | .move v w => .ok ((s.set w (s w).move.2).set v (s w).move.1)
  | .resize v size junk => grown (s v) size.toNat do
      let b ← (s v).resize junk size.toNat
      .ok (s.set v b)
  | .readConst v index => do
      let pos ← (s v).constIndex index.toNat
      let _ ← (s v).read pos 1
      .ok s
  | .read v index junk => grown (s v) index.toNat do
      let b ← (s v).index junk index.toNat
      let _ ← b.read index.toNat 1
      .ok (s.set v b)
  | .write v index value junk => grown (s v) index.toNat do
      let b ← (s v).index junk index.toNat
      let b ← b.write index.toNat [value]
      .ok (s.set v b)
  | .fill v buf offset => do
      let (b, _) ← (s v).fill buf offset.toNat
      .ok (s.set v b)

/-- An operation that throws changes nothing. -/
def step (op : BufferOp) : Option Buffers :=
  match s.apply op with
  | .ok s' => some s'
  | .error .exception => some s
  | .error .outOfBounds => none

/-- What the operation promises. -/
def Promise : BufferOp → Prop
  | .resize v size junk => ∀ s', s.apply (.resize v size junk) = .ok s' →
      (s' v).size = size.toNat ∧
        (s' v).content.take (min (s v).size size.toNat) =
          (s v).content.take (min (s v).size size.toNat)
  | .readConst v index => (s v).size ≤ index.toNat →
      s.apply (.readConst v index) = .error .exception
  | .fill v buf offset => ∀ b n, (s v).fill buf offset.toNat = .ok (b, n) →
      (∀ j, j < n → offset.toNat + j < (s v).size) ∧
        b = { s v with mem := (s v).mem.take offset.toNat ++ buf.take n ++
          (s v).mem.drop (offset.toNat + n) }
  | _ => True

/-- The operation keeps to its promise, touches no byte outside an allocation,
and leaves every buffer with an allocation of `size()` bytes. -/
structure Law (op : BufferOp) : Prop where
  promise : s.Promise op
  inBounds : s.apply op ≠ .error .outOfBounds
  fits : ∀ s', s.apply op = .ok s' → ∀ v, (s' v).Fits

/-- A reference into the buffer that the non-const `operator[]` leaves. -/
def IndexOk (b : ByteBuffer) (index : Nat) : Prop :=
  if index ≤ b.size then index < b.mem.length
  else index < b.size * 2 ∨ allocLimit ≤ b.size * 2

/-- `resize` at most doubles the size, the const `operator[]` is not asked for
the byte at `size()`, the non-const one for a byte that is allocated, and `fill`
starts inside the buffer. -/
def Within : BufferOp → Prop
  | .resize v size _ => size.toNat ≤ (s v).size * 2 ∨ allocLimit ≤ (s v).size * 2
  | .readConst v index => index.toNat ≠ (s v).size
  | .read v index _ => IndexOk (s v) index.toNat
  | .write v index _ _ => IndexOk (s v) index.toNat
  | .fill v buf offset => offset.toNat ≤ (s v).size ∨ buf = []
  | _ => True

/-- `size_ * 2` does not wrap around. -/
structure Inv : Prop where
  fits : ∀ v, (s v).Fits
  length_lt : ∀ v, (s v).mem.length < allocLimit

/-! ## One operation -/

namespace BufferLemmas

variable {s} {v w : Nat} {b : ByteBuffer} {op : BufferOp}

theorem set_self : s.set v b v = b := Function.update_self _ _ _

theorem forall_set {P : ByteBuffer → Prop} (hs : ∀ u, P (s u)) (hb : P b) :
    ∀ u, P (s.set v b u) := by
  intro u
  by_cases hu : u = v
  · rw [hu, set_self]
    exact hb
  · rw [set, Function.update_of_ne hu]
    exact hs u

/-- An operation that puts a sound buffer into a variable. -/
theorem law_of_set (hI : s.Inv) (h : s.apply op = .ok (s.set v b)) (hb : b.Fits)
    (hpromise : s.Promise op) : s.Law op where
  promise := hpromise
  inBounds := by
    rw [h]
    exact nofun
  fits := by
    rintro s' hs'
    obtain rfl := Except.ok.inj (h.symm.trans hs')
    exact forall_set hI.fits hb

/-- An operation that throws. -/
theorem law_of_exception (h : s.apply op = .error .exception) (hpromise : s.Promise op) :
    s.Law op where
  promise := hpromise
  inBounds := by
    rw [h]
    exact nofun
  fits := by
    rintro s' hs'
    cases h.symm.trans hs'

theorem allocated_of_lt {α : Type} {n : Nat} {x : Except Fault α} (h : n < allocLimit) :
    allocated n x = x := if_pos h

theorem allocated_of_le {α : Type} {n : Nat} {x : Except Fault α} (h : allocLimit ≤ n) :
    allocated n x = .error .exception := if_neg (not_lt.mpr h)

theorem grown_of_le {α : Type} {n : Nat} {x : Except Fault α} (h : n ≤ b.size) :
    grown b n x = x := if_neg (not_lt.mpr h)

theorem grown_of_lt {α : Type} {n : Nat} {x : Except Fault α} (h : b.size < n) :
    grown b n x = allocated (b.size * 2) x := if_pos h

/-- A buffer after its allocation has been doubled. -/
theorem length_grown {junk : Nat → UInt8} (h : b.Fits) :
    (b.content ++ newBytes junk b.size).length = b.size * 2 := by
  rw [List.length_append, length_content h, length_newBytes]
  omega

section Resize

variable {size : UInt64} {junk : Nat → UInt8}

theorem apply_shrink (h : size.toNat ≤ (s v).size) :
    s.apply (.resize v size junk) = .ok (s.set v { s v with size := size.toNat }) := by
  rw [apply, grown_of_le h, resize_of_le h]
  rfl

theorem apply_enlarge (junk : Nat → UInt8) (hI : s.Inv) (h : (s v).size < size.toNat)
    (halloc : (s v).size * 2 < allocLimit) : s.apply (.resize v size junk) =
      .ok (s.set v ⟨(s v).content ++ newBytes junk (s v).size, size.toNat⟩) := by
  rw [apply, grown_of_lt h, allocated_of_lt halloc, resize_of_lt (hI.fits v) h]
  rfl

/-- What `resize` keeps, when it returns. -/
theorem promise_resize (hI : s.Inv) : s.Promise (.resize v size junk) := by
  intro s' hs'
  have hfits := hI.fits v
  by_cases h : size.toNat ≤ (s v).size
  · obtain rfl := Except.ok.inj ((apply_shrink h).symm.trans hs')
    rw [set_self]
    refine ⟨rfl, ?_⟩
    show ((s v).mem.take size.toNat).take _ = ((s v).mem.take (s v).size).take _
    rw [Nat.min_eq_right h, List.take_take, List.take_take, Nat.min_self, Nat.min_eq_left h]
  · have hlt := not_le.mp h
    by_cases halloc : (s v).size * 2 < allocLimit
    · obtain rfl := Except.ok.inj ((apply_enlarge junk hI hlt halloc).symm.trans hs')
      rw [set_self]
      refine ⟨rfl, ?_⟩
      have hmin : min (s v).size size.toNat = (s v).content.length := by
        rw [length_content hfits]
        omega
      show (((s v).content ++ newBytes junk (s v).size).take size.toNat).take _ = _
      rw [hmin, List.take_take, List.take_length,
        Nat.min_eq_left (by rw [length_content hfits]; omega), List.take_left]
    · rw [apply, grown_of_lt hlt, allocated_of_le (not_lt.mp halloc)] at hs'
      cases hs'

theorem law_resize_iff (hI : s.Inv) :
    s.Law (.resize v size junk) ↔ s.Within (.resize v size junk) := by
  have hfits := hI.fits v
  by_cases h : size.toNat ≤ (s v).size
  · have hb : ByteBuffer.Fits { s v with size := size.toNat } := le_trans h hfits
    exact iff_of_true (law_of_set hI (apply_shrink h) hb (promise_resize hI)) (.inl (by omega))
  · have hlt := not_le.mp h
    by_cases halloc : (s v).size * 2 < allocLimit
    · have happly := apply_enlarge junk hI hlt halloc
      constructor
      · intro hlaw
        have hb := hlaw.fits _ happly v
        rw [set_self, Fits, length_grown hfits] at hb
        exact .inl hb
      · rintro (hle | hge)
        · refine law_of_set hI happly ?_ (promise_resize hI)
          rw [Fits, length_grown hfits]
          exact hle
        · exact absurd hge (not_le.mpr halloc)
    · have happly : s.apply (.resize v size junk) = .error .exception := by
        rw [apply, grown_of_lt hlt, allocated_of_le (not_lt.mp halloc)]
      exact iff_of_true (law_of_exception happly (promise_resize hI)) (.inr (not_lt.mp halloc))

end Resize

section Index

variable {index : UInt64} {junk : Nat → UInt8}

theorem law_readConst_iff (hI : s.Inv) :
    s.Law (.readConst v index) ↔ s.Within (.readConst v index) := by
  have hfits := hI.fits v
  rcases lt_trichotomy index.toNat (s v).size with h | h | h
  · have hle : index.toNat + 1 ≤ (s v).mem.length := le_trans h hfits
    have happly : s.apply (.readConst v index) = .ok s := by
      rw [apply, constIndex, if_neg (by omega)]
      show (s v).read index.toNat 1 >>= _ = _
      rw [read_of_le hle]
      rfl
    refine iff_of_true ⟨fun hge => absurd hge (not_le.mpr h), ?_, ?_⟩ h.ne
    · rw [happly]
      exact nofun
    · intro s' hs'
      obtain rfl := Except.ok.inj (happly.symm.trans hs')
      exact hI.fits
  · refine iff_of_false (fun hlaw => ?_) (fun hne => hne h)
    have hthrows := hlaw.promise (le_of_eq h.symm)
    rw [apply, constIndex, if_neg (by omega)] at hthrows
    change (s v).read index.toNat 1 >>= _ = _ at hthrows
    unfold ByteBuffer.read at hthrows
    split at hthrows <;> cases hthrows
  · have happly : s.apply (.readConst v index) = .error .exception := by
      rw [apply, constIndex, if_pos h]
      rfl
    exact iff_of_true (law_of_exception happly fun _ => happly) h.ne'

/-- The buffer that the non-const `operator[]` leaves, unless it throws. -/
theorem index_eq (junk : Nat → UInt8) (i : Nat) (hfits : b.Fits) :
    ∃ mem, b.index junk i = .ok { b with mem := mem } ∧
    b.size ≤ mem.length ∧ mem.length = if i ≤ b.size then b.mem.length else b.size * 2 := by
  by_cases h : i ≤ b.size
  · exact ⟨b.mem, index_of_le h, hfits, (if_pos h).symm⟩
  · refine ⟨_, index_of_lt hfits (not_le.mp h), ?_, ?_⟩
    · rw [length_grown hfits]
      omega
    · rw [length_grown hfits, if_neg h]

/-- An access through the reference that the non-const `operator[]` returns. -/
theorem law_access_iff (hI : s.Inv) {i : Nat} (junk : Nat → UInt8)
    (access : ByteBuffer → Except Fault ByteBuffer) (happly : s.apply op = grown (s v) i do
      let b ← (s v).index junk i
      let b ← access b
      .ok (s.set v b))
    (hin : ∀ b : ByteBuffer, b.Fits → i < b.mem.length → ∃ b', access b = .ok b' ∧ b'.Fits)
    (hout : ∀ b : ByteBuffer, b.mem.length ≤ i → access b = .error .outOfBounds)
    (hpromise : s.Promise op) : s.Law op ↔ IndexOk (s v) i := by
  have hfits := hI.fits v
  obtain ⟨mem, hindex, hmem, hlen⟩ := index_eq junk i hfits
  have hrun (hle : i ≤ (s v).size ∨ (s v).size * 2 < allocLimit) : s.apply op =
      access { s v with mem := mem } >>= fun b => .ok (s.set v b) := by
    rw [happly]
    by_cases h : i ≤ (s v).size
    · rw [grown_of_le h, hindex]
      rfl
    · rw [grown_of_lt (not_le.mp h), allocated_of_lt (hle.resolve_left h), hindex]
      rfl
  have hiff (hle : i ≤ (s v).size ∨ (s v).size * 2 < allocLimit) : s.Law op ↔ i < mem.length := by
    constructor
    · intro hlaw
      by_contra hge
      exact hlaw.inBounds (by rw [hrun hle, hout _ (not_lt.mp hge)]; rfl)
    · intro hlt
      obtain ⟨b', hb', hfits'⟩ := hin { s v with mem := mem } hmem hlt
      refine law_of_set (v := v) (b := b') hI ?_ hfits' hpromise
      rw [hrun hle, hb']
      rfl
  unfold IndexOk
  by_cases h : i ≤ (s v).size
  · rw [hiff (.inl h), hlen, if_pos h, if_pos h]
  · rw [if_neg h]
    by_cases halloc : (s v).size * 2 < allocLimit
    · rw [hiff (.inr halloc), hlen, if_neg h]
      exact ⟨.inl, fun hor => hor.resolve_right (not_le.mpr halloc)⟩
    · have hthrows : s.apply op = .error .exception := by
        rw [happly, grown_of_lt (not_le.mp h), allocated_of_le (not_lt.mp halloc)]
      exact iff_of_true (law_of_exception hthrows hpromise) (.inr (not_lt.mp halloc))

theorem law_read_iff (hI : s.Inv) :
    s.Law (.read v index junk) ↔ s.Within (.read v index junk) := by
  refine law_access_iff hI junk (fun b => do
    let _ ← b.read index.toNat 1
    .ok b) ?_ ?_ ?_ trivial
  · rw [apply]
    congr 1
    cases (s v).index junk index.toNat with
    | error e => rfl
    | ok b =>
      show (b.read index.toNat 1 >>= _) = (b.read index.toNat 1 >>= _) >>= _
      cases b.read index.toNat 1 <;> rfl
  · intro b hfits hlt
    exact ⟨b, by rw [read_of_le hlt]; rfl, hfits⟩
  · intro b hle
    rw [read_of_lt (by omega)]
    rfl

theorem law_write_iff {value : UInt8} (hI : s.Inv) :
    s.Law (.write v index value junk) ↔ s.Within (.write v index value junk) := by
  refine law_access_iff hI junk (fun b => b.write index.toNat [value]) rfl ?_ ?_ trivial
  · intro b hfits hlt
    refine ⟨_, write_of_le hlt, ?_⟩
    rw [Fits] at hfits ⊢
    simp only [List.length_append, List.length_take, List.length_drop, List.length_singleton]
    omega
  · intro b hle
    exact if_neg (by simp only [List.length_singleton]; omega)

end Index

section Fill

variable {buf : List UInt8} {offset : UInt64}

/-- How many bytes `fill` copies. -/
def toCopy (b : ByteBuffer) (buf : List UInt8) (offset : Nat) : Nat :=
  min (sizeT ((b.size : Int) - offset)) buf.length

theorem fill_eq (b : ByteBuffer) (buf : List UInt8) (offset : Nat) :
    b.fill buf offset =
      if toCopy b buf offset = 0 then .ok (b, 0)
      else b.write offset (buf.take (toCopy b buf offset)) >>= fun b' =>
        .ok (b', toCopy b buf offset) := by
  have hmin : (if sizeT ((b.size : Int) - offset) > buf.length then buf.length
      else sizeT ((b.size : Int) - offset)) = toCopy b buf offset := by
    unfold toCopy
    split <;> omega
  rw [fill, hmin]

theorem length_take_toCopy (b : ByteBuffer) (buf : List UInt8) (offset : Nat) :
    (buf.take (toCopy b buf offset)).length = toCopy b buf offset := by
  rw [List.length_take, toCopy]
  omega

/-- Inside the buffer the subtraction does not wrap. -/
theorem toCopy_le (h : offset.toNat ≤ b.size) :
    offset.toNat + toCopy b buf offset.toNat ≤ b.size := by
  rw [toCopy, sizeT]
  omega

/-- Behind the end it does. -/
theorem toCopy_pos (h : b.size < offset.toNat) (hbuf : buf ≠ []) :
    0 < toCopy b buf offset.toNat := by
  have hlt : offset.toNat < 2 ^ 64 := offset.toNat_lt
  have hlen : 0 < buf.length := List.length_pos_iff.mpr hbuf
  rw [toCopy, sizeT]
  omega

/-- To copy nothing changes nothing. -/
theorem fill_nothing (h : toCopy b buf offset.toNat = 0) :
    b.fill buf offset.toNat = .ok (b, 0) := by
  rw [fill_eq, if_pos h]

theorem law_fill_nothing (hI : s.Inv) (h : toCopy (s v) buf offset.toNat = 0) :
    s.Law (.fill v buf offset) := by
  have hfill := fill_nothing h
  refine law_of_set (v := v) (b := s v) hI ?_ (hI.fits v) fun b n hbn => ?_
  · rw [apply, hfill]
    rfl
  · cases hfill.symm.trans hbn
    exact ⟨fun j hj => absurd hj (Nat.not_lt_zero j), by simp⟩

/-- A copy that stays in the buffer. -/
theorem law_fill_within (hI : s.Inv) (h : offset.toNat ≤ (s v).size) :
    s.Law (.fill v buf offset) := by
  by_cases hzero : toCopy (s v) buf offset.toNat = 0
  · exact law_fill_nothing hI hzero
  · have hle : offset.toNat + toCopy (s v) buf offset.toNat ≤ (s v).size := toCopy_le h
    have hfits : (s v).size ≤ (s v).mem.length := hI.fits v
    set n := toCopy (s v) buf offset.toNat with hn
    have hlen : (buf.take n).length = n := length_take_toCopy _ _ _
    have hwrite := @write_of_le (s v) offset.toNat (buf.take n) (by omega)
    rw [hlen] at hwrite
    have hfill : (s v).fill buf offset.toNat = .ok ({ s v with
        mem := (s v).mem.take offset.toNat ++ buf.take n ++
          (s v).mem.drop (offset.toNat + n) }, n) := by
      rw [fill_eq, ← hn, if_neg hzero, hwrite]
      rfl
    refine law_of_set hI (by rw [apply, hfill]; rfl) ?_ fun b m hbm => ?_
    · simp only [Fits, List.length_append, List.length_take, List.length_drop]
      rw [List.length_take] at hlen
      omega
    · cases hfill.symm.trans hbm
      exact ⟨fun j hj => by omega, rfl⟩

theorem law_fill_iff (hI : s.Inv) :
    s.Law (.fill v buf offset) ↔ s.Within (.fill v buf offset) := by
  by_cases h : offset.toNat ≤ (s v).size
  · exact iff_of_true (law_fill_within hI h) (.inl h)
  · by_cases hbuf : buf = []
    · exact iff_of_true (law_fill_nothing hI (by simp [toCopy, hbuf])) (.inr hbuf)
    · refine iff_of_false (fun hlaw => ?_) (by simp [Within, h, hbuf])
      have hpos := toCopy_pos (not_le.mp h) hbuf
      have happly := hlaw.inBounds
      cases hwrite : (s v).write offset.toNat (buf.take (toCopy (s v) buf offset.toNat)) with
      | error e =>
        have hout : e = .outOfBounds := by
          unfold ByteBuffer.write at hwrite
          split at hwrite <;> cases hwrite
          rfl
        rw [apply, fill_eq, if_neg hpos.ne', hwrite, hout] at happly
        exact happly rfl
      | ok b =>
        have hfill : (s v).fill buf offset.toNat = .ok (b, toCopy (s v) buf offset.toNat) := by
          rw [fill_eq, if_neg hpos.ne', hwrite]
          rfl
        have hfirst := (hlaw.promise b _ hfill).1 0 hpos
        omega

end Fill

/-! ## All operations -/

theorem law_construct (hI : s.Inv) {n : Nat} {b : ByteBuffer}
    (happly : s.apply op = allocated n (.ok (s.set v b))) (hb : b.Fits) (hpromise : s.Promise op) :
    s.Law op := by
  by_cases hn : n < allocLimit
  · exact law_of_set hI (happly.trans (allocated_of_lt hn)) hb hpromise
  · exact law_of_exception (happly.trans (allocated_of_le (not_lt.mp hn))) hpromise

theorem law_iff (hI : s.Inv) (op : BufferOp) : s.Law op ↔ s.Within op := by
  cases op with
  | empty v => exact iff_of_true (law_of_set hI rfl empty_fits trivial) trivial
  | sized v size junk =>
    exact iff_of_true (law_construct hI rfl (ofSize_fits junk _) trivial) trivial
  | ofBytes v bytes =>
    exact iff_of_true (law_construct hI rfl (ofBytes_fits bytes) trivial) trivial
  | copy v w =>
    have happly : s.apply (.copy v w) =
        allocated (s w).size (.ok (s.set v (.ofBytes (s w).content))) := by
      rw [apply, copy_of_fits (hI.fits w)]
      rfl
    exact iff_of_true (law_construct hI happly (ofBytes_fits _) trivial) trivial
  | move v w =>
    refine iff_of_true ⟨trivial, nofun, fun s' hs' => ?_⟩ trivial
    obtain rfl := Except.ok.inj hs'
    exact forall_set (forall_set hI.fits empty_fits) (hI.fits w)
  | resize v size junk => exact law_resize_iff hI
  | readConst v index => exact law_readConst_iff hI
  | read v index junk => exact law_read_iff hI
  | write v index value junk => exact law_write_iff hI
  | fill v buf offset => exact law_fill_iff hI

/-! ## The size of allocations -/

theorem allocated_eq_ok {α : Type} {n : Nat} {x : Except Fault α} {r : α} :
    allocated n x = .ok r ↔ n < allocLimit ∧ x = .ok r := by
  unfold allocated
  split <;> simp_all

theorem grown_eq_ok {α : Type} {n : Nat} {x : Except Fault α} {r : α} (h : grown b n x = .ok r) :
    (n ≤ b.size ∨ b.size * 2 < allocLimit) ∧ x = .ok r := by
  unfold grown at h
  split at h
  · exact (allocated_eq_ok.mp h).imp .inr id
  · next hle => exact ⟨.inl (not_lt.mp hle), h⟩

theorem length_of_write {off : Nat} {bytes : List UInt8} {b' : ByteBuffer}
    (h : b.write off bytes = .ok b') : b'.mem.length = b.mem.length := by
  unfold ByteBuffer.write at h
  split at h
  · cases h
    simp only [List.length_append, List.length_take, List.length_drop]
    omega
  · cases h

theorem length_of_fill {buf : List UInt8} {offset n : Nat} {b' : ByteBuffer}
    (h : b.fill buf offset = .ok (b', n)) : b'.mem.length = b.mem.length := by
  rw [fill_eq] at h
  split at h
  · cases h
    rfl
  · obtain ⟨b'', hwrite, h⟩ := bind_eq_ok.mp h
    cases h
    exact length_of_write hwrite

/-- The non-const `operator[]` leaves an allocation that could be made. -/
theorem length_lt_of_index {junk : Nat → UInt8} {i : Nat} {b' : ByteBuffer} (hfits : b.Fits)
    (hb : b.mem.length < allocLimit) (h : i ≤ b.size ∨ b.size * 2 < allocLimit)
    (hindex : b.index junk i = .ok b') : b'.mem.length < allocLimit := by
  obtain ⟨mem, hmem, -, hlen⟩ := index_eq junk i hfits
  cases hmem.symm.trans hindex
  show mem.length < allocLimit
  rw [hlen]
  split
  · exact hb
  · next hgt => exact h.resolve_left hgt

theorem length_lt_of_resize {junk : Nat → UInt8} {n : Nat} {b' : ByteBuffer} (hfits : b.Fits)
    (hb : b.mem.length < allocLimit) (h : n ≤ b.size ∨ b.size * 2 < allocLimit)
    (hresize : b.resize junk n = .ok b') : b'.mem.length < allocLimit := by
  by_cases hle : n ≤ b.size
  · cases (resize_of_le hle).symm.trans hresize
    exact hb
  · cases (resize_of_lt hfits (not_le.mp hle)).symm.trans hresize
    show (b.content ++ newBytes junk b.size).length < allocLimit
    rw [length_grown hfits]
    exact h.resolve_left hle

/-- No operation makes an allocation of `2 ^ 63` bytes. -/
theorem length_lt_of_apply (hI : s.Inv) {s' : Buffers} (h : s.apply op = .ok s') :
    ∀ u, (s' u).mem.length < allocLimit := by
  have hset {v : Nat} {b : ByteBuffer} (hb : b.mem.length < allocLimit) :
      ∀ u, (s.set v b u).mem.length < allocLimit :=
    forall_set (P := fun b => b.mem.length < allocLimit) hI.length_lt hb
  cases op with
  | empty v =>
    cases h
    exact hset (by decide)
  | sized v size junk =>
    obtain ⟨hlt, h⟩ := allocated_eq_ok.mp h
    cases h
    exact hset ((length_newBytes _ _).trans_lt hlt)
  | ofBytes v bytes =>
    obtain ⟨hlt, h⟩ := allocated_eq_ok.mp h
    cases h
    exact hset hlt
  | copy v w =>
    obtain ⟨hlt, h⟩ := allocated_eq_ok.mp h
    obtain ⟨b, hb, h⟩ := bind_eq_ok.mp h
    cases h
    cases (copy_of_fits (hI.fits w)).symm.trans hb
    exact hset ((length_content (hI.fits w)).trans_lt hlt)
  | move v w =>
    cases h
    exact forall_set (P := fun b => b.mem.length < allocLimit) (hset (Nat.two_pow_pos 63))
      (hI.length_lt w)
  | resize v size junk =>
    obtain ⟨hgrown, h⟩ := grown_eq_ok h
    obtain ⟨b, hb, h⟩ := bind_eq_ok.mp h
    cases h
    exact hset (length_lt_of_resize (hI.fits v) (hI.length_lt v) hgrown hb)
  | readConst v index =>
    obtain ⟨_, -, h⟩ := bind_eq_ok.mp h
    obtain ⟨_, -, h⟩ := bind_eq_ok.mp h
    cases h
    exact hI.length_lt
  | read v index junk =>
    obtain ⟨hgrown, h⟩ := grown_eq_ok h
    obtain ⟨b, hb, h⟩ := bind_eq_ok.mp h
    obtain ⟨_, -, h⟩ := bind_eq_ok.mp h
    cases h
    exact hset (length_lt_of_index (hI.fits v) (hI.length_lt v) hgrown hb)
  | write v index value junk =>
    obtain ⟨hgrown, h⟩ := grown_eq_ok h
    obtain ⟨b, hb, h⟩ := bind_eq_ok.mp h
    obtain ⟨b', hb', h⟩ := bind_eq_ok.mp h
    cases h
    refine hset ?_
    rw [length_of_write hb']
    exact length_lt_of_index (hI.fits v) (hI.length_lt v) hgrown hb
  | fill v buf offset =>
    obtain ⟨⟨b, n⟩, hb, h⟩ := bind_eq_ok.mp h
    cases h
    refine hset ?_
    rw [length_of_fill hb]
    exact hI.length_lt v

theorem step_inv (hI : s.Inv) (hlaw : s.Law op) {s' : Buffers} (h : s.step op = some s') :
    s'.Inv := by
  rw [step] at h
  split at h
  · next happly =>
    cases h
    exact ⟨hlaw.fits _ happly, length_lt_of_apply hI happly⟩
  · cases h
    exact hI
  · cases h

theorem init_inv : init.Inv := ⟨fun _ => empty_fits, fun _ => Nat.two_pow_pos 63⟩

end BufferLemmas

open BufferLemmas Transition

/-- In a run each operation obeys the law, exactly when each is within what the
buffers hold by then. -/
theorem bufferLaw_iff (ops : List BufferOp) :
    AllSteps step Law init ops ↔ AllSteps step Within init ops :=
  allSteps_congr_of_keeps (fun _ _ _ hI hlaw h => step_inv hI hlaw h) (fun _ op hI => law_iff hI op)
    init_inv

/-- An empty buffer that is resized to one byte has no byte. -/
theorem bufferLaw_resize_empty : ¬ ∀ ops, AllSteps step Law init ops := by
  intro hall
  have hlaw := (hall [.resize 0 1 fun _ => 0]).1
  exact absurd (hlaw.fits _ rfl 0) (by decide)

end Buffers

end NetTraverse
