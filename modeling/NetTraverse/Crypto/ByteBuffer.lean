import Mathlib

/-!
# `byte_buffer`

A buffer is its allocation and the size that it reports; nothing ties the two
together. An access outside the allocation is a fault, as is an exception that
nobody catches. The bytes of a fresh allocation are arbitrary and are passed as
`junk`.
-/

namespace NetTraverse

/-- How a call can go wrong. -/
inductive Fault where
  /-- A byte outside an allocation is read or written. -/
  | outOfBounds
  /-- An exception is thrown. -/
  | exception
deriving DecidableEq, Repr

namespace FaultLemmas

theorem bind_ok {α β : Type} {x : Except Fault α} {a : α} (h : x = .ok a)
    (f : α → Except Fault β) : (x >>= f) = f a := by
  rw [h]
  rfl

theorem bind_error {α β : Type} {x : Except Fault α} {e : Fault} (h : x = .error e)
    (f : α → Except Fault β) : (x >>= f) = .error e := by
  rw [h]
  rfl

theorem bind_eq_ok {α β : Type} {x : Except Fault α} {f : α → Except Fault β} {r : β} :
    (x >>= f) = .ok r ↔ ∃ a, x = .ok a ∧ f a = .ok r := by
  cases x with
  | error e => exact ⟨nofun, nofun⟩
  | ok a => exact ⟨fun h => ⟨a, rfl, h⟩, fun ⟨_, ha, h⟩ => by cases ha; exact h⟩

end FaultLemmas

/-- The content of `new std::uint8_t[n]`. -/
def newBytes (junk : Nat → UInt8) (n : Nat) : List UInt8 := (List.range n).map junk

@[simp] theorem length_newBytes (junk : Nat → UInt8) (n : Nat) :
    (newBytes junk n).length = n := by
  simp [newBytes]

/-- The conversion of an `int` to `std::size_t`. -/
def sizeT (n : Int) : Nat := (n % 2 ^ 64).toNat

structure ByteBuffer where
  /-- The allocation behind `ptr_`. -/
  mem : List UInt8
  /-- `size_` -/
  size : Nat
deriving DecidableEq, Repr

namespace ByteBuffer

/-- `byte_buffer(std::size_t)`. -/
def ofSize (junk : Nat → UInt8) (size : Nat) : ByteBuffer := ⟨newBytes junk size, size⟩

/-- `byte_buffer(const void *, std::size_t)`, on `len` bytes. -/
def ofBytes (bytes : List UInt8) : ByteBuffer := ⟨bytes, bytes.length⟩

/-- `byte_buffer()`. -/
def empty : ByteBuffer := ⟨[], 0⟩

variable (b : ByteBuffer)

/-- The move constructor: the new buffer, and what is left of the old one. -/
def move : ByteBuffer × ByteBuffer := (b, empty)

/-- Read `len` bytes from `ptr_ + off`. -/
def read (off len : Nat) : Except Fault (List UInt8) :=
  if off + len ≤ b.mem.length then .ok ((b.mem.drop off).take len) else .error .outOfBounds

/-- Write bytes at `ptr_ + off`. -/
def write (off : Nat) (bytes : List UInt8) : Except Fault ByteBuffer :=
  if off + bytes.length ≤ b.mem.length then
    .ok { b with mem := b.mem.take off ++ bytes ++ b.mem.drop (off + bytes.length) }
  else .error .outOfBounds

/-- The copy constructor. -/
def copy : Except Fault ByteBuffer := do
  let bytes ← b.read 0 b.size
  .ok (ofBytes bytes)

/-- The allocation of `size_ * 2` bytes in `operator[]` and `resize`, with the
old content at its front. -/
def grow (junk : Nat → UInt8) : Except Fault (List UInt8) := do
  let bytes ← b.read 0 b.size
  .ok (bytes ++ newBytes junk b.size)

/-- The non-const `operator[]`: the buffer afterwards. The reference that it
returns is to `ptr_[index]`. -/
def index (junk : Nat → UInt8) (index : Nat) : Except Fault ByteBuffer :=
  if index > b.size then do
    let mem ← b.grow junk
    .ok { b with mem := mem }
  else .ok b

/-- The const `operator[]`: where the reference that it returns is. -/
def constIndex (index : Nat) : Except Fault Nat :=
  if index > b.size then .error .exception else .ok index

/-- `resize`. -/
def resize (junk : Nat → UInt8) (size : Nat) : Except Fault ByteBuffer :=
  if size > b.size then do
    let mem ← b.grow junk
    .ok ⟨mem, size⟩
  else .ok { b with size := size }

/-- `fill`, from the `buf.length` bytes behind `buf`: the buffer afterwards and
the value returned. To copy nothing accesses nothing. -/
def fill (buf : List UInt8) (offset : Nat) : Except Fault (ByteBuffer × Nat) :=
  let toCopy := sizeT ((b.size : Int) - offset)
  let toCopy := if toCopy > buf.length then buf.length else toCopy
  if toCopy = 0 then .ok (b, 0)
  else do
    let b ← b.write offset (buf.take toCopy)
    .ok (b, toCopy)

/-- The `size()` bytes of the buffer. -/
def content : List UInt8 := b.mem.take b.size

/-- The allocation holds what the buffer reports. -/
def Fits : Prop := b.size ≤ b.mem.length

instance : Decidable b.Fits := inferInstanceAs (Decidable (_ ≤ _))

variable {b}

@[simp] theorem ofBytes_content (bytes : List UInt8) : (ofBytes bytes).content = bytes := by
  simp [ofBytes, content]

theorem ofBytes_fits (bytes : List UInt8) : (ofBytes bytes).Fits := Nat.le_refl _

theorem ofSize_fits (junk : Nat → UInt8) (size : Nat) : (ofSize junk size).Fits := by
  simp [ofSize, Fits]

theorem empty_fits : empty.Fits := Nat.le_refl _

theorem length_content (h : b.Fits) : b.content.length = b.size := by
  rw [content, List.length_take]
  exact Nat.min_eq_left h

theorem read_of_le {off len : Nat} (h : off + len ≤ b.mem.length) :
    b.read off len = .ok ((b.mem.drop off).take len) := if_pos h

theorem read_of_lt {off len : Nat} (h : b.mem.length < off + len) :
    b.read off len = .error .outOfBounds := if_neg (by omega)

theorem write_of_le {off : Nat} {bytes : List UInt8} (h : off + bytes.length ≤ b.mem.length) :
    b.write off bytes =
      .ok { b with mem := b.mem.take off ++ bytes ++ b.mem.drop (off + bytes.length) } :=
  if_pos h

/-- A write right behind the part `pre`. -/
theorem write_after {size off : Nat} {pre rest bytes : List UInt8}
    (hoff : off = pre.length) (hfit : bytes.length ≤ rest.length) :
    write ⟨pre ++ rest, size⟩ off bytes = .ok ⟨pre ++ bytes ++ rest.drop bytes.length, size⟩ := by
  subst hoff
  have hle : pre.length + bytes.length ≤ (pre ++ rest).length := by
    rw [List.length_append]
    omega
  rw [write_of_le hle, List.take_left, List.drop_append,
    List.drop_of_length_le (Nat.le_add_right _ _), List.nil_append, Nat.add_sub_cancel_left]

/-- A write at the front. -/
theorem write_front {size : Nat} {rest bytes : List UInt8} (hfit : bytes.length ≤ rest.length) :
    write ⟨rest, size⟩ 0 bytes = .ok ⟨bytes ++ rest.drop bytes.length, size⟩ := by
  have hle : 0 + bytes.length ≤ rest.length := by omega
  rw [write_of_le hle, List.take_zero, List.nil_append, Nat.zero_add]

theorem read_content (h : b.Fits) : b.read 0 b.size = .ok b.content :=
  read_of_le (by rwa [Nat.zero_add])

theorem grow_of_fits {junk : Nat → UInt8} (h : b.Fits) :
    b.grow junk = .ok (b.content ++ newBytes junk b.size) := by
  rw [grow, read_content h]
  rfl

theorem copy_of_fits (h : b.Fits) : b.copy = .ok (ofBytes b.content) := by
  rw [copy, read_content h]
  rfl

theorem index_of_le {junk : Nat → UInt8} {i : Nat} (h : i ≤ b.size) :
    b.index junk i = .ok b := if_neg (by omega)

theorem index_of_lt {junk : Nat → UInt8} {i : Nat} (hfits : b.Fits) (h : b.size < i) :
    b.index junk i = .ok { b with mem := b.content ++ newBytes junk b.size } := by
  rw [index, if_pos h, grow_of_fits hfits]
  rfl

theorem resize_of_lt {junk : Nat → UInt8} {size : Nat} (hfits : b.Fits) (h : b.size < size) :
    b.resize junk size = .ok ⟨b.content ++ newBytes junk b.size, size⟩ := by
  rw [resize, if_pos h, grow_of_fits hfits]
  rfl

/-- To shrink a buffer keeps the front of its content. -/
theorem resize_of_le {junk : Nat → UInt8} {size : Nat} (h : size ≤ b.size) :
    b.resize junk size = .ok { b with size := size } := if_neg (by omega)

end ByteBuffer

/-- `xor_mess`. -/
def xorMess (buf : ByteBuffer) (length : Nat) : Except Fault ByteBuffer := do
  let bytes ← buf.read 0 length
  buf.write 0 (bytes.map (· ^^^ 0x0f))

/-- What `xor_mess` does to bytes. -/
def xorBytes (bytes : List UInt8) : List UInt8 := bytes.map (· ^^^ 0x0f)

@[simp] theorem length_xorBytes (bytes : List UInt8) :
    (xorBytes bytes).length = bytes.length := by
  simp [xorBytes]

@[simp] theorem xorBytes_xorBytes (bytes : List UInt8) : xorBytes (xorBytes bytes) = bytes := by
  simp [xorBytes, Function.comp_def]

/-- On the whole of a buffer that holds what it reports. -/
theorem xorMess_size {b : ByteBuffer} (h : b.Fits) :
    xorMess b b.size = .ok { b with mem := xorBytes b.content ++ b.mem.drop b.size } := by
  have hlen : (xorBytes b.content).length = b.size := by
    rw [length_xorBytes, ByteBuffer.length_content h]
  have hwrite : b.write 0 (xorBytes b.content) =
      .ok ⟨xorBytes b.content ++ b.mem.drop (xorBytes b.content).length, b.size⟩ :=
    ByteBuffer.write_front (by rwa [hlen])
  rw [hlen] at hwrite
  rw [xorMess, ByteBuffer.read_content h]
  exact hwrite

end NetTraverse
