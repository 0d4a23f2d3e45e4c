import NetTraverse.Lib.Region
import NetTraverse.Network.AsyncFileEvent

/-!
# Transfers

The loops of `async_read_some`, `async_read` and `async_write` with the bytes that
they move. A schedule lists what the kernel says to one call after another;
`EAGAIN` stands for the wait as well, up to the resumption. A schedule may run
out, and the operation is then still in its loop.
-/

namespace NetTraverse

open Region

/-- A value returned as an `int`. -/
def asInt (v : Int) : Int := (BitVec.ofInt 32 v).toInt

namespace SysResult

/-- A call moves at most what it was asked to. -/
def within (request : Nat) : SysResult → SysResult
  | .ok n => .ok (min n request)
  | .again => .again
  | .error => .error

/-- The bytes that a call moves. -/
def moved : SysResult → Nat
  | .ok n => n
  | .again | .error => 0

/-- The operations that move some bytes and return do so after this result. -/
def ends : SysResult → Bool
  | .ok n => 0 < n
  | .again => false
  | .error => true

@[simp] theorem within_ok (request n : Nat) : within request (.ok n) = .ok (min n request) := rfl
@[simp] theorem within_again (request : Nat) : within request .again = .again := rfl
@[simp] theorem within_error (request : Nat) : within request .error = .error := rfl
@[simp] theorem moved_ok (n : Nat) : moved (.ok n) = n := rfl
@[simp] theorem moved_again : moved .again = 0 := rfl
@[simp] theorem moved_error : moved .error = 0 := rfl

end SysResult

/-- What the calls of an operation act on: `move k offset n` is what they leave
when one that starts at `offset` moves `n` bytes. -/
structure Medium (κ : Type*) where
  move : κ → Nat → Nat → κ
  move_zero : ∀ k offset, move k offset 0 = k
  move_move : ∀ k offset m n, move (move k offset m) (offset + m) n = move k offset (m + n)

/-- An operation with the loop body `body`, which asks for `request offset` bytes
at `offset`: the value that it returns, and what it leaves. -/
def Medium.drive {κ : Type*} (io : Medium κ) (body : Nat → SysResult → Next)
    (request : Nat → Nat) : List SysResult → Nat → κ → Option (Int × κ)
  | [], _, _ => none
  | r :: schedule, offset, k =>
    let r := r.within (request offset)
    let k := io.move k offset r.moved
    match body offset r with
    | .call offset => io.drive body request schedule offset k
    | .park => io.drive body request schedule offset k
    | .ret v => some (asInt v, k)
    | .throw => none

/-- The buffer of a read, and what is to come from the peer. -/
structure Reader where
  buf : Stream' UInt8
  stream : Stream' UInt8

/-- The buffer of a write, and what the kernel has accepted. -/
structure Writer where
  buf : Stream' UInt8
  accepted : List UInt8

/-- `read` stores what it takes off the stream. -/
def Reader.medium : Medium Reader where
  move r offset n := ⟨store r.buf offset (r.stream.take n), r.stream.drop n⟩
  move_zero r offset := by simp
  move_move r offset m n := by
    have h := store_store r.buf offset (r.stream.take m) ((r.stream.drop m).take n)
    rw [Stream'.length_take] at h
    simp only [h, take_add, Stream'.drop_drop]

/-- `write` -/
def Writer.medium : Medium Writer where
  move w offset n := { w with accepted := w.accepted ++ (w.buf.drop offset).take n }
  move_zero w offset := by simp
  move_move w offset m n := by
    simp only [List.append_assoc, take_add, Stream'.drop_drop]

variable (count : Nat) (schedule : List SysResult)

def Reader.asyncReadSome (r : Reader) : Option (Int × Reader) :=
  Reader.medium.drive someLoop (fun _ => count) schedule 0 r

def Reader.asyncRead (r : Reader) : Option (Int × Reader) :=
  Reader.medium.drive (fullLoop count) (count - ·) schedule 0 r

def Writer.asyncWrite (w : Writer) : Option (Int × Writer) :=
  Writer.medium.drive (fullLoop count) (count - ·) schedule 0 w

/-! ## What a schedule allows -/

/-- The bytes that the calls would move, had they asked for enough. -/
def offered : Nat := (schedule.map SysResult.moved).sum

/-- The results up to the first error. -/
def beforeError : List SysResult := schedule.takeWhile (· ≠ .error)

/-- The value that a transfer of `count` bytes returns, and how much it has moved
by then. -/
def outcome : Option (Int × Nat) :=
  if count ≤ offered (beforeError schedule) then some (count, count)
  else if .error ∈ schedule then some (-1, offered (beforeError schedule))
  else none

/-- The operation returns when every call after the schedule finds the end of the
stream. -/
def ReturnsAtEnd {α : Type*} (op : List SysResult → Option α) : Prop :=
  ∃ n, (op (schedule ++ List.replicate n (.ok 0))).isSome

variable {count schedule}

namespace TransferLemmas

theorem asInt_of_lt (h : count < 2 ^ 31) : asInt count = count := by
  unfold asInt
  rw [BitVec.toInt_ofInt, Int.bmod_eq_of_le_mul_two] <;> omega

theorem asInt_neg_one : asInt (-1) = -1 := by decide

@[simp] theorem offered_nil : offered [] = 0 := rfl

@[simp] theorem offered_cons (r : SysResult) :
    offered (r :: schedule) = r.moved + offered schedule := by
  simp [offered]

@[simp] theorem beforeError_ok (n : Nat) :
    beforeError (.ok n :: schedule) = .ok n :: beforeError schedule := by
  simp [beforeError]

@[simp] theorem beforeError_again :
    beforeError (.again :: schedule) = .again :: beforeError schedule := by
  simp [beforeError]

@[simp] theorem beforeError_error : beforeError (.error :: schedule) = [] := by
  simp [beforeError]

theorem beforeError_of_notMem (h : .error ∉ schedule) : beforeError schedule = schedule :=
  List.takeWhile_eq_self_iff.mpr fun r hr => by
    simpa using fun heq : r = .error => h (heq ▸ hr)

variable {κ : Type*} {io : Medium κ} {k : κ} {offset : Nat}

/-- The loop of `async_read` and `async_write` from any offset: the bytes up to
the offset have been moved, in order. -/
theorem drive_fullLoop (h : offset < count) :
    io.drive (fullLoop count) (count - ·) schedule offset (io.move k 0 offset) =
      if count ≤ offset + offered (beforeError schedule) then
        some (asInt count, io.move k 0 count)
      else if .error ∈ schedule then
        some (asInt (-1), io.move k 0 (offset + offered (beforeError schedule)))
      else none := by
  induction schedule generalizing offset with
  | nil => simp [Medium.drive, beforeError, h]
  | cons r schedule ih =>
    cases r with
    | again =>
      have hstep : fullLoop count offset .again = .park := if_neg h.ne
      simp only [Medium.drive, SysResult.within_again, SysResult.moved_again, hstep, io.move_zero,
        ih h]
      simp
    | error =>
      have hstep : fullLoop count offset .error = .ret (-1) := if_neg h.ne
      simp [Medium.drive, hstep, io.move_zero, h]
    | ok n =>
      simp only [Medium.drive, SysResult.within_ok, SysResult.moved_ok, fullLoop, beforeError_ok,
        offered_cons]
      have hmove : io.move (io.move k 0 offset) offset (min n (count - offset)) =
          io.move k 0 (offset + min n (count - offset)) := by
        have := io.move_move k 0 offset (min n (count - offset))
        rwa [Nat.zero_add] at this
      rw [hmove]
      by_cases hfull : offset + min n (count - offset) = count
      · have hle : count ≤ offset + (n + offered (beforeError schedule)) := by omega
        simp only [hfull, if_true, if_pos hle]
      · -- the call asked for more than it got
        have hmin : min n (count - offset) = n := by omega
        have hlt : offset + n < count := by omega
        rw [hmin] at hfull ⊢
        rw [if_neg hfull]
        simp only [ih hlt, Nat.add_assoc]
        simp

theorem drive_fullLoop_zero (hpos : 0 < count) (hcount : count < 2 ^ 31) :
    io.drive (fullLoop count) (count - ·) schedule 0 k =
      (outcome count schedule).map fun (v, n) => (v, io.move k 0 n) := by
  have h := @drive_fullLoop count schedule κ io k 0 hpos
  rw [io.move_zero, Nat.zero_add, asInt_of_lt hcount, asInt_neg_one] at h
  rw [h, outcome]
  split
  · rfl
  · split <;> rfl

/-- The loop of `async_read_some` and `async_write_some` skips what does not end
it. -/
theorem drive_someLoop (hpos : 0 < count) :
    io.drive someLoop (fun _ => count) schedule 0 k =
      (schedule.find? SysResult.ends).map fun r =>
        (asInt (if r = .error then -1 else min r.moved count),
          io.move k 0 (min r.moved count)) := by
  induction schedule with
  | nil => rfl
  | cons r schedule ih =>
    cases r with
    | again =>
      rw [List.find?_cons_of_neg (by simp [SysResult.ends]), ← ih]
      simp [Medium.drive, someLoop, io.move_zero]
    | error => simp [Medium.drive, someLoop, SysResult.ends]
    | ok n =>
      rcases Nat.eq_zero_or_pos n with rfl | hn
      · rw [List.find?_cons_of_neg (by simp [SysResult.ends]), ← ih]
        simp [Medium.drive, someLoop, io.move_zero]
      · have hmin : 0 < min n count := Nat.lt_min.mpr ⟨hn, hpos⟩
        simp [Medium.drive, someLoop, SysResult.ends, hmin, hn]

theorem take_front (s : Stream' UInt8) {n : Nat} (h : n ≤ count) : s.take n <+: s.take count := by
  have hcut : s.take n = (s.take count).take n := by
    rw [Stream'.take_take, Nat.min_eq_right h]
  rw [hcut]
  exact List.take_prefix n _

theorem error_notMem_append (herr : .error ∉ schedule) (n : Nat) :
    .error ∉ schedule ++ List.replicate n (.ok 0) := by
  simp [herr]

theorem offered_append (n : Nat) :
    offered (schedule ++ List.replicate n (.ok 0)) = offered schedule := by
  simp [offered]

/-- `async_read` does not see the end of the stream. -/
theorem asyncRead_returnsAtEnd_iff (hpos : 0 < count) (herr : .error ∉ schedule) (r : Reader) :
    ReturnsAtEnd schedule (r.asyncRead count) ↔ count ≤ offered schedule := by
  have hrun : ∀ n, (r.asyncRead count (schedule ++ List.replicate n (.ok 0))).isSome ↔
      count ≤ offered schedule := by
    intro n
    have herr' := error_notMem_append herr n
    have h := @drive_fullLoop count (schedule ++ List.replicate n (.ok 0)) _ Reader.medium r 0 hpos
    rw [Reader.medium.move_zero, beforeError_of_notMem herr', offered_append, Nat.zero_add] at h
    rw [Reader.asyncRead, h, if_neg herr']
    split <;> simp_all
  exact ⟨fun ⟨n, hn⟩ => (hrun n).mp hn, fun h => ⟨0, (hrun 0).mpr h⟩⟩

/-- `async_read_some` returns if one of the calls before the end finds something. -/
theorem asyncReadSome_returnsAtEnd_iff (hpos : 0 < count) (herr : .error ∉ schedule)
    (r : Reader) : ReturnsAtEnd schedule (r.asyncReadSome count) ↔ 0 < offered schedule := by
  have hends : (∃ r ∈ schedule, r.ends) ↔ 0 < offered schedule := by
    unfold offered
    rw [List.sum_pos_iff_exists_pos_nat]
    simp only [List.mem_map, exists_exists_and_eq_and]
    refine exists_congr fun r => and_congr_right fun hr => ?_
    cases r with
    | ok n => simp [SysResult.ends]
    | again => simp [SysResult.ends]
    | error => exact absurd hr herr
  have hrun : ∀ n, (r.asyncReadSome count (schedule ++ List.replicate n (.ok 0))).isSome ↔
      0 < offered schedule := by
    intro n
    rw [Reader.asyncReadSome, drive_someLoop hpos, Option.isSome_map, List.find?_isSome, ← hends]
    simp [or_and_right, exists_or, SysResult.ends]
  exact ⟨fun ⟨n, hn⟩ => (hrun n).mp hn, fun h => ⟨0, (hrun 0).mpr h⟩⟩

end TransferLemmas

open TransferLemmas

/-- `async_write` and `async_read` move the `count` bytes, in order and nothing
else, however the kernel cuts them. If an error comes first they return `-1`, with
the first of the bytes moved; if the schedule ends first they are in their loop. -/
theorem async_transfers {count : Nat} (hpos : 1 ≤ count) (hcount : count < 2 ^ 31)
    (schedule : List SysResult) (w : Writer) (r : Reader) {n : Nat}
    (hn : offered (beforeError schedule) = n) :
    (count ≤ n →
      w.asyncWrite count schedule =
        some ((count : Int), { w with accepted := w.accepted ++ w.buf.take count }) ∧
      r.asyncRead count schedule =
        some ((count : Int), ⟨store r.buf 0 (r.stream.take count), r.stream.drop count⟩)) ∧
    (n < count → .error ∈ schedule →
      w.asyncWrite count schedule =
        some (-1, { w with accepted := w.accepted ++ w.buf.take n }) ∧
      w.buf.take n <+: w.buf.take count ∧
      r.asyncRead count schedule =
        some (-1, ⟨store r.buf 0 (r.stream.take n), r.stream.drop n⟩) ∧
      r.stream.take n <+: r.stream.take count) ∧
    (n < count → .error ∉ schedule →
      w.asyncWrite count schedule = none ∧ r.asyncRead count schedule = none) := by
  have hwrite := @drive_fullLoop_zero count schedule _ Writer.medium w hpos hcount
  have hread := @drive_fullLoop_zero count schedule _ Reader.medium r hpos hcount
  rw [← Writer.asyncWrite] at hwrite
  rw [← Reader.asyncRead] at hread
  rw [hwrite, hread, outcome, hn]
  refine ⟨fun hle => ?_, fun hlt herr => ?_, fun hlt herr => ?_⟩
  · rw [if_pos hle]
    exact ⟨rfl, rfl⟩
  · rw [if_neg (Nat.not_le.mpr hlt), if_pos herr]
    exact ⟨rfl, take_front w.buf hlt.le, rfl, take_front r.stream hlt.le⟩
  · rw [if_neg (Nat.not_le.mpr hlt), if_neg herr]
    exact ⟨rfl, rfl⟩

theorem async_transfers_demo :
    (⟨fun i => i.toUInt8, []⟩ : Writer).asyncWrite 3 [.ok 2, .again, .ok 5] =
      some (3, ⟨fun i => i.toUInt8, [0, 1, 2]⟩) :=
  ((async_transfers (by decide) (by decide) [.ok 2, .again, .ok 5]
    ⟨fun i => i.toUInt8, []⟩ ⟨fun _ => 0, fun _ => 0⟩ rfl).1 (by decide)).1

/-- Reads return at the end of the stream only with what they wanted before it:
all of the bytes for `async_read`, one byte for `async_read_some`. -/
theorem returnsAtEnd_iff {count : Nat} (hpos : 0 < count) {schedule : List SysResult}
    (herr : .error ∉ schedule) (r : Reader) :
    (ReturnsAtEnd schedule (r.asyncRead count) ↔ count ≤ offered schedule) ∧
      (ReturnsAtEnd schedule (r.asyncReadSome count) ↔ 0 < offered schedule) :=
  ⟨asyncRead_returnsAtEnd_iff hpos herr r, asyncReadSome_returnsAtEnd_iff hpos herr r⟩

theorem returnsAtEnd_iff_demo :
    ReturnsAtEnd [.again, .ok 1] ((⟨fun _ => 0, fun _ => 7⟩ : Reader).asyncReadSome 4) :=
  (returnsAtEnd_iff (by decide) (by decide) _).2.mpr (by decide)

/-- The peer closes the connection after one byte of two. -/
theorem returnsAtEnd_closed :
    ¬ ∀ count, 0 < count → ∀ schedule, .error ∉ schedule → ∀ r : Reader,
      ReturnsAtEnd schedule (r.asyncRead count) ∧
        ReturnsAtEnd schedule (r.asyncReadSome count) := by
  intro hall
  have hread := (hall 2 (by decide) [.ok 1] (by decide) ⟨fun _ => 0, fun _ => 7⟩).1
  rw [asyncRead_returnsAtEnd_iff (by decide) (by decide)] at hread
  exact absurd hread (by decide)

end NetTraverse
