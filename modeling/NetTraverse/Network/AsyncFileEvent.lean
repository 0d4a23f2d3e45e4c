import Mathlib.Data.BitVec
import NetTraverse.Coroutine.Scheduler

/-!
# `async_file_event`

The event object of `epoll.hpp` with its two waiter slots, and the loops of its
asynchronous operations and of those that `socket.hpp` adds. An operation makes
one system call after another; what happens between two calls is a function of
the result (`AsyncOp.after`), and so is what the operation does to the event
when it has to wait (`park`) and when it is resumed (`resume`).
-/

namespace NetTraverse

abbrev Fd := Int

/-- The direction in which an operation waits. -/
inductive Dir where
  | read
  | write
deriving DecidableEq, Repr

/-- `CAN_READ` and `CAN_WRITE`. -/
def Dir.flag : Dir → BitVec 32
  | .read => 0x1
  | .write => 0x2

/-- `EPOLLIN` and `EPOLLOUT`. -/
def epollIn : BitVec 32 := 0x1
def epollOut : BitVec 32 := 0x4

structure AsyncFileEvent where
  fd : Fd
  event : BitVec 32
  waited : BitVec 32
  waitedMask : BitVec 32
  coRead : CoPtr
  coWrite : CoPtr
  coWait : CoPtr
deriving DecidableEq, Repr

namespace AsyncFileEvent

/-- The constructor; the registration with the pool is a step of the pool. -/
def new (fd : Fd) : AsyncFileEvent where
  fd := fd
  event := 0
  waited := 0
  waitedMask := 0
  coRead := none
  coWrite := none
  coWait := none

variable (ev : AsyncFileEvent)

/-- `co_read` or `co_write`. -/
def slot : Dir → CoPtr
  | .read => ev.coRead
  | .write => ev.coWrite

def setSlot (d : Dir) (co : CoPtr) : AsyncFileEvent :=
  match d with
  | .read => { ev with coRead := co }
  | .write => { ev with coWrite := co }

/-- The bit of `d` is set in `waited_`. -/
def waits (d : Dir) : Prop := ev.waited &&& d.flag ≠ 0

instance (d : Dir) : Decidable (ev.waits d) := inferInstanceAs (Decidable (_ ≠ _))

/-- `waited_ |= CAN_X; co_yield(&co_x)`, by the coroutine `c`. -/
def park (d : Dir) (c : CoId) : AsyncFileEvent :=
  ({ ev with waited := ev.waited ||| d.flag }).setSlot d (some c)

/-- After `co_yield` returned: `co_x = NULL` where the operation has that
statement, then `waited_ &= ~CAN_X`. -/
def resume (d : Dir) (clearsSlot : Bool) : AsyncFileEvent :=
  let ev := if clearsSlot then ev.setSlot d none else ev
  { ev with waited := ev.waited &&& ~~~d.flag }

/-- `trigger`: the event afterwards, and the pointers it posts, in order. -/
def trigger (event : BitVec 32) : AsyncFileEvent × List CoPtr :=
  let ev := { ev with event := ev.event ||| event }
  (ev,
    (if ev.waited &&& ev.event &&& Dir.write.flag ≠ 0 then [ev.coWrite] else []) ++
    (if ev.waited &&& ev.event &&& Dir.read.flag ≠ 0 then [ev.coRead] else []) ++
    (if ev.waitedMask &&& ev.event ≠ 0 then [ev.coWait] else []))

end AsyncFileEvent

/-- What `poll_forever` makes of the events of the kernel. The two tests are
written with `|`, so both succeed whatever the kernel reported. -/
def polledEvent (events : BitVec 32) : BitVec 32 :=
  (if events ||| epollIn ≠ 0 then Dir.read.flag else 0) |||
    (if events ||| epollOut ≠ 0 then Dir.write.flag else 0)

/-! ## Operations -/

/-- The operations that wait on an event. -/
inductive OpKind where
  | asyncReadSome
  | asyncWriteSome
  | asyncRead
  | asyncWrite
  | asyncSendTo
  | asyncReadFrom
  | accept
  | connect
deriving DecidableEq, Repr

/-- The direction of the system call, and of the wait. -/
def OpKind.dir : OpKind → Dir
  | .asyncReadSome | .asyncRead | .asyncReadFrom | .accept => .read
  | .asyncWriteSome | .asyncWrite | .asyncSendTo | .connect => .write

/-- Whether the operation resets the slot after `co_yield`: those of
`async_file_event` do, those of `socket.hpp` do not. -/
def OpKind.clearsSlot : OpKind → Bool
  | .asyncReadSome | .asyncWriteSome | .asyncRead | .asyncWrite => true
  | .asyncSendTo | .asyncReadFrom | .accept | .connect => false

/-- The result of a system call: a count, `-1` with `EAGAIN` (for `connect`,
`EINPROGRESS`), `-1` with another error. -/
inductive SysResult where
  | ok (n : Nat)
  | again
  | error
deriving DecidableEq, Repr

/-- What an operation does next: call the kernel again with a new offset, wait,
return, or throw. -/
inductive Next where
  | call (offset : Nat)
  | park
  | ret (value : Int)
  | throw
deriving DecidableEq, Repr

/-- The loop body of `async_read_some` and `async_write_some`; on 0 it calls
again at once. -/
def someLoop (offset : Nat) : SysResult → Next
  | .ok n => if 0 < n then .ret n else .call offset
  | .again => .park
  | .error => .ret (-1)

/-- The loop body of `async_read` and `async_write`. The test for completion
comes before the test for an error. -/
def fullLoop (count offset : Nat) : SysResult → Next
  | .ok n => if offset + n = count then .ret (offset + n : Nat) else .call (offset + n)
  | .again => if offset = count then .ret offset else .park
  | .error => if offset = count then .ret offset else .ret (-1)

/-- The loop body of `async_send_to` and `async_read_from`: a short count is
returned as well. -/
def datagramLoop : SysResult → Next
  | .ok n => .ret n
  | .again => .park
  | .error => .ret (-1)

/-- The loop body of `tcp_socket::accept`. -/
def acceptLoop : SysResult → Next
  | .ok fd => .ret fd
  | .again => .park
  | .error => .throw

/-- `tcp_socket::connect`: `ret` receives the value of the comparison
`::connect(..) < 0`, so the test `ret < 0` fails and nothing ever waits. -/
def connectLoop : SysResult → Next
  | _ => .ret (-1)

/-- An operation in progress. -/
structure AsyncOp where
  kind : OpKind
  count : Nat
  offset : Nat
deriving DecidableEq, Repr

def AsyncOp.after (op : AsyncOp) : SysResult → Next :=
  match op.kind with
  | .asyncReadSome | .asyncWriteSome => someLoop op.offset
  | .asyncRead | .asyncWrite => fullLoop op.count op.offset
  | .asyncSendTo | .asyncReadFrom => datagramLoop
  | .accept => acceptLoop
  | .connect => connectLoop

/-- An operation waits only after a call that would have blocked. -/
theorem AsyncOp.again_of_park {op : AsyncOp} {r : SysResult} (h : op.after r = .park) :
    r = .again := by
  obtain ⟨kind, count, offset⟩ := op
  cases r with
  | again => rfl
  | ok n =>
    cases kind <;> simp only [after, someLoop, fullLoop, datagramLoop, acceptLoop, connectLoop] at h
    all_goals first | cases h | (split at h <;> cases h)
  | error =>
    cases kind <;> simp only [after, someLoop, fullLoop, datagramLoop, acceptLoop, connectLoop] at h
    all_goals first | cases h | (split at h <;> cases h)

/-! ## Bits and slots -/

namespace AsyncFileEvent

variable {ev : AsyncFileEvent} {d d' : Dir} {c : CoId}

theorem and_flag_ne_zero (w : BitVec 32) (d : Dir) :
    w &&& d.flag ≠ 0 ↔ w.getLsbD (match d with | .read => 0 | .write => 1) = true := by
  cases d with
  | read =>
    have h : Dir.read.flag = BitVec.twoPow 32 0 := rfl
    rw [h, BitVec.and_twoPow]
    split
    · simp_all; decide
    · simp_all
  | write =>
    have h : Dir.write.flag = BitVec.twoPow 32 1 := rfl
    rw [h, BitVec.and_twoPow]
    split
    · simp_all; decide
    · simp_all

theorem or_flag_ne_zero (w : BitVec 32) (d d' : Dir) :
    (w ||| d.flag) &&& d'.flag ≠ 0 ↔ d' = d ∨ w &&& d'.flag ≠ 0 := by
  rw [and_flag_ne_zero, and_flag_ne_zero, BitVec.getLsbD_or, Bool.or_eq_true, or_comm]
  cases d <;> cases d' <;> simp [Dir.flag]

theorem andNot_flag_ne_zero (w : BitVec 32) (d d' : Dir) :
    (w &&& ~~~d.flag) &&& d'.flag ≠ 0 ↔ d' ≠ d ∧ w &&& d'.flag ≠ 0 := by
  rw [and_flag_ne_zero, and_flag_ne_zero, BitVec.getLsbD_and, Bool.and_eq_true, and_comm]
  cases d <;> cases d' <;> simp [Dir.flag]

@[simp] theorem slot_setSlot (p : CoPtr) :
    (ev.setSlot d p).slot d' = if d' = d then p else ev.slot d' := by
  cases d <;> cases d' <;> rfl

@[simp] theorem waited_setSlot (p : CoPtr) : (ev.setSlot d p).waited = ev.waited := by
  cases d <;> rfl

@[simp] theorem fd_setSlot (p : CoPtr) : (ev.setSlot d p).fd = ev.fd := by
  cases d <;> rfl

@[simp] theorem coWait_setSlot (p : CoPtr) : (ev.setSlot d p).coWait = ev.coWait := by
  cases d <;> rfl

@[simp] theorem waitedMask_setSlot (p : CoPtr) :
    (ev.setSlot d p).waitedMask = ev.waitedMask := by
  cases d <;> rfl

@[simp] theorem park_fd : (ev.park d c).fd = ev.fd := by simp [park]

@[simp] theorem park_slot : (ev.park d c).slot d' = if d' = d then some c else ev.slot d' := by
  rw [park, slot_setSlot]
  cases d' <;> rfl

@[simp] theorem park_waits : (ev.park d c).waits d' ↔ d' = d ∨ ev.waits d' := by
  simp only [waits, park, waited_setSlot]
  exact or_flag_ne_zero ev.waited d d'

@[simp] theorem park_coWait : (ev.park d c).coWait = ev.coWait := by simp [park]

@[simp] theorem park_waitedMask : (ev.park d c).waitedMask = ev.waitedMask := by simp [park]

@[simp] theorem resume_fd (b : Bool) : (ev.resume d b).fd = ev.fd := by
  cases b <;> simp [resume]

@[simp] theorem resume_waits (b : Bool) : (ev.resume d b).waits d' ↔ d' ≠ d ∧ ev.waits d' := by
  have h : (ev.resume d b).waited = ev.waited &&& ~~~d.flag := by
    cases b <;> simp [resume]
  simp only [waits, h]
  exact andNot_flag_ne_zero ev.waited d d'

/-- The slot of the other direction is left alone. -/
theorem resume_slot_of_ne (b : Bool) (h : d' ≠ d) : (ev.resume d b).slot d' = ev.slot d' := by
  cases b <;> cases d <;> cases d' <;> first | rfl | exact absurd rfl h

@[simp] theorem resume_coWait (b : Bool) : (ev.resume d b).coWait = ev.coWait := by
  cases b <;> simp [resume]

@[simp] theorem resume_waitedMask (b : Bool) : (ev.resume d b).waitedMask = ev.waitedMask := by
  cases b <;> simp [resume]

end AsyncFileEvent

/-- Both tests of `poll_forever` are true of every set of events. -/
theorem polledEvent_eq (events : BitVec 32) :
    polledEvent events = Dir.read.flag ||| Dir.write.flag := by
  have hin : events ||| epollIn ≠ 0 := fun h => by
    have := (BitVec.or_eq_zero_iff.mp h).2
    revert this
    decide
  have hout : events ||| epollOut ≠ 0 := fun h => by
    have := (BitVec.or_eq_zero_iff.mp h).2
    revert this
    decide
  rw [polledEvent, if_pos hin, if_pos hout]

namespace AsyncFileEvent

variable {ev : AsyncFileEvent} {d : Dir}

@[simp] theorem trigger_fd (event : BitVec 32) : (ev.trigger event).1.fd = ev.fd := rfl
@[simp] theorem trigger_slot (event : BitVec 32) :
    (ev.trigger event).1.slot d = ev.slot d := by cases d <;> rfl
@[simp] theorem trigger_waits (event : BitVec 32) :
    (ev.trigger event).1.waits d ↔ ev.waits d := Iff.rfl
@[simp] theorem trigger_coWait (event : BitVec 32) :
    (ev.trigger event).1.coWait = ev.coWait := rfl
@[simp] theorem trigger_waitedMask (event : BitVec 32) :
    (ev.trigger event).1.waitedMask = ev.waitedMask := rfl

/-- After one call from `poll_forever`, `event_` has both flags. -/
theorem polled_test (events : BitVec 32) (d : Dir) :
    ev.waited &&& (ev.event ||| polledEvent events) &&& d.flag ≠ 0 ↔ ev.waits d := by
  have hflag : (ev.event ||| polledEvent events) &&& d.flag = d.flag := by
    have hpolled : polledEvent events &&& d.flag = d.flag := by
      rw [polledEvent_eq]
      cases d <;> decide
    rw [BitVec.and_or_distrib_right, hpolled]
    ext i hi
    rw [BitVec.getElem_or, BitVec.getElem_and]
    cases d.flag[i] <;> simp
  rw [BitVec.and_assoc, hflag]
  exact Iff.rfl

/-- `trigger`, as `poll_forever` calls it, posts the slot of each direction
whose bit is set, and the slot of `async_wait` if its mask asks for it. -/
theorem trigger_polled (events : BitVec 32) :
    (ev.trigger (polledEvent events)).2 =
      (if ev.waits .write then [ev.coWrite] else []) ++
      (if ev.waits .read then [ev.coRead] else []) ++
      (if ev.waitedMask &&& (ev.event ||| polledEvent events) ≠ 0 then [ev.coWait] else []) := by
  simp only [trigger, polled_test]

end AsyncFileEvent

end NetTraverse
