import Mathlib.Logic.Function.Basic
import NetTraverse.Lib.Transition
import NetTraverse.Network.AsyncFileEvent

/-!
# The event loop

`epoll_event_pool::poll_forever`, run by `main`, and the coroutines that use the
event objects meanwhile. One label is what happens between two points at which
something else can happen: a system call, a `co_yield`, one entry of the batch
that `epoll_wait` returned, an arrival in the kernel. The labels carry what the
program does not decide: which operation a coroutine starts, what the kernel
answers, which descriptors it reports and in which order.

An event object is constructed once and never moved here, so it is kept under
its descriptor in `handleMap`, next to the handler bound to it.
-/

namespace NetTraverse

/-- `maincoro`. -/
def mainId : CoId := 0

/-- `MAX_EVENTS`. -/
def maxEvents : Nat := 10

/-- Where a coroutine is. -/
inductive Pc where
  /-- Created and not yet posted. -/
  | new
  /-- In its own code, outside the operations of an event. -/
  | user
  /-- About to make the system call of an operation. -/
  | call (fd : Fd) (op : AsyncOp)
  /-- After a call that would have blocked, before `co_yield`. -/
  | mustPark (fd : Fd) (op : AsyncOp)
  /-- In the `co_yield` of an operation. -/
  | parked (fd : Fd) (op : AsyncOp)
  /-- In the `co_yield` of `async_wait`. -/
  | waiting (fd : Fd)
deriving DecidableEq, Repr

/-- Where a coroutine is after the system call of an operation. -/
def AsyncOp.pcAfter (op : AsyncOp) (fd : Fd) (r : SysResult) : Pc :=
  match op.after r with
  | .call offset => .call fd { op with offset := offset }
  | .park => .mustPark fd op
  | .ret _ | .throw => .user

/-- The descriptor on which a coroutine waits. -/
def Pc.waitsOn : Pc → Option Fd
  | .parked fd _ | .waiting fd => some fd
  | _ => none

/-- Where `main` is: before `poll_forever`, in its loop over `co_num_ready`, or
in its loop over the rest of a batch of (descriptor, events). -/
inductive Phase where
  | setup
  | drain
  | batch (rest : List (Fd × BitVec 32))
deriving DecidableEq, Repr

/-- The descriptors of the current batch that are not yet dispatched. -/
def Phase.undispatched : Phase → List Fd
  | .batch rest => rest.map Prod.fst
  | _ => []

structure EventLoop where
  sched : Sched
  phase : Phase
  pcs : CoId → Option Pc
  handleMap : Fd → Option AsyncFileEvent
  /-- Data to read, or room to write. -/
  ready : Fd → Dir → Bool
  /-- The ready list of the epoll instance. -/
  pending : Fd → Bool

namespace EventLoop

/-- Before anything is created or constructed. -/
def init (ready : Fd → Dir → Bool) : EventLoop where
  sched := ⟨mainId, []⟩
  phase := .setup
  pcs c := if c = mainId then some .user else none
  handleMap _ := none
  ready := ready
  pending _ := false

variable (s : EventLoop)

def curPc : Option Pc := s.pcs s.sched.current

def setPc (c : CoId) (p : Option Pc) : EventLoop :=
  { s with pcs := Function.update s.pcs c p }

def setEvent (fd : Fd) (ev : AsyncFileEvent) : EventLoop :=
  { s with handleMap := Function.update s.handleMap fd (some ev) }

def setReady (fd : Fd) (d : Dir) (b : Bool) : EventLoop :=
  { s with ready := Function.update s.ready fd (Function.update (s.ready fd) d b) }

@[simp] theorem setPc_pcs (c : CoId) (p : Option Pc) :
    (s.setPc c p).pcs = Function.update s.pcs c p := rfl

@[simp] theorem setPc_handleMap (c : CoId) (p : Option Pc) :
    (s.setPc c p).handleMap = s.handleMap := rfl

@[simp] theorem setEvent_pcs (fd : Fd) (ev : AsyncFileEvent) :
    (s.setEvent fd ev).pcs = s.pcs := rfl

@[simp] theorem setEvent_handleMap (fd : Fd) (ev : AsyncFileEvent) :
    (s.setEvent fd ev).handleMap = Function.update s.handleMap fd (some ev) := rfl

theorem setReady_ready (fd fd' : Fd) (d d' : Dir) (b : Bool) :
    (s.setReady fd d b).ready fd' d' = if fd' = fd ∧ d' = d then b else s.ready fd' d' := by
  by_cases hfd : fd' = fd
  · by_cases hd : d' = d
    · simp [setReady, hfd, hd]
    · simp [setReady, hfd, hd]
  · simp [setReady, hfd]

/-- The running coroutine is in its own code; `main` is so only before
`poll_forever`. -/
def inUserCode : Prop :=
  s.curPc = some .user ∧ (s.sched.current = mainId → s.phase = .setup)

instance : Decidable s.inUserCode := inferInstanceAs (Decidable (_ ∧ _))

/-! ## What the running coroutine does -/

/-- `co_yield` and `co_exit` end in `co_sched`. -/
def switch : Option EventLoop := do
  let sched ← s.sched.coYield
  some { s with sched := sched }

def coResched : Option EventLoop := do
  let sched ← s.sched.coResched
  some { s with sched := sched }

def coCreate (c : CoId) : Option EventLoop :=
  if s.inUserCode ∧ s.pcs c = none then some (s.setPc c (some .new)) else none

/-- `co_post` of a new coroutine. -/
def coPost (c : CoId) : Option EventLoop :=
  if s.inUserCode ∧ s.pcs c = some .new then
    some { s.setPc c (some .user) with sched := s.sched.coPost (some c) }
  else none

/-- The constructor of `async_file_event`. `epoll_ctl` refuses a descriptor that
is registered already, and `add_event` then leaves the program. -/
def construct (fd : Fd) : Option EventLoop :=
  if s.inUserCode ∧ s.handleMap fd = none then
    some (s.setEvent fd (AsyncFileEvent.new fd))
  else none

/-- The call of an operation on the event of `fd`. -/
def enter (fd : Fd) (kind : OpKind) (count : Nat) : Option EventLoop :=
  if s.sched.current ≠ mainId ∧ s.curPc = some .user ∧ (s.handleMap fd).isSome then
    some (s.setPc s.sched.current (some (.call fd ⟨kind, count, 0⟩)))
  else none

/-- `async_wait`. -/
def asyncWait (fd : Fd) (mask : BitVec 32) : Option EventLoop :=
  if s.sched.current ≠ mainId ∧ s.curPc = some .user then do
    let ev ← s.handleMap fd
    if ev.event &&& mask ≠ 0 then some s
    else
      let ev := { ev with waitedMask := mask, coWait := some s.sched.current }
      ((s.setEvent fd ev).setPc s.sched.current (some (.waiting fd))).switch
  else none

/-- The system call of the running operation. `left` says whether it leaves data
or room behind; it fails with `EAGAIN` only when there was none. -/
def syscall (r : SysResult) (left : Bool) : Option EventLoop :=
  match s.curPc with
  | some (.call fd op) =>
    if r = .again ∧ s.ready fd op.kind.dir then none
    else
      let s := s.setReady fd op.kind.dir (s.ready fd op.kind.dir && left)
      some (s.setPc s.sched.current (some (op.pcAfter fd r)))
  | _ => none

/-- `waited_ |= CAN_X; co_yield(&co_x)`. -/
def park : Option EventLoop :=
  match s.curPc with
  | some (.mustPark fd op) => do
    let ev ← s.handleMap fd
    ((s.setEvent fd (ev.park op.kind.dir s.sched.current)).setPc s.sched.current
      (some (.parked fd op))).switch
  | _ => none

/-- What follows a `co_yield` that returned. -/
def resume : Option EventLoop :=
  match s.curPc with
  | some (.parked fd op) => do
    let ev ← s.handleMap fd
    some ((s.setEvent fd (ev.resume op.kind.dir op.kind.clearsSlot)).setPc s.sched.current
      (some (.call fd op)))
  | some (.waiting fd) => do
    let ev ← s.handleMap fd
    some ((s.setEvent fd { ev with waitedMask := 0, coWait := none }).setPc s.sched.current
      (some .user))
  | _ => none

/-- `co_resched` by a coroutine other than `main`. -/
def resched : Option EventLoop :=
  if s.sched.current ≠ mainId ∧ s.curPc = some .user then s.coResched else none

def coExit : Option EventLoop :=
  if s.sched.current ≠ mainId ∧ s.curPc = some .user then
    (s.setPc s.sched.current none).switch
  else none

/-! ## `poll_forever` -/

/-- `main` enters `poll_forever`. -/
def pollForever : Option EventLoop :=
  if s.sched.current = mainId ∧ s.phase = .setup then some { s with phase := .drain } else none

/-- `while (co_num_ready() > 0) co_resched();` -/
def pollResched : Option EventLoop :=
  if s.sched.current = mainId ∧ s.phase = .drain ∧ s.sched.num > 0 then s.coResched else none

/-- `epoll_wait` returns distinct pending descriptors, at most `MAX_EVENTS` of
them; the empty batch stands for `-1`. -/
def epollWait (batch : List (Fd × BitVec 32)) : Option EventLoop :=
  if s.sched.current = mainId ∧ s.phase = .drain ∧ ¬ s.sched.num > 0 ∧
      (batch.map Prod.fst).Nodup ∧ (∀ fd ∈ batch.map Prod.fst, s.pending fd) ∧
      batch.length ≤ maxEvents then
    some { s with
      phase := .batch batch
      pending := fun fd => s.pending fd && !(batch.map Prod.fst).contains fd }
  else none

/-- One round of the loop over the batch, or its end. -/
def dispatch : Option EventLoop :=
  if s.sched.current = mainId then
    match s.phase with
    | .batch [] => some { s with phase := .drain }
    | .batch ((fd, events) :: rest) =>
      match s.handleMap fd with
      | none => some { s with phase := .batch rest }
      | some ev =>
        let (ev, posts) := ev.trigger (polledEvent events)
        some { s.setEvent fd ev with
          phase := .batch rest
          sched := posts.foldl Sched.coPost s.sched }
    | _ => none
  else none

/-! ## The kernel -/

/-- Data or room appears. A registered descriptor becomes pending when there
was none before. -/
def arrive (fd : Fd) (d : Dir) : Option EventLoop :=
  if s.ready fd d then some s
  else
    some { s.setReady fd d true with
      pending := Function.update s.pending fd (s.pending fd || (s.handleMap fd).isSome) }

/-- The kernel reports a registered descriptor for another reason. -/
def notify (fd : Fd) : Option EventLoop :=
  if (s.handleMap fd).isSome then
    some { s with pending := Function.update s.pending fd true }
  else none

end EventLoop

/-- The labels. -/
inductive LoopOp where
  | coCreate (c : CoId)
  | coPost (c : CoId)
  | construct (fd : Fd)
  | enter (fd : Fd) (kind : OpKind) (count : Nat)
  | asyncWait (fd : Fd) (mask : BitVec 32)
  | syscall (r : SysResult) (left : Bool)
  | park
  | resume
  | resched
  | coExit
  | pollForever
  | pollResched
  | epollWait (batch : List (Fd × BitVec 32))
  | dispatch
  | arrive (fd : Fd) (d : Dir)
  | notify (fd : Fd)
deriving DecidableEq, Repr

def EventLoop.step (s : EventLoop) : LoopOp → Option EventLoop
  | .coCreate c => s.coCreate c
  | .coPost c => s.coPost c
  | .construct fd => s.construct fd
  | .enter fd kind count => s.enter fd kind count
  | .asyncWait fd mask => s.asyncWait fd mask
  | .syscall r left => s.syscall r left
  | .park => s.park
  | .resume => s.resume
  | .resched => s.resched
  | .coExit => s.coExit
  | .pollForever => s.pollForever
  | .pollResched => s.pollResched
  | .epollWait batch => s.epollWait batch
  | .dispatch => s.dispatch
  | .arrive fd d => s.arrive fd d
  | .notify fd => s.notify fd

/-! ## What one step can do -/

namespace EventLoop

/-- All that a label can do, with the conditions under which it happens. -/
inductive Step (s : EventLoop) : LoopOp → EventLoop → Prop
  | coCreate {c : CoId} (huser : s.inUserCode) (hc : s.pcs c = none) :
      Step s (.coCreate c) (s.setPc c (some .new))
  | coPost {c : CoId} (huser : s.inUserCode) (hc : s.pcs c = some .new) :
      Step s (.coPost c)
        { s.setPc c (some .user) with sched := s.sched.coPost (some c) }
  | construct {fd : Fd} (huser : s.inUserCode) (hfd : s.handleMap fd = none) :
      Step s (.construct fd) (s.setEvent fd (AsyncFileEvent.new fd))
  | enter {fd : Fd} {kind : OpKind} {count : Nat} (hcur : s.sched.current ≠ mainId)
      (hpc : s.curPc = some .user) (hfd : (s.handleMap fd).isSome) :
      Step s (.enter fd kind count)
        (s.setPc s.sched.current (some (.call fd ⟨kind, count, 0⟩)))
  | asyncWaitDone {fd : Fd} {mask : BitVec 32} : Step s (.asyncWait fd mask) s
  | asyncWait {fd : Fd} {mask : BitVec 32} {ev : AsyncFileEvent} {sched : Sched}
      (hcur : s.sched.current ≠ mainId) (hpc : s.curPc = some .user)
      (hev : s.handleMap fd = some ev)
      (hq : s.sched.queue = some sched.current :: sched.queue) :
      Step s (.asyncWait fd mask)
        { (s.setEvent fd { ev with waitedMask := mask, coWait := some s.sched.current }).setPc
            s.sched.current (some (.waiting fd)) with sched := sched }
  | syscall {fd : Fd} {op : AsyncOp} {r : SysResult} {left : Bool}
      (hpc : s.curPc = some (.call fd op))
      (hagain : r = .again → s.ready fd op.kind.dir = false) :
      Step s (.syscall r left)
        ((s.setReady fd op.kind.dir (s.ready fd op.kind.dir && left)).setPc s.sched.current
          (some (op.pcAfter fd r)))
  | park {fd : Fd} {op : AsyncOp} {ev : AsyncFileEvent} {sched : Sched}
      (hpc : s.curPc = some (.mustPark fd op)) (hev : s.handleMap fd = some ev)
      (hq : s.sched.queue = some sched.current :: sched.queue) :
      Step s .park
        { (s.setEvent fd (ev.park op.kind.dir s.sched.current)).setPc s.sched.current
            (some (.parked fd op)) with sched := sched }
  | resumeOp {fd : Fd} {op : AsyncOp} {ev : AsyncFileEvent}
      (hpc : s.curPc = some (.parked fd op)) (hev : s.handleMap fd = some ev) :
      Step s .resume
        ((s.setEvent fd (ev.resume op.kind.dir op.kind.clearsSlot)).setPc s.sched.current
          (some (.call fd op)))
  | resumeWait {fd : Fd} {ev : AsyncFileEvent}
      (hpc : s.curPc = some (.waiting fd)) (hev : s.handleMap fd = some ev) :
      Step s .resume
        ((s.setEvent fd { ev with waitedMask := 0, coWait := none }).setPc s.sched.current
          (some .user))
  | resched {sched : Sched} (hcur : s.sched.current ≠ mainId) (hpc : s.curPc = some .user)
      (hq : s.sched.queue ++ [some s.sched.current] = some sched.current :: sched.queue) :
      Step s .resched { s with sched := sched }
  | coExit {sched : Sched} (hcur : s.sched.current ≠ mainId) (hpc : s.curPc = some .user)
      (hq : s.sched.queue = some sched.current :: sched.queue) :
      Step s .coExit { s.setPc s.sched.current none with sched := sched }
  | pollForever (hcur : s.sched.current = mainId) (hphase : s.phase = .setup) :
      Step s .pollForever { s with phase := .drain }
  | pollResched {sched : Sched} (hcur : s.sched.current = mainId) (hphase : s.phase = .drain)
      (hq : s.sched.queue ++ [some s.sched.current] = some sched.current :: sched.queue) :
      Step s .pollResched { s with sched := sched }
  | epollWait {batch : List (Fd × BitVec 32)} (hcur : s.sched.current = mainId)
      (hphase : s.phase = .drain) (hqueue : s.sched.queue = [])
      (hdistinct : (batch.map Prod.fst).Nodup) :
      Step s (.epollWait batch)
        { s with
          phase := .batch batch
          pending := fun fd => s.pending fd && !(batch.map Prod.fst).contains fd }
  | batchEnd (hcur : s.sched.current = mainId) (hphase : s.phase = .batch []) :
      Step s .dispatch { s with phase := .drain }
  | skip {fd : Fd} {events : BitVec 32} {rest : List (Fd × BitVec 32)}
      (hcur : s.sched.current = mainId) (hphase : s.phase = .batch ((fd, events) :: rest))
      (hfd : s.handleMap fd = none) :
      Step s .dispatch { s with phase := .batch rest }
  | dispatch {fd : Fd} {events : BitVec 32} {rest : List (Fd × BitVec 32)}
      {ev : AsyncFileEvent} (hcur : s.sched.current = mainId)
      (hphase : s.phase = .batch ((fd, events) :: rest)) (hev : s.handleMap fd = some ev) :
      Step s .dispatch
        { s.setEvent fd (ev.trigger (polledEvent events)).1 with
          phase := .batch rest
          sched := (ev.trigger (polledEvent events)).2.foldl Sched.coPost s.sched }
  | arriveMore {fd : Fd} {d : Dir} (hready : s.ready fd d = true) : Step s (.arrive fd d) s
  | arrive {fd : Fd} {d : Dir} (hready : s.ready fd d = false) :
      Step s (.arrive fd d)
        { s.setReady fd d true with
          pending := Function.update s.pending fd (s.pending fd || (s.handleMap fd).isSome) }
  | notify {fd : Fd} (hfd : (s.handleMap fd).isSome) :
      Step s (.notify fd) { s with pending := Function.update s.pending fd true }

variable {s s' : EventLoop} {a : LoopOp}

theorem switch_eq_some : s.switch = some s' ↔
    ∃ sched : Sched, s.sched.queue = some sched.current :: sched.queue ∧
      s' = { s with sched := sched } := by
  simp only [switch, Option.bind_eq_bind, Option.bind_eq_some_iff, Option.some.injEq]
  constructor
  · rintro ⟨sched, hs, rfl⟩
    exact ⟨sched, Sched.coSched_eq_some.mp hs, rfl⟩
  · rintro ⟨sched, hs, rfl⟩
    exact ⟨sched, Sched.coSched_eq_some.mpr hs, rfl⟩

theorem coResched_eq_some : s.coResched = some s' ↔
    ∃ sched : Sched, s.sched.queue ++ [some s.sched.current] =
      some sched.current :: sched.queue ∧ s' = { s with sched := sched } := by
  simp only [coResched, Option.bind_eq_bind, Option.bind_eq_some_iff, Option.some.injEq]
  constructor
  · rintro ⟨sched, hs, rfl⟩
    exact ⟨sched, Sched.coResched_eq_some.mp hs, rfl⟩
  · rintro ⟨sched, hs, rfl⟩
    exact ⟨sched, Sched.coResched_eq_some.mpr hs, rfl⟩

/-- The inversion of `step`. -/
theorem step_cases (h : s.step a = some s') : Step s a s' := by
  cases a with
  | coCreate c =>
    obtain ⟨⟨huser, hc⟩, rfl⟩ := by simpa [step, coCreate] using h
    exact .coCreate huser hc
  | coPost c =>
    obtain ⟨⟨huser, hc⟩, rfl⟩ := by simpa [step, coPost] using h
    exact .coPost huser hc
  | construct fd =>
    obtain ⟨⟨huser, hfd⟩, rfl⟩ := by simpa [step, construct] using h
    exact .construct huser hfd
  | enter fd kind count =>
    obtain ⟨⟨hcur, hpc, hfd⟩, rfl⟩ := by simpa [step, enter] using h
    exact .enter hcur hpc hfd
  | asyncWait fd mask =>
    simp only [step, asyncWait, Option.bind_eq_bind] at h
    split at h
    · next hg =>
      obtain ⟨ev, hev, h⟩ := Option.bind_eq_some_iff.mp h
      split at h
      · cases h
        exact .asyncWaitDone
      · obtain ⟨sched, hq, rfl⟩ := switch_eq_some.mp h
        exact .asyncWait hg.1 hg.2 hev hq
    · cases h
  | syscall r left =>
    simp only [step, syscall] at h
    split at h
    · next fd op hpc =>
      split at h
      · cases h
      · next hagain =>
        cases h
        exact .syscall hpc fun hr => by simpa [hr] using hagain
    · cases h
  | park =>
    simp only [step, park, Option.bind_eq_bind] at h
    split at h
    · next fd op hpc =>
      obtain ⟨ev, hev, h⟩ := Option.bind_eq_some_iff.mp h
      obtain ⟨sched, hq, rfl⟩ := switch_eq_some.mp h
      exact .park hpc hev hq
    · cases h
  | resume =>
    simp only [step, resume, Option.bind_eq_bind] at h
    split at h
    · next fd op hpc =>
      obtain ⟨ev, hev, h⟩ := Option.bind_eq_some_iff.mp h
      cases h
      exact .resumeOp hpc hev
    · next fd hpc =>
      obtain ⟨ev, hev, h⟩ := Option.bind_eq_some_iff.mp h
      cases h
      exact .resumeWait hpc hev
    · cases h
  | resched =>
    simp only [step, EventLoop.resched] at h
    split at h
    · next hg =>
      obtain ⟨sched, hq, rfl⟩ := coResched_eq_some.mp h
      exact .resched hg.1 hg.2 hq
    · cases h
  | coExit =>
    simp only [step, coExit] at h
    split at h
    · next hg =>
      obtain ⟨sched, hq, rfl⟩ := switch_eq_some.mp h
      exact .coExit hg.1 hg.2 hq
    · cases h
  | pollForever =>
    obtain ⟨⟨hcur, hphase⟩, rfl⟩ := by simpa [step, pollForever] using h
    exact .pollForever hcur hphase
  | pollResched =>
    simp only [step, pollResched] at h
    split at h
    · next hg =>
      obtain ⟨sched, hq, rfl⟩ := coResched_eq_some.mp h
      exact .pollResched hg.1 hg.2.1 hq
    · cases h
  | epollWait batch =>
    simp only [step, epollWait] at h
    split at h
    · next hg =>
      obtain ⟨hcur, hphase, hnum, hdistinct, -, -⟩ := hg
      cases h
      exact .epollWait hcur hphase (List.length_eq_zero_iff.mp (Nat.le_zero.mp (not_lt.mp hnum)))
        hdistinct
    · cases h
  | dispatch =>
    simp only [step, EventLoop.dispatch] at h
    split at h
    · next hcur =>
      split at h
      · next hphase =>
        cases h
        exact .batchEnd hcur hphase
      · next fd events rest hphase =>
        split at h
        · next hfd =>
          cases h
          exact .skip hcur hphase hfd
        · next ev hev =>
          cases h
          exact .dispatch hcur hphase hev
      · cases h
    · cases h
  | arrive fd d =>
    simp only [step, EventLoop.arrive] at h
    split at h
    · next hready =>
      cases h
      exact .arriveMore hready
    · next hready =>
      cases h
      exact .arrive (by simpa using hready)
  | notify fd =>
    obtain ⟨hfd, rfl⟩ := by simpa [step, EventLoop.notify] using h
    exact .notify hfd

end EventLoop

end NetTraverse
