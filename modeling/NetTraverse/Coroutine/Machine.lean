import NetTraverse.Lib.Region
import NetTraverse.Coroutine.Context
import NetTraverse.Coroutine.Scheduler

/-!
# The coroutine machine

`coroutine.h` and `coroutine.cpp` over the registers of `Context` and byte
stacks. A step of `Machine` is either a call of one of the `co_*` functions by
the running coroutine, or something the compiled code of that coroutine does by
itself: store a byte on its own stack, or change its registers.

* Every co_stack owns a buffer of its own: `malloc` never hands out
  overlapping blocks, so a store into one buffer leaves the others alone. The
  private copy of a shared stack is the list of its bytes.
* `main` runs on the process stack. `co_init` leaves the pointers of its
  co_stack null, and so does the model; its `bytes` stand for the memory of the
  process stack.
* `log` records what an observer sees of the switches, newest first. No
  function of the source reads it. Only the rule for `co_post`, which takes a
  new or a parked coroutine, looks at it.
-/

namespace NetTraverse

open Region

abbrev StackId := Nat

/-- A block handed out by `malloc`: it does not wrap around the end of the
address space, and its contents are arbitrary. -/
structure Block where
  bottom : Word
  size : Word
  fill : Word → UInt8
  fits : bottom.toNat + size.toNat < 2 ^ 64

/-- `co_stack`. -/
structure CoStack where
  stackBottom : Word
  stackTop : Word
  bytes : Word → UInt8
  usedBy : CoPtr
  shared : Bool

/-- `coroutine`. The routine and its parameter are left out: the code a
coroutine runs is arbitrary here. -/
structure Coroutine where
  savedCtx : Context
  stack : Option StackId
  sharedStack : Bool
  stackCopy : Option (List UInt8)
  stackCopySize : Word

/-- What a suspended coroutine must find again: its registers, and the bytes of
its stack from the stack pointer up to `stack_top`. -/
structure Image where
  cpu : Cpu
  bytes : List UInt8
deriving DecidableEq

inductive Event where
  | created (co : CoId) (img : Image)
  | posted (co : CoId)
  | rescheduled (co : CoId) (img : Image)
  | yielded (co : CoId) (img : Image)
  | exited (co : CoId)
  /-- `save_stack` copied `size` bytes from `rsp` upwards. -/
  | copied (co : CoId) (rsp top size : Word)
  /-- `co_sched` loaded the context of `co`. -/
  | loaded (co : CoId) (img : Image)
deriving DecidableEq

/-- The objects of the module: coroutines, co_stack objects, and the pool of shared
ones. -/
structure Heap where
  cos : CoId → Option Coroutine
  coStacks : StackId → Option CoStack
  sharedStackPool : List StackId
  sharedStackAllocCount : Word

structure Machine where
  cpu : Cpu
  sched : Sched
  heap : Heap
  log : List Event

/-- A word as the eight bytes a store of it leaves in memory. -/
def le64 (v : Word) : List UInt8 :=
  (List.range 8).map fun i => UInt8.ofNat (v.toNat >>> (8 * i))

namespace CoStack

/-- `co_stack(size, share)` on the block its `malloc` returned. -/
def new (b : Block) (share : Bool) : CoStack where
  stackBottom := b.bottom
  stackTop := b.bottom + b.size
  bytes := b.fill
  usedBy := none
  shared := share

def setExitGuard (k : Code) (s : CoStack) : CoStack :=
  { s with bytes := writeBytes s.bytes (s.stackTop - 8) (le64 k.coExit) }

/-- The bytes from `rsp` up to `stack_top`. -/
def above (s : CoStack) (rsp : Word) : List UInt8 :=
  readBytes s.bytes rsp (s.stackTop - rsp).toNat

end CoStack

/-- The constructor of `coroutine`. With a shared stack the return guard waits
in the copy. -/
def Coroutine.new (k : Code) (sharedStack : Bool) : Coroutine where
  savedCtx :=
    { rbx := 0, rbp := 0, r12 := 0, r13 := 0, r14 := 0, r15 := 0, rsp := 0
      rip := k.coLaunch, mxcsr := mxcsrMASK, x87Cw := x87CwMask }
  stack := none
  sharedStack := sharedStack
  stackCopy := if sharedStack then some (le64 k.coExit) else none
  stackCopySize := if sharedStack then 8 else 0

namespace Heap

variable (h : Heap)

/-- `co` is the object `c`, and `st` the co_stack `sid` it points to. -/
structure Placed (c : CoId) (co : Coroutine) (sid : StackId) (st : CoStack) : Prop where
  obj : h.cos c = some co
  ptr : co.stack = some sid
  buf : h.coStacks sid = some st

/-- The coroutine object `c` with the co_stack it points to. -/
def place (c : CoId) : Option (Coroutine × StackId × CoStack) := do
  let co ← h.cos c
  let sid ← co.stack
  let st ← h.coStacks sid
  some (co, sid, st)

theorem place_eq_some {h : Heap} {c : CoId} {p : Coroutine × StackId × CoStack} :
    h.place c = some p ↔ h.Placed c p.1 p.2.1 p.2.2 := by
  obtain ⟨co, sid, st⟩ := p
  simp only [place, Option.bind_eq_bind, Option.bind_eq_some_iff, Option.some.injEq, Prod.mk.injEq]
  constructor
  · rintro ⟨co', hobj, sid', hptr, st', hbuf, rfl, rfl, rfl⟩
    exact ⟨hobj, hptr, hbuf⟩
  · rintro ⟨hobj, hptr, hbuf⟩
    exact ⟨co, hobj, sid, hptr, st, hbuf, rfl, rfl, rfl⟩

theorem Placed.place {h : Heap} {c : CoId} {co : Coroutine} {sid : StackId} {st : CoStack}
    (hp : h.Placed c co sid st) : h.place c = some (co, sid, st) :=
  place_eq_some.mpr hp

def setCo (c : CoId) (co : Coroutine) : Heap :=
  { h with cos := Function.update h.cos c (some co) }

def setStackObj (sid : StackId) (st : CoStack) : Heap :=
  { h with coStacks := Function.update h.coStacks sid (some st) }

@[simp] theorem setCo_cos (c d : CoId) (co : Coroutine) :
    (h.setCo c co).cos d = if d = c then some co else h.cos d := Function.update_apply ..
@[simp] theorem setCo_coStacks (c : CoId) (co : Coroutine) :
    (h.setCo c co).coStacks = h.coStacks := rfl
@[simp] theorem setCo_pool (c : CoId) (co : Coroutine) :
    (h.setCo c co).sharedStackPool = h.sharedStackPool := rfl
@[simp] theorem setStackObj_coStacks (sid s : StackId) (st : CoStack) :
    (h.setStackObj sid st).coStacks s = if s = sid then some st else h.coStacks s :=
  Function.update_apply ..
@[simp] theorem setStackObj_cos (sid : StackId) (st : CoStack) :
    (h.setStackObj sid st).cos = h.cos := rfl
@[simp] theorem setStackObj_pool (sid : StackId) (st : CoStack) :
    (h.setStackObj sid st).sharedStackPool = h.sharedStackPool := rfl

/-- `set_stack`; `none` is its `abort`. -/
def setStack (k : Code) (c : CoId) (sid : StackId) : Option Heap := do
  let co ← h.cos c
  let st ← h.coStacks sid
  if co.sharedStack && !st.shared then none
  else
    let h := if co.sharedStack then h else h.setStackObj sid (st.setExitGuard k)
    some (h.setCo c { co with
      stack := some sid
      savedCtx := { co.savedCtx with rsp := st.stackTop - 8 } })

/-- `co_create`; `c` and `sid` are the objects `new` returned. -/
def coCreate (k : Code) (c : CoId) (sid : StackId) (b : Block) : Option Heap :=
  ((h.setCo c (Coroutine.new k false)).setStackObj sid (CoStack.new b false)).setStack k c sid

/-- `co_alloc_shared_stack`. -/
def coAllocSharedStack : Option (StackId × Heap) := do
  let i := h.sharedStackAllocCount.toNat % h.sharedStackPool.length
  let sid ← h.sharedStackPool[i]?
  some (sid, { h with sharedStackAllocCount := h.sharedStackAllocCount + 1 })

/-- `co_create_shared` and `co_create_cxx_shared`, which differ only in the
routine they pass. -/
def coCreateShared (k : Code) (c : CoId) : Option Heap := do
  let h := h.setCo c (Coroutine.new k true)
  let (sid, h) ← h.coAllocSharedStack
  h.setStack k c sid

/-- `in_stack`. -/
def inStack (c : CoId) : Option Bool := do
  let co ← h.cos c
  if !co.sharedStack then some true
  else match co.stack with
    | none => some false
    | some sid => do
      let st ← h.coStacks sid
      some (decide (st.usedBy = some c))

/-- `restore_stack`; `none` when `co_memcpy` would read past the copy. -/
def restoreStack (c : CoId) : Option Heap := do
  let (co, sid, st) ← h.place c
  let copy ← co.stackCopy
  let dst := st.stackTop - co.stackCopySize
  if copy.length < co.stackCopySize.toNat then none
  else
    let bytes := writeBytes st.bytes dst (copy.take co.stackCopySize.toNat)
    some ((h.setCo c { co with stackCopy := none }).setStackObj sid
      { st with bytes := bytes, usedBy := some c })

/-- `delete co` with `~coroutine` and `~co_stack`. -/
def coDestroy (c : CoId) : Option Heap := do
  let (co, sid, st) ← h.place c
  let h := { h with cos := Function.update h.cos c none }
  if !co.sharedStack then some { h with coStacks := Function.update h.coStacks sid none }
  else if st.usedBy = some c then some (h.setStackObj sid { st with usedBy := none })
  else some h

end Heap

namespace Machine

variable (m : Machine)

def record (e : Event) : Machine := { m with log := e :: m.log }

/-! ## Switching -/

/-- `save_stack`. -/
def saveStack (c : CoId) : Option Machine := do
  let (co, _, st) ← m.heap.place c
  let size := st.stackTop - co.savedCtx.rsp
  let copy := readBytes st.bytes co.savedCtx.rsp size.toNat
  let heap := m.heap.setCo c { co with stackCopySize := size, stackCopy := some copy }
  some ({ m with heap := heap }.record (.copied c co.savedCtx.rsp st.stackTop size))

def coSwapIn (c : CoId) : Option Machine := do
  if ← m.heap.inStack c then some m
  else
    let (_, _, st) ← m.heap.place c
    let m ← match st.usedBy with
      | some o => m.saveStack o
      | none => some m
    let heap ← m.heap.restoreStack c
    some { m with heap := heap }

/-- The image of the running coroutine. -/
def runningImage : Option Image := do
  let (_, _, st) ← m.heap.place m.sched.current
  some ⟨m.cpu, st.above m.cpu.rsp⟩

/-- `load_context(&current->saved_ctx)`. -/
def load : Option Machine := do
  let co ← m.heap.cos m.sched.current
  let m := { m with cpu := loadContext co.savedCtx }
  let img ← m.runningImage
  some (m.record (.loaded m.sched.current img))

def coSched : Option Machine := do
  let sched ← m.sched.coSched
  let m := { m with sched := sched }
  let co ← m.heap.cos sched.current
  let m ← if co.sharedStack then m.coSwapIn sched.current else some m
  m.load

/-- `save_context(&current->saved_ctx, ..)`, with the image it leaves behind:
the coroutine will go on at the `ret` of `save_context`. -/
def save (k : Code) : Option (Image × Machine) := do
  let co ← m.heap.cos m.sched.current
  let img ← m.runningImage
  let heap := m.heap.setCo m.sched.current
    { co with savedCtx := saveContext k co.savedCtx m.cpu }
  some ({ img with cpu := { img.cpu with rip := k.retaddr } }, { m with heap := heap })

def coPost (c : CoId) : Machine :=
  { m with sched := m.sched.coPost (some c) }.record (.posted c)

/-- `co_resched`: save, then `_co_resched` enqueues the caller and switches. -/
def coResched (k : Code) : Option Machine := do
  let (img, m) ← m.save k
  let m := m.record (.rescheduled m.sched.current img)
  { m with sched := m.sched.enqueue (some m.sched.current) }.coSched

/-- `co_yield`. The store `*co = current` into a variable of the caller comes
before the context is saved, so it is one of the caller's own stores. -/
def coYield (k : Code) : Option Machine := do
  let (img, m) ← m.save k
  (m.record (.yielded m.sched.current img)).coSched

/-- `co_exit`: `_co_exit` runs on the handler stack, so it may free the stack
of the coroutine it came from. -/
def coExit : Option Machine := do
  let heap ← m.heap.coDestroy m.sched.current
  ({ m with heap := heap }.record (.exited m.sched.current)).coSched

end Machine

/-! ## Runs -/

/-- A coroutine is new or parked: created or suspended by `co_yield`, and not
posted since. -/
def isIdle (c : CoId) : List Event → Bool
  | [] => false
  | .created d _ :: rest => d == c || isIdle c rest
  | .yielded d _ :: rest => d == c || isIdle c rest
  | .posted d :: rest => d != c && isIdle c rest
  | .exited d :: rest => d != c && isIdle c rest
  | _ :: rest => isIdle c rest

/-- What the code running on `st` may reach: its own buffer. `main` has the
process stack, whose bounds `co_stack` does not know. -/
def CoStack.owns (st : CoStack) (a : Word) : Bool :=
  st.stackTop == 0 || (decide (st.stackBottom ≤ a) && decide (a < st.stackTop))

/-- The stack pointer of compiled code without a stack overflow: inside the
buffer, or just above it once the exit guard has been popped. -/
def CoStack.holds (st : CoStack) (rsp : Word) : Bool :=
  st.stackTop == 0 || (decide (st.stackBottom ≤ rsp) && decide (rsp ≤ st.stackTop))

/-- The image of a coroutine that was never launched: the initial context, and
the guard on top of an otherwise unused stack. -/
def launchImage (k : Code) (stackTop : Word) : Image where
  cpu :=
    { rbx := 0, rbp := 0, r12 := 0, r13 := 0, r14 := 0, r15 := 0, rsp := stackTop - 8
      rip := k.coLaunch, mxcsr := mxcsrMASK, x87Cw := x87CwMask.extractLsb' 0 16 }
  bytes := le64 k.coExit

inductive Op where
  /-- The running coroutine stores a byte on its stack. -/
  | write (a : Word) (b : UInt8)
  /-- The running coroutine changes its registers. -/
  | compute (cpu : Cpu)
  | coCreate (co : CoId) (sid : StackId) (b : Block)
  | coCreateShared (co : CoId)
  | coPost (co : CoId)
  | coResched
  | coYield
  | coExit

namespace Machine

/-- The heap after a creation, and the note that `c` is ready to be launched. -/
def created (m : Machine) (k : Code) (c : CoId) (heap : Heap) : Option Machine := do
  let (_, _, st) ← heap.place c
  some ({ m with heap := heap }.record (.created c (launchImage k st.stackTop)))

/-- One step. `new` returns objects that are not in use, a private stack has
room for the guard, and `co_post` takes a new or parked coroutine. -/
def step (k : Code) (m : Machine) : Op → Option Machine
  | .write a b => do
    let (_, sid, st) ← m.heap.place m.sched.current
    if st.owns a then
      let st := { st with bytes := Function.update st.bytes a b }
      some { m with heap := m.heap.setStackObj sid st }
    else none
  | .compute cpu => do
    let (_, _, st) ← m.heap.place m.sched.current
    if st.holds cpu.rsp then some { m with cpu := cpu } else none
  | .coCreate c sid b =>
    if (m.heap.cos c).isNone && (m.heap.coStacks sid).isNone && decide (8 ≤ b.size.toNat) then do
      let heap ← m.heap.coCreate k c sid b
      m.created k c heap
    else none
  | .coCreateShared c =>
    if (m.heap.cos c).isNone then do
      let heap ← m.heap.coCreateShared k c
      m.created k c heap
    else none
  | .coPost c => if isIdle c m.log then some (m.coPost c) else none
  | .coResched => m.coResched k
  | .coYield => m.coYield k
  | .coExit => m.coExit

/-- The block of a shared stack: `co_stack(1024 * 1024, true)`. -/
abbrev SharedBlock := { b : Block // b.size = 1024 * 1024 }

/-- The co_stack objects after `co_init`: `main`'s, and the shared ones. -/
def initStacks (mainBytes : Word → UInt8) (blocks : List SharedBlock) :
    StackId → Option CoStack
  | 0 => some
    { stackBottom := 0, stackTop := 0, bytes := mainBytes, usedBy := some 0, shared := false }
  | i + 1 => blocks[i]?.map fun b => CoStack.new b.val true

/-- The state after `co_init`, called by `main`, with one block for each member
of the pool. -/
def coInit (k : Code) (cpu : Cpu) (mainBytes : Word → UInt8) (blocks : List SharedBlock) :
    Machine where
  cpu := cpu
  sched := { current := 0, queue := [] }
  heap :=
    { cos := fun c => if c = 0 then some { Coroutine.new k false with stack := some 0 } else none
      coStacks := initStacks mainBytes blocks
      sharedStackPool := (List.range blocks.length).map (· + 1)
      sharedStackAllocCount := 0 }
  log := []

end Machine

end NetTraverse
