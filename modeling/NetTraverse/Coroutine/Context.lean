import Mathlib.Data.List.Basic

/-!
# Saved contexts

`ctx.h` and the three routines of `swapper.s` that switch registers. A context
holds the registers that a callee must preserve, the stack pointer, the
address to resume at, and the two floating-point control words.
-/

namespace NetTraverse

abbrev Word := BitVec 64

/-- `context_t`, in the order of its fields. -/
structure Context where
  rbx : Word
  rbp : Word
  r12 : Word
  r13 : Word
  r14 : Word
  r15 : Word
  rsp : Word
  rip : Word
  mxcsr : BitVec 32
  x87Cw : BitVec 32
deriving DecidableEq, Repr

/-- The registers of the processor that `swapper.s` reads or writes. The x87
control word is 16 bits wide; its field in `Context` is twice that. -/
structure Cpu where
  rbx : Word
  rbp : Word
  r12 : Word
  r13 : Word
  r14 : Word
  r15 : Word
  rsp : Word
  rip : Word
  mxcsr : BitVec 32
  x87Cw : BitVec 16
deriving DecidableEq, Repr

/-- The code addresses that end up in contexts and on stacks: `co_launch`,
`co_exit`, and the label `retaddr` of `save_context`. -/
structure Code where
  coLaunch : Word
  coExit : Word
  retaddr : Word
deriving DecidableEq, Repr

/-- `mxcsr_MASK`: the six exception masks, bits 7 to 12. -/
def mxcsrMASK : BitVec 32 := 0x1f80

def x87CwMask : BitVec 32 := 0x37f

/-- `fnstcw 68(%rdi)` stores 16 bits, the low half of the field. -/
def fnstcw (field : BitVec 32) (cw : BitVec 16) : BitVec 32 :=
  field.extractLsb' 16 16 ++ cw

/-- `fldcw 68(%rdi)` loads the low half. -/
def fldcw (field : BitVec 32) : BitVec 16 :=
  field.extractLsb' 0 16

@[simp]
theorem fldcw_fnstcw (field : BitVec 32) (cw : BitVec 16) : fldcw (fnstcw field cw) = cw :=
  BitVec.extractLsb'_append_eq_right

@[simp]
theorem fnstcw_fldcw (field : BitVec 32) : fnstcw field (fldcw field) = field := by
  unfold fnstcw fldcw
  rw [BitVec.extractLsb'_append_extractLsb'_eq_extractLsb' (by decide)]
  exact BitVec.extractLsb'_eq_self

/-- `save_context`: the stack pointer is stored as it is on entry, with the
return address on top of the stack, and the resume address is the `ret` at
`retaddr`. The routine then leaves for its handler on another stack; whatever
the handler does to the registers is undone by the `loadContext` it ends in. -/
def saveContext (k : Code) (save : Context) (cpu : Cpu) : Context :=
  { save with
    rbx := cpu.rbx
    rbp := cpu.rbp
    r12 := cpu.r12
    r13 := cpu.r13
    r14 := cpu.r14
    r15 := cpu.r15
    rsp := cpu.rsp
    rip := k.retaddr
    mxcsr := cpu.mxcsr
    x87Cw := fnstcw save.x87Cw cpu.x87Cw }

/-- `load_context` sets every register of `Cpu` and jumps to the resume
address. -/
def loadContext (saved : Context) : Cpu where
  rbx := saved.rbx
  rbp := saved.rbp
  r12 := saved.r12
  r13 := saved.r13
  r14 := saved.r14
  r15 := saved.r15
  rsp := saved.rsp
  rip := saved.rip
  mxcsr := saved.mxcsr
  x87Cw := fldcw saved.x87Cw

/-- What a suspended coroutine gets back is what it had, with the resume
address moved to `retaddr`. -/
@[simp]
theorem loadContext_saveContext (k : Code) (save : Context) (cpu : Cpu) :
    loadContext (saveContext k save cpu) = { cpu with rip := k.retaddr } := by
  simp [loadContext, saveContext]

/-- A context that holds already what is to be saved stays as it is. -/
theorem saveContext_eq_self {k : Code} {save : Context} {cpu : Cpu}
    (h : loadContext save = { cpu with rip := k.retaddr }) : saveContext k save cpu = save := by
  cases save
  cases cpu
  simp only [loadContext, Cpu.mk.injEq] at h
  obtain ⟨rfl, rfl, rfl, rfl, rfl, rfl, rfl, rfl, rfl, rfl⟩ := h
  simp only [saveContext, fnstcw_fldcw]

@[simp]
theorem saveContext_rsp (k : Code) (save : Context) (cpu : Cpu) :
    (saveContext k save cpu).rsp = cpu.rsp := rfl

@[simp]
theorem loadContext_rsp (saved : Context) : (loadContext saved).rsp = saved.rsp := rfl

end NetTraverse
