import NetTraverse.Coroutine.Swapper

/-!
# The routine of ctx_switch.s

`context_switch` keeps its frame on the stack it leaves, not in a record: six
registers and the two control words below the return address. `*rsi` receives
the address of the frame, and `*rdi` is the frame of the stack to go to.
-/

namespace NetTraverse

open Words Region

namespace ContextSwitch

/-- `(%rsp)`. -/
def top : X86.MemArg := ⟨0, .rsp⟩

/-- Up to the store of the stack pointer. -/
def parkOps : List X86.Op :=
  [.push .r15,
    .push .r14,
    .push .r13,
    .push .r12,
    .push .rbp,
    .push .rbx,
    .sub 4 .rsp,
    .fnstcw top,
    .sub 4 .rsp,
    .stmxcsr top,
    .store .rsp ⟨0, .rsi⟩]

/-- Once the control word of the SSE unit is back. -/
def popOps : List X86.Op :=
  [.add 4 .rsp,
    .fldcw top,
    .add 4 .rsp,
    .pop .rbx,
    .pop .rbp,
    .pop .r12,
    .pop .r13,
    .pop .r14,
    .pop .r15]

def unparkOps : List X86.Op :=
  [.load ⟨0, .rdi⟩ .rsp,
    .ldmxcsr top] ++ popOps

def text : List X86.Instr := parkOps.map .op ++ unparkOps.map .op ++ [.ret]

end ContextSwitch

open ContextSwitch

namespace Demo

end Demo

end NetTraverse
