import NetTraverse.Lib.X86
import NetTraverse.Coroutine.Machine

/-!
# The routines of swapper.s

`swapper.s` instruction by instruction, and what `coroutine.h` relies on.
`contextAt` is the layout of `context_t` in memory, `cpuOf` the registers of the
machine that a callee must preserve.

* `save_context` and `load_context` are `saveContext` and `loadContext` of
  `Context`, on a record in memory.
* To its caller, `save_context` is a call that returns once somebody loads the
  record.
* `co_memcpy` is `memcpy` between blocks that do not overlap.

The code around the routines is arbitrary: a handler, other coroutines, the
compiled functions of `coroutine.cpp`.
-/

namespace NetTraverse

open Words Region

/-- `context_t`: eight words, and two fields of 32 bits. -/
def contextAt (mem : X86.Mem) (p : Word) : Context where
  rbx := readLe 64 mem (p + 0)
  rbp := readLe 64 mem (p + 8)
  r12 := readLe 64 mem (p + 16)
  r13 := readLe 64 mem (p + 24)
  r14 := readLe 64 mem (p + 32)
  r15 := readLe 64 mem (p + 40)
  rsp := readLe 64 mem (p + 48)
  rip := readLe 64 mem (p + 56)
  mxcsr := readLe 32 mem (p + 64)
  x87Cw := readLe 32 mem (p + 68)

def cpuOf (s : X86.State) : Cpu where
  rbx := s.regs .rbx
  rbp := s.regs .rbp
  r12 := s.regs .r12
  r13 := s.regs .r13
  r14 := s.regs .r14
  r15 := s.regs .r15
  rsp := s.regs .rsp
  rip := s.rip
  mxcsr := s.mxcsr
  x87Cw := s.x87Cw

/-- What the caller of a routine entered in `s` gets back: the return address
is popped, and everything a callee must preserve is preserved. -/
def returned (s : X86.State) : Cpu :=
  { cpuOf s with
    rsp := s.regs .rsp + 8
    rip := readLe 64 s.mem (s.regs .rsp) }

namespace Swapper

/-- `disp(%rdi)`: the record is the first parameter. -/
def field (disp : Word) : X86.MemArg := ⟨disp, .rdi⟩

def saveContextOps (retaddr : Word) : List X86.Op :=
  [.store .rbx (field 0),
    .store .rbp (field 8),
    .store .r12 (field 16),
    .store .r13 (field 24),
    .store .r14 (field 32),
    .store .r15 (field 40),
    .lea retaddr .rax,
    .store .rsp (field 48),
    .store .rax (field 56),
    .stmxcsr (field 64),
    .fnstcw (field 68),
    .mov .rsi .rsp]

def loadContextOps : List X86.Op :=
  [.load (field 0) .rbx,
    .load (field 8) .rbp,
    .load (field 16) .r12,
    .load (field 24) .r13,
    .load (field 32) .r14,
    .load (field 40) .r15,
    .load (field 48) .rsp,
    .load (field 56) .rax,
    .ldmxcsr (field 64),
    .fldcw (field 68)]

/-- The labels of the file, `retaddr` apart. -/
structure Labels where
  saveContext : Word
  loadContext : Word
  callWithNewStack : Word
  coMemcpy : Word
deriving DecidableEq, Repr

/-- `swapper.s` is in memory: each routine starts where the one before ends. -/
structure Assembled (fetch : X86.Fetch) (k : Code) (l : Labels) : Prop where
  saveContext : X86.CodeAt fetch l.saveContext
    ((saveContextOps k.retaddr).map .op ++ [.jmp .rdx]) k.retaddr
  retaddr : X86.CodeAt fetch k.retaddr [.ret] l.loadContext
  loadContext : X86.CodeAt fetch l.loadContext
    (loadContextOps.map .op ++ [.jmp .rax]) l.callWithNewStack
  callWithNewStack : X86.CodeAt fetch l.callWithNewStack
    [.op (.mov .rdi .rsp), .jmp .rsi] l.coMemcpy
  coMemcpy : ∃ e, X86.CodeAt fetch l.coMemcpy [.op (.mov .rdx .rcx), .repMovsb, .ret] e

end Swapper

open Swapper

/-! ## Records in memory -/

theorem apart_fields (p : Word) {i j : Word} {m n : Nat} (h : Apart i m j n) :
    Apart (p + i) m (p + j) n := by
  have hij : p + i - (p + j) = i - j := by ring
  have hji : p + j - (p + i) = j - i := by ring
  rw [Apart, hij, hji]
  exact h

/-- A store into one field leaves the other fields alone. -/
theorem readLe_field (mem : X86.Mem) (p : Word) {v w : Nat} (x : BitVec v) {i j : Word}
    (h : Apart i (v / 8) j (w / 8)) :
    readLe w (writeLe mem (p + i) x) (p + j) = readLe w mem (p + j) :=
  readLe_writeLe_apart mem x (apart_fields p h)

/-- `fnstcw` stores half of the field it goes to. -/
theorem readLe_fnstcw (mem : X86.Mem) (a : Word) (cw : BitVec 16) :
    readLe 32 (writeLe mem a cw) a = fnstcw (readLe 32 mem a) cw := by
  have hhigh : readLe 16 (writeLe mem a cw) (a + 2) = readLe 16 mem (a + 2) := by
    have hself : a = a + 0 := (BitVec.add_zero a).symm
    rw [hself, BitVec.add_assoc]
    exact readLe_field mem a cw (by decide)
  have hsplit : ∀ mem : X86.Mem, readLe 32 mem a = readLe 16 mem (a + 2) ++ readLe 16 mem a :=
    fun mem => readLe_append (v := 16) (w := 16) mem (by decide) (by decide) a
  rw [hsplit, hsplit, hhigh, readLe_writeLe mem (by decide) (by decide), fnstcw,
    BitVec.extractLsb'_append_eq_left]

theorem readLe_fldcw (mem : X86.Mem) (a : Word) : readLe 16 mem a = fldcw (readLe 32 mem a) := by
  have hsplit : readLe 32 mem a = readLe 16 mem (a + 2) ++ readLe 16 mem a :=
    readLe_append (v := 16) (w := 16) mem (by decide) (by decide) a
  rw [hsplit, fldcw, BitVec.extractLsb'_append_eq_right]

/-- A record is the 72 bytes it lies in. -/
theorem contextAt_congr {mem mem' : X86.Mem} {p : Word}
    (h : ∀ i < 72, mem (p + BitVec.ofNat 64 i) = mem' (p + BitVec.ofNat 64 i)) :
    contextAt mem p = contextAt mem' p := by
  have hfield : ∀ w j : Nat, j + w / 8 ≤ 72 →
      readLe w mem (p + BitVec.ofNat 64 j) = readLe w mem' (p + BitVec.ofNat 64 j) := by
    intro w j hj
    refine readLe_congr fun i hi => ?_
    rw [BitVec.add_assoc, ← BitVec.ofNat_add]
    exact h (j + i) (by omega)
  simp only [contextAt, Context.mk.injEq]
  exact ⟨hfield 64 0 (by decide), hfield 64 8 (by decide), hfield 64 16 (by decide),
    hfield 64 24 (by decide), hfield 64 32 (by decide), hfield 64 40 (by decide),
    hfield 64 48 (by decide), hfield 64 56 (by decide), hfield 32 64 (by decide),
    hfield 32 68 (by decide)⟩

/-! ## save_context -/

/-- The memory after the ten stores. -/
def savedMem (retaddr : Word) (s : X86.State) : X86.Mem :=
  let p := s.regs .rdi
  let mem := writeLe s.mem (p + 0) (s.regs .rbx)
  let mem := writeLe mem (p + 8) (s.regs .rbp)
  let mem := writeLe mem (p + 16) (s.regs .r12)
  let mem := writeLe mem (p + 24) (s.regs .r13)
  let mem := writeLe mem (p + 32) (s.regs .r14)
  let mem := writeLe mem (p + 40) (s.regs .r15)
  let mem := writeLe mem (p + 48) (s.regs .rsp)
  let mem := writeLe mem (p + 56) retaddr
  let mem := writeLe mem (p + 64) s.mxcsr.val
  writeLe mem (p + 68) s.x87Cw

theorem saveContext_effects (retaddr : Word) (s : X86.State) :
    X86.effects (saveContextOps retaddr) s =
      some (((s.setMem (savedMem retaddr s)).set .rax retaddr).set .rsp (s.regs .rsi)) := by
  simp [saveContextOps, X86.effects, X86.Op.effect, X86.State.addr, field, savedMem]

theorem contextAt_savedMem (k : Code) (s : X86.State) :
    contextAt (savedMem k.retaddr s) (s.regs .rdi) =
      saveContext k (contextAt s.mem (s.regs .rdi)) (cpuOf s) := by
  simp (disch := decide) only [contextAt, savedMem, saveContext, cpuOf, readLe_field,
    readLe_writeLe, readLe_fnstcw]

theorem savedMem_outside (retaddr : Word) (s : X86.State) {x : Word}
    (hx : 72 ≤ (x - s.regs .rdi).toNat) : savedMem retaddr s x = s.mem x := by
  have hout : ∀ (mem : X86.Mem) {w : Nat} (v : BitVec w) (j : Word), j.toNat + w / 8 ≤ 72 →
      writeLe mem (s.regs .rdi + j) v x = mem x := by
    intro mem w v j hj
    refine writeLe_outside mem v ?_
    rw [toNat_sub_add (by omega)]
    omega
  simp (disch := decide) only [savedMem, hout]

/-- `save_context` leaves the context of its caller in the record, and the rest
of the memory as it was. It goes on in the handler, on the other stack. -/
theorem saveContext_run {fetch : X86.Fetch} {k : Code} {l : Labels} (hasm : Assembled fetch k l)
    (s : X86.State) (hrip : s.rip = l.saveContext) :
    ∃ s', X86.run fetch 13 s = some s' ∧
      contextAt s'.mem (s.regs .rdi) =
        saveContext k (contextAt s.mem (s.regs .rdi)) (cpuOf s) ∧
      (∀ x, 72 ≤ (x - s.regs .rdi).toNat → s'.mem x = s.mem x) ∧
      cpuOf s' = { cpuOf s with rsp := s.regs .rsi, rip := s.regs .rdx } := by
  obtain ⟨c, hops, hjmp⟩ := hasm.saveContext.split
  rw [← hrip] at hops
  have hstores := X86.run_ops hops (saveContext_effects k.retaddr s)
  have hrun := X86.run_trans hstores (X86.run_one hjmp.head rfl)
  refine ⟨_, hrun, contextAt_savedMem k s, fun x hx => savedMem_outside k.retaddr s hx, ?_⟩
  simp [cpuOf]

/-! ## load_context -/

/-- The registers after the eight loads. -/
def loadedRegs (s : X86.State) : X86.State :=
  let c := contextAt s.mem (s.regs .rdi)
  (((((((s.set .rbx c.rbx).set .rbp c.rbp).set .r12 c.r12).set .r13 c.r13).set .r14 c.r14).set
    .r15 c.r15).set .rsp c.rsp).set .rax c.rip

theorem loadContext_effects {s : X86.State}
    (hmxcsr : (contextAt s.mem (s.regs .rdi)).mxcsr.toNat < 2 ^ 16) :
    ∃ t, X86.effects loadContextOps s = some t ∧ t.mem = s.mem ∧
      cpuOf (t.goto (t.regs .rax)) = loadContext (contextAt s.mem (s.regs .rdi)) := by
  have hregs : X86.effects loadContextOps s =
      ((loadedRegs s).ldmxcsr (contextAt s.mem (s.regs .rdi)).mxcsr).bind
        (X86.effects [.fldcw (field 68)]) := by
    simp [loadContextOps, X86.effects, X86.Op.effect, X86.State.addr, field, loadedRegs, contextAt]
  rw [hregs, X86.State.ldmxcsr_of_lt _ hmxcsr]
  refine ⟨_, rfl, rfl, ?_⟩
  simp only [cpuOf, loadContext, Cpu.mk.injEq]
  exact ⟨rfl, rfl, rfl, rfl, rfl, rfl, rfl, rfl, rfl, readLe_fldcw s.mem _⟩

/-- `load_context` loads the record into the registers. -/
theorem loadContext_run {fetch : X86.Fetch} {k : Code} {l : Labels} (hasm : Assembled fetch k l)
    (s : X86.State) (hrip : s.rip = l.loadContext)
    (hmxcsr : (contextAt s.mem (s.regs .rdi)).mxcsr.toNat < 2 ^ 16) :
    ∃ s', X86.run fetch 11 s = some s' ∧ s'.mem = s.mem ∧
      cpuOf s' = loadContext (contextAt s.mem (s.regs .rdi)) := by
  obtain ⟨c, hops, hjmp⟩ := hasm.loadContext.split
  rw [← hrip] at hops
  obtain ⟨t, heff, hmem, hcpu⟩ := loadContext_effects hmxcsr
  exact ⟨_, X86.run_trans (X86.run_ops hops heff) (X86.run_one hjmp.head rfl), hmem, hcpu⟩

/-- For the coroutine that called it, `save_context` is a call that returns when
its record is loaded: at the return address, with the stack pointer behind it,
and with the registers and control words of the call. What happens in between
may not touch the record and the return address. -/
theorem saveContext_returns {fetch : X86.Fetch} {k : Code} {l : Labels}
    (hasm : Assembled fetch k l) {s : X86.State} (hcall : s.rip = l.saveContext) :
    ∃ s', X86.run fetch 13 s = some s' ∧ ∀ t : X86.State,
      t.rip = l.loadContext → t.regs .rdi = s.regs .rdi →
      (∀ i < 72, t.mem (s.regs .rdi + BitVec.ofNat 64 i) =
        s'.mem (s.regs .rdi + BitVec.ofNat 64 i)) →
      readLe 64 t.mem (s.regs .rsp) = readLe 64 s.mem (s.regs .rsp) →
        ∃ t', X86.run fetch 12 t = some t' ∧ t'.mem = t.mem ∧ cpuOf t' = returned s := by
  obtain ⟨s', hsave, hctx, -, -⟩ := saveContext_run hasm s hcall
  refine ⟨s', hsave, fun t hrip hrdi hrec hret => ?_⟩
  have hloaded : contextAt t.mem (t.regs .rdi) =
      saveContext k (contextAt s.mem (s.regs .rdi)) (cpuOf s) := by
    rw [hrdi, ← hctx]
    exact contextAt_congr hrec
  -- the saved MXCSR is one the processor had
  have hmxcsr : (contextAt t.mem (t.regs .rdi)).mxcsr.toNat < 2 ^ 16 := by
    rw [hloaded]
    exact s.mxcsr.property
  obtain ⟨u, hload, hmem, hcpu⟩ := loadContext_run hasm t hrip hmxcsr
  rw [hloaded, loadContext_saveContext] at hcpu
  have hurip : u.rip = k.retaddr := congrArg Cpu.rip hcpu
  have hursp : u.regs .rsp = s.regs .rsp := congrArg Cpu.rsp hcpu
  have hfetch := hasm.retaddr.head
  rw [← hurip] at hfetch
  refine ⟨_, X86.run_trans hload (X86.run_one hfetch rfl), hmem, ?_⟩
  simp only [cpuOf, Cpu.mk.injEq] at hcpu
  simp [cpuOf, returned, hcpu, hmem, hret]

namespace Demo

/-- `swapper.s`, one address for each instruction. -/
def text : List X86.Instr :=
  List.flatten
    [(saveContextOps 0x100d).map X86.Instr.op,
      [.jmp .rdx, .ret],
      loadContextOps.map X86.Instr.op,
      [.jmp .rax, .op (.mov .rdi .rsp), .jmp .rsi, .op (.mov .rdx .rcx), .repMovsb, .ret]]

def labels : Labels where
  saveContext := 0x1000
  loadContext := 0x100e
  callWithNewStack := 0x1019
  coMemcpy := 0x101b

def swapperCode : Code := ⟨0x401000, 0x402000, 0x100d⟩

theorem assembled : Assembled (X86.ofList 0x1000 text) swapperCode labels where
  saveContext := by decide
  retaddr := by decide
  loadContext := by decide
  callWithNewStack := by decide
  coMemcpy := ⟨0x101e, by decide⟩

/-- A call of `save_context` with the record at `0x5000`, by a coroutine whose
stack pointer is `0xf000`, and a call of `load_context` with that record. -/
def recordCall (routine : Word) (mem : X86.Mem) : X86.State where
  regs := X86.callRegs 0x5000 0xa000 0x403000 0xf000 routine
  rip := routine
  mem := mem
  mxcsr := .initial
  x87Cw := 0x37f

end Demo

theorem saveContext_returns_demo :
    ∃ s' t',
      X86.run (X86.ofList 0x1000 Demo.text) 13 (Demo.recordCall 0x1000 fun _ => 9) = some s' ∧
      X86.run (X86.ofList 0x1000 Demo.text) 12 (Demo.recordCall 0x100e s'.mem) = some t' ∧
      cpuOf t' = returned (Demo.recordCall 0x1000 fun _ => 9) := by
  obtain ⟨s', hsave, hreturns⟩ :=
    saveContext_returns Demo.assembled (s := Demo.recordCall 0x1000 fun _ => 9) rfl
  obtain ⟨s₁, hrun, -, hout, -⟩ :=
    saveContext_run Demo.assembled (Demo.recordCall 0x1000 fun _ => 9) rfl
  obtain rfl : s₁ = s' := Option.some_injective _ (hrun.symm.trans hsave)
  have hfar : ∀ i < 8, 72 ≤ ((0xf000 : Word) + BitVec.ofNat 64 i - 0x5000).toNat := by decide
  obtain ⟨t', hload, -, hcpu⟩ := hreturns (Demo.recordCall 0x100e s₁.mem) rfl rfl
    (fun _ _ => rfl) (readLe_congr fun i hi => hout _ (hfar i hi))
  exact ⟨s₁, t', hsave, hload, hcpu⟩

/-! ## co_memcpy -/

/-- A call `co_memcpy(dst, src, len)`. -/
structure CallsMemcpy (l : Labels) (s : X86.State) (dst src len : Word) : Prop where
  rip : s.rip = l.coMemcpy
  rdi : s.regs .rdi = dst
  rsi : s.regs .rsi = src
  rdx : s.regs .rdx = len
  /-- The return address is not in the destination. -/
  ret : Apart dst len.toNat (s.regs .rsp) 8

/-- `co_memcpy` is `memcpy` for a destination that does not start inside the
source, and it returns to its caller. -/
theorem CallsMemcpy.run {fetch : X86.Fetch} {k : Code} {l : Labels} (hasm : Assembled fetch k l)
    {s : X86.State} {dst src len : Word} (hcall : CallsMemcpy l s dst src len)
    (hfwd : len.toNat ≤ (dst - src).toNat) :
    ∃ s', X86.run fetch (len.toNat + 3) s = some s' ∧
      s'.mem = writeBytes s.mem dst (readBytes s.mem src len.toNat) ∧ cpuOf s' = returned s := by
  obtain ⟨hrip, rfl, rfl, rfl, hret⟩ := hcall
  obtain ⟨e, a, hmov, b, hrep, c, hretq, -⟩ := hasm.coMemcpy
  rw [← hrip] at hmov
  have hcount : X86.run fetch 1 s = some ((s.set .rcx (s.regs .rdx)).goto a) :=
    X86.run_one hmov rfl
  have hcopy := X86.run_repMovsb (s := (s.set .rcx (s.regs .rdx)).goto a) hrep
  generalize hu : ((s.set .rcx (s.regs .rdx)).goto a).repMovsb.goto b = u at hcopy
  have humem : u.mem = writeBytes s.mem (s.regs .rdi)
      (readBytes s.mem (s.regs .rsi) (s.regs .rdx).toNat) := by
    rw [← X86.copyUp_eq hfwd, ← hu]
    rfl
  have hucpu : cpuOf u = { cpuOf s with rip := b } := by
    rw [← hu]
    rfl
  have hurip : u.rip = b := congrArg Cpu.rip hucpu
  rw [← hurip] at hretq
  have hrun := X86.run_trans (X86.run_trans hcount hcopy) (X86.run_one hretq rfl)
  have hsteps : 1 + ((s.regs .rdx).toNat + 1) + 1 = (s.regs .rdx).toNat + 3 := by omega
  rw [X86.State.goto_regs, X86.State.set_regs, if_pos rfl, hsteps] at hrun
  refine ⟨_, hrun, humem, ?_⟩
  have hslot : readLe 64 u.mem (s.regs .rsp) = readLe 64 s.mem (s.regs .rsp) := by
    rw [humem, readLe, readLe, readBytes_writeBytes_apart _ (by simpa using hret)]
  simp only [cpuOf, Cpu.mk.injEq] at hucpu
  simp [cpuOf, returned, hucpu, hslot]

end NetTraverse
