import NetTraverse.Lib.Words

/-!
# A fragment of x86-64

The instructions that hand-written context switches are made of: moves between
registers and memory, the stack, the two floating-point control words, the
string copy, and jumps. Operands are in the order of the assembler, source
first.

* Code is a partial map from addresses to instructions, each with the address
  behind it. It is not part of the memory: the code does not modify itself.
* `Op.effect` is what a straight-line instruction does; `none` is a fault.
  Flags are left out: none of these instructions reads the arithmetic ones, and
  the direction flag is clear at every call.
* `run` counts steps. `run_ops` runs a straight-line block at once, and
  `run_repMovsb` a whole string copy.
-/

namespace X86

open Region Words

abbrev Addr := BitVec 64

abbrev Mem := Addr → UInt8

inductive Reg where
  | rax | rbx | rcx | rdx | rsi | rdi | rbp | rsp
  | r8 | r9 | r10 | r11 | r12 | r13 | r14 | r15
deriving DecidableEq, Repr

/-- The registers of a call with three arguments. -/
def callRegs {α : Type} (rdi rsi rdx rsp others : α) : Reg → α
  | .rdi => rdi
  | .rsi => rsi
  | .rdx => rdx
  | .rsp => rsp
  | _ => others

/-- The upper half of MXCSR is reserved, and reads as zero. -/
abbrev Mxcsr := { x : BitVec 32 // x.toNat < 2 ^ 16 }

/-- All exceptions masked, as after a reset. -/
def Mxcsr.initial : Mxcsr := ⟨0x1f80, by decide⟩

@[ext]
structure State where
  regs : Reg → Addr
  rip : Addr
  mem : Mem
  mxcsr : Mxcsr
  x87Cw : BitVec 16

/-- `disp(%base)`. -/
structure MemArg where
  disp : Addr
  base : Reg
deriving DecidableEq, Repr

/-- The straight-line instructions. The assembler has resolved the label of a
`lea`. -/
inductive Op where
  | mov (src dst : Reg)
  | store (src : Reg) (dst : MemArg)
  | load (src : MemArg) (dst : Reg)
  | lea (label : Addr) (dst : Reg)
  | push (src : Reg)
  | pop (dst : Reg)
  | sub (imm : Addr) (dst : Reg)
  | add (imm : Addr) (dst : Reg)
  | stmxcsr (dst : MemArg)
  | ldmxcsr (src : MemArg)
  | fnstcw (dst : MemArg)
  | fldcw (src : MemArg)
deriving DecidableEq, Repr

inductive Instr where
  | op (o : Op)
  | jmp (target : Reg)
  | ret
  | repMovsb
deriving DecidableEq, Repr

namespace State

variable (s : State)

def set (r : Reg) (x : Addr) : State := { s with regs := Function.update s.regs r x }

def setMem (mem : Mem) : State := { s with mem := mem }

def goto (a : Addr) : State := { s with rip := a }

/-- The address that an operand names. -/
def addr (m : MemArg) : Addr := s.regs m.base + m.disp

@[simp] theorem set_regs (r q : Reg) (x : Addr) :
    (s.set r x).regs q = if q = r then x else s.regs q := Function.update_apply ..
@[simp] theorem set_mem (r : Reg) (x : Addr) : (s.set r x).mem = s.mem := rfl
@[simp] theorem set_rip (r : Reg) (x : Addr) : (s.set r x).rip = s.rip := rfl
@[simp] theorem set_mxcsr (r : Reg) (x : Addr) : (s.set r x).mxcsr = s.mxcsr := rfl
@[simp] theorem set_x87Cw (r : Reg) (x : Addr) : (s.set r x).x87Cw = s.x87Cw := rfl
@[simp] theorem setMem_regs (mem : Mem) : (s.setMem mem).regs = s.regs := rfl
@[simp] theorem setMem_mem (mem : Mem) : (s.setMem mem).mem = mem := rfl
@[simp] theorem setMem_rip (mem : Mem) : (s.setMem mem).rip = s.rip := rfl
@[simp] theorem setMem_mxcsr (mem : Mem) : (s.setMem mem).mxcsr = s.mxcsr := rfl
@[simp] theorem setMem_x87Cw (mem : Mem) : (s.setMem mem).x87Cw = s.x87Cw := rfl
@[simp] theorem goto_regs (a : Addr) : (s.goto a).regs = s.regs := rfl
@[simp] theorem goto_mem (a : Addr) : (s.goto a).mem = s.mem := rfl
@[simp] theorem goto_rip (a : Addr) : (s.goto a).rip = a := rfl
@[simp] theorem goto_mxcsr (a : Addr) : (s.goto a).mxcsr = s.mxcsr := rfl
@[simp] theorem goto_x87Cw (a : Addr) : (s.goto a).x87Cw = s.x87Cw := rfl
@[simp] theorem setMem_setMem (mem mem' : Mem) : (s.setMem mem).setMem mem' = s.setMem mem' := rfl
@[simp] theorem set_setMem (r : Reg) (x : Addr) (mem : Mem) :
    (s.set r x).setMem mem = (s.setMem mem).set r x := rfl
@[simp] theorem goto_goto (a b : Addr) : (s.goto a).goto b = s.goto b := rfl

/-- Load MXCSR; a reserved bit that is set raises #GP. -/
def ldmxcsr (x : BitVec 32) : Option State :=
  if h : x.toNat < 2 ^ 16 then some { s with mxcsr := ⟨x, h⟩ } else none

theorem ldmxcsr_of_lt {x : BitVec 32} (h : x.toNat < 2 ^ 16) :
    s.ldmxcsr x = some { s with mxcsr := ⟨x, h⟩ } := dif_pos h

theorem goto_ldmxcsr (a : Addr) (x : BitVec 32) :
    (s.goto a).ldmxcsr x = (s.ldmxcsr x).map (·.goto a) := by
  by_cases h : x.toNat < 2 ^ 16
  · rw [ldmxcsr, ldmxcsr, dif_pos h, dif_pos h]
    rfl
  · rw [ldmxcsr, ldmxcsr, dif_neg h, dif_neg h]
    rfl

/-- One round of `rep movsb`. -/
def movsb : State :=
  (((s.setMem (Function.update s.mem (s.regs .rdi) (s.mem (s.regs .rsi)))).set .rsi
    (s.regs .rsi + 1)).set .rdi (s.regs .rdi + 1)).set .rcx (s.regs .rcx - 1)

end State

/-- What a straight-line instruction does, its own address apart. -/
def Op.effect (s : State) : Op → Option State
  | .mov src dst => some (s.set dst (s.regs src))
  | .store src dst => some (s.setMem (writeLe s.mem (s.addr dst) (s.regs src)))
  | .load src dst => some (s.set dst (readLe 64 s.mem (s.addr src)))
  | .lea label dst => some (s.set dst label)
  | .push src =>
    some ((s.setMem (writeLe s.mem (s.regs .rsp - 8) (s.regs src))).set .rsp (s.regs .rsp - 8))
  | .pop dst => some ((s.set .rsp (s.regs .rsp + 8)).set dst (readLe 64 s.mem (s.regs .rsp)))
  | .sub imm dst => some (s.set dst (s.regs dst - imm))
  | .add imm dst => some (s.set dst (s.regs dst + imm))
  | .stmxcsr dst => some (s.setMem (writeLe s.mem (s.addr dst) s.mxcsr.val))
  | .ldmxcsr src => s.ldmxcsr (readLe 32 s.mem (s.addr src))
  | .fnstcw dst => some (s.setMem (writeLe s.mem (s.addr dst) s.x87Cw))
  | .fldcw src => some { s with x87Cw := readLe 16 s.mem (s.addr src) }

def Instr.exec (next : Addr) (s : State) : Instr → Option State
  | .op o => (o.effect s).map (·.goto next)
  | .jmp target => some (s.goto (s.regs target))
  | .ret =>
    some ((s.set .rsp (s.regs .rsp + 8)).goto (readLe 64 s.mem (s.regs .rsp)))
  | .repMovsb => if s.regs .rcx = 0 then some (s.goto next) else some s.movsb

/-- The instruction at an address, and the address behind it. -/
abbrev Fetch := Addr → Option (Instr × Addr)

def step (fetch : Fetch) (s : State) : Option State := do
  let (i, next) ← fetch s.rip
  i.exec next s

/-- `n` steps. -/
def run (fetch : Fetch) : Nat → State → Option State
  | 0, s => some s
  | n + 1, s => (step fetch s).bind (run fetch n)

/-- The instructions `is` lie one after the other from `a` up to `b`. -/
def CodeAt (fetch : Fetch) : Addr → List Instr → Addr → Prop
  | a, [], b => a = b
  | a, i :: is, b => ∃ c, fetch a = some (i, c) ∧ CodeAt fetch c is b

instance decidableCodeAt (fetch : Fetch) :
    ∀ (a : Addr) (is : List Instr) (b : Addr), Decidable (CodeAt fetch a is b)
  | a, [], b => inferInstanceAs (Decidable (a = b))
  | a, i :: is, b =>
    match hi : fetch a with
    | none => isFalse fun ⟨c, hc, _⟩ => by rw [hi] at hc; cases hc
    | some (j, c) =>
      have := decidableCodeAt fetch c is b
      decidable_of_iff (j = i ∧ CodeAt fetch c is b)
        ⟨fun ⟨hj, hrest⟩ => ⟨c, by rw [hi, hj], hrest⟩,
          fun ⟨d, hd, hrest⟩ => by rw [hi] at hd; cases hd; exact ⟨rfl, hrest⟩⟩

/-- A listing from `base` upwards, one address for each instruction. -/
def ofList (base : Addr) (is : List Instr) : Fetch := fun a =>
  is[(a - base).toNat]?.map (·, a + 1)

/-- The effects of a straight-line block. -/
def effects : List Op → State → Option State
  | [], s => some s
  | o :: os, s => (o.effect s).bind (effects os)

variable {fetch : Fetch}

/-! ## Runs -/

theorem run_add (m n : Nat) (s : State) :
    run fetch (m + n) s = (run fetch m s).bind (run fetch n) := by
  induction m generalizing s with
  | zero => simp [run]
  | succ m ih =>
    rw [Nat.succ_add, run, run, Option.bind_assoc]
    exact Option.bind_congr fun s' _ => ih s'

/-- A run continued by another one. -/
theorem run_trans {m n : Nat} {s t u : State} (hm : run fetch m s = some t)
    (hn : run fetch n t = some u) : run fetch (m + n) s = some u := by
  rw [run_add, hm, Option.bind_some, hn]

theorem run_one {i : Instr} {next : Addr} {s t : State} (hi : fetch s.rip = some (i, next))
    (hexec : i.exec next s = some t) : run fetch 1 s = some t := by
  simp [run, step, hi, hexec]

theorem CodeAt.split {is js : List Instr} {a b : Addr} (h : CodeAt fetch a (is ++ js) b) :
    ∃ c, CodeAt fetch a is c ∧ CodeAt fetch c js b := by
  induction is generalizing a with
  | nil => exact ⟨a, rfl, h⟩
  | cons i is ih =>
    obtain ⟨c, hi, hrest⟩ := h
    obtain ⟨d, his, hjs⟩ := ih hrest
    exact ⟨d, ⟨c, hi, his⟩, hjs⟩

theorem CodeAt.head {i : Instr} {a b : Addr} (h : CodeAt fetch a [i] b) :
    fetch a = some (i, b) := by
  obtain ⟨c, hi, rfl⟩ := h
  exact hi

/-- An instruction's effect does not look at the instruction pointer. -/
theorem effect_goto (o : Op) (s : State) (a : Addr) :
    o.effect (s.goto a) = (o.effect s).map (·.goto a) := by
  cases o with
  | ldmxcsr src => exact s.goto_ldmxcsr a _
  | _ => rfl

theorem effects_goto (os : List Op) (s : State) (a : Addr) :
    effects os (s.goto a) = (effects os s).map (·.goto a) := by
  induction os generalizing s with
  | nil => rfl
  | cons o os ih =>
    rw [effects, effects, effect_goto]
    cases o.effect s with
    | none => rfl
    | some s' => exact ih s'

/-- A straight-line block runs from its first address to the one behind it. -/
theorem run_ops {os : List Op} {s t : State} {b : Addr}
    (hcode : CodeAt fetch s.rip (os.map Instr.op) b) (heff : effects os s = some t) :
    run fetch os.length s = some (t.goto b) := by
  induction os generalizing s t with
  | nil =>
    cases heff
    cases hcode
    rfl
  | cons o os ih =>
    obtain ⟨c, hi, hrest⟩ := hcode
    obtain ⟨s', hs', ht⟩ := Option.bind_eq_some_iff.mp heff
    have hstep : run fetch 1 s = some (s'.goto c) :=
      run_one hi (by rw [Instr.exec, hs', Option.map_some])
    have hrun := ih (s := s'.goto c) (t := t.goto c) hrest
      (by rw [effects_goto, ht, Option.map_some])
    rw [List.length_cons, Nat.add_comm]
    exact run_trans hstep hrun

/-! ## The string copy -/

/-- Copy `n` bytes upwards, one at a time. -/
def copyUp (mem : Mem) (src dst : Addr) : Nat → Mem
  | 0 => mem
  | n + 1 => copyUp (Function.update mem dst (mem src)) (src + 1) (dst + 1) n

/-- The state after `rep movsb`. -/
def State.repMovsb (s : State) : State :=
  (((s.setMem (copyUp s.mem (s.regs .rsi) (s.regs .rdi) (s.regs .rcx).toNat)).set .rsi
    (s.regs .rsi + s.regs .rcx)).set .rdi (s.regs .rdi + s.regs .rcx)).set .rcx 0

theorem repMovsb_zero {s : State} (hz : s.regs .rcx = 0) : s.repMovsb = s := by
  apply State.ext
  · funext r
    cases r <;> simp [State.repMovsb, hz]
  · rfl
  · simp [State.repMovsb, hz, copyUp]
  · rfl
  · rfl

theorem repMovsb_movsb {s : State} {n : Nat} (hn : (s.regs .rcx).toNat = n + 1)
    (hdec : (s.regs .rcx - 1).toNat = n) : s.movsb.repMovsb = s.repMovsb := by
  apply State.ext
  · funext r
    cases r <;> simp [State.repMovsb, State.movsb]
  · rfl
  · simp only [State.repMovsb, State.movsb, State.set_mem, State.setMem_mem, State.set_regs,
      State.setMem_regs, reduceCtorEq, if_true, if_false, hn, hdec, copyUp]
  · rfl
  · rfl

/-- `rep movsb` takes one step for every byte and one to notice the end. -/
theorem run_repMovsb {s : State} {next : Addr} (hi : fetch s.rip = some (.repMovsb, next)) :
    run fetch ((s.regs .rcx).toNat + 1) s = some (s.repMovsb.goto next) := by
  generalize hn : (s.regs .rcx).toNat = n
  induction n generalizing s with
  | zero =>
    have hz : s.regs .rcx = 0 := BitVec.eq_of_toNat_eq hn
    exact run_one hi (by rw [Instr.exec, if_pos hz, repMovsb_zero hz])
  | succ n ih =>
    have hnz : s.regs .rcx ≠ 0 := fun hz => by simp [hz] at hn
    have hdec : (s.regs .rcx - 1).toNat = n := by
      rw [BitVec.toNat_sub_of_le (by rw [BitVec.le_def]; simp [hn]), hn]
      rfl
    have hstep : run fetch 1 s = some s.movsb :=
      run_one hi (by rw [Instr.exec, if_neg hnz])
    rw [Nat.add_comm, ← repMovsb_movsb hn hdec]
    exact run_trans hstep (ih hi (by simpa [State.movsb] using hdec))

/-- Upwards is safe as long as the destination does not start inside the
source: then every byte is read before it is overwritten. -/
theorem copyUp_eq {mem : Mem} {src dst : Addr} {n : Nat} (h : n ≤ (dst - src).toNat) :
    copyUp mem src dst n = writeBytes mem dst (readBytes mem src n) := by
  induction n generalizing mem src dst with
  | zero =>
    funext x
    rw [copyUp, writeBytes_outside]
    exact Nat.zero_le _
  | succ n ih =>
    have hlt := (dst - src).isLt
    have hnext : dst + 1 - (src + 1) = dst - src := by ring
    have hrest : readBytes (Function.update mem dst (mem src)) (src + 1) n =
        readBytes mem (src + 1) n := by
      refine readBytes_congr fun i hi => Function.update_of_ne (fun he => ?_) ..
      have hcomm : ∀ x : Addr, src + 1 + x - src = x + 1 := fun x => by ring
      have hoff : dst - src = BitVec.ofNat 64 (i + 1) := by
        rw [← he, hcomm, BitVec.ofNat_add]
        rfl
      rw [hoff, BitVec.toNat_ofNat, Nat.mod_eq_of_lt (by omega)] at h
      omega
    rw [copyUp, ih (by rw [hnext]; omega), hrest, readBytes_succ, writeBytes_cons]
    rw [length_readBytes]
    omega

end X86
