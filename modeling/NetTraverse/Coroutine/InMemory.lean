import NetTraverse.Coroutine.Swapper
import NetTraverse.Coroutine.StackCopies

/-!
# The machine in memory

`Machine` keeps the coroutines and their stacks as objects. Here they lie in the
memory of the processor, each in a region of its own, and the routines of
`swapper.s` are run on it: `save_context` is `Machine.save`, `load_context` is
`Machine.load`, and two calls of `co_memcpy` are `Machine.coSwapIn`.
-/

namespace NetTraverse

open Words Region Swapper

/-- Where `new` and `malloc` put the records and the stack copies. -/
structure Layout where
  record : CoId → Word
  copy : CoId → Word

/-- `save_stack` has put the copy of `c` into a new block. -/
def Layout.withCopy (lay : Layout) (c : CoId) (block : Word) : Layout :=
  { lay with copy := Function.update lay.copy c block }

/-- What the coroutine library has in memory. -/
inductive Part where
  | record (c : CoId)
  | copy (c : CoId)
  | stack (sid : StackId)
deriving DecidableEq

/-- The buffer of a co_stack lies in memory. -/
def CoStack.InMemory (st : CoStack) (mem : X86.Mem) : Prop :=
  ∀ i < (st.stackTop - st.stackBottom).toNat,
    mem (st.stackBottom + BitVec.ofNat 64 i) = st.bytes (st.stackBottom + BitVec.ofNat 64 i)

namespace Heap

variable (h : Heap) (lay : Layout)

/-- The first address and the length of a part. -/
def region : Part → Option (Word × Nat)
  | .record c => (h.cos c).map fun _ => (lay.record c, 72)
  | .copy c => do
    let co ← h.cos c
    let copy ← co.stackCopy
    some (lay.copy c, copy.length)
  | .stack sid =>
    (h.coStacks sid).map fun st => (st.stackBottom, (st.stackTop - st.stackBottom).toNat)

theorem region_record {c : CoId} {co : Coroutine} (hobj : h.cos c = some co) :
    h.region lay (.record c) = some (lay.record c, 72) := by simp [region, hobj]

theorem region_copy {c : CoId} {co : Coroutine} {copy : List UInt8} (hobj : h.cos c = some co)
    (hcopy : co.stackCopy = some copy) :
    h.region lay (.copy c) = some (lay.copy c, copy.length) := by simp [region, hobj, hcopy]

theorem region_stack {sid : StackId} {st : CoStack} (hst : h.coStacks sid = some st) :
    h.region lay (.stack sid) =
      some (st.stackBottom, (st.stackTop - st.stackBottom).toNat) := by simp [region, hst]

/-- A block that no part reaches into. -/
def Free (a : Word) (n : Nat) : Prop :=
  ∀ p b m, h.region lay p = some (b, m) → Apart a n b m

/-- The part is in memory as the heap has it. -/
def Holds (mem : X86.Mem) : Part → Prop
  | .record c => ∀ co, h.cos c = some co → contextAt mem (lay.record c) = co.savedCtx
  | .copy c => ∀ co copy, h.cos c = some co → co.stackCopy = some copy →
    readBytes mem (lay.copy c) copy.length = copy
  | .stack sid => ∀ st, h.coStacks sid = some st → st.InMemory mem

structure InMemory (mem : X86.Mem) : Prop where
  holds : ∀ p, h.Holds lay mem p
  apart : ∀ p q a m b n, p ≠ q → h.region lay p = some (a, m) →
    h.region lay q = some (b, n) → Apart a m b n

/-- What lies between the parts may change. -/
def Untouched (mem mem' : X86.Mem) : Prop :=
  ∀ p b n, h.region lay p = some (b, n) →
    ∀ i < n, mem' (b + BitVec.ofNat 64 i) = mem (b + BitVec.ofNat 64 i)

/-- Every saved MXCSR is one that `ldmxcsr` takes. -/
def MxcsrOk : Prop :=
  ∀ c co, h.cos c = some co → co.savedCtx.mxcsr.toNat < 2 ^ 16

end Heap

namespace InMemoryLemmas

open SwitchLemmas CopiesLemmas

variable {h h' : Heap} {lay : Layout} {mem mem' : X86.Mem} {a : Word} {n : Nat}

/-- `mem'` differs from `mem` in the `n` bytes from `a` only. -/
def SameOutside (mem mem' : X86.Mem) (a : Word) (n : Nat) : Prop :=
  ∀ x, n ≤ (x - a).toNat → mem' x = mem x

/-- A part is what is in its region. -/
theorem holds_congr {p : Part} (hold : h.Holds lay mem p)
    (hsame : ∀ b m, h.region lay p = some (b, m) →
      ∀ i < m, mem' (b + BitVec.ofNat 64 i) = mem (b + BitVec.ofNat 64 i)) :
    h.Holds lay mem' p := by
  cases p with
  | record c =>
    intro co hobj
    rw [← hold co hobj]
    exact contextAt_congr (hsame _ _ (h.region_record lay hobj))
  | copy c =>
    intro co copy hobj hcopy
    rw [readBytes_congr (hsame _ _ (h.region_copy lay hobj hcopy))]
    exact hold co copy hobj hcopy
  | stack sid =>
    intro st hst i hi
    rw [hsame _ _ (h.region_stack lay hst) i hi]
    exact hold st hst i hi

/-- A part stays in memory when the stores go elsewhere. -/
theorem holds_kept {p : Part} (hold : h.Holds lay mem p) (hsame : SameOutside mem mem' a n)
    (happart : ∀ b m, h.region lay p = some (b, m) → Apart a n b m) : h.Holds lay mem' p :=
  holds_congr hold fun b m hp _ hi => hsame _ ((happart b m hp).outside hi)

theorem inMemory_untouched {h : Heap} {mem mem' : X86.Mem} (hmem : h.InMemory lay mem)
    (hsame : h.Untouched lay mem mem') : h.InMemory lay mem' :=
  ⟨fun p => holds_congr (hmem.holds p) (hsame p), hmem.apart⟩

/-! ## Switching registers -/

variable {m m' : Machine} {k : Code} {l : Labels} {fetch : X86.Fetch} {c : CoId} {co : Coroutine}
  {sid : StackId} {st : CoStack} {s : X86.State}

/-- A change of a record leaves the regions as they are. -/
theorem region_setCo {new : Coroutine} (hobj : h.cos c = some co)
    (hcopy : new.stackCopy = co.stackCopy) (p : Part) :
    (h.setCo c new).region lay p = h.region lay p := by
  cases p with
  | record d =>
    by_cases hd : d = c
    · subst hd
      simp [Heap.region, hobj]
    · simp [Heap.region, hd]
  | copy d =>
    by_cases hd : d = c
    · subst hd
      simp [Heap.region, hobj, hcopy]
    · simp [Heap.region, hd]
  | stack sid => rfl

/-- `save_context(&current->saved_ctx, ..)` is `Machine.save`. -/
theorem save_refines (hasm : Assembled fetch k l) (hmem : m.heap.InMemory lay s.mem)
    (hcpu : cpuOf s = m.cpu) (hrip : s.rip = l.saveContext)
    (hrdi : s.regs .rdi = lay.record m.sched.current) {img : Image}
    (hsave : m.save k = some (img, m')) :
    ∃ s', X86.run fetch 13 s = some s' ∧ m'.heap.InMemory lay s'.mem ∧
      cpuOf s' = { m.cpu with rsp := s.regs .rsi, rip := s.regs .rdx } := by
  simp only [Machine.save, Option.bind_eq_bind, Option.bind_eq_some_iff, Option.some.injEq,
    Prod.mk.injEq] at hsave
  obtain ⟨co, hobj, img', -, -, rfl⟩ := hsave
  obtain ⟨s', hrun, hctx, hout, hcpu'⟩ := saveContext_run hasm s hrip
  rw [hcpu] at hctx hcpu'
  rw [hrdi, hmem.holds (.record m.sched.current) co hobj] at hctx
  rw [hrdi] at hout
  refine ⟨s', hrun, ?_, hcpu'⟩
  have hregion : ∀ p, (m.heap.setCo m.sched.current { co with
      savedCtx := saveContext k co.savedCtx m.cpu }).region lay p = m.heap.region lay p :=
    region_setCo hobj rfl
  have hrec := m.heap.region_record lay hobj
  constructor
  · intro p
    by_cases hp : p = .record m.sched.current
    · subst hp
      intro co' hobj'
      simp only [Heap.setCo_cos, if_true, Option.some.injEq] at hobj'
      subst hobj'
      exact hctx
    · have hkept := holds_kept (hmem.holds p) hout fun b n hb =>
        hmem.apart _ p _ _ b n (Ne.symm hp) hrec hb
      cases p with
      | record d =>
        have hd : d ≠ m.sched.current := fun he => hp (by rw [he])
        intro co' hobj'
        simp only [Heap.setCo_cos, hd, if_false] at hobj'
        exact hkept co' hobj'
      | copy d =>
        intro co' copy hobj' hcopy
        by_cases hd : d = m.sched.current
        · subst hd
          simp only [Heap.setCo_cos, if_true, Option.some.injEq] at hobj'
          subst hobj'
          exact hkept co copy hobj hcopy
        · simp only [Heap.setCo_cos, hd, if_false] at hobj'
          exact hkept co' copy hobj' hcopy
      | stack sid => exact hkept
  · intro p q a n b n' hpq hpr hqr
    rw [hregion] at hpr hqr
    exact hmem.apart p q a n b n' hpq hpr hqr

/-- `load_context(&current->saved_ctx)` is `Machine.load`. -/
theorem load_refines (hasm : Assembled fetch k l) (hmem : m.heap.InMemory lay s.mem)
    (hrip : s.rip = l.loadContext) (hrdi : s.regs .rdi = lay.record m.sched.current)
    (hload : m.load = some m') (hmxcsr : m'.cpu.mxcsr.toNat < 2 ^ 16) :
    ∃ s', X86.run fetch 11 s = some s' ∧ m'.heap.InMemory lay s'.mem ∧ cpuOf s' = m'.cpu := by
  simp only [Machine.load, Option.bind_eq_bind, Option.bind_eq_some_iff,
    Option.some.injEq] at hload
  obtain ⟨co, hobj, img, -, rfl⟩ := hload
  have hctx : contextAt s.mem (s.regs .rdi) = co.savedCtx := by
    rw [hrdi]
    exact hmem.holds (.record m.sched.current) co hobj
  obtain ⟨s', hrun, hsame, hcpu⟩ := loadContext_run hasm s hrip (by rw [hctx]; exact hmxcsr)
  rw [hctx] at hcpu
  exact ⟨s', hrun, by rw [hsame]; exact hmem, hcpu⟩

/-! ## Swapping a shared stack -/

/-- The part of the buffer from `a` up to the top, seen from the bottom. -/
theorem offset_top {bottom top a : Word} (hlow : bottom ≤ a) (hhigh : a ≤ top) :
    (a - bottom).toNat + (top - a).toNat = (top - bottom).toNat := by
  rw [BitVec.toNat_sub_of_le hlow, BitVec.toNat_sub_of_le hhigh,
    BitVec.toNat_sub_of_le (BitVec.le_trans hlow hhigh)]
  rw [BitVec.le_def] at hlow hhigh
  omega

/-- What is in use of a stack, read from memory. -/
theorem readBytes_above (hst : st.InMemory mem) {a : Word} (hlow : st.stackBottom ≤ a)
    (hhigh : a ≤ st.stackTop) : readBytes mem a (st.stackTop - a).toNat = st.above a := by
  refine readBytes_congr fun i hi => ?_
  have hoff := offset_top hlow hhigh
  have hcell := hst ((a - st.stackBottom).toNat + i) (by omega)
  have hback : st.stackBottom + BitVec.ofNat 64 ((a - st.stackBottom).toNat + i) =
      a + BitVec.ofNat 64 i := by
    rw [BitVec.ofNat_add, BitVec.ofNat_toNat, BitVec.setWidth_eq, ← BitVec.add_assoc]
    congr 1
    ring
  rwa [hback] at hcell

/-- Another copy for `c` moves nothing but that copy. -/
theorem region_withCopy {new : Coroutine} {block : Word} (hobj : h.cos c = some co) {p : Part}
    (hp : p ≠ .copy c) : (h.setCo c new).region (lay.withCopy c block) p = h.region lay p := by
  cases p with
  | record d =>
    by_cases hd : d = c
    · subst hd
      simp [Heap.region, hobj, Layout.withCopy]
    · simp [Heap.region, hd, Layout.withCopy]
  | copy d =>
    have hd : d ≠ c := fun he => hp (by rw [he])
    simp [Heap.region, hd, Layout.withCopy]
  | stack sid => rfl

theorem holds_withCopy {new : Coroutine} {block : Word} (hobj : h.cos c = some co)
    (hctx : new.savedCtx = co.savedCtx) {p : Part} (hp : p ≠ .copy c)
    (hold : h.Holds lay mem p) : (h.setCo c new).Holds (lay.withCopy c block) mem p := by
  cases p with
  | record d =>
    intro co' hobj'
    by_cases hd : d = c
    · subst hd
      simp only [Heap.setCo_cos, if_true, Option.some.injEq] at hobj'
      subst hobj'
      rw [hctx]
      exact hold co hobj
    · simp only [Heap.setCo_cos, hd, if_false] at hobj'
      exact hold co' hobj'
  | copy d =>
    have hd : d ≠ c := fun he => hp (by rw [he])
    intro co' copy hobj' hcopy
    simp only [Heap.setCo_cos, hd, if_false] at hobj'
    simp only [Layout.withCopy, Function.update_of_ne hd]
    exact hold co' copy hobj' hcopy
  | stack sid => exact hold

theorem apart_symm {a b : Word} {m n : Nat} (h : Apart a m b n) : Apart b n a m := ⟨h.2, h.1⟩

/-- The copy that `save_stack` makes with `co_memcpy`, into a block `malloc`
has just returned, is the one of `Machine.saveStack`. -/
theorem saveStack_refines (hasm : Assembled fetch k l) (hmem : m.heap.InMemory lay s.mem)
    (hp : m.heap.Placed c co sid st) (hlow : st.stackBottom ≤ co.savedCtx.rsp)
    (hhigh : co.savedCtx.rsp ≤ st.stackTop) {block : Word}
    (hcall : CallsMemcpy l s block co.savedCtx.rsp (st.stackTop - co.savedCtx.rsp))
    (hfree : m.heap.Free lay block (st.stackTop - co.savedCtx.rsp).toNat)
    (hsave : m.saveStack c = some m') :
    ∃ s', X86.run fetch ((st.stackTop - co.savedCtx.rsp).toNat + 3) s = some s' ∧
      m'.heap.InMemory (lay.withCopy c block) s'.mem ∧ cpuOf s' = returned s := by
  obtain ⟨new, hheap, hctx, hcopy⟩ : ∃ new, m'.heap = m.heap.setCo c new ∧
      new.savedCtx = co.savedCtx ∧ new.stackCopy = some (st.above co.savedCtx.rsp) := by
    rw [saveStack_eq hp, Option.some.injEq] at hsave
    subst hsave
    exact ⟨_, rfl, rfl, rfl⟩
  have hoff := offset_top hlow hhigh
  have hfwd : (st.stackTop - co.savedCtx.rsp).toNat ≤ (block - co.savedCtx.rsp).toNat := by
    have hin := (hfree _ _ _ (m.heap.region_stack lay hp.buf)).inside
      (j := co.savedCtx.rsp - st.stackBottom) (k := (st.stackTop - co.savedCtx.rsp).toNat)
      (by omega)
    rwa [add_sub_cancel] at hin
  obtain ⟨s', hrun, hmem', hcpu⟩ := hcall.run hasm hfwd
  rw [readBytes_above (hmem.holds (.stack sid) st hp.buf) hlow hhigh] at hmem'
  refine ⟨s', hrun, ?_, hcpu⟩
  have hlen : (st.above co.savedCtx.rsp).length = (st.stackTop - co.savedCtx.rsp).toNat := by
    simp [CoStack.above]
  have hsame : SameOutside s.mem s'.mem block (st.stackTop - co.savedCtx.rsp).toNat := by
    intro x hx
    rw [hmem', writeBytes_outside _ _ _ (by rwa [hlen])]
  have hblock : ∀ b n, (m.heap.setCo c new).region (lay.withCopy c block) (.copy c) =
      some (b, n) → b = block ∧ n = (st.stackTop - co.savedCtx.rsp).toNat := by
    intro b n hb
    simp only [Heap.region, Heap.setCo_cos, if_true, Layout.withCopy, Function.update_self,
      Option.bind_eq_bind, Option.bind_some, hcopy, Option.some.injEq, Prod.mk.injEq] at hb
    exact ⟨hb.1.symm, hb.2.symm.trans hlen⟩
  rw [hheap]
  constructor
  · intro p
    by_cases hpc : p = .copy c
    · subst hpc
      intro co' copy hobj' hcopy'
      simp only [Heap.setCo_cos, if_true, Option.some.injEq] at hobj'
      subst hobj'
      obtain rfl := Option.some.inj (hcopy.symm.trans hcopy')
      simp only [Layout.withCopy, Function.update_self, hmem']
      exact readBytes_writeBytes _ _ _ (by rw [hlen]; exact Nat.le_of_lt (BitVec.isLt _))
    · exact holds_withCopy hp.obj hctx hpc
        (holds_kept (hmem.holds p) hsame fun b n hb => hfree p b n hb)
  · intro p q a n b n' hpq hpr hqr
    by_cases hpc : p = .copy c
    · subst hpc
      obtain ⟨rfl, rfl⟩ := hblock a n hpr
      exact hfree q b n' ((region_withCopy hp.obj (Ne.symm hpq)).symm.trans hqr)
    · have hpr' := (region_withCopy hp.obj hpc).symm.trans hpr
      by_cases hqc : q = .copy c
      · subst hqc
        obtain ⟨rfl, rfl⟩ := hblock b n' hqr
        exact apart_symm (hfree p a n hpr')
      · exact hmem.apart p q a n b n' hpq hpr' ((region_withCopy hp.obj hqc).symm.trans hqr)

/-- The heap of `restore_stack`: one copy less, and a stack with new bytes. -/
theorem region_restored {heap : Heap} {st' : CoStack} (hp : h.Placed c co sid st)
    (hheap : heap = (h.setCo c { co with stackCopy := none }).setStackObj sid st')
    (hbottom : st'.stackBottom = st.stackBottom) (htop : st'.stackTop = st.stackTop) {p : Part}
    {b : Word} (hr : heap.region lay p = some (b, n)) : h.region lay p = some (b, n) := by
  subst hheap
  cases p with
  | record d =>
    by_cases hd : d = c
    · subst hd
      simpa [Heap.region, hp.obj] using hr
    · simpa [Heap.region, hd] using hr
  | copy d =>
    by_cases hd : d = c
    · subst hd
      simp [Heap.region] at hr
    · simpa [Heap.region, hd] using hr
  | stack i =>
    by_cases hi : i = sid
    · subst hi
      simpa [Heap.region, hp.buf, hbottom, htop] using hr
    · simpa [Heap.region, hi] using hr

/-- `restore_stack` puts into the buffer what `Machine` puts there. -/
theorem restoreStack_refines (hasm : Assembled fetch k l) (hmem : h.InMemory lay s.mem)
    (hp : h.Placed c co sid st) {copy : List UInt8} (hcopy : co.stackCopy = some copy)
    (hlen : copy.length = co.stackCopySize.toNat)
    (hfits : copy.length ≤ (st.stackTop - st.stackBottom).toNat)
    (hcall : CallsMemcpy l s (st.stackTop - co.stackCopySize) (lay.copy c) co.stackCopySize)
    {heap : Heap} (hres : h.restoreStack c = some heap) :
    ∃ s', X86.run fetch (co.stackCopySize.toNat + 3) s = some s' ∧
      heap.InMemory lay s'.mem ∧ cpuOf s' = returned s := by
  have hheap := restoreStack_eq hp hcopy hres
  have hblock := hmem.apart (.copy c) (.stack sid) _ _ _ _ (by simp)
    (h.region_copy lay hp.obj hcopy) (h.region_stack lay hp.buf)
  -- where the copy goes, seen from the bottom of the buffer
  obtain ⟨off, hoff⟩ : ∃ off, off = st.stackTop - st.stackBottom - co.stackCopySize := ⟨_, rfl⟩
  have hdst : st.stackTop - co.stackCopySize = st.stackBottom + off := by
    rw [hoff]
    ring
  have hoffNat : off.toNat + co.stackCopySize.toNat = (st.stackTop - st.stackBottom).toNat := by
    rw [hoff, BitVec.toNat_sub_of_le (BitVec.le_def.mpr (hlen ▸ hfits))]
    omega
  have hfwd : co.stackCopySize.toNat ≤ (st.stackTop - co.stackCopySize - lay.copy c).toNat := by
    rcases Nat.eq_zero_or_pos co.stackCopySize.toNat with hz | hpos
    · omega
    · have hout := hblock.outside (i := off.toNat) (by omega)
      rwa [BitVec.ofNat_toNat, BitVec.setWidth_eq, ← hdst, hlen] at hout
  obtain ⟨s', hrun, hmem', hcpu⟩ := hcall.run hasm hfwd
  have hread : readBytes s.mem (lay.copy c) co.stackCopySize.toNat = copy := by
    rw [← hlen]
    exact hmem.holds (.copy c) co copy hp.obj hcopy
  rw [hread] at hmem'
  have hsame : SameOutside s.mem s'.mem st.stackBottom
      (st.stackTop - st.stackBottom).toNat := by
    intro x hx
    rw [hmem', writeBytes_outside]
    rw [hdst, toNat_sub_add (by omega), hlen]
    omega
  have hkept : ∀ p, p ≠ .stack sid → h.Holds lay s'.mem p := fun p hps =>
    holds_kept (hmem.holds p) hsame fun b n hb =>
      hmem.apart _ p _ _ b n (Ne.symm hps) (h.region_stack lay hp.buf) hb
  refine ⟨s', hrun, ⟨fun p => ?_, fun p q a n b n' hpq hpr hqr => ?_⟩, hcpu⟩
  · cases p with
    | record d =>
      intro co' hobj'
      rw [hheap] at hobj'
      by_cases hd : d = c
      · subst hd
        simp only [Heap.setStackObj_cos, Heap.setCo_cos, if_true, Option.some.injEq] at hobj'
        subst hobj'
        exact hkept (.record d) (by simp) co hp.obj
      · simp only [Heap.setStackObj_cos, Heap.setCo_cos, hd, if_false] at hobj'
        exact hkept (.record d) (by simp) co' hobj'
    | copy d =>
      intro co' copy' hobj' hcopy'
      rw [hheap] at hobj'
      by_cases hd : d = c
      · subst hd
        simp only [Heap.setStackObj_cos, Heap.setCo_cos, if_true, Option.some.injEq] at hobj'
        subst hobj'
        cases hcopy'
      · simp only [Heap.setStackObj_cos, Heap.setCo_cos, hd, if_false] at hobj'
        exact hkept (.copy d) (by simp) co' copy' hobj' hcopy'
    | stack i =>
      intro st' hst'
      rw [hheap] at hst'
      by_cases hi : i = sid
      · subst hi
        simp only [Heap.setStackObj_coStacks, if_true, Option.some.injEq] at hst'
        subst hst'
        intro j hj
        have hcell := hmem.holds (.stack i) st hp.buf j hj
        rw [hmem', ← hlen, List.take_length]
        simp only [writeBytes, hcell]
      · simp only [Heap.setStackObj_coStacks, hi, if_false, Heap.setCo_coStacks] at hst'
        exact hkept (.stack i) (fun he => hi (Part.stack.inj he)) st' hst'
  · exact hmem.apart p q a n b n' hpq (region_restored hp hheap rfl rfl hpr)
      (region_restored hp hheap rfl rfl hqr)

/-! ## The control word of suspended coroutines -/

theorem mxcsr_setCo {h : Heap} (hok : h.MxcsrOk) (new : Coroutine)
    (hnew : new.savedCtx.mxcsr.toNat < 2 ^ 16) : (h.setCo c new).MxcsrOk := by
  intro d co hobj
  rw [Heap.setCo_cos] at hobj
  split at hobj
  · rwa [← Option.some.inj hobj]
  · exact hok d co hobj

theorem mxcsr_restore {h heap : Heap} (hok : h.MxcsrOk) (hres : h.restoreStack c = some heap) :
    heap.MxcsrOk := by
  simp only [Heap.restoreStack, Option.bind_eq_bind, Option.bind_eq_some_iff] at hres
  obtain ⟨⟨co, sid, st⟩, hplace, copy, -, hres⟩ := hres
  split at hres
  · cases hres
  · obtain rfl := Option.some.inj hres
    exact mxcsr_setCo hok { co with stackCopy := none }
      (hok c co (Heap.place_eq_some.mp hplace).obj)

theorem mxcsr_save {o : CoId} (hok : m.heap.MxcsrOk) (hsave : m.saveStack o = some m₁) :
    m₁.heap.MxcsrOk := by
  simp only [Machine.saveStack, Option.bind_eq_bind, Option.bind_eq_some_iff,
    Option.some.injEq] at hsave
  obtain ⟨⟨co, sid, st⟩, hplace, rfl⟩ := hsave
  exact mxcsr_setCo hok _ (hok o co (Heap.place_eq_some.mp hplace).obj)

theorem mxcsr_coSched (hok : m.heap.MxcsrOk) (hsched : m.coSched = some m') :
    m'.heap.MxcsrOk ∧ m'.cpu.mxcsr.toNat < 2 ^ 16 := by
  obtain ⟨sched, m₁, -, hswap, hload⟩ := coSched_cases hsched
  have hok₁ : m₁.heap.MxcsrOk := by
    rcases hswap with rfl | hswap
    · exact hok
    · rcases coSwapIn_cases hswap with rfl | ⟨m₂, heap, hsaved, hres, rfl⟩
      · exact hok
      · refine mxcsr_restore ?_ hres
        rcases hsaved with rfl | ⟨o, hsaved⟩
        · exact hok
        · exact mxcsr_save (m := { m with sched := sched }) hok hsaved
  simp only [Machine.load, Option.bind_eq_bind, Option.bind_eq_some_iff,
    Option.some.injEq] at hload
  obtain ⟨co, hobj, _, -, rfl⟩ := hload
  exact ⟨hok₁, hok₁ _ co hobj⟩

theorem mxcsr_saveContext {img : Image} (hok : m.heap.MxcsrOk) (hcpu : m.cpu.mxcsr.toNat < 2 ^ 16)
    (hsave : m.save k = some (img, m₁)) : m₁.heap.MxcsrOk := by
  simp only [Machine.save, Option.bind_eq_bind, Option.bind_eq_some_iff, Option.some.injEq,
    Prod.mk.injEq] at hsave
  obtain ⟨co, -, _, -, -, rfl⟩ := hsave
  exact mxcsr_setCo hok { co with savedCtx := saveContext k co.savedCtx m.cpu } hcpu

/-! ## A switch as a whole -/

/-- `co_swap_in` has nothing to do for a coroutine that has its stack. -/
theorem coSwapIn_inPlace (hin : ∀ co sid st, m.heap.Placed c co sid st → co.sharedStack = true →
    st.usedBy = some c) (hswap : m.coSwapIn c = some m') : m' = m := by
  simp only [Machine.coSwapIn, Option.bind_eq_bind] at hswap
  obtain ⟨b, hb, hswap⟩ := Option.bind_eq_some_iff.mp hswap
  cases b with
  | true => exact (Option.some.inj hswap).symm
  | false =>
    simp only [Bool.false_eq_true, if_false] at hswap
    obtain ⟨⟨co, sid, st⟩, hplace, -⟩ := Option.bind_eq_some_iff.mp hswap
    have hp := Heap.place_eq_some.mp hplace
    cases hs : co.sharedStack with
    | false => simp [Heap.inStack, hp.obj, hs] at hb
    | true =>
      rw [inStack_shared hp hs, hin co sid st hp hs] at hb
      simp at hb

/-- The handler picks the next coroutine and leaves for it. Neither the queue
nor the log is part of the heap. -/
theorem coSched_refines (hasm : Assembled fetch k l) (hmem : m.heap.InMemory lay s.mem)
    (hsched : m.coSched = some m')
    (hin : ∀ co sid st, m.heap.Placed m'.sched.current co sid st → co.sharedStack = true →
      st.usedBy = some m'.sched.current)
    (hrip : s.rip = l.loadContext) (hrdi : s.regs .rdi = lay.record m'.sched.current)
    (hok : m.heap.MxcsrOk) :
    ∃ s', X86.run fetch 11 s = some s' ∧ m'.heap.InMemory lay s'.mem ∧ cpuOf s' = m'.cpu := by
  obtain ⟨sch, m₁, -, hswap, hload⟩ := coSched_cases hsched
  have hcur : m'.sched = m₁.sched := by
    simp only [Machine.load, Option.bind_eq_bind, Option.bind_eq_some_iff,
      Option.some.injEq] at hload
    obtain ⟨_, -, _, -, rfl⟩ := hload
    rfl
  have hm₁ : m₁ = { m with sched := sch } := by
    rcases hswap with rfl | hswap
    · rfl
    · obtain rfl | ⟨m₂, heap, hsave, -, rfl⟩ := coSwapIn_cases hswap
      · rfl
      · refine coSwapIn_inPlace (fun co sid st hp hs => ?_) hswap
        have hsame : m'.sched.current = sch.current := by
          rw [hcur]
          rcases hsave with rfl | ⟨o, hsave⟩
          · rfl
          · simp only [Machine.saveStack, Option.bind_eq_bind, Option.bind_eq_some_iff,
              Option.some.injEq] at hsave
            obtain ⟨_, -, rfl⟩ := hsave
            rfl
        rw [← hsame] at hp ⊢
        exact hin co sid st hp hs
  subst hm₁
  refine load_refines hasm (by exact hmem) hrip ?_ hload (mxcsr_coSched hok hsched).2
  rw [hrdi, hcur]

end InMemoryLemmas

open InMemoryLemmas

/-- `co_yield` and `co_resched` in memory, when the next coroutine has its stack:
`save_context`, then a handler that stores wherever no part of the library lies, then
`load_context`. The registers are those `Machine` goes on with, and the memory
holds the objects of `Machine`. -/
theorem switch_refines {fetch : X86.Fetch} {k : Code} {l : Labels} (hasm : Assembled fetch k l)
    {m m' : Machine} {lay : Layout} {op : Op} (hop : op = .coYield ∨ op = .coResched)
    (hstep : m.step k op = some m')
    (hin : ∀ co sid st, m.heap.Placed m'.sched.current co sid st → co.sharedStack = true →
      st.usedBy = some m'.sched.current) (hmxcsr : m.heap.MxcsrOk)
    {s : X86.State} (hmem : m.heap.InMemory lay s.mem) (hcpu : cpuOf s = m.cpu)
    (hrip : s.rip = l.saveContext) (hrdi : s.regs .rdi = lay.record m.sched.current) :
    ∃ s', X86.run fetch 13 s = some s' ∧ ∀ t : X86.State, m.heap.Untouched lay s'.mem t.mem →
      t.rip = l.loadContext → t.regs .rdi = lay.record m'.sched.current →
        ∃ t', X86.run fetch 11 t = some t' ∧ m'.heap.InMemory lay t'.mem ∧ cpuOf t' = m'.cpu := by
  -- both save the caller, and leave the heap alone until `co_sched`
  obtain ⟨img, m₁, m₂, hsaved, hheap, hsched⟩ : ∃ (img : Image) (m₁ m₂ : Machine),
      m.save k = some (img, m₁) ∧ m₂.heap = m₁.heap ∧ m₂.coSched = some m' := by
    rcases hop with rfl | rfl
    · simp only [Machine.step, Machine.coYield, Option.bind_eq_bind,
        Option.bind_eq_some_iff] at hstep
      obtain ⟨⟨img, m₁⟩, hsaved, hsched⟩ := hstep
      refine ⟨img, m₁, _, hsaved, ?_, hsched⟩
      rfl
    · simp only [Machine.step, Machine.coResched, Option.bind_eq_bind,
        Option.bind_eq_some_iff] at hstep
      obtain ⟨⟨img, m₁⟩, hsaved, hsched⟩ := hstep
      refine ⟨img, m₁, _, hsaved, ?_, hsched⟩
      rfl
  obtain ⟨s', hsave, hmem₁, -⟩ := save_refines hasm hmem hcpu hrip hrdi hsaved
  refine ⟨s', hsave, fun t hhandler hrip' hrdi' => ?_⟩
  obtain ⟨co, hobj, hm₁⟩ : ∃ co, m.heap.cos m.sched.current = some co ∧
      m₁.heap = m.heap.setCo m.sched.current
        { co with savedCtx := saveContext k co.savedCtx m.cpu } := by
    simp only [Machine.save, Option.bind_eq_bind, Option.bind_eq_some_iff, Option.some.injEq,
      Prod.mk.injEq] at hsaved
    obtain ⟨co, hobj, _, -, -, rfl⟩ := hsaved
    exact ⟨co, hobj, rfl⟩
  have hsame : m₁.heap.Untouched lay s'.mem t.mem := fun p b n hb => by
    have hregion : m₁.heap.region lay p = m.heap.region lay p := by
      rw [hm₁]
      refine region_setCo hobj ?_ p
      rfl
    exact hhandler p b n (hregion ▸ hb)
  have hcpu' : m.cpu.mxcsr.toNat < 2 ^ 16 := by
    rw [← hcpu]
    exact s.mxcsr.property
  refine coSched_refines hasm (m := m₂) ?_ hsched (fun co' sid st hp hs => ?_) hrip' hrdi' ?_
  · rw [hheap]
    exact inMemory_untouched hmem₁ hsame
  · rw [hheap, hm₁] at hp
    rcases SwitchLemmas.placed_setCo hp with ⟨hcur, rfl, hptr, hbuf⟩ | ⟨-, hp'⟩
    · exact hin co sid st ⟨hcur ▸ hobj, hptr, hbuf⟩ hs
    · exact hin co' sid st hp' hs
  · rw [hheap]
    exact mxcsr_saveContext hmxcsr hcpu' hsaved

/-- `co_swap_in` in memory, when another coroutine has the stack: `save_stack`
copies its bytes into a block that `malloc` has just returned, and
`restore_stack` copies those of `c` from its own block to the stack. In between
the handler stores wherever no part of the library lies, the new block included. -/
theorem coSwapIn_refines {fetch : X86.Fetch} {k : Code} {l : Labels} (hasm : Assembled fetch k l)
    {m m' : Machine} {lay : Layout} {c o : CoId} {co coo : Coroutine} {sid : StackId}
    {st : CoStack} (hp : m.heap.Placed c co sid st) (hpo : m.heap.Placed o coo sid st)
    (hs : co.sharedStack = true) (hu : st.usedBy = some o) (hoc : o ≠ c)
    (hlow : st.stackBottom ≤ coo.savedCtx.rsp) (hhigh : coo.savedCtx.rsp ≤ st.stackTop)
    {copy : List UInt8} (hcopy : co.stackCopy = some copy)
    (hlen : copy.length = co.stackCopySize.toNat)
    (hfits : copy.length ≤ (st.stackTop - st.stackBottom).toNat)
    (hswap : m.coSwapIn c = some m') {s : X86.State} (hmem : m.heap.InMemory lay s.mem)
    {block : Word} (hblock : m.heap.Free lay block (st.stackTop - coo.savedCtx.rsp).toNat)
    (hcall : CallsMemcpy l s block coo.savedCtx.rsp (st.stackTop - coo.savedCtx.rsp)) :
    ∃ s', X86.run fetch ((st.stackTop - coo.savedCtx.rsp).toNat + 3) s = some s' ∧
      cpuOf s' = returned s ∧ ∀ t : X86.State,
        (∀ m₁, m.saveStack o = some m₁ →
          m₁.heap.Untouched (lay.withCopy o block) s'.mem t.mem) →
        CallsMemcpy l t (st.stackTop - co.stackCopySize) (lay.copy c) co.stackCopySize →
          ∃ t', X86.run fetch (co.stackCopySize.toNat + 3) t = some t' ∧
            m'.heap.InMemory (lay.withCopy o block) t'.mem ∧ cpuOf t' = returned t := by
  simp only [Machine.coSwapIn, SwitchLemmas.inStack_shared hp hs, hu,
    Option.some.injEq, hoc, decide_false, Bool.false_eq_true, if_false, hp.place,
    Option.bind_eq_bind, Option.bind_some, Option.bind_eq_some_iff] at hswap
  obtain ⟨m₁, hsaved, heap, hres, rfl⟩ := hswap
  obtain ⟨s', hsave, hmem₁, hcpu⟩ :=
    saveStack_refines hasm hmem hpo hlow hhigh hcall hblock hsaved
  refine ⟨s', hsave, hcpu, fun t hhandler hcall' => ?_⟩
  have hco : (lay.withCopy o block).copy c = lay.copy c := Function.update_of_ne (Ne.symm hoc) ..
  have hsame := hhandler _ hsaved
  rw [SwitchLemmas.saveStack_eq hpo, Option.some.injEq] at hsaved
  subst hsaved
  have hmem₂ := inMemory_untouched hmem₁ hsame
  exact restoreStack_refines hasm hmem₂ (SwitchLemmas.Placed.setCo hp _ (Ne.symm hoc)) hcopy hlen
    hfits (by rwa [hco]) hres

namespace Demo

/-- `main`, and two coroutines on one stack, which the first of them has. -/
def memCos : CoId → Option Coroutine
  | 0 => some { Coroutine.new swapperCode false with stack := some 0 }
  | 1 => some { Coroutine.new swapperCode true with
      stack := some 1
      stackCopy := none
      savedCtx := { (Coroutine.new swapperCode true).savedCtx with rsp := 0x20030 } }
  | 2 => some { Coroutine.new swapperCode true with
      stack := some 1
      savedCtx := { (Coroutine.new swapperCode true).savedCtx with rsp := 0x20038 } }
  | _ => none

def memStacks : StackId → Option CoStack
  | 0 => some ⟨0, 0, fun _ => 0, some 0, false⟩
  | 1 => some ⟨0x20000, 0x20040, fun _ => 0, some 1, true⟩
  | _ => none

def memMachine : Machine where
  cpu := { rbx := 7, rbp := 7, r12 := 7, r13 := 7, r14 := 7, r15 := 7, rsp := 0xf000, rip := 0x1000
           mxcsr := 0x1f80, x87Cw := 0x37f }
  sched := ⟨0, [some 1]⟩
  heap := ⟨memCos, memStacks, [1], 2⟩
  log := []

def layout : Layout where
  record c := 0x5000 + BitVec.ofNat 64 (0x100 * c)
  copy _ := 0x6000

/-- The bytes that are not zero. -/
def memBytes : List (Word × UInt8) :=
  [(0x5039, 0x10), (0x503a, 0x40), (0x5040, 0x80), (0x5041, 0x1f), (0x5044, 0x7f), (0x5045, 0x03),
    (0x5130, 0x30), (0x5132, 0x02), (0x5139, 0x10), (0x513a, 0x40), (0x5140, 0x80), (0x5141, 0x1f),
    (0x5144, 0x7f), (0x5145, 0x03),
    (0x5230, 0x38), (0x5232, 0x02), (0x5239, 0x10), (0x523a, 0x40), (0x5240, 0x80), (0x5241, 0x1f),
    (0x5244, 0x7f), (0x5245, 0x03), (0x6001, 0x20), (0x6002, 0x40)]

def memory : X86.Mem := fun x => (memBytes.lookup x).getD 0

/-- The parts that there are, and where. -/
def parts : List (Part × Word × Nat) :=
  [(.record 0, 0x5000, 72), (.record 1, 0x5100, 72), (.record 2, 0x5200, 72), (.copy 2, 0x6000, 8),
    (.stack 0, 0, 0), (.stack 1, 0x20000, 64)]

theorem region_mem_parts {p : Part} {r : Word × Nat}
    (hr : memMachine.heap.region layout p = some r) : (p, r) ∈ parts := by
  match p with
  | .record 0 => cases hr; decide
  | .record 1 => cases hr; decide
  | .record 2 => cases hr; decide
  | .record (c + 3) => cases hr
  | .copy 0 => cases hr
  | .copy 1 => cases hr
  | .copy 2 => cases hr; decide
  | .copy (c + 3) => cases hr
  | .stack 0 => cases hr; decide
  | .stack 1 => cases hr; decide
  | .stack (i + 2) => cases hr

theorem inMemory : memMachine.heap.InMemory layout memory where
  holds := by
    intro p
    match p with
    | .record 0 => intro co hobj; cases hobj; decide
    | .record 1 => intro co hobj; cases hobj; decide
    | .record 2 => intro co hobj; cases hobj; decide
    | .record (c + 3) => intro co hobj; cases hobj
    | .copy 0 => intro co copy hobj hcopy; cases hobj; cases hcopy
    | .copy 1 => intro co copy hobj hcopy; cases hobj; cases hcopy
    | .copy 2 => intro co copy hobj hcopy; cases hobj; cases hcopy; decide
    | .copy (c + 3) => intro co copy hobj hcopy; cases hobj
    | .stack 0 => intro st hst; cases hst; unfold CoStack.InMemory; decide
    | .stack 1 => intro st hst; cases hst; unfold CoStack.InMemory; decide
    | .stack (i + 2) => intro st hst; cases hst
  apart p q a m b n hpq hp hq := by
    have hall : ∀ x ∈ parts, ∀ y ∈ parts, x.1 ≠ y.1 → Apart x.2.1 x.2.2 y.2.1 y.2.2 := by decide
    exact hall (p, a, m) (region_mem_parts hp) (q, b, n) (region_mem_parts hq) hpq

/-- `main` calls `save_context(&current->saved_ctx, ..)`. -/
def saveCall : X86.State where
  regs := X86.callRegs 0x5000 0xa000 0x403000 0xf000 7
  rip := 0x1000
  mem := memory
  mxcsr := .initial
  x87Cw := 0x37f

/-- `co_sched` calls `load_context` with the record of coroutine 1. -/
def loadCall (mem : X86.Mem) : X86.State where
  regs := X86.callRegs 0x5100 8 8 0x9000 8
  rip := 0x100e
  mem := mem
  mxcsr := .initial
  x87Cw := 0x37f

/-- A handler stores a local variable and a node of the queue. -/
def handlerStores (mem : X86.Mem) : X86.Mem :=
  Function.update (Function.update mem 0x9ff8 0x41) 0xb000 1

theorem mxcsrOk : memMachine.heap.MxcsrOk := by
  intro c co hobj
  match c with
  | 0 => cases hobj; decide
  | 1 => cases hobj; decide
  | 2 => cases hobj; decide
  | c + 3 => cases hobj

theorem free_of_parts {a : Word} {n : Nat} (h : ∀ x ∈ parts, Apart a n x.2.1 x.2.2) :
    memMachine.heap.Free layout a n :=
  fun p b m hr => h (p, b, m) (region_mem_parts hr)

/-- What lies in some regions is not stored into. -/
theorem handlerStores_apart {mem : X86.Mem} {regions : List (Part × Word × Nat)}
    (h : ∀ x ∈ regions, Apart 0x9ff8 1 x.2.1 x.2.2 ∧ Apart 0xb000 1 x.2.1 x.2.2)
    {p : Part} {b : Word} {n : Nat} (hr : (p, b, n) ∈ regions) {i : Nat} (hi : i < n) :
    handlerStores mem (b + BitVec.ofNat 64 i) = mem (b + BitVec.ofNat 64 i) := by
  have hne {a : Word} (happart : Apart a 1 b n) : b + BitVec.ofNat 64 i ≠ a := by
    intro he
    have hout := happart.outside hi
    rw [he, BitVec.sub_self] at hout
    cases hout
  obtain ⟨hstack, hnode⟩ := h _ hr
  rw [handlerStores, Function.update_of_ne (hne hnode), Function.update_of_ne (hne hstack)]

end Demo

open Demo in
/-- `main` switches to the coroutine that has the shared stack. -/
theorem switch_refines_demo :
    ∃ m' s' t', memMachine.step swapperCode .coResched = some m' ∧
      X86.run (X86.ofList 0x1000 text) 13 saveCall = some s' ∧
      X86.run (X86.ofList 0x1000 text) 11 (loadCall (handlerStores s'.mem)) = some t' ∧
      m'.heap.InMemory layout t'.mem ∧ cpuOf t' = m'.cpu := by
  have hstep : (memMachine.step swapperCode .coResched).map (fun m => m.sched.current) =
      some 1 := by decide
  obtain ⟨m', hm', hcur⟩ := Option.map_eq_some_iff.mp hstep
  have hin : ∀ co sid st, memMachine.heap.Placed m'.sched.current co sid st →
      co.sharedStack = true → st.usedBy = some m'.sched.current := by
    rw [hcur]
    rintro co sid st ⟨hobj, hptr, hbuf⟩ -
    cases hobj
    cases hptr
    cases hbuf
    rfl
  obtain ⟨s', hsave, hswitch⟩ := switch_refines assembled (s := saveCall) (.inr rfl) hm' hin
    mxcsrOk inMemory rfl rfl rfl
  obtain ⟨t', hload, hmem, hcpu⟩ := hswitch (loadCall (handlerStores s'.mem))
    (fun p b n hr i hi => handlerStores_apart (by decide) (region_mem_parts hr) hi) rfl
    (by rw [hcur]; rfl)
  exact ⟨m', s', t', hm', hsave, hload, hmem, hcpu⟩

namespace Demo

/-- `save_stack` of coroutine 1, with a new block at `0x7000`. -/
def saveStackCall : X86.State where
  regs := X86.callRegs 0x7000 0x20030 0x10 0x9800 8
  rip := 0x101b
  mem := memory
  mxcsr := .initial
  x87Cw := 0x37f

/-- `restore_stack` of coroutine 2. -/
def restoreStackCall (mem : X86.Mem) : X86.State where
  regs := X86.callRegs 0x20038 0x6000 8 0x9800 8
  rip := 0x101b
  mem := mem
  mxcsr := .initial
  x87Cw := 0x37f

end Demo

open Demo in
/-- Coroutine 2 takes the shared stack from coroutine 1. -/
theorem coSwapIn_refines_demo :
    ∃ m' s' t', memMachine.coSwapIn 2 = some m' ∧
      X86.run (X86.ofList 0x1000 text) 19 saveStackCall = some s' ∧
      X86.run (X86.ofList 0x1000 text) 11 (restoreStackCall (handlerStores s'.mem)) = some t' ∧
      m'.heap.InMemory (layout.withCopy 1 0x7000) t'.mem := by
  obtain ⟨m', hswap⟩ := Option.isSome_iff_exists.mp
    (by decide : (memMachine.coSwapIn 2).isSome = true)
  have hcall : CallsMemcpy labels saveStackCall 0x7000 0x20030 0x10 :=
    ⟨rfl, rfl, rfl, rfl, by decide⟩
  have hp : memMachine.heap.Placed 2 _ 1 _ := ⟨rfl, rfl, rfl⟩
  have hpo : memMachine.heap.Placed 1 _ 1 _ := ⟨rfl, rfl, rfl⟩
  obtain ⟨s', hsave, -, hrestores⟩ := coSwapIn_refines assembled hp hpo rfl rfl (by decide)
    (by decide) (by decide) rfl (by decide) (by decide) hswap inMemory (free_of_parts (by decide))
    hcall
  have hcall' : CallsMemcpy labels (restoreStackCall (handlerStores s'.mem)) 0x20038 0x6000 8 :=
    ⟨rfl, rfl, rfl, rfl, (by decide : Apart (0x20038 : Word) 8 0x9800 8)⟩
  have hhandler : ∀ m₁, memMachine.saveStack 1 = some m₁ →
      m₁.heap.Untouched (layout.withCopy 1 0x7000) s'.mem (handlerStores s'.mem) := by
    intro m₁ hm₁ q b n hr i hi
    rw [SwitchLemmas.saveStack_eq hpo, Option.some.injEq] at hm₁
    subst hm₁
    by_cases hq : q = .copy 1
    · subst hq
      cases hr
      exact handlerStores_apart (p := .copy 1) (by decide) (List.mem_singleton_self _) hi
    · exact handlerStores_apart (by decide)
        (region_mem_parts ((region_withCopy hpo.obj hq).symm.trans hr)) hi
  obtain ⟨t', hrestore, hmem, -⟩ := hrestores _ hhandler hcall'
  exact ⟨m', s', t', hswap, hsave, hrestore, hmem⟩

end NetTraverse
