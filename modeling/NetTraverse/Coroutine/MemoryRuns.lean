import NetTraverse.Coroutine.Process

/-!
# Runs in memory

`processor_refines` says that machine and memory never part: along every run from
`co_init`, the memory holds the objects of the machine, and the registers are its own.
The proof goes function by function, as that of `step_inv` does. `Copies` adds to its
invariant that the copies fit into their buffers, and `MxcsrOk` that `ldmxcsr` takes
what was saved. `Sound.exists_switch` is the other direction: every switch of the machine
is one that the processor can make.
-/

namespace NetTraverse

open Words Region Swapper Transition

namespace Process

open SwitchLemmas OrderLemmas DispatchLemmas CopiesLemmas InMemoryLemmas ProcessLemmas

/-- What holds between two operations. -/
structure Sound (x : Process) : Prop where
  loaded : x.Loaded
  inv : Inv (some x.machine.sched.current) x.machine
  copies : Copies (some x.machine.sched.current) x.machine
  mxcsr : x.machine.heap.MxcsrOk

variable {fetch : X86.Fetch} {k : Code} {l : Labels} {x y z : Process} {op : Op}

/-- The machine makes the step, too. -/
theorem Sound.machine (h : x.Sound) (hstep : Step fetch k l x op y) :
    x.machine.step k op = some y.machine := by
  cases hstep with
  | write hm => exact hm
  | compute hm => exact hm
  | create _ hm => exact hm
  | coPost hm => exact hm
  | @coResched m _ _ _ _ _ _ img _ _ _ hsave hsched =>
    have hinv := (suspend_inv (e := .rescheduled m.sched.current img) h.inv hsave (.inl rfl)).1
    obtain ⟨m', hm⟩ := coSched_of_schedules (hinv.sched _) hsched
    rw [← step_coResched hsave] at hm
    rw [hm]
    rfl
  | @coYield m _ _ _ _ _ _ img _ _ _ hsave hsched =>
    have hinv := (suspend_inv (e := .yielded m.sched.current img) h.inv hsave (.inr rfl)).1
    obtain ⟨m', hm⟩ := coSched_of_schedules hinv hsched
    rw [← step_coYield hsave] at hm
    rw [hm]
    rfl
  | coExit _ _ hd hsched =>
    obtain ⟨co, sid, st, hp⟩ := h.inv.running
    obtain ⟨m', hm⟩ := coSched_of_schedules (exit_inv h.inv hp hd) hsched
    rw [← step_coExit hd] at hm
    rw [hm]
    rfl

/-- The processor has no other MXCSR. -/
theorem Loaded.mxcsr (h : x.Loaded) : x.machine.cpu.mxcsr.toNat < 2 ^ 16 := by
  rw [← h.cpu]
  exact x.state.mxcsr.property

variable {m m' m₁ : Machine} {lay lay' : Layout} {s t u : X86.State} {a : Word} {b : UInt8}

theorem write_loaded (h : Sound ⟨m, lay, s⟩) (hstep : m.step k (.write a b) = some m')
    (hmain : ∀ co sid st, m.heap.Placed m.sched.current co sid st → st.stackTop = 0 →
      m.heap.Free lay a 1)
    (hmem : t.mem = Function.update s.mem a b) (hcpu : cpuOf t = cpuOf s) :
    Loaded ⟨m', lay, t⟩ := by
  simp only [Machine.step, Option.bind_eq_bind, Option.bind_eq_some_iff] at hstep
  obtain ⟨⟨co, sid, st⟩, hplace, hstep⟩ := hstep
  split at hstep
  · next howns =>
    cases hstep
    have hp := Heap.place_eq_some.mp hplace
    refine ⟨?_, hcpu.trans h.loaded.cpu⟩
    show Heap.InMemory _ lay t.mem
    rw [hmem]
    exact write_inMemory h.loaded.mem hp.buf howns (hmain co sid st hp)
  · cases hstep

theorem create_loaded {c : CoId} {record copy : Word} (h : Sound ⟨m, lay, s⟩)
    (hop : op.creates c) (hstep : m.step k op = some m')
    (hsame : m.heap.Untouched lay s.mem t.mem)
    (hnew : ∀ p b n, m'.heap.region (lay.withObject c record copy) p = some (b, n) →
      m.heap.region lay p = none →
      m'.heap.Holds (lay.withObject c record copy) t.mem p ∧ m.heap.Free lay b n ∧
        ∀ q a i, q ≠ p → m'.heap.region (lay.withObject c record copy) q = some (a, i) →
          m.heap.region lay q = none → Apart b n a i)
    (hcpu : cpuOf t = cpuOf s) : Loaded ⟨m', lay.withObject c record copy, t⟩ := by
  obtain ⟨heap, co, sid, st, hadd, hm⟩ : ∃ heap co sid st,
      Adds k m.heap heap c co sid st ∧ m.created k c heap = some m' := by
    cases step_cases h.inv.ok hstep with
    | coCreate hadd hm =>
      obtain rfl : _ = c := hop
      exact ⟨_, _, _, _, hadd, hm⟩
    | coCreateShared hadd hm =>
      obtain rfl : _ = c := hop
      exact ⟨_, _, _, _, hadd, hm⟩
    | write => cases hop
    | compute => cases hop
    | coPost => cases hop
    | coResched => cases hop
    | coYield => cases hop
    | coExit => cases hop
  refine ⟨?_, ?_⟩
  · show m'.heap.InMemory _ t.mem
    rw [created_heap hm] at hnew ⊢
    exact create_inMemory h.loaded.mem hadd hsame hnew
  · show cpuOf t = m'.cpu
    rw [hcpu, h.loaded.cpu]
    simp only [Machine.created, Option.bind_eq_bind, Option.bind_eq_some_iff,
      Option.some.injEq] at hm
    obtain ⟨_, -, rfl⟩ := hm
    rfl

/-- `co_yield` and `co_resched`: the handler finds the caller saved. -/
theorem saved_rests (hasm : Assembled fetch k l) (h : Sound ⟨m, lay, s⟩)
    (hrip : s.rip = l.saveContext) (hrdi : s.regs .rdi = lay.record m.sched.current)
    {img : Image} (hsave : m.save k = some (img, m₁)) {e : Event}
    (he : NotesImage e m.sched.current img) (sched : Sched) :
    ∃ u, X86.run fetch 13 s = some u ∧
      Resting { m₁.record e with sched := sched } lay u.mem := by
  obtain ⟨u, hrun, hmem, -⟩ := save_refines hasm h.loaded.mem h.loaded.cpu hrip hrdi hsave
  have hinv := (suspend_inv (e := e) h.inv hsave he).1
  have hcopies := save_copies h.inv h.copies hsave
  have hmxcsr := mxcsr_saveContext h.mxcsr h.loaded.mxcsr hsave
  exact ⟨u, hrun, hinv.sched sched, hcopies.congr rfl rfl, hmxcsr, hmem⟩

/-- `co_exit`: the handler finds the caller gone. -/
theorem destroyed_rests (hasm : Assembled fetch k l) (h : Sound ⟨m, lay, s⟩)
    (hrip : s.rip = l.callWithNewStack) {heap : Heap}
    (hd : m.heap.coDestroy m.sched.current = some heap) :
    ∃ u, X86.run fetch 2 s = some u ∧
      Resting ({ m with heap := heap }.record (.exited m.sched.current)) lay u.mem := by
  obtain ⟨co, sid, st, hp⟩ := h.inv.running
  obtain ⟨u, hrun, hmem⟩ := callWithNewStack_run hasm hrip
  have hcopies : Copies none ({ m with heap := heap }.record (.exited m.sched.current)) :=
    coDestroy_copies h.copies hp hd fun d =>
      ⟨by simp, fun ⟨he, hne⟩ => absurd (Option.some.inj he) hne⟩
  have hmxcsr : heap.MxcsrOk := fun d co' hobj => h.mxcsr d co' ((coDestroy_drops hp hd).obj hobj).2
  refine ⟨u, hrun, exit_inv h.inv hp hd, hcopies, hmxcsr, ?_⟩
  rw [hmem]
  exact destroy_inMemory h.loaded.mem hp hd

/-- One operation keeps memory and machine together. -/
theorem Sound.step_loaded (hasm : Assembled fetch k l) (h : x.Sound)
    (hstep : Step fetch k l x op y) : y.Loaded := by
  have hnext := h.machine hstep
  cases hstep with
  | write hm hmain hmem hcpu => exact write_loaded h hm hmain hmem hcpu
  | compute hm hsame =>
    cases step_cases h.inv.ok hm with
    | compute => exact ⟨inMemory_untouched h.loaded.mem hsame, rfl⟩
  | create hop hm hlay hsame hnew hcpu =>
    subst hlay
    exact create_loaded h hop hm hsame hnew hcpu
  | coPost hm hsame hcpu =>
    cases step_cases h.inv.ok hm with
    | coPost => exact ⟨inMemory_untouched h.loaded.mem hsame, hcpu.trans h.loaded.cpu⟩
  | coResched hrip hrdi hrun hsave hsched =>
    obtain ⟨u, hrun', hrests⟩ := saved_rests hasm h hrip hrdi hsave (.inl rfl) _
    obtain rfl := Option.some.inj (hrun'.symm.trans hrun)
    obtain ⟨hmem, hcpu⟩ := schedules_loaded hasm hrests hsched
      ((step_coResched hsave).symm.trans hnext)
    exact ⟨hmem, hcpu⟩
  | @coYield _ m₁ _ _ _ _ _ _ hrip hrdi hrun hsave hsched =>
    obtain ⟨u, hrun', hrests⟩ := saved_rests hasm h hrip hrdi hsave (.inr rfl) m₁.sched
    obtain rfl := Option.some.inj (hrun'.symm.trans hrun)
    obtain ⟨hmem, hcpu⟩ := schedules_loaded hasm hrests hsched
      ((step_coYield hsave).symm.trans hnext)
    exact ⟨hmem, hcpu⟩
  | coExit hrip hrun hd hsched =>
    obtain ⟨u, hrun', hrests⟩ := destroyed_rests hasm h hrip hd
    obtain rfl := Option.some.inj (hrun'.symm.trans hrun)
    obtain ⟨hmem, hcpu⟩ := schedules_loaded hasm hrests hsched ((step_coExit hd).symm.trans hnext)
    exact ⟨hmem, hcpu⟩

theorem Sound.step (hasm : Assembled fetch k l) (h : x.Sound) (hstep : Step fetch k l x op y) :
    y.Sound where
  loaded := h.step_loaded hasm hstep
  inv := step_inv h.inv (h.machine hstep)
  copies := step_copies h.inv h.copies (h.machine hstep)
  mxcsr := mxcsr_step h.mxcsr h.inv.ok h.loaded.mxcsr (h.machine hstep)

/-- Any number of operations. -/
abbrev Runs (fetch : X86.Fetch) (k : Code) (l : Labels) : Process → Process → Prop :=
  Relation.ReflTransGen fun x y => ∃ op, Step fetch k l x op y

theorem Sound.run (hasm : Assembled fetch k l) (h : x.Sound) (hrun : Runs fetch k l x y) :
    y.Sound := by
  induction hrun with
  | refl => exact h
  | tail _ hstep ih =>
    obtain ⟨op, hstep⟩ := hstep
    exact ih.step hasm hstep

/-- `co_init` has been called: memory and registers are those of the machine. -/
structure Starts (k : Code) (x : Process) : Prop where
  machine : ∃ mainBytes blocks, x.machine = Machine.coInit k (cpuOf x.state) mainBytes blocks
  mem : x.machine.heap.InMemory x.layout x.state.mem

theorem Starts.sound (h : Starts k x) : x.Sound := by
  obtain ⟨⟨mainBytes, blocks, hm⟩, hmem⟩ := h
  refine ⟨⟨hmem, by rw [hm]; rfl⟩, ?_, ?_, ?_⟩
  · rw [hm]
    exact coInit_inv
  · rw [hm]
    exact coInit_copies (cpuOf x.state) mainBytes blocks
  · intro c co hobj
    rw [hm] at hobj
    simp only [Machine.coInit] at hobj
    split at hobj
    · cases hobj
      show mxcsrMASK.toNat < 2 ^ 16
      decide
    · cases hobj

/-- The processor is where the compiled code calls the library to switch. -/
def AtCall (l : Labels) (x : Process) (op : Op) : Prop :=
  match op with
  | .coYield | .coResched =>
    x.state.rip = l.saveContext ∧ x.state.regs .rdi = x.layout.record x.machine.sched.current
  | .coExit => x.state.rip = l.callWithNewStack
  | _ => False

/-- `save_context` moves no part, and gives nobody a stack. -/
theorem save_stays (h : Sound ⟨m, lay, s⟩) {img : Image} (hsave : m.save k = some (img, m₁)) :
    (∀ p, m₁.heap.region lay p = m.heap.region lay p) ∧
      ∀ c, m₁.heap.otherUser c = m.heap.otherUser c := by
  obtain ⟨co₀, sid₀, st₀, hp₀⟩ := h.inv.running
  rw [save_eq hp₀, Option.some.injEq, Prod.mk.injEq] at hsave
  obtain ⟨-, rfl⟩ := hsave
  refine ⟨fun p => region_setCo hp₀.obj (by rfl) p, fun c => ?_⟩
  by_cases hc : c = m.sched.current
  · have hobj : m.heap.cos m.sched.current = some co₀ := hp₀.obj
    have hbuf : m.heap.coStacks sid₀ = some st₀ := hp₀.buf
    simp [Heap.otherUser, Heap.place, hc, hobj, hp₀.ptr, hbuf]
  · simp [Heap.otherUser, Heap.place, hc]

/-- Nor does `co_destroy`. -/
theorem destroy_stays {h heap : Heap} {c d : CoId} {co : Coroutine} {sid : StackId}
    {st : CoStack} (hp : h.Placed d co sid st) (hd : h.coDestroy d = some heap) {o : CoId}
    {n : Nat} (huser : heap.otherUser c = some (o, n)) : h.otherUser c = some (o, n) := by
  have hdrop := coDestroy_drops hp hd
  simp only [Heap.otherUser, Option.bind_eq_bind, Option.bind_eq_some_iff] at huser
  obtain ⟨⟨co', sid', st'⟩, hplace, o', hu, hother⟩ := huser
  have hp' := Heap.place_eq_some.mp hplace
  have hst' : h.coStacks sid' = some st' := by
    rcases hdrop.buf hp'.buf with ⟨rfl, -, rfl⟩ | ⟨-, hst'⟩
    · unfold release at hu ⊢
      split at hu
      · cases hu
      · next hother => rw [if_neg hother, hp.buf]
    · exact hst'
  have hp₀ : h.Placed c co' sid' st' := ⟨(hdrop.obj hp'.obj).2, hp'.ptr, hst'⟩
  have hused : st'.usedBy = some o' := hu
  simp only [Heap.otherUser, hp₀.place, Option.bind_eq_bind, Option.bind_some, hused]
  exact hother

theorem afterSwap_cases (h : Heap) (c : CoId) (block : Word) :
    lay.afterSwap h c block = lay ∨
      ∃ o n, h.otherUser c = some (o, n) ∧ lay.afterSwap h c block = lay.withCopy o block := by
  unfold Layout.afterSwap
  split
  · next o n huser => exact .inr ⟨o, n, huser, rfl⟩
  · exact .inl rfl

/-- From the call of `co_yield` or `co_resched` to the jump out of `load_context`. -/
theorem Sound.exists_suspended (hasm : Assembled fetch k l) (h : Sound ⟨m, lay, s⟩)
    (hrip : s.rip = l.saveContext) (hrdi : s.regs .rdi = lay.record m.sched.current)
    {img : Image} (hsave : m.save k = some (img, m₁)) {e : Event}
    (he : NotesImage e m.sched.current img) (sched : Sched)
    (hsched : Machine.coSched { m₁.record e with sched := sched } = some m') {block : Word}
    (hblock : ∀ o n, m.heap.otherUser m'.sched.current = some (o, n) → m.heap.Free lay block n) :
    ∃ u t, X86.run fetch 13 s = some u ∧
      SchedulesInMemory fetch l { m₁.record e with sched := sched } lay u
        (lay.afterSwap m.heap m'.sched.current block) t := by
  obtain ⟨hregion, huser⟩ := save_stays h hsave
  obtain ⟨u, hrun, hrests⟩ := saved_rests hasm h hrip hrdi hsave he sched
  have hfree : ∀ o n, m₁.heap.otherUser m'.sched.current = some (o, n) →
      m₁.heap.Free lay block n := fun o n ho p b i hb =>
    hblock o n ((huser _).symm.trans ho) p b i ((hregion p).symm.trans hb)
  obtain ⟨t, hschedules⟩ := exists_schedules hasm hrests hsched hfree
  have hlay : lay.afterSwap m₁.heap m'.sched.current block =
      lay.afterSwap m.heap m'.sched.current block := by
    rw [Layout.afterSwap, huser, Layout.afterSwap]
  exact ⟨u, t, hrun, hlay ▸ hschedules⟩

/-- Whatever switch the machine makes, the processor can make, if `malloc` finds a block for
the bytes of the coroutine that has the stack of the next one. -/
theorem Sound.exists_switch (hasm : Assembled fetch k l) (h : Sound ⟨m, lay, s⟩)
    (hcall : AtCall l ⟨m, lay, s⟩ op) (hstep : m.step k op = some m') {block : Word}
    (hblock : ∀ o n, m.heap.otherUser m'.sched.current = some (o, n) → m.heap.Free lay block n) :
    ∃ lay' t, Step fetch k l ⟨m, lay, s⟩ op ⟨m', lay', t⟩ ∧ (lay' = lay ∨
      ∃ o n, m.heap.otherUser m'.sched.current = some (o, n) ∧ lay' = lay.withCopy o block) := by
  cases step_cases h.inv.ok hstep with
  | write => cases hcall
  | compute => cases hcall
  | coCreate => cases hcall
  | coCreateShared => cases hcall
  | coPost => cases hcall
  | coResched hsave hsame hsched =>
    obtain ⟨hrip, hrdi⟩ := hcall
    obtain ⟨u, t, hrun, hschedules⟩ :=
      h.exists_suspended hasm hrip hrdi hsave (.inl rfl) _ hsched hblock
    have hswitch := Step.coResched (k := k) hrip hrdi hrun hsave hschedules
    rw [hstep, Option.getD_some] at hswitch
    exact ⟨_, t, hswitch, afterSwap_cases _ _ block⟩
  | @coYield img m₁ _ hsave hsame hsched =>
    obtain ⟨hrip, hrdi⟩ := hcall
    obtain ⟨u, t, hrun, hschedules⟩ :=
      h.exists_suspended hasm hrip hrdi hsave (.inr rfl) m₁.sched hsched hblock
    have hswitch := Step.coYield (k := k) hrip hrdi hrun hsave hschedules
    rw [hstep, Option.getD_some] at hswitch
    exact ⟨_, t, hswitch, afterSwap_cases _ _ block⟩
  | @coExit heap co sid st _ hp hd hsched =>
    have hdrop := coDestroy_drops hp hd
    obtain ⟨u, hrun, hrests⟩ := destroyed_rests hasm h hcall hd
    have hfree : ∀ o n, heap.otherUser m'.sched.current = some (o, n) →
        heap.Free lay block n := fun o n ho p b i hb =>
      hblock o n (destroy_stays hp hd ho) p b i (region_dropped hp hdrop hb)
    obtain ⟨t, hschedules⟩ := exists_schedules hasm hrests hsched hfree
    have hswitch := Step.coExit (k := k) hcall hrun hd hschedules
    rw [hstep, Option.getD_some] at hswitch
    refine ⟨_, t, hswitch, ?_⟩
    rcases @afterSwap_cases lay heap m'.sched.current block with hlay | ⟨o, n, ho, hlay⟩
    · exact .inl hlay
    · exact .inr ⟨o, n, destroy_stays hp hd ho, hlay⟩

/-- Any number of operations of the machine. -/
theorem Sound.exists_exec (hasm : Assembled fetch k l) (h : x.Sound) (hrun : Runs fetch k l x y) :
    ∃ ops, exec (Machine.step k) x.machine ops = some y.machine := by
  induction hrun with
  | refl => exact ⟨[], rfl⟩
  | tail hbefore hstep ih =>
    obtain ⟨op, hstep⟩ := hstep
    obtain ⟨ops, hops⟩ := ih
    refine ⟨ops ++ [op], exec_append_iff.mpr ⟨_, hops, ?_⟩⟩
    simp [exec, (h.run hasm hbefore).machine hstep]

end Process

open Process

/-- The processor refines the machine. Whatever coroutines do between the calls of the
library, and wherever `malloc` puts what it needs, a run from `co_init` is a run of the
machine, at the end of which the memory holds the objects of the machine, in places of
their own, and the registers are those of the machine. -/
theorem processor_refines {fetch : X86.Fetch} {k : Code} {l : Labels} (hasm : Assembled fetch k l)
    {x y : Process} (hstart : Starts k x) (hrun : Runs fetch k l x y) :
    (∃ ops, exec (Machine.step k) x.machine ops = some y.machine) ∧ y.Loaded :=
  ⟨hstart.sound.exists_exec hasm hrun, (hstart.sound.run hasm hrun).loaded⟩

namespace Demo

/-- A call of `save_context`. -/
def callSave (record rsp : Word) (mem : X86.Mem) : X86.State where
  regs := X86.callRegs record 0xa000 0x403000 rsp 7
  rip := 0x1000
  mem := mem
  mxcsr := .initial
  x87Cw := 0x37f

/-- The stack that coroutines 1 and 2 share. -/
def sharedBlock : Machine.SharedBlock := ⟨⟨0x100000, 1024 * 1024, fun _ => 0, by decide⟩, rfl⟩

/-- Three records, and the first copies of two stacks: the bytes that are not zero. -/
def runBytes : List (Word × UInt8) :=
  [(0x5039, 0x10), (0x503a, 0x40), (0x5040, 0x80), (0x5041, 0x1f), (0x5044, 0x7f), (0x5045, 0x03),
    (0x5130, 0xf8), (0x5131, 0xff), (0x5132, 0x1f), (0x5139, 0x10), (0x513a, 0x40),
    (0x5140, 0x80), (0x5141, 0x1f), (0x5144, 0x7f), (0x5145, 0x03),
    (0x5230, 0xf8), (0x5231, 0xff), (0x5232, 0x1f), (0x5239, 0x10), (0x523a, 0x40),
    (0x5240, 0x80), (0x5241, 0x1f), (0x5244, 0x7f), (0x5245, 0x03),
    (0x6001, 0x20), (0x6002, 0x40), (0x6101, 0x20), (0x6102, 0x40)]

def runMemory : X86.Mem := fun x => (runBytes.lookup x).getD 0

/-- `co_exit` has called `call_with_new_stack`. -/
def callExit (rsp : Word) (mem : X86.Mem) : X86.State :=
  { callSave 0x5200 rsp mem with rip := labels.callWithNewStack }

/-- Two coroutines on one stack: the first yields to the second, which stores over the bytes of
the first, posts it and exits; `main` lets the first go on. -/
def runOps : List Op :=
  [.coCreateShared 1, .coCreateShared 2, .coPost 1, .coPost 2, .coResched,
    .compute (cpuOf (callSave 0x5100 0x1fffe0 fun _ => 0)), .write 0x1ffff0 0xab, .coYield,
    .compute (cpuOf (callSave 0x5200 0x1fffd0 fun _ => 0)), .write 0x1ffff0 0xcd, .coPost 1,
    .compute (cpuOf (callExit 0x1fffd0 fun _ => 0)), .coExit,
    .compute (cpuOf (callSave 0x5000 0xf000 fun _ => 0)), .coResched]

/-- `main` has called `co_init`, and where the objects of both coroutines will be is already what
the constructors will put there. -/
def started : Process where
  machine := Machine.coInit swapperCode (cpuOf (callSave 0x5000 0xf000 runMemory)) (fun _ => 0)
    [sharedBlock]
  layout := layout
  state := callSave 0x5000 0xf000 runMemory

/-- The machine after some of the operations. -/
def machineAt (n : Nat) : Machine :=
  (exec (Machine.step swapperCode) started.machine (runOps.take n)).getD started.machine

theorem exec_at (n : Nat) :
    exec (Machine.step swapperCode) started.machine (runOps.take n) = some (machineAt n) := by
  have hall : (exec (Machine.step swapperCode) started.machine runOps).isSome := by decide
  obtain ⟨m, hm⟩ := Option.isSome_iff_exists.mp hall
  rw [← List.take_append_drop n runOps] at hm
  obtain ⟨m', hm', -⟩ := exec_append_iff.mp hm
  rw [machineAt, hm', Option.getD_some]

theorem step_at {n : Nat} {op : Op} (hop : runOps[n]? = some op) :
    (machineAt n).step swapperCode op = some (machineAt (n + 1)) := by
  have hnext := exec_at (n + 1)
  rw [List.take_add_one, hop] at hnext
  obtain ⟨m, hm, hlast⟩ := exec_append_iff.mp hnext
  obtain rfl := Option.some.inj ((exec_at n).symm.trans hm)
  obtain ⟨_, hstep, hnil⟩ := exec_cons_iff.mp hlast
  rw [hstep, ← hnil]
  rfl

def startParts : List (Part × Word × Nat) :=
  [(.record 0, 0x5000, 72), (.stack 0, 0, 0), (.stack 1, 0x100000, 1024 * 1024)]

/-- All parts there can be. -/
def named : List Part :=
  [.record 0, .record 1, .record 2, .copy 0, .copy 1, .copy 2, .stack 0, .stack 1]

theorem region_mem {n : Nat} {lay : Layout} {parts : List (Part × Word × Nat)}
    (hcos : ∀ c, (machineAt n).heap.cos (c + 3) = none)
    (hstacks : ∀ i, (machineAt n).heap.coStacks (i + 2) = none)
    (hall : ∀ p ∈ named, ((machineAt n).heap.region lay p).all fun r => (p, r) ∈ parts)
    {p : Part} {r : Word × Nat} (hr : (machineAt n).heap.region lay p = some r) :
    (p, r) ∈ parts := by
  have hnamed : p ∈ named := by
    match p with
    | .record 0 | .record 1 | .record 2 | .copy 0 | .copy 1 | .copy 2 | .stack 0 | .stack 1 =>
      decide
    | .record (c + 3) => simp [Heap.region, hcos] at hr
    | .copy (c + 3) => simp [Heap.region, hcos] at hr
    | .stack (i + 2) => simp [Heap.region, hstacks] at hr
  have hmem := hall p hnamed
  rw [hr] at hmem
  exact of_decide_eq_true hmem

theorem region_started {p : Part} {r : Word × Nat}
    (hr : (machineAt 0).heap.region layout p = some r) : (p, r) ∈ startParts :=
  region_mem (fun _ => rfl) (fun _ => rfl) (by decide) hr

/-- The shared stack is full of zeros. -/
theorem runMemory_stack {i : Nat} (hi : i < 1024 * 1024) :
    runMemory (0x100000 + BitVec.ofNat 64 i) = 0 := by
  have hbelow : runBytes.all (fun x => x.1 < 0x100000#64) = true := by decide
  have habove : ¬ 0x100000#64 + BitVec.ofNat 64 i < 0x100000#64 := by
    rw [BitVec.lt_def, BitVec.toNat_add, BitVec.toNat_ofNat, BitVec.toNat_ofNat]
    omega
  have hnone : runBytes.lookup (0x100000 + BitVec.ofNat 64 i) = none := by
    rw [List.lookup_eq_none_iff]
    intro x hx
    have hlt := List.all_eq_true.mp hbelow x hx
    rw [bne_iff_ne]
    intro he
    exact habove (he ▸ of_decide_eq_true hlt)
  rw [runMemory, hnone, Option.getD_none]

def firstLayout : Layout := layout.withObject 1 0x5100 0x6000
def bothLayout : Layout := firstLayout.withObject 2 0x5200 0x6100

def firstParts : List (Part × Word × Nat) := [(.record 1, 0x5100, 72), (.copy 1, 0x6000, 8)]
def secondParts : List (Part × Word × Nat) := [(.record 2, 0x5200, 72), (.copy 2, 0x6100, 8)]

theorem region_first {p : Part} {r : Word × Nat}
    (hr : (machineAt 1).heap.region firstLayout p = some r) : (p, r) ∈ startParts ++ firstParts :=
  region_mem (fun _ => rfl) (fun _ => rfl) (by decide) hr

theorem region_second {p : Part} {r : Word × Nat}
    (hr : (machineAt 2).heap.region bothLayout p = some r) :
    (p, r) ∈ startParts ++ firstParts ++ secondParts :=
  region_mem (fun _ => rfl) (fun _ => rfl) (by decide) hr

/-- Coroutine 1 has its bytes on the stack, and no copy. -/
theorem region_yielding {p : Part} {r : Word × Nat}
    (hr : (machineAt 7).heap.region bothLayout p = some r) :
    (p, r) ∈ startParts ++ firstParts ++ secondParts :=
  region_mem (fun _ => rfl) (fun _ => rfl) (by decide) hr

theorem starts : Starts swapperCode started where
  machine := ⟨fun _ => 0, [sharedBlock], rfl⟩
  mem := by
    constructor
    · intro p
      match p with
      | .record 0 => intro co hobj; cases hobj; decide
      | .record (c + 1) => intro co hobj; cases hobj
      | .copy 0 => intro co copy hobj hcopy; cases hobj; cases hcopy
      | .copy (c + 1) => intro co copy hobj hcopy; cases hobj
      | .stack 0 => intro st hst; cases hst; unfold CoStack.InMemory; decide
      | .stack 1 => intro st hst i hi; cases hst; exact runMemory_stack hi
      | .stack (i + 2) => intro st hst; cases hst
    · intro p q a m b n hpq hp hq
      have hall : ∀ x ∈ startParts, ∀ y ∈ startParts, x.1 ≠ y.1 →
          Apart x.2.1 x.2.2 y.2.1 y.2.2 := by decide
      exact hall (p, a, m) (region_started hp) (q, b, n) (region_started hq) hpq

/-- One step of the processor in the example. -/
abbrev Does := Step (X86.ofList 0x1000 text) swapperCode labels

abbrev Reaches := Runs (X86.ofList 0x1000 text) swapperCode labels

/-- A creation puts new parts where nothing was. -/
theorem create_parts {n : Nat} {c : CoId} {record copy : Word} {lay : Layout}
    {old new : List (Part × Word × Nat)} (hop : runOps[n]? = some (.coCreateShared c))
    (hold : ∀ p r, (machineAt n).heap.region lay p = some r → (p, r) ∈ old)
    (hthere : ∀ x ∈ old, (machineAt n).heap.region lay x.1 ≠ none)
    (hnew : ∀ p r, (machineAt (n + 1)).heap.region (lay.withObject c record copy) p = some r →
      (p, r) ∈ old ++ new)
    (hholds : ∀ x ∈ new,
      (machineAt (n + 1)).heap.Holds (lay.withObject c record copy) runMemory x.1)
    (hfree : ∀ x ∈ new, ∀ y ∈ old, Apart x.2.1 x.2.2 y.2.1 y.2.2)
    (happart : ∀ x ∈ new, ∀ y ∈ new, x.1 ≠ y.1 → Apart x.2.1 x.2.2 y.2.1 y.2.2) :
    Does ⟨machineAt n, lay, started.state⟩ (.coCreateShared c)
      ⟨machineAt (n + 1), lay.withObject c record copy, started.state⟩ := by
  have hadded : ∀ p r, (machineAt (n + 1)).heap.region (lay.withObject c record copy) p = some r →
      (machineAt n).heap.region lay p = none → (p, r) ∈ new := fun p r hr hnone =>
    (List.mem_append.mp (hnew p r hr)).resolve_left fun hmem => hthere _ hmem hnone
  refine .create rfl (step_at hop) rfl (fun _ _ _ _ _ _ => rfl) (fun p b i hr hnone => ?_) rfl
  have hmem := hadded p (b, i) hr hnone
  exact ⟨hholds _ hmem, fun q a j hq => hfree _ hmem _ (hold q (a, j) hq),
    fun q a j hpq hq hnone' => happart _ hmem _ (hadded q (a, j) hq hnone') (Ne.symm hpq)⟩

theorem create_first : Does started (.coCreateShared 1)
    ⟨machineAt 1, firstLayout, started.state⟩ := by
  refine create_parts (n := 0) rfl (fun p r => region_started) (by decide) (fun p r => region_first)
    (fun x hx => ?_) (by decide) (by decide)
  simp only [firstParts, List.mem_cons, List.not_mem_nil, or_false] at hx
  rcases hx with rfl | rfl
  · intro co hobj
    cases hobj
    decide
  · intro co copy hobj hcopy
    cases hobj
    cases hcopy
    decide

theorem create_second : Does ⟨machineAt 1, firstLayout, started.state⟩ (.coCreateShared 2)
    ⟨machineAt 2, bothLayout, started.state⟩ := by
  refine create_parts (n := 1) rfl (fun p r => region_first) (by decide) (fun p r => region_second)
    (fun x hx => ?_) (by decide) (by decide)
  simp only [secondParts, List.mem_cons, List.not_mem_nil, or_false] at hx
  rcases hx with rfl | rfl
  · intro co hobj
    cases hobj
    decide
  · intro co copy hobj hcopy
    cases hobj
    cases hcopy
    decide

/-- The running coroutine gets to a call of the library. -/
theorem computes {lay : Layout} {s t : X86.State} {n : Nat} (hmem : t.mem = s.mem)
    (hop : runOps[n]? = some (.compute (cpuOf t))) :
    Does ⟨machineAt n, lay, s⟩ (.compute (cpuOf t)) ⟨machineAt (n + 1), lay, t⟩ :=
  .compute (step_at hop) fun _ _ _ _ _ _ => by rw [hmem]

theorem posts {lay : Layout} {s : X86.State} {n : Nat} {c : CoId}
    (hop : runOps[n]? = some (.coPost c)) :
    Does ⟨machineAt n, lay, s⟩ (.coPost c) ⟨machineAt (n + 1), lay, s⟩ :=
  .coPost (step_at hop) (fun _ _ _ _ _ _ => rfl) rfl

/-- A coroutine on the shared stack stores a byte. -/
theorem stores {lay : Layout} {s : X86.State} {n : Nat} {a : Word} {b : UInt8}
    (hop : runOps[n]? = some (.write a b))
    (htop : ((machineAt n).heap.place (machineAt n).sched.current).map (fun p => p.2.2.stackTop) =
      some 0x200000) :
    Does ⟨machineAt n, lay, s⟩ (.write a b)
      ⟨machineAt (n + 1), lay, { s with mem := Function.update s.mem a b }⟩ := by
  refine .write (step_at hop) (fun co sid st hp hzero => ?_) rfl rfl
  rw [hp.place, Option.map_some, hzero] at htop
  cases htop

/-- A switch to a coroutine whose stack nobody else has. -/
theorem switches {lay : Layout} {s : X86.State} {n : Nat} {op : Op} (hop : runOps[n]? = some op)
    (hreach : Reaches started ⟨machineAt n, lay, s⟩)
    (hcall : AtCall labels ⟨machineAt n, lay, s⟩ op)
    (huser : (machineAt n).heap.otherUser (machineAt (n + 1)).sched.current = none) :
    ∃ t, Does ⟨machineAt n, lay, s⟩ op ⟨machineAt (n + 1), lay, t⟩ := by
  have hfree : ∀ o i, (machineAt n).heap.otherUser (machineAt (n + 1)).sched.current =
      some (o, i) → (machineAt n).heap.Free lay 0 i := fun o i ho => by
    rw [huser] at ho
    cases ho
  obtain ⟨lay', t, hstep, hlay⟩ := (starts.sound.run assembled hreach).exists_switch assembled hcall
    (step_at hop) hfree
  rcases hlay with rfl | ⟨o, i, ho, -⟩
  · exact ⟨t, hstep⟩
  · rw [huser] at ho
    cases ho

/-- A step of another coroutine than the first. -/
abbrev Others (x y : Process) : Prop := x.machine.sched.current ≠ 1 ∧ ∃ op, Does x op y

theorem others {n : Nat} {lay : Layout} {s : X86.State} {op : Op} {y : Process}
    (hn : (machineAt n).sched.current ≠ 1) (h : Does ⟨machineAt n, lay, s⟩ op y) :
    Others ⟨machineAt n, lay, s⟩ y := ⟨hn, op, h⟩

theorem reaches_of_others {x y z : Process} (hreach : Reaches x y)
    (h : Relation.ReflTransGen Others y z) : Reaches x z :=
  hreach.trans (h.lift id fun _ _ hstep => hstep.2)

/-- Coroutine 1 has stored a byte and calls `co_yield`. -/
def caller (mem : X86.Mem) : Process :=
  ⟨machineAt 7, bothLayout, callSave 0x5100 0x1fffe0 (Function.update mem 0x1ffff0 0xab)⟩

theorem reaches_caller : ∃ mem, Reaches started (caller mem) := by
  have hcreated : Reaches started ⟨machineAt 2, bothLayout, started.state⟩ :=
    .tail (.single ⟨_, create_first⟩) ⟨_, create_second⟩
  have hposted : Reaches started ⟨machineAt 4, bothLayout, started.state⟩ :=
    (hcreated.tail ⟨_, posts (n := 2) rfl⟩).tail ⟨_, posts (n := 3) rfl⟩
  obtain ⟨t, hresched⟩ := switches (n := 4) rfl hposted ⟨rfl, rfl⟩ (by decide)
  have hrun := hposted.tail ⟨_, hresched⟩
  have hcomputed := hrun.tail ⟨_, computes (n := 5) (t := callSave 0x5100 0x1fffe0 t.mem) rfl rfl⟩
  exact ⟨t.mem, hcomputed.tail ⟨_, stores (n := 6) rfl (by decide)⟩⟩

/-- Coroutine 1 is away: its bytes are copied to a new block, coroutine 2 stores over them on the
stack and exits, and `main` switches back. -/
theorem away_and_back {mem : X86.Mem} (hreach : Reaches started (caller mem)) : ∃ y z : Process,
    Does (caller mem) .coYield y ∧
      Relation.ReflTransGen Others y z ∧
      z.machine = machineAt 15 := by
  have huser : (machineAt 7).heap.otherUser (machineAt 8).sched.current =
      some (1, 1024 * 1024) := by decide
  have hfree : ∀ o i, (machineAt 7).heap.otherUser (machineAt 8).sched.current = some (o, i) →
      (machineAt 7).heap.Free bothLayout 0x300000 i := fun o i ho => by
    obtain ⟨rfl, rfl⟩ := Prod.mk.inj (Option.some.inj (huser.symm.trans ho))
    have hall : ∀ x ∈ startParts ++ firstParts ++ secondParts,
        Apart 0x300000 (1024 * 1024) x.2.1 x.2.2 := by decide
    exact fun p b i hr => hall (p, b, i) (region_yielding hr)
  have hcall : AtCall labels (caller mem) .coYield := ⟨rfl, rfl⟩
  have hnext : (machineAt 7).step swapperCode .coYield = some (machineAt 8) := step_at (n := 7) rfl
  obtain ⟨lay, u, hyield, hlay⟩ := (starts.sound.run assembled hreach).exists_switch assembled
    hcall hnext hfree
  have hrecord : lay.record = bothLayout.record := by
    rcases hlay with rfl | ⟨o, i, -, rfl⟩
    · rfl
    · rfl
  have hyielded := hreach.tail ⟨_, hyield⟩
  -- coroutine 2
  have hsecond : Relation.ReflTransGen Others ⟨machineAt 8, lay, u⟩ _ :=
    .single (others (by decide) (computes (n := 8) (t := callSave 0x5200 0x1fffd0 u.mem) rfl rfl))
  have hstored := hsecond.tail (others (by decide) (stores (n := 9) (b := 0xcd) rfl (by decide)))
  have hposted := hstored.tail (others (by decide) (posts (n := 10) rfl))
  have hexit := hposted.tail
    (others (by decide) (computes (n := 11) (t := callExit 0x1fffd0 _) rfl rfl))
  obtain ⟨v, hexits⟩ := switches (n := 12) rfl (reaches_of_others hyielded hexit) rfl (by decide)
  -- `main`
  have hmain := (hexit.tail (others (by decide) hexits)).tail
    (others (by decide) (computes (n := 13) (t := callSave 0x5000 0xf000 v.mem) rfl rfl))
  have hcall : AtCall labels ⟨machineAt 14, lay, callSave 0x5000 0xf000 v.mem⟩ .coResched :=
    ⟨rfl, by rw [hrecord]; rfl⟩
  obtain ⟨w, hresched⟩ := switches (n := 14) rfl (reaches_of_others hyielded hmain) hcall
    (by decide)
  exact ⟨_, _, hyield, hmain.tail (others (by decide) hresched), rfl⟩

end Demo

open Demo in
/-- Two coroutines share a stack, one yields and the other one exits. -/
theorem processor_refines_demo : ∃ z : Process, Reaches started z ∧
    (∃ ops, exec (Machine.step swapperCode) started.machine ops = some z.machine) ∧
    z.machine.sched.current = 1 ∧ z.Loaded := by
  obtain ⟨mem, hreach⟩ := reaches_caller
  obtain ⟨y, z, hyield, haway, hz⟩ := away_and_back hreach
  have hrun := reaches_of_others (hreach.tail ⟨_, hyield⟩) haway
  obtain ⟨hops, hloaded⟩ := processor_refines assembled starts hrun
  exact ⟨z, hrun, hops, by rw [hz]; decide, hloaded⟩

end NetTraverse
