import NetTraverse.Coroutine.Dispatch
import NetTraverse.Coroutine.MemoryRuns

/-!
# Calls that return

To the compiled code of a coroutine, `co_yield` and `co_resched` are calls of
`save_context` like any other: they return, with the registers that a callee
preserves, and with the stack of the caller as it was. What the other coroutines do
in the meantime, on the same stack perhaps, makes no difference.
-/

namespace NetTraverse

open Words Region Swapper Process Transition

/-- Any number of operations of others than `c`. -/
abbrev Process.Away (fetch : X86.Fetch) (k : Code) (l : Labels) (c : CoId) :
    Process → Process → Prop :=
  Relation.ReflTransGen fun x y => x.machine.sched.current ≠ c ∧ ∃ op, Step fetch k l x op y

namespace ResumptionLemmas

open SwitchLemmas CopiesLemmas InMemoryLemmas OrderLemmas DispatchLemmas

variable {fetch : X86.Fetch} {k : Code} {l : Labels} {x y z : Process} {op : Op} {c : CoId}
  {img : Image}

/-- `c` is alive, with the image `img` in the log, and with this image in the processor
when it is running. -/
structure Awaits (c : CoId) (img : Image) (x : Process) : Prop where
  sound : x.Sound
  live : (x.machine.heap.cos c).isSome
  last : lastImage c x.machine.log = some img
  found : x.machine.sched.current = c → x.machine.runningImage = some img

/-- What `save_context` notes is the image of its caller. -/
theorem callImage_of_save {m m₁ : Machine} (hsave : m.save k = some (img, m₁)) :
    m.callImage k = some img ∧ m₁.log = m.log ∧ m₁.control = m.control := by
  have hcontrol := save_control hsave
  simp only [Machine.save, Option.bind_eq_bind, Option.bind_eq_some_iff, Option.some.injEq,
    Prod.mk.injEq] at hsave
  obtain ⟨co, -, img', hrunning, rfl, rfl⟩ := hsave
  refine ⟨?_, rfl, hcontrol⟩
  rw [Machine.callImage, hrunning, Option.map_some]

/-- A caller of `co_yield` or `co_resched` stays alive, with the image of the call. -/
theorem suspend_awaits {m m' : Machine} (hinv : Inv (some m.sched.current) m)
    (hop : op = .coYield ∨ op = .coResched) (hstep : m.step k op = some m') :
    ∃ img, m.callImage k = some img ∧ (m'.heap.cos m.sched.current).isSome ∧
      lastImage m.sched.current m'.log = some img ∧
      (m'.sched.current = m.sched.current → m'.runningImage = some img) := by
  have hlog := (step_inv hinv hstep).history
  obtain ⟨img, m₁, e, sched, hsave, he, hsched⟩ : ∃ img m₁ e sched, m.save k = some (img, m₁) ∧
      NotesImage e m.sched.current img ∧
      ({ m₁.record e with sched := sched } : Machine).coSched = some m' := by
    rcases hop with rfl | rfl
    · cases step_cases hinv.ok hstep with
      | @coYield img m₁ _ hsave _ hsched =>
        exact ⟨img, m₁, _, m₁.sched, hsave, .inr rfl, hsched⟩
    · cases step_cases hinv.ok hstep with
      | coResched hsave _ hsched => exact ⟨_, _, _, _, hsave, .inl rfl, hsched⟩
  obtain ⟨hcall, hnone, hcontrol⟩ := callImage_of_save hsave
  obtain ⟨hlast, hfound⟩ := coSched_finds hsched hlog
  have hnoted : lastImage m.sched.current (m₁.record e).log = some img := by
    show lastImage m.sched.current (e :: m₁.log) = some img
    rw [he.lastImage, if_pos rfl]
  refine ⟨img, hcall, ?_, (hlast _).trans hnoted, fun hback => ?_⟩
  · obtain ⟨co, hobj⟩ := hinv.live _ rfl
    have hlive : m'.control.live = m₁.control.live :=
      (Control.coSched_eq_some.mp (coSched_control hsched)).2.1
    have hsame := congrFun (hlive.trans (congrArg Control.live hcontrol)) m.sched.current
    refine hsame.trans ?_
    show (m.heap.cos m.sched.current).isSome = true
    rw [hobj]
    rfl
  · rw [hfound, hback]
    exact hnoted

theorem Awaits.step (hasm : Assembled fetch k l) (h : Awaits c img x)
    (hne : x.machine.sched.current ≠ c) (hstep : Step fetch k l x op y) : Awaits c img y := by
  have hnext := h.sound.machine hstep
  obtain ⟨hlast, hfound⟩ := step_finds h.sound.inv h.live hne hnext
  exact ⟨h.sound.step hasm hstep, step_live h.sound.inv h.live hne hnext, hlast.trans h.last,
    fun hback => (hfound hback).trans h.last⟩

theorem Awaits.run (hasm : Assembled fetch k l) (h : Awaits c img x)
    (hrun : Away fetch k l c x y) : Awaits c img y := by
  induction hrun with
  | refl => exact h
  | tail _ hstep ih =>
    obtain ⟨hne, op, hstep⟩ := hstep
    exact ih.step hasm hne hstep

/-- The stack in use, as the running coroutine sees it. -/
theorem readBytes_running (h : x.Sound) {co : Coroutine} {sid : StackId} {st : CoStack}
    (hp : x.machine.heap.Placed x.machine.sched.current co sid st) (htop : st.stackTop ≠ 0) :
    readBytes x.state.mem x.machine.cpu.rsp (st.stackTop - x.machine.cpu.rsp).toNat =
      st.above x.machine.cpu.rsp := by
  rcases holds_iff.mp (h.copies.heldRun _ co sid st hp rfl) with hzero | ⟨hlow, hhigh⟩
  · exact absurd hzero htop
  · exact readBytes_above (h.loaded.mem.holds (.stack sid) st hp.buf) hlow hhigh

/-- Who runs with the image of a call has its registers and its stack. -/
theorem resumed_of_image (hx : x.Sound) (hz : z.Sound) (hcall : x.machine.callImage k = some img)
    (hrunning : z.machine.runningImage = some img) {co : Coroutine} {sid : StackId} {st : CoStack}
    (hp : x.machine.heap.Placed x.machine.sched.current co sid st) :
    z.machine.cpu = { x.machine.cpu with rip := k.retaddr } ∧
      (st.stackTop ≠ 0 →
        readBytes z.state.mem x.machine.cpu.rsp (st.stackTop - x.machine.cpu.rsp).toNat =
          readBytes x.state.mem x.machine.cpu.rsp (st.stackTop - x.machine.cpu.rsp).toNat) := by
  obtain ⟨co', sid', st', hp'⟩ := hz.inv.running
  rw [callImage_eq hp, Option.some.injEq] at hcall
  subst hcall
  rw [runningImage_eq hp', Option.some.injEq, Image.mk.injEq] at hrunning
  obtain ⟨hcpu, hbytes⟩ := hrunning
  refine ⟨hcpu, fun htop => ?_⟩
  have hrsp : z.machine.cpu.rsp = x.machine.cpu.rsp := by rw [hcpu]
  rw [hrsp] at hbytes
  -- as many bytes, so the same top
  have hlen := congrArg List.length hbytes
  simp only [CoStack.above, length_readBytes] at hlen
  have htop' : st'.stackTop = st.stackTop := sub_left_injective (BitVec.eq_of_toNat_eq hlen)
  have hread := readBytes_running hz hp' (htop' ▸ htop)
  rw [hrsp, htop', hbytes] at hread
  rw [hread, readBytes_running hx hp htop]

/-- `save_context` ends with a `ret`. -/
theorem ret_returns (hasm : Assembled fetch k l) {s t : X86.State}
    (hcpu : cpuOf t = { cpuOf s with rip := k.retaddr })
    (hslot : readBytes t.mem (s.regs .rsp) 8 = readBytes s.mem (s.regs .rsp) 8) :
    ∃ u, X86.run fetch 1 t = some u ∧ cpuOf u = returned s := by
  have hrip : t.rip = k.retaddr := congrArg Cpu.rip hcpu
  have hfetch := hasm.retaddr.head
  rw [← hrip] at hfetch
  refine ⟨_, X86.run_one hfetch rfl, ?_⟩
  have hret : readLe 64 t.mem (s.regs .rsp) = readLe 64 s.mem (s.regs .rsp) := by
    rw [readLe, readLe, hslot]
  simp only [cpuOf, Cpu.mk.injEq] at hcpu
  simp [cpuOf, returned, hcpu, hret]

end ResumptionLemmas

open ResumptionLemmas SwitchLemmas

/-- `co_yield` and `co_resched` return. In every run, when the caller is current again for
the first time, the processor is at the `ret` of `save_context` with the registers and
control words of the call; and unless the caller is `main`, on whose stack the library keeps
nothing, its stack is as it was, so that the `ret` leads back behind the call. -/
theorem suspended_returns {fetch : X86.Fetch} {k : Code} {l : Labels} (hasm : Assembled fetch k l)
    {x₀ x y z : Process} {op : Op} (hstart : Starts k x₀) (hrun : Runs fetch k l x₀ x)
    (hop : op = .coYield ∨ op = .coResched) (hcall : Step fetch k l x op y)
    (haway : Away fetch k l x.machine.sched.current y z)
    (hback : z.machine.sched.current = x.machine.sched.current) :
    cpuOf z.state = { cpuOf x.state with rip := k.retaddr } ∧
      ∀ co sid st, x.machine.heap.Placed x.machine.sched.current co sid st → st.stackTop ≠ 0 →
        8 ≤ (st.stackTop - x.state.regs .rsp).toNat →
        readBytes z.state.mem (x.state.regs .rsp) (st.stackTop - x.state.regs .rsp).toNat =
            readBytes x.state.mem (x.state.regs .rsp) (st.stackTop - x.state.regs .rsp).toNat ∧
          ∃ t, X86.run fetch 1 z.state = some t ∧ cpuOf t = returned x.state := by
  have hx := hstart.sound.run hasm hrun
  obtain ⟨img, himg, hlive, hlast, hfound⟩ := suspend_awaits hx.inv hop (hx.machine hcall)
  have hy : Awaits x.machine.sched.current img y := ⟨hx.step hasm hcall, hlive, hlast, hfound⟩
  have hz := hy.run hasm haway
  obtain ⟨co₀, sid₀, st₀, hp₀⟩ := hx.inv.running
  have hcpu : cpuOf z.state = { cpuOf x.state with rip := k.retaddr } := by
    rw [hz.sound.loaded.cpu, hx.loaded.cpu]
    exact (resumed_of_image hx hz.sound himg (hz.found hback) hp₀).1
  refine ⟨hcpu, fun co sid st hp htop hroom => ?_⟩
  have hrsp : x.state.regs .rsp = x.machine.cpu.rsp := congrArg Cpu.rsp hx.loaded.cpu
  have hstack := (resumed_of_image hx hz.sound himg (hz.found hback) hp).2 htop
  rw [← hrsp] at hstack
  exact ⟨hstack, ret_returns hasm hcpu (readBytes_of_le hroom hstack)⟩

open Demo in
/-- Coroutine 1 calls `co_yield`. Its stack is copied away, coroutine 2 stores over its bytes,
and when the call returns they are back. -/
theorem suspended_returns_demo : ∃ (mem : X86.Mem) (z : Process) (t : X86.State),
    Reaches started (caller mem) ∧ z.machine.sched.current = 1 ∧
      readBytes z.state.mem 0x1fffe0 32 = readBytes (caller mem).state.mem 0x1fffe0 32 ∧
      X86.run (X86.ofList 0x1000 text) 1 z.state = some t ∧
      cpuOf t = returned (caller mem).state := by
  obtain ⟨mem, hreach⟩ := reaches_caller
  obtain ⟨y, z, hyield, haway, hz⟩ := away_and_back hreach
  have hback : z.machine.sched.current = 1 := by
    rw [hz]
    decide
  obtain ⟨-, hstack⟩ := suspended_returns assembled starts hreach (.inl rfl) hyield
    haway hback
  have htop : ((machineAt 7).heap.place 1).map (fun p => p.2.2.stackTop) = some 0x200000 := by
    decide
  obtain ⟨⟨co, sid, st⟩, hplace, htop⟩ := Option.map_eq_some_iff.mp htop
  dsimp only at htop
  have hrsp : (caller mem).state.regs .rsp = 0x1fffe0 := rfl
  have hlength : ((0x200000 : Word) - 0x1fffe0).toNat = 32 := by decide
  obtain ⟨hbytes, t, hret, hcpu⟩ := hstack co sid st (Heap.place_eq_some.mp hplace)
    (by rw [htop]; decide) (by rw [htop, hrsp, hlength]; decide)
  rw [htop, hrsp, hlength] at hbytes
  exact ⟨mem, z, t, hreach, hback, hbytes, hret, hcpu⟩

end NetTraverse
