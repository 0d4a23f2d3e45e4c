import NetTraverse.Coroutine.Dispatch
import NetTraverse.Coroutine.InMemory

/-!
# The processor

`InMemory` puts single functions into the memory of the processor. Here the
processor runs a program: the routines of `swapper.s` are executed, and
around them compiled code may store wherever no part of the library lies.
A `Process` is a machine with the memory that it lies in, and `Process.Step`
what one operation does to both. What the machine does when it switches is not asked
by `Step`: it follows from what the processor does.
-/

namespace NetTraverse

open Words Region Swapper Transition

/-! ## co_sched -/

/-- `co_swap_in` in memory: what it does to the stack and the copies is done by
`co_memcpy`. -/
inductive SwapsInMemory (fetch : X86.Fetch) (l : Labels) (m : Machine) (c : CoId) (lay : Layout)
    (s : X86.State) : Machine → Layout → X86.State → Prop
  | inStack : m.heap.inStack c = some true → SwapsInMemory fetch l m c lay s m lay s
  /-- Nobody has the stack. -/
  | restore {co : Coroutine} {sid : StackId} {st : CoStack} {heap : Heap} {u t : X86.State} :
      m.heap.Placed c co sid st → m.heap.inStack c = some false → st.usedBy = none →
      m.heap.restoreStack c = some heap →
      m.heap.Untouched lay s.mem u.mem →
      CallsMemcpy l u (st.stackTop - co.stackCopySize) (lay.copy c) co.stackCopySize →
      X86.run fetch (co.stackCopySize.toNat + 3) u = some t →
      SwapsInMemory fetch l m c lay s { m with heap := heap } lay t
  /-- `o` has it, and its bytes go into a new block. -/
  | take {co coo : Coroutine} {sid : StackId} {st : CoStack} {o : CoId} {block : Word}
      {m₁ : Machine} {heap : Heap} {u v w t : X86.State} :
      m.heap.Placed c co sid st → m.heap.inStack c = some false → st.usedBy = some o →
      m.heap.Placed o coo sid st → m.saveStack o = some m₁ →
      m.heap.Untouched lay s.mem u.mem →
      m.heap.Free lay block (st.stackTop - coo.savedCtx.rsp).toNat →
      CallsMemcpy l u block coo.savedCtx.rsp (st.stackTop - coo.savedCtx.rsp) →
      X86.run fetch ((st.stackTop - coo.savedCtx.rsp).toNat + 3) u = some v →
      m₁.heap.restoreStack c = some heap →
      m₁.heap.Untouched (lay.withCopy o block) v.mem w.mem →
      CallsMemcpy l w (st.stackTop - co.stackCopySize) (lay.copy c) co.stackCopySize →
      X86.run fetch (co.stackCopySize.toNat + 3) w = some t →
      SwapsInMemory fetch l m c lay s { m₁ with heap := heap } (lay.withCopy o block) t

/-- `co_sched` in memory, from a handler to the jump out of `load_context`. -/
inductive SchedulesInMemory (fetch : X86.Fetch) (l : Labels) (m : Machine) (lay : Layout)
    (s : X86.State) : Layout → X86.State → Prop
  | intro {sched : Sched} {m₁ : Machine} {lay' : Layout} {u v t : X86.State} :
      m.sched.coSched = some sched →
      SwapsInMemory fetch l { m with sched := sched } sched.current lay s m₁ lay' u →
      m₁.heap.Untouched lay' u.mem v.mem →
      v.rip = l.loadContext → v.regs .rdi = lay'.record sched.current →
      X86.run fetch 11 v = some t → SchedulesInMemory fetch l m lay s lay' t

/-! ## One operation -/

/-- The library, and the processor that runs it. -/
structure Process where
  machine : Machine
  layout : Layout
  state : X86.State

/-- `new` has put the record of `c` at `record`, and the constructor its copy at `copy`. -/
def Layout.withObject (lay : Layout) (c : CoId) (record copy : Word) : Layout :=
  ⟨Function.update lay.record c record, Function.update lay.copy c copy⟩

/-- The operation creates the coroutine `c`. -/
def Op.creates (c : CoId) : Op → Prop
  | .coCreate d _ _ => d = c
  | .coCreateShared d => d = c
  | _ => False

namespace Process

/-- The memory holds the objects, and the registers are those of the machine. -/
structure Loaded (x : Process) : Prop where
  mem : x.machine.heap.InMemory x.layout x.state.mem
  cpu : cpuOf x.state = x.machine.cpu

/-- One operation. A machine that cannot switch stays as it is, which `Sound.machine`
excludes. -/
inductive Step (fetch : X86.Fetch) (k : Code) (l : Labels) : Process → Op → Process → Prop
  /-- The process stack of `main` is no part of the library. -/
  | write {m m' : Machine} {lay : Layout} {s t : X86.State} {a : Word} {b : UInt8} :
      m.step k (.write a b) = some m' →
      (∀ co sid st, m.heap.Placed m.sched.current co sid st → st.stackTop = 0 →
        m.heap.Free lay a 1) →
      t.mem = Function.update s.mem a b → cpuOf t = cpuOf s →
      Step fetch k l ⟨m, lay, s⟩ (.write a b) ⟨m', lay, t⟩
  | compute {m m' : Machine} {lay : Layout} {s t : X86.State} :
      m.step k (.compute (cpuOf t)) = some m' → m.heap.Untouched lay s.mem t.mem →
      Step fetch k l ⟨m, lay, s⟩ (.compute (cpuOf t)) ⟨m', lay, t⟩
  /-- The constructors fill blocks that were free. -/
  | create {m m' : Machine} {lay lay' : Layout} {s t : X86.State} {op : Op} {c : CoId}
      {record copy : Word} :
      op.creates c → m.step k op = some m' → lay' = lay.withObject c record copy →
      m.heap.Untouched lay s.mem t.mem →
      (∀ p b n, m'.heap.region lay' p = some (b, n) → m.heap.region lay p = none →
        m'.heap.Holds lay' t.mem p ∧ m.heap.Free lay b n ∧
          ∀ q a i, q ≠ p → m'.heap.region lay' q = some (a, i) → m.heap.region lay q = none →
            Apart b n a i) →
      cpuOf t = cpuOf s → Step fetch k l ⟨m, lay, s⟩ op ⟨m', lay', t⟩
  | coPost {m m' : Machine} {lay : Layout} {s t : X86.State} {c : CoId} :
      m.step k (.coPost c) = some m' → m.heap.Untouched lay s.mem t.mem → cpuOf t = cpuOf s →
      Step fetch k l ⟨m, lay, s⟩ (.coPost c) ⟨m', lay, t⟩
  | coResched {m m₁ : Machine} {lay lay' : Layout} {s u t : X86.State} {img : Image} :
      s.rip = l.saveContext → s.regs .rdi = lay.record m.sched.current →
      X86.run fetch 13 s = some u → m.save k = some (img, m₁) →
      SchedulesInMemory fetch l { m₁.record (.rescheduled m.sched.current img) with
        sched := m.sched.enqueue (some m.sched.current) } lay u lay' t →
      Step fetch k l ⟨m, lay, s⟩ .coResched ⟨(m.step k .coResched).getD m, lay', t⟩
  | coYield {m m₁ : Machine} {lay lay' : Layout} {s u t : X86.State} {img : Image} :
      s.rip = l.saveContext → s.regs .rdi = lay.record m.sched.current →
      X86.run fetch 13 s = some u → m.save k = some (img, m₁) →
      SchedulesInMemory fetch l (m₁.record (.yielded m.sched.current img)) lay u lay' t →
      Step fetch k l ⟨m, lay, s⟩ .coYield ⟨(m.step k .coYield).getD m, lay', t⟩
  /-- The record and the stack of the coroutine are freed on the handler stack. -/
  | coExit {m : Machine} {lay lay' : Layout} {s u t : X86.State} {heap : Heap} :
      s.rip = l.callWithNewStack → X86.run fetch 2 s = some u →
      m.heap.coDestroy m.sched.current = some heap →
      SchedulesInMemory fetch l ({ m with heap := heap }.record (.exited m.sched.current)) lay u
        lay' t →
      Step fetch k l ⟨m, lay, s⟩ .coExit ⟨(m.step k .coExit).getD m, lay', t⟩

end Process

/-- Another coroutine that has the stack of `c`, and the size of the stack. -/
def Heap.otherUser (h : Heap) (c : CoId) : Option (CoId × Nat) := do
  let (co, _, st) ← h.place c
  let o ← st.usedBy
  if co.sharedStack ∧ o ≠ c then some (o, (st.stackTop - st.stackBottom).toNat) else none

/-- `save_stack` puts the bytes of that coroutine at `block`. -/
def Layout.afterSwap (lay : Layout) (h : Heap) (c : CoId) (block : Word) : Layout :=
  match h.otherUser c with
  | some (o, _) => lay.withCopy o block
  | none => lay

namespace ProcessLemmas

open SwitchLemmas OrderLemmas CopiesLemmas InMemoryLemmas

variable {fetch : X86.Fetch} {k : Code} {l : Labels} {m m' m₁ : Machine} {lay lay' : Layout}
  {s t : X86.State} {c : CoId}

/-! ### The machine, up to `co_sched` -/

theorem step_coResched {img : Image} (hsave : m.save k = some (img, m₁)) :
    m.step k .coResched = Machine.coSched { m₁.record (.rescheduled m.sched.current img) with
      sched := m.sched.enqueue (some m.sched.current) } := by
  rw [← save_sched hsave]
  simp only [Machine.step, Machine.coResched, hsave, Option.bind_eq_bind, Option.bind_some]
  rfl

theorem step_coYield {img : Image} (hsave : m.save k = some (img, m₁)) :
    m.step k .coYield = (m₁.record (.yielded m.sched.current img)).coSched := by
  rw [← save_sched hsave]
  simp only [Machine.step, Machine.coYield, hsave, Option.bind_eq_bind, Option.bind_some]

theorem step_coExit {heap : Heap} (hd : m.heap.coDestroy m.sched.current = some heap) :
    m.step k .coExit = ({ m with heap := heap }.record (.exited m.sched.current)).coSched := by
  simp only [Machine.step, Machine.coExit, hd, Option.bind_eq_bind, Option.bind_some]

/-! ### co_sched -/

/-- `SwapsInMemory` is `coSwapIn`, as far as the machine is concerned. -/
theorem coSwapIn_of_swaps (h : SwapsInMemory fetch l m c lay s m₁ lay' t) :
    m.coSwapIn c = some m₁ := by
  cases h with
  | inStack hin => simp [Machine.coSwapIn, hin]
  | restore hp hin hu hres => simp [Machine.coSwapIn, hin, hp.place, hu, hres]
  | take hp hin hu _ hsave _ _ _ _ hres => simp [Machine.coSwapIn, hin, hp.place, hu, hsave, hres]

theorem sched_of_swaps (h : SwapsInMemory fetch l m c lay s m₁ lay' t) : m₁.sched = m.sched := by
  cases h with
  | inStack => rfl
  | restore => rfl
  | take _ _ _ hpo hsave =>
    rw [saveStack_eq hpo, Option.some.injEq] at hsave
    subst hsave
    rfl

/-- Who is not on its stack uses a shared one. -/
theorem away_of_inStack {co : Coroutine} {sid : StackId} {st : CoStack}
    (hp : m.heap.Placed c co sid st) (hin : m.heap.inStack c = some false) :
    co.sharedStack = true ∧ st.usedBy ≠ some c := by
  cases hs : co.sharedStack with
  | false => simp [Heap.inStack, hp.obj, hs] at hin
  | true => simpa [inStack_shared hp hs] using hin

/-- The bytes that `save_stack` takes of the owner lie on its stack. -/
theorem owner_bounds {co coo : Coroutine} {sid : StackId} {st : CoStack} {o : CoId}
    (hinv : Inv none m) (hc : Copies none m) (hp : m.heap.Placed c co sid st)
    (hs : co.sharedStack = true) (hpo : m.heap.Placed o coo sid st) (hoc : o ≠ c) :
    st.stackBottom ≤ coo.savedCtx.rsp ∧ coo.savedCtx.rsp ≤ st.stackTop := by
  have hso := (hinv.ok.shared_of_ne hp hpo hoc).1
  have hroom := hinv.ok.room sid st hp.buf ((hinv.ok.shared_eq hp).trans hs)
  exact ⟨low_of_holds (hc.held o coo sid st hpo (by simp)) hroom,
    (hinv.rests o coo sid st hpo (by simp)).fits hso⟩

theorem swaps_inMemory (hasm : Assembled fetch k l) (hinv : Inv none m) (hc : Copies none m)
    (hmem : m.heap.InMemory lay s.mem) (h : SwapsInMemory fetch l m c lay s m₁ lay' t) :
    m₁.heap.InMemory lay' t.mem := by
  cases h with
  | inStack => exact hmem
  | restore hp hin hu hres hsame hcall hrun =>
    obtain ⟨hs, hne⟩ := away_of_inStack hp hin
    obtain ⟨copy, hcopy, hlen, hfits⟩ := hc.fits hinv hp hs hne (by simp)
    obtain ⟨t', hrun', hmem', -⟩ := restoreStack_refines hasm (inMemory_untouched hmem hsame) hp
      hcopy hlen hfits hcall hres
    obtain rfl : t' = t := Option.some.inj (hrun'.symm.trans hrun)
    exact hmem'
  | @take co coo sid st o block m₂ heap u v w _ hp hin hu hpo hsave hsame hfree hcall hrun hres
      hsame' hcall' hrun' =>
    obtain ⟨hs, hne⟩ := away_of_inStack hp hin
    obtain ⟨copy, hcopy, hlen, hfits⟩ := hc.fits hinv hp hs hne (by simp)
    have hoc : o ≠ c := fun he => hne (by rw [hu, he])
    obtain ⟨hlow, hhigh⟩ := owner_bounds hinv hc hp hs hpo hoc
    obtain ⟨v', hrunv, hmemv, -⟩ := saveStack_refines hasm (inMemory_untouched hmem hsame) hpo hlow
      hhigh hcall hfree hsave
    obtain rfl : v' = v := Option.some.inj (hrunv.symm.trans hrun)
    have hp₂ : m₂.heap.Placed c co sid st := by
      rw [saveStack_eq hpo, Option.some.injEq] at hsave
      subst hsave
      exact Placed.setCo hp _ (Ne.symm hoc)
    have hcopyAt : (lay.withCopy o block).copy c = lay.copy c :=
      Function.update_of_ne (Ne.symm hoc) ..
    obtain ⟨t', hrunt, hmemt, -⟩ := restoreStack_refines hasm (inMemory_untouched hmemv hsame') hp₂
      hcopy hlen hfits (by rwa [hcopyAt]) hres
    obtain rfl : t' = t := Option.some.inj (hrunt.symm.trans hrun')
    exact hmemt

/-- What `co_sched` loads, whether the next coroutine shares a stack or not. -/
theorem load_of_coSched {sched : Sched} (hsched : m.coSched = some m')
    (hnext : m.sched.coSched = some sched)
    (hswap : Machine.coSwapIn { m with sched := sched } sched.current = some m₁) :
    m₁.load = some m' := by
  simp only [Machine.coSched, hnext, Option.bind_eq_bind, Option.bind_some] at hsched
  obtain ⟨co, hobj, hsched⟩ := Option.bind_eq_some_iff.mp hsched
  cases hs : co.sharedStack with
  | true => simpa [hs, hswap] using hsched
  | false =>
    have hin : m.heap.inStack sched.current = some true := by simp [Heap.inStack, hobj, hs]
    simp only [Machine.coSwapIn, hin, Option.bind_eq_bind, Option.bind_some, if_true,
      Option.some.injEq] at hswap
    subst hswap
    simpa [hs] using hsched

theorem live_of_swaps (h : SwapsInMemory fetch l m c lay s m₁ lay' t) :
    m.heap.isLive (some c) := by
  cases h with
  | inStack hin =>
    obtain ⟨co, hobj, -⟩ := Option.bind_eq_some_iff.mp hin
    exact Option.isSome_iff_exists.mpr ⟨co, hobj⟩
  | restore hp => exact Option.isSome_iff_exists.mpr ⟨_, hp.obj⟩
  | take hp => exact Option.isSome_iff_exists.mpr ⟨_, hp.obj⟩

/-- What holds while a handler runs: every coroutine rests. -/
structure Resting (m : Machine) (lay : Layout) (mem : X86.Mem) : Prop where
  inv : Inv none m
  copies : Copies none m
  mxcsr : m.heap.MxcsrOk
  mem : m.heap.InMemory lay mem

/-- What the processor does, the machine can do. -/
theorem coSched_of_schedules (hinv : Inv none m) (h : SchedulesInMemory fetch l m lay s lay' t) :
    ∃ m', m.coSched = some m' := by
  cases h with
  | intro hnext hswaps =>
    have hlive := live_of_swaps hswaps
    exact (coSched_goesOn_iff hinv).mpr ⟨_, _, Sched.coSched_eq_some.mp hnext, hlive⟩

theorem schedules_loaded (hasm : Assembled fetch k l) (hr : Resting m lay s.mem)
    (h : SchedulesInMemory fetch l m lay s lay' t) (hsched : m.coSched = some m') :
    m'.heap.InMemory lay' t.mem ∧ cpuOf t = m'.cpu := by
  cases h with
  | @intro sched m₁ _ u v _ hnext hswaps hsame hrip hrdi hrun =>
    have hinv₁ : Inv none { m with sched := sched } := hr.inv.sched sched
    have hc₁ : Copies none { m with sched := sched } := hr.copies.congr rfl rfl
    have hmem₁ := swaps_inMemory hasm hinv₁ hc₁ hr.mem hswaps
    have hload := load_of_coSched hsched hnext (coSwapIn_of_swaps hswaps)
    rw [← congrArg Sched.current (sched_of_swaps hswaps)] at hrdi
    obtain ⟨t', hrun', hmem', hcpu⟩ := load_refines hasm (inMemory_untouched hmem₁ hsame) hrip hrdi
      hload (mxcsr_coSched hr.mxcsr hsched).2
    obtain rfl : t' = t := Option.some.inj (hrun'.symm.trans hrun)
    exact ⟨hmem', hcpu⟩

/-! ### What the processor can do -/

/-- Nobody else has a stack that `c` is on. -/
theorem afterSwap_inStack {co : Coroutine} {sid : StackId} {st : CoStack} {block : Word}
    (hp : m.heap.Placed c co sid st) (hin : m.heap.inStack c = some true) :
    lay.afterSwap m.heap c block = lay := by
  have hnone : m.heap.otherUser c = none := by
    cases hs : co.sharedStack with
    | false => simp [Heap.otherUser, hp.place, hs]
    | true =>
      have hu : st.usedBy = some c := by simpa [inStack_shared hp hs] using hin
      simp [Heap.otherUser, hp.place, hu]
  rw [Layout.afterSwap, hnone]

theorem otherUser_shared {co : Coroutine} {sid : StackId} {st : CoStack}
    (hp : m.heap.Placed c co sid st) (hs : co.sharedStack = true) :
    m.heap.otherUser c = st.usedBy.bind fun o =>
      if o ≠ c then some (o, (st.stackTop - st.stackBottom).toNat) else none := by
  simp [Heap.otherUser, hp.place, hs]

theorem untouched_of_eq {h : Heap} {mem mem' : X86.Mem} (heq : mem' = mem) :
    h.Untouched lay mem mem' := fun _ _ _ _ _ _ => by rw [heq]

theorem free_of_le {h : Heap} {a : Word} {i n : Nat} (hfree : h.Free lay a n) (hle : i ≤ n) :
    h.Free lay a i := fun p b j hr => ⟨hle.trans (hfree p b j hr).1, (hfree p b j hr).2⟩

/-- A call of `co_memcpy` with its stack below the destination. -/
theorem exists_callsMemcpy (l : Labels) (mem : X86.Mem) (dst src len : Word)
    (hlen : len.toNat + 8 ≤ 2 ^ 64) :
    ∃ u : X86.State, u.mem = mem ∧ CallsMemcpy l u dst src len := by
  refine ⟨⟨X86.callRegs dst src len (dst - 8) 0, l.coMemcpy, mem, .initial, 0x37f⟩, rfl, rfl, rfl,
    rfl, rfl, ?_, ?_⟩
  · show len.toNat ≤ (dst - 8 - dst).toNat
    bv_omega
  · show 8 ≤ (dst - (dst - 8)).toNat
    bv_omega

/-- A stack does not fill the memory, as its coroutine has a record. -/
theorem stack_length {h : Heap} {mem : X86.Mem} {co : Coroutine} {sid : StackId} {st : CoStack}
    (hmem : h.InMemory lay mem) (hp : h.Placed c co sid st) :
    (st.stackTop - st.stackBottom).toNat + 8 ≤ 2 ^ 64 := by
  have happart := hmem.apart (.record c) (.stack sid) _ _ _ _ (by simp)
    (h.region_record lay hp.obj) (h.region_stack lay hp.buf)
  have hne : lay.record c ≠ st.stackBottom := by
    intro he
    have hrecord := happart.1
    rw [he, BitVec.sub_self] at hrecord
    simp at hrecord
  have hsum := toNat_sub_add_toNat_sub hne
  obtain ⟨hrecord, hstack⟩ := happart
  omega

theorem exists_swaps (hasm : Assembled fetch k l) (hinv : Inv none m) (hc : Copies none m)
    (hmem : m.heap.InMemory lay s.mem) {co : Coroutine} {sid : StackId} {st : CoStack}
    (hp : m.heap.Placed c co sid st) {block : Word}
    (hblock : ∀ o n, m.heap.otherUser c = some (o, n) → m.heap.Free lay block n) :
    ∃ m₁ t, SwapsInMemory fetch l m c lay s m₁ (lay.afterSwap m.heap c block) t := by
  have hlen := stack_length hmem hp
  cases hin : m.heap.inStack c with
  | none =>
    cases hs : co.sharedStack with
    | false => simp [Heap.inStack, hp.obj, hs] at hin
    | true => simp [inStack_shared hp hs] at hin
  | some b =>
    cases b with
    | true =>
      rw [afterSwap_inStack hp hin]
      exact ⟨m, s, .inStack hin⟩
    | false =>
      obtain ⟨hs, hne⟩ := away_of_inStack hp hin
      have huser := otherUser_shared hp hs
      obtain ⟨copy, hcopy, hsize, hfits⟩ := hc.fits hinv hp hs hne (by simp)
      have hbytes : HasCopy co st := (hinv.rests c co sid st hp (by simp)).away hs hne
      cases hused : st.usedBy with
      | none =>
        obtain ⟨heap, hres⟩ := restoreStack_goesOn hp hbytes
        obtain ⟨u, humem, hcall⟩ := exists_callsMemcpy l s.mem (st.stackTop - co.stackCopySize)
          (lay.copy c) co.stackCopySize (by omega)
        obtain ⟨t, hrun, -⟩ := restoreStack_refines hasm (humem ▸ hmem) hp hcopy hsize hfits hcall
          hres
        rw [Layout.afterSwap, huser, hused]
        exact ⟨_, t, .restore hp hin hused hres (untouched_of_eq humem) hcall hrun⟩
      | some o =>
        have hoc : o ≠ c := fun he => hne (by rw [hused, he])
        obtain ⟨coo, hpo⟩ := hinv.ok.owner sid st o hp.buf ((hinv.ok.shared_eq hp).trans hs) hused
        obtain ⟨hlow, hhigh⟩ := owner_bounds hinv hc hp hs hpo hoc
        have hpart : (st.stackTop - coo.savedCtx.rsp).toNat ≤
            (st.stackTop - st.stackBottom).toNat := by
          rw [BitVec.toNat_sub_of_le hhigh, BitVec.toNat_sub_of_le (BitVec.le_trans hlow hhigh)]
          rw [BitVec.le_def] at hlow
          omega
        rw [hused, Option.bind_some, if_pos hoc] at huser
        have hfree := free_of_le (hblock o _ huser) hpart
        have hsave := saveStack_eq hpo
        obtain ⟨u, humem, hcall⟩ := exists_callsMemcpy l s.mem block coo.savedCtx.rsp
          (st.stackTop - coo.savedCtx.rsp) (by omega)
        obtain ⟨v, hrun, hmemv, -⟩ := saveStack_refines hasm (humem ▸ hmem) hpo hlow hhigh hcall
          hfree hsave
        have hp₂ := Placed.setCo hp { coo with
          stackCopySize := st.stackTop - coo.savedCtx.rsp
          stackCopy := some (st.above coo.savedCtx.rsp) } (Ne.symm hoc)
        obtain ⟨heap, hres⟩ := restoreStack_goesOn hp₂ hbytes
        have hcopyAt : (lay.withCopy o block).copy c = lay.copy c :=
          Function.update_of_ne (Ne.symm hoc) ..
        obtain ⟨w, hwmem, hcall'⟩ := exists_callsMemcpy l v.mem (st.stackTop - co.stackCopySize)
          (lay.copy c) co.stackCopySize (by omega)
        obtain ⟨t, hrun', -⟩ := restoreStack_refines hasm (hwmem ▸ hmemv) hp₂ hcopy hsize hfits
          (by rwa [hcopyAt]) hres
        rw [Layout.afterSwap, huser]
        exact ⟨_, t, .take hp hin hused hpo hsave (untouched_of_eq humem) hfree hcall hrun hres
          (untouched_of_eq hwmem) hcall' hrun'⟩

theorem exists_schedules (hasm : Assembled fetch k l) (hr : Resting m lay s.mem)
    (hsched : m.coSched = some m') {block : Word}
    (hblock : ∀ o n, m.heap.otherUser m'.sched.current = some (o, n) → m.heap.Free lay block n) :
    ∃ t, SchedulesInMemory fetch l m lay s (lay.afterSwap m.heap m'.sched.current block) t := by
  have hqueue : m.sched.queue = some m'.sched.current :: m'.sched.queue :=
    (Control.coSched_eq_some.mp (coSched_control hsched)).1
  have hnext : m.sched.coSched = some m'.sched := Sched.coSched_eq_some.mpr hqueue
  obtain ⟨p, rest, hfront, hlive⟩ := (coSched_goesOn_iff hr.inv).mp ⟨m', hsched⟩
  obtain ⟨rfl, -⟩ := List.cons.inj (hqueue.symm.trans hfront)
  obtain ⟨co, hobj⟩ := Option.isSome_iff_exists.mp hlive
  obtain ⟨sid, st, hp, -⟩ := hr.inv.ok.placed _ co hobj
  have hinv₁ : Inv none { m with sched := m'.sched } := hr.inv.sched m'.sched
  have hc₁ : Copies none { m with sched := m'.sched } := hr.copies.congr rfl rfl
  obtain ⟨m₁, u, hswaps⟩ := exists_swaps (s := s) hasm hinv₁ hc₁ hr.mem hp hblock
  have hmem₁ := swaps_inMemory hasm hinv₁ hc₁ hr.mem hswaps
  have hload := load_of_coSched hsched hnext (coSwapIn_of_swaps hswaps)
  set lay' := lay.afterSwap m.heap m'.sched.current block
  obtain ⟨v, hrip, hrdi, hvmem⟩ : ∃ v : X86.State, v.rip = l.loadContext ∧
      v.regs .rdi = lay'.record m₁.sched.current ∧ v.mem = u.mem :=
    ⟨(u.set .rdi (lay'.record m₁.sched.current)).goto l.loadContext, rfl, by simp, rfl⟩
  obtain ⟨t, hrun, -, -⟩ := load_refines hasm (hvmem ▸ hmem₁) hrip hrdi hload
    (mxcsr_coSched hr.mxcsr hsched).2
  rw [sched_of_swaps hswaps] at hrdi
  exact ⟨t, .intro hnext hswaps (untouched_of_eq hvmem) hrip hrdi hrun⟩

/-! ### The control word of suspended coroutines -/

theorem mxcsr_created {heap : Heap} {co : Coroutine} {sid : StackId} {st : CoStack}
    (hok : m.heap.MxcsrOk) (hadd : Adds k m.heap heap c co sid st)
    (hm : m.created k c heap = some m') : m'.heap.MxcsrOk := by
  rw [created_heap hm]
  intro d co' hobj
  rcases hadd.obj hobj with ⟨-, rfl⟩ | ⟨-, hobj'⟩
  · rw [hadd.ctx]
    show mxcsrMASK.toNat < 2 ^ 16
    decide
  · exact hok d co' hobj'

theorem mxcsr_step {op : Op} (hok : m.heap.MxcsrOk) (hheap : HeapOk m.heap)
    (hcpu : m.cpu.mxcsr.toNat < 2 ^ 16) (hstep : m.step k op = some m') : m'.heap.MxcsrOk := by
  cases step_cases hheap hstep with
  | write => exact hok
  | compute => exact hok
  | coCreate hadd hm => exact mxcsr_created hok hadd hm
  | coCreateShared hadd hm => exact mxcsr_created hok hadd hm
  | coPost => exact hok
  | coResched hsave _ hsched =>
    have hok₁ := mxcsr_saveContext hok hcpu hsave
    exact (mxcsr_coSched (by exact hok₁) hsched).1
  | coYield hsave _ hsched =>
    have hok₁ := mxcsr_saveContext hok hcpu hsave
    exact (mxcsr_coSched (by exact hok₁) hsched).1
  | coExit hp hd hsched =>
    refine (mxcsr_coSched (fun d co hobj => ?_) hsched).1
    exact hok d co ((coDestroy_drops hp hd).obj hobj).2

/-! ### Other changes of the heap -/

variable {h heap : Heap} {mem mem' : X86.Mem} {co : Coroutine} {sid : StackId} {st : CoStack}

/-- Other bytes in a buffer move nothing. -/
theorem region_setBytes (hst : h.coStacks sid = some st) (bytes : Word → UInt8) (p : Part) :
    (h.setStackObj sid { st with bytes := bytes }).region lay p = h.region lay p := by
  cases p with
  | record c => rfl
  | copy c => rfl
  | stack i =>
    by_cases hi : i = sid
    · subst hi
      simp [Heap.region, hst]
    · simp [Heap.region, hi]

/-- A cell that the running coroutine may store to is in no part but its stack. -/
theorem cell_elsewhere {a b : Word} {n i : Nat} {p : Part} (hmem : h.InMemory lay mem)
    (hst : h.coStacks sid = some st) (howns : st.owns a = true)
    (hmain : st.stackTop = 0 → h.Free lay a 1) (hp : p ≠ .stack sid)
    (hr : h.region lay p = some (b, n)) (hi : i < n) : b + BitVec.ofNat 64 i ≠ a := by
  intro he
  simp only [CoStack.owns, Bool.or_eq_true, beq_iff_eq, Bool.and_eq_true,
    decide_eq_true_eq] at howns
  rcases howns with hzero | ⟨hlow, hhigh⟩
  · have hone := (hmain hzero p b n hr).outside hi
    rw [he, BitVec.sub_self] at hone
    simp at hone
  · have hsize := (hmem.apart _ p _ _ b n (Ne.symm hp) (h.region_stack lay hst) hr).outside hi
    have hle : st.stackBottom ≤ st.stackTop := BitVec.le_trans hlow (BitVec.le_of_lt hhigh)
    rw [he, BitVec.toNat_sub_of_le hlow, BitVec.toNat_sub_of_le hle] at hsize
    rw [BitVec.le_def] at hlow
    rw [BitVec.lt_def] at hhigh
    omega

/-- The running coroutine stores into its own buffer, or `main` outside the library. -/
theorem write_inMemory {a : Word} {b : UInt8} (hmem : h.InMemory lay mem)
    (hst : h.coStacks sid = some st) (howns : st.owns a = true)
    (hmain : st.stackTop = 0 → h.Free lay a 1) :
    (h.setStackObj sid { st with bytes := Function.update st.bytes a b }).InMemory lay
      (Function.update mem a b) := by
  constructor
  · intro p
    by_cases hp : p = .stack sid
    · subst hp
      intro st' hst' i hi
      rw [Heap.setStackObj_coStacks, if_pos rfl, Option.some.injEq] at hst'
      subst hst'
      have hcell := hmem.holds (.stack sid) st hst i hi
      simp only [Function.update_apply, hcell]
    · have hkept : h.Holds lay (Function.update mem a b) p :=
        holds_congr (hmem.holds p) fun b' n hr i hi =>
          Function.update_of_ne (cell_elsewhere hmem hst howns hmain hp hr hi) ..
      cases p with
      | record c => exact hkept
      | copy c => exact hkept
      | stack i =>
        intro st' hst'
        rw [Heap.setStackObj_coStacks, if_neg fun he => hp (by rw [he])] at hst'
        exact hkept st' hst'
  · intro p q b₁ n₁ b₂ n₂ hpq hp hq
    rw [region_setBytes hst] at hp hq
    exact hmem.apart p q b₁ n₁ b₂ n₂ hpq hp hq

/-- The stacks that are left have the bounds and the bytes they had. -/
theorem stack_dropped (hp : h.Placed c co sid st) (hdrop : Drops h heap c co sid st) {i : StackId}
    {st' : CoStack} (hst' : heap.coStacks i = some st') :
    ∃ st₀, h.coStacks i = some st₀ ∧ st'.stackBottom = st₀.stackBottom ∧
      st'.stackTop = st₀.stackTop ∧ st'.bytes = st₀.bytes := by
  rcases hdrop.buf hst' with ⟨rfl, -, rfl⟩ | ⟨-, hst'⟩
  · refine ⟨st, hp.buf, ?_⟩
    unfold release
    split <;> exact ⟨rfl, rfl, rfl⟩
  · exact ⟨st', hst', rfl, rfl, rfl⟩

theorem region_dropped (hp : h.Placed c co sid st) (hdrop : Drops h heap c co sid st) {p : Part}
    {r : Word × Nat} (hr : heap.region lay p = some r) : h.region lay p = some r := by
  cases p with
  | record d =>
    obtain ⟨co', hobj, heq⟩ := Option.map_eq_some_iff.mp hr
    rw [h.region_record lay (hdrop.obj hobj).2, heq]
  | copy d =>
    simp only [Heap.region, Option.bind_eq_bind, Option.bind_eq_some_iff, Option.some.injEq] at hr
    obtain ⟨co', hobj, copy, hcopy, heq⟩ := hr
    rw [h.region_copy lay (hdrop.obj hobj).2 hcopy, heq]
  | stack i =>
    obtain ⟨st', hst', heq⟩ := Option.map_eq_some_iff.mp hr
    obtain ⟨st₀, hst₀, hbottom, htop, -⟩ := stack_dropped hp hdrop hst'
    rw [h.region_stack lay hst₀, ← heq, hbottom, htop]

/-- What is freed is missing afterwards. -/
theorem destroy_inMemory (hmem : h.InMemory lay mem) (hp : h.Placed c co sid st)
    (hd : h.coDestroy c = some heap) : heap.InMemory lay mem := by
  have hdrop := coDestroy_drops hp hd
  constructor
  · intro p
    cases p with
    | record d => exact fun co' hobj => hmem.holds (.record d) co' (hdrop.obj hobj).2
    | copy d => exact fun co' copy hobj => hmem.holds (.copy d) co' copy (hdrop.obj hobj).2
    | stack i =>
      intro st' hst' j hj
      obtain ⟨st₀, hst₀, hbottom, htop, hbytes⟩ := stack_dropped hp hdrop hst'
      rw [hbottom, hbytes]
      rw [hbottom, htop] at hj
      exact hmem.holds (.stack i) st₀ hst₀ j hj
  · exact fun p q a m b n hpq hpr hqr =>
      hmem.apart p q a m b n hpq (region_dropped hp hdrop hpr) (region_dropped hp hdrop hqr)

/-- A part that does not exist is in every memory. -/
theorem holds_of_none {p : Part} (hnone : h.region lay p = none) : h.Holds lay mem p := by
  cases p with
  | record d =>
    intro co' hobj
    rw [h.region_record lay hobj] at hnone
    cases hnone
  | copy d =>
    intro co' copy hobj hcopy
    rw [h.region_copy lay hobj hcopy] at hnone
    cases hnone
  | stack i =>
    intro st' hst'
    rw [h.region_stack lay hst'] at hnone
    cases hnone

/-- What was there before a creation has other names than what is new. -/
theorem Adds.kept (hadd : Adds k h heap c co sid st) {d : CoId} {cod : Coroutine}
    (hobj : h.cos d = some cod) : d ≠ c ∧ heap.cos d = some cod := by
  have hdc : d ≠ c := by
    rintro rfl
    exact absurd (hobj.symm.trans hadd.fresh) (by simp)
  exact ⟨hdc, by rw [hadd.cos, if_neg hdc, hobj]⟩

theorem Adds.keptStack (hadd : Adds k h heap c co sid st) {i : StackId} {st₀ : CoStack}
    (hst : h.coStacks i = some st₀) : heap.coStacks i = some st₀ := by
  rw [hadd.coStacks]
  split
  · next hi =>
    subst hi
    cases hs : co.sharedStack with
    | true => exact (hadd.shar hs).1.symm.trans hst
    | false => exact absurd (hst.symm.trans (hadd.priv hs).1) (by simp)
  · exact hst

/-- It is where it was. -/
theorem region_created {record copy : Word} (hadd : Adds k h heap c co sid st) {p : Part}
    {r : Word × Nat} (hr : h.region lay p = some r) :
    heap.region (lay.withObject c record copy) p = some r := by
  cases p with
  | record d =>
    obtain ⟨cod, hobj, heq⟩ := Option.map_eq_some_iff.mp hr
    obtain ⟨hdc, hnew⟩ := Adds.kept hadd hobj
    rw [heap.region_record _ hnew, ← heq]
    simp [Layout.withObject, hdc]
  | copy d =>
    simp only [Heap.region, Option.bind_eq_bind, Option.bind_eq_some_iff, Option.some.injEq] at hr
    obtain ⟨cod, hobj, bytes, hcopy, heq⟩ := hr
    obtain ⟨hdc, hnew⟩ := Adds.kept hadd hobj
    rw [heap.region_copy _ hnew hcopy, ← heq]
    simp [Layout.withObject, hdc]
  | stack i =>
    obtain ⟨st₀, hst, heq⟩ := Option.map_eq_some_iff.mp hr
    rw [heap.region_stack _ (Adds.keptStack hadd hst), heq]

/-- It means what it meant. -/
theorem holds_created {record copy : Word} (hadd : Adds k h heap c co sid st) {p : Part}
    {r : Word × Nat} (hr : h.region lay p = some r) (hold : h.Holds lay mem p) :
    heap.Holds (lay.withObject c record copy) mem p := by
  cases p with
  | record d =>
    obtain ⟨cod, hobj, -⟩ := Option.map_eq_some_iff.mp hr
    obtain ⟨hdc, hnew⟩ := Adds.kept hadd hobj
    intro co' hobj'
    obtain rfl := Option.some.inj (hnew.symm.trans hobj')
    simpa [Layout.withObject, hdc] using hold cod hobj
  | copy d =>
    simp only [Heap.region, Option.bind_eq_bind, Option.bind_eq_some_iff, Option.some.injEq] at hr
    obtain ⟨cod, hobj, bytes, hcopy, -⟩ := hr
    obtain ⟨hdc, hnew⟩ := Adds.kept hadd hobj
    intro co' bytes' hobj' hcopy'
    obtain rfl := Option.some.inj (hnew.symm.trans hobj')
    simpa [Layout.withObject, hdc] using hold cod bytes' hobj hcopy'
  | stack i =>
    obtain ⟨st₀, hst, -⟩ := Option.map_eq_some_iff.mp hr
    intro st' hst'
    obtain rfl := Option.some.inj ((Adds.keptStack hadd hst).symm.trans hst')
    exact hold st₀ hst

theorem create_inMemory {record copy : Word} (hmem : h.InMemory lay mem)
    (hadd : Adds k h heap c co sid st) (hsame : h.Untouched lay mem mem')
    (hnew : ∀ p b n, heap.region (lay.withObject c record copy) p = some (b, n) →
      h.region lay p = none →
      heap.Holds (lay.withObject c record copy) mem' p ∧ h.Free lay b n ∧
        ∀ q a i, q ≠ p → heap.region (lay.withObject c record copy) q = some (a, i) →
          h.region lay q = none → Apart b n a i) :
    heap.InMemory (lay.withObject c record copy) mem' := by
  have hkept := inMemory_untouched hmem hsame
  constructor
  · intro p
    cases hold : h.region lay p with
    | some r => exact holds_created hadd hold (hkept.holds p)
    | none =>
      cases hr : heap.region (lay.withObject c record copy) p with
      | none => exact holds_of_none hr
      | some r => exact (hnew p r.1 r.2 hr hold).1
  · intro p q a m b n hpq hp hq
    cases holdp : h.region lay p with
    | none =>
      obtain ⟨-, hfree, hnews⟩ := hnew p a m hp holdp
      cases holdq : h.region lay q with
      | none => exact hnews q b n (Ne.symm hpq) hq holdq
      | some r =>
        obtain rfl := Option.some.inj ((region_created hadd holdq).symm.trans hq)
        exact hfree q b n holdq
    | some r =>
      obtain rfl := Option.some.inj ((region_created hadd holdp).symm.trans hp)
      cases holdq : h.region lay q with
      | none => exact apart_symm ((hnew q b n hq holdq).2.1 p a m holdp)
      | some r =>
        obtain rfl := Option.some.inj ((region_created hadd holdq).symm.trans hq)
        exact hmem.apart p q a m b n hpq holdp holdq

/-- `call_with_new_stack` stores nothing. -/
theorem callWithNewStack_run (hasm : Assembled fetch k l) (hrip : s.rip = l.callWithNewStack) :
    ∃ t, X86.run fetch 2 s = some t ∧ t.mem = s.mem := by
  obtain ⟨a, hmov, b, hjmp, -⟩ := hasm.callWithNewStack
  rw [← hrip] at hmov
  have hfirst : X86.run fetch 1 s = some ((s.set .rsp (s.regs .rdi)).goto a) :=
    X86.run_one hmov rfl
  exact ⟨_, X86.run_trans hfirst (X86.run_one hjmp rfl), rfl⟩

end ProcessLemmas

end NetTraverse
