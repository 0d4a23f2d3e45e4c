import NetTraverse.Coroutine.Order

/-!
# `co_dispath`

`co_dispath` makes its target current before it saves a context. So the context of the
caller goes into the object of the target, over the target's own, and `_co_dispatch`
loads it from there again: the caller goes on, under the name of the target
(`coDispath_eq`). `coDispath_switches_iff` says when that is nevertheless a switch.
-/

namespace NetTraverse

open Transition

namespace Machine

variable (m : Machine)

/-- What the running coroutine leaves behind when it calls `save_context`. -/
def callImage (k : Code) : Option Image :=
  m.runningImage.map fun img => { img with cpu := { img.cpu with rip := k.retaddr } }

/-- `co_dispath` of a coroutine that `co_post` takes, too. The log notes what it would
for `co_post` and `co_resched`. -/
def coDispath (k : Code) (c : CoId) : Option Machine := do
  let img ← m.callImage k
  let noted := (m.record (.posted c)).record (.rescheduled m.sched.current img)
  let sched := m.sched.enqueue (some m.sched.current)
  let (_, saved) ← { noted with sched := { sched with current := c } }.save k
  saved.load

end Machine

/-- What `co_dispath` is there for: `b` runs with what it was left with, and the caller
is ready once, with the point after the call in its `saved_ctx`. The first step that
makes the caller current again finds its registers there, and its stack. -/
structure Switches (k : Code) (m : Machine) (b : CoId) (m' : Machine) : Prop where
  current : m'.sched.current = b
  resumed : m'.runningImage = lastImage b m.log
  swappedIn : m'.heap.inStack b = some true
  saved : (m'.heap.cos m.sched.current).map (fun co => loadContext co.savedCtx) =
    some { m.cpu with rip := k.retaddr }
  ready : m'.sched.queue.count (some m.sched.current) = 1
  back : ∀ ops m₁ op m₂, exec (Machine.step k) m' ops = some m₁ →
    AllStates (Machine.step k) (fun t => t.sched.current ≠ m.sched.current) m' ops →
    m₁.step k op = some m₂ → m₂.sched.current = m.sched.current →
    m₂.runningImage = m.callImage k

/-- The contexts of `b` and of the caller are already the one that the call saves, and
the stack has what `b` left there. -/
structure NothingToSwitch (k : Code) (m : Machine) (b : CoId) : Prop where
  target : (m.heap.cos b).map (fun co => loadContext co.savedCtx) =
    some { m.cpu with rip := k.retaddr }
  caller : (m.heap.cos m.sched.current).map (fun co => loadContext co.savedCtx) =
    some { m.cpu with rip := k.retaddr }
  inStack : m.heap.inStack b = some true

namespace DispatchLemmas

open SwitchLemmas OrderLemmas

variable {m m' : Machine} {k : Code} {a b : CoId} {co coA coB : Coroutine} {sid sidA : StackId}
variable {st stA : CoStack}

/-! ## What the call does -/

theorem callImage_eq (hA : m.heap.Placed m.sched.current coA sidA stA) :
    m.callImage k = some ⟨{ m.cpu with rip := k.retaddr }, stA.above m.cpu.rsp⟩ := by
  rw [Machine.callImage, runningImage_eq hA, Option.map_some]

theorem placed_saved (hB : m.heap.Placed b co sid st) (ctx : Context) :
    (m.heap.setCo b { co with savedCtx := ctx }).Placed b { co with savedCtx := ctx } sid st :=
  ⟨by simp, hB.ptr, hB.buf⟩

/-- The caller goes on, as the target. -/
theorem coDispath_eq (hA : m.heap.Placed m.sched.current coA sidA stA)
    (hB : m.heap.Placed b co sid st) :
    m.coDispath k b = some
      { cpu := { m.cpu with rip := k.retaddr }
        sched := ⟨b, m.sched.queue ++ [some m.sched.current]⟩
        heap := m.heap.setCo b { co with savedCtx := saveContext k co.savedCtx m.cpu }
        log := .loaded b ⟨{ m.cpu with rip := k.retaddr }, st.above m.cpu.rsp⟩ ::
          .rescheduled m.sched.current
            ⟨{ m.cpu with rip := k.retaddr }, stA.above m.cpu.rsp⟩ :: .posted b :: m.log } := by
  have hsaved := placed_saved hB (saveContext k co.savedCtx m.cpu)
  simp only [Machine.coDispath, Machine.callImage, Machine.runningImage, Machine.save, Machine.load,
    Machine.record, Sched.enqueue, hA.place, hB.place, hsaved.place, hB.obj, Heap.setCo_cos,
    if_true, Option.bind_eq_bind, Option.bind_some, Option.map_some, loadContext_saveContext]

/-- A coroutine that has the context of the call already is not changed by it. -/
theorem save_eq_self {img : Image} (hobj : m.heap.cos m.sched.current = some co)
    (hctx : loadContext co.savedCtx = { m.cpu with rip := k.retaddr })
    (himg : m.runningImage = some img) :
    m.save k = some ({ img with cpu := { img.cpu with rip := k.retaddr } }, m) := by
  have hheap : m.heap.setCo m.sched.current
      { co with savedCtx := saveContext k co.savedCtx m.cpu } = m.heap := by
    rw [saveContext_eq_self hctx, Heap.setCo, ← hobj, Function.update_eq_self]
  simp only [Machine.save, hobj, himg, hheap, Option.bind_eq_bind, Option.bind_some]

/-! ## Others, while a coroutine is not running -/

theorem saveStack_lastImage (hsave : m.saveStack a = some m') (c : CoId) :
    lastImage c m'.log = lastImage c m.log := by
  simp only [Machine.saveStack, Option.bind_eq_bind, Option.bind_eq_some_iff,
    Option.some.injEq] at hsave
  obtain ⟨p, -, rfl⟩ := hsave
  rfl

theorem coSwapIn_lastImage (hswap : m.coSwapIn a = some m') (c : CoId) :
    lastImage c m'.log = lastImage c m.log := by
  rcases coSwapIn_cases hswap with rfl | ⟨m₁, heap, rfl | ⟨o, hsave⟩, -, rfl⟩
  · rfl
  · rfl
  · exact saveStack_lastImage hsave c

/-- `load_context` notes the image of the coroutine that is now running. -/
theorem load_log (hload : m.load = some m') : m'.sched = m.sched ∧
    ∃ img, m'.log = .loaded m'.sched.current img :: m.log ∧ m'.runningImage = some img := by
  simp only [Machine.load, Option.bind_eq_bind, Option.bind_eq_some_iff,
    Option.some.injEq] at hload
  obtain ⟨co, -, img, himg, rfl⟩ := hload
  exact ⟨rfl, img, rfl, himg⟩

/-- A coroutine that `co_sched` makes current has the image that the log says. -/
theorem coSched_finds (hsched : m.coSched = some m') (hlog : Faithful m'.log) :
    (∀ c, lastImage c m'.log = lastImage c m.log) ∧
      m'.runningImage = lastImage m'.sched.current m.log := by
  obtain ⟨s, m₁, -, hswap, hload⟩ := coSched_cases hsched
  have hlast (c : CoId) : lastImage c m₁.log = lastImage c m.log := by
    rcases hswap with rfl | hswap
    · rfl
    · exact coSwapIn_lastImage hswap c
  obtain ⟨-, img, hcons, himg⟩ := load_log hload
  constructor
  · intro c
    rw [hcons]
    exact hlast c
  · rw [himg, ← hlast]
    exact (hlog.loads _ _ _ ⟨[], hcons.symm⟩).symm

/-- A coroutine that is not running stays alive, -/
theorem step_live (hinv : Inv (some m.sched.current) m) (hlive : (m.heap.cos a).isSome)
    (hne : m.sched.current ≠ a) {op : Op} (hstep : m.step k op = some m') :
    (m'.heap.cos a).isSome := by
  have hcontrol : op.control = [] ∨ ∃ cop, op.control = [cop] := by
    cases op <;> simp [Op.control]
  have href := step_refines hinv hstep
  rcases hcontrol with hnil | ⟨cop, hcons⟩
  · rw [hnil] at href
    have hsame : m.control.live a = m'.control.live a := by rw [Option.some.inj href]
    exact hsame.symm.trans hlive
  · rw [hcons] at href
    obtain ⟨s, hs, hlast⟩ := exec_cons_iff.mp href
    obtain rfl := Option.some.inj hlast
    exact Control.step_live hlive hne hs

theorem created_finds {c : CoId} {heap : Heap} (hlive : (m.heap.cos a).isSome)
    (hfresh : m.heap.cos c = none) (hm : m.created k c heap = some m') :
    lastImage a m'.log = lastImage a m.log ∧ m'.sched = m.sched := by
  have hca : c ≠ a := by
    rintro rfl
    rw [hfresh] at hlive
    cases hlive
  simp only [Machine.created, Option.bind_eq_bind, Option.bind_eq_some_iff,
    Option.some.injEq] at hm
  obtain ⟨p, -, rfl⟩ := hm
  exact ⟨if_neg hca, rfl⟩

/-- Suspending the running coroutine, and going on with another one. -/
theorem suspend_finds {img : Image} {e : Event} {m₁ : Machine} {s : Sched}
    (hsave : m.save k = some (img, m₁)) (he : NotesImage e m.sched.current img)
    (hne : m.sched.current ≠ a) (hlog : Faithful m'.log)
    (hsched : ({ m₁.record e with sched := s } : Machine).coSched = some m') :
    lastImage a m'.log = lastImage a m.log ∧
      (m'.sched.current = a → m'.runningImage = lastImage a m.log) := by
  simp only [Machine.save, Option.bind_eq_bind, Option.bind_eq_some_iff, Option.some.injEq,
    Prod.mk.injEq] at hsave
  obtain ⟨co, -, _, -, -, rfl⟩ := hsave
  obtain ⟨hlast, hfound⟩ := coSched_finds hsched hlog
  have hsame : lastImage a (e :: m.log) = lastImage a m.log := by
    rw [he.lastImage, if_neg hne]
  constructor
  · rw [← hsame]
    exact hlast a
  · rintro rfl
    rw [← hsame]
    exact hfound

/-- and keeps its image until a step makes it current, and finds it. -/
theorem step_finds (hinv : Inv (some m.sched.current) m) (hlive : (m.heap.cos a).isSome)
    (hne : m.sched.current ≠ a) {op : Op} (hstep : m.step k op = some m') :
    lastImage a m'.log = lastImage a m.log ∧
      (m'.sched.current = a → m'.runningImage = lastImage a m.log) := by
  have hlog := (step_inv hinv hstep).history
  cases step_cases hinv.ok hstep with
  | write _ => exact ⟨rfl, fun h => absurd h hne⟩
  | compute _ _ => exact ⟨rfl, fun h => absurd h hne⟩
  | coCreate hadd hm =>
    obtain ⟨hlast, hsched⟩ := created_finds hlive hadd.fresh hm
    exact ⟨hlast, fun h => absurd h (hsched ▸ hne)⟩
  | coCreateShared hadd hm =>
    obtain ⟨hlast, hsched⟩ := created_finds hlive hadd.fresh hm
    exact ⟨hlast, fun h => absurd h (hsched ▸ hne)⟩
  | coPost _ => exact ⟨rfl, fun h => absurd h hne⟩
  | coResched hsave _ hsched => exact suspend_finds hsave (.inl rfl) hne hlog hsched
  | @coYield _ m₁ _ hsave _ hsched =>
    exact suspend_finds (s := m₁.sched) hsave (.inr rfl) hne hlog hsched
  | coExit _ _ hsched =>
    obtain ⟨hlast, hfound⟩ := coSched_finds hsched hlog
    exact ⟨hlast a, fun h => h ▸ hfound⟩

/-! ## When the call is a switch -/

theorem inStack_setCo {h : Heap} (hobj : h.cos b = some co) (ctx : Context) :
    (h.setCo b { co with savedCtx := ctx }).inStack b = h.inStack b := by
  simp [Heap.inStack, hobj]

theorem target_eq (h : NothingToSwitch k m b) (hB : m.heap.Placed b co sid st) :
    loadContext co.savedCtx = { m.cpu with rip := k.retaddr } := by
  have htarget := h.target
  rwa [hB.obj, Option.map_some, Option.some.injEq] at htarget

theorem caller_eq (h : NothingToSwitch k m b)
    (hA : m.heap.Placed m.sched.current coA sidA stA) :
    loadContext coA.savedCtx = { m.cpu with rip := k.retaddr } := by
  have hcaller := h.caller
  rwa [hA.obj, Option.map_some, Option.some.injEq] at hcaller

theorem inPlace (h : NothingToSwitch k m b) (hB : m.heap.Placed b co sid st) :
    co.sharedStack = false ∨ st.usedBy = some b := by
  refine inPlace_of_shared fun hs => ?_
  have hstack := h.inStack
  rw [inStack_shared hB hs] at hstack
  simpa using hstack

/-- What is resumed is the caller, so a switch leaves no difference between the two. -/
theorem nothingToSwitch_of_switches (hinv : Inv (some m.sched.current) m)
    (hA : m.heap.Placed m.sched.current coA sidA stA) (hB : m.heap.Placed b co sid st)
    (hne : m.sched.current ≠ b) (hcall : m.coDispath k b = some m') (h : Switches k m b m') :
    NothingToSwitch k m b := by
  have hrests := hinv.rests b co sid st hB fun heq => hne (Option.some.inj heq).symm
  rw [coDispath_eq hA hB] at hcall
  obtain rfl := Option.some.inj hcall
  constructor
  · have himage := h.resumed
    rw [runningImage_eq (placed_saved hB _), hrests.kept, Option.some.injEq,
      Image.mk.injEq] at himage
    rw [hB.obj]
    exact congrArg some himage.1.symm
  · have hcaller := h.saved
    rwa [Heap.setCo_cos, if_neg hne] at hcaller
  · rw [← inStack_setCo hB.obj (saveContext k co.savedCtx m.cpu)]
    exact h.swappedIn

/-- When there is nothing to switch, the call changes the names only, and every suspended
coroutine still rests. -/
theorem coDispath_inv (hinv : Inv (some m.sched.current) m)
    (hA : m.heap.Placed m.sched.current coA sidA stA) (hB : m.heap.Placed b co sid st)
    (hcall : m.coDispath k b = some m') (h : NothingToSwitch k m b) :
    Inv (some m'.sched.current) m' := by
  -- the caller could have been saved as it is
  let noted := m.record (.posted b)
  have hnoted : Inv (some noted.sched.current) noted :=
    hinv.record (fun _ => rfl)
      (Faithful.cons hinv.history (fun _ _ he => nomatch he) (fun _ _ _ _ he => nomatch he))
  have hctxA := caller_eq h hA
  have hsaveA := save_eq_self (m := noted) hA.obj hctxA
    (runningImage_eq (m := noted) hA)
  obtain ⟨hrest, -⟩ := suspend_inv hnoted hsaveA (.inl rfl)
  -- and the target is
  let sched : Sched := ⟨b, m.sched.queue ++ [some m.sched.current]⟩
  let rest : Machine :=
    { noted.record (.rescheduled m.sched.current
        ⟨{ m.cpu with rip := k.retaddr }, stA.above m.cpu.rsp⟩) with sched := sched }
  have hctxB := target_eq h hB
  have hsaveB := save_eq_self (m := rest) hB.obj hctxB
    (runningImage_eq (m := rest) hB)
  have hload : rest.load = some m' := by
    rw [← hcall, Machine.coDispath, callImage_eq hA]
    show _ = (rest.save k).bind _
    rw [hsaveB]
    rfl
  have hin (hs : co.sharedStack = true) : st.usedBy = some b :=
    (inPlace h hB).resolve_left (by simp [hs])
  exact load_inv (m := rest) (hrest.sched sched) hB hin hload

/-- Until the caller is current again, it is alive with the image of the call. -/
theorem back_of_inv {img : Image} (hinv : Inv (some m'.sched.current) m')
    (hlive : (m'.heap.cos a).isSome) (hlast : lastImage a m'.log = some img) {ops : List Op}
    {op : Op} {m₁ m₂ : Machine} (hrun : exec (Machine.step k) m' ops = some m₁)
    (haway : AllStates (Machine.step k) (fun t => t.sched.current ≠ a) m' ops)
    (hstep : m₁.step k op = some m₂) (hcurrent : m₂.sched.current = a) :
    m₂.runningImage = some img := by
  have hall : AllStates (Machine.step k) (fun t => Inv (some t.sched.current) t ∧
      (t.heap.cos a).isSome ∧ lastImage a t.log = some img) m' ops := by
    refine allStates_of_allSteps ?_ ⟨hinv, hlive, hlast⟩ haway.steps
    rintro t op t' ⟨hinv, hlive, hlast⟩ hne hstep
    exact ⟨step_inv hinv hstep, step_live hinv hlive hne hstep,
      (step_finds hinv hlive hne hstep).1.trans hlast⟩
  obtain ⟨hinv₁, hlive₁, hlast₁⟩ := hall.last hrun
  exact ((step_finds hinv₁ hlive₁ (haway.last hrun) hstep).2 hcurrent).trans hlast₁

theorem switches_of_nothingToSwitch (hinv : Inv (some m.sched.current) m)
    (hA : m.heap.Placed m.sched.current coA sidA stA) (hB : m.heap.Placed b co sid st)
    (hne : m.sched.current ≠ b) (hcount : m.sched.queue.count (some m.sched.current) = 0)
    (h : NothingToSwitch k m b) : ∃ m', m.coDispath k b = some m' ∧ Switches k m b m' := by
  have hcall := coDispath_eq (k := k) hA hB
  have hinv' := coDispath_inv hinv hA hB hcall h
  have hrests := hinv.rests b co sid st hB fun heq => hne (Option.some.inj heq).symm
  refine ⟨_, hcall, rfl, ?_, ?_, ?_, ?_, ?_⟩
  · have hrsp : co.savedCtx.rsp = m.cpu.rsp := congrArg Cpu.rsp (target_eq h hB)
    rw [runningImage_eq (placed_saved hB _), hrests.kept, restingBytes_inPlace (inPlace h hB), hrsp,
      target_eq h hB]
  · rw [inStack_setCo hB.obj]
    exact h.inStack
  · rw [Heap.setCo_cos, if_neg hne]
    exact h.caller
  · simp [hcount]
  · intro ops m₁ op m₂ hrun haway hstep hcurrent
    rw [callImage_eq hA]
    refine back_of_inv hinv' ?_ ?_ hrun haway hstep hcurrent
    · simp [hne, hA.obj]
    · simp [lastImage]

end DispatchLemmas

open DispatchLemmas OrderLemmas SwitchLemmas

/-- From every state that a run reaches, `co_dispath` of a coroutine that is new or parked
switches to it and back if and only if there is nothing to switch. -/
theorem coDispath_switches_iff (k : Code) (cpu : Cpu) (mainBytes : Word → UInt8)
    (blocks : List Machine.SharedBlock) (ops : List Op) (m : Machine)
    (hrun : exec (Machine.step k) (Machine.coInit k cpu mainBytes blocks) ops = some m)
    (b : CoId) (hidle : isIdle b m.log = true) :
    (∃ m', m.coDispath k b = some m' ∧ Switches k m b m') ↔ NothingToSwitch k m b := by
  have hinv := inv_of_run hrun
  have hsettled := (lifeInv_of_run hrun).settled
  obtain ⟨hlive, hne⟩ := hsettled.of_idle hidle
  obtain ⟨coA, sidA, stA, hA⟩ := hinv.running
  obtain ⟨co, hobj⟩ : ∃ co, m.heap.cos b = some co := Option.isSome_iff_exists.mp hlive
  obtain ⟨sid, st, hB, -⟩ := hinv.ok.placed b co hobj
  constructor
  · rintro ⟨m', hcall, h⟩
    exact nothingToSwitch_of_switches hinv hA hB hne hcall h
  · exact switches_of_nothingToSwitch hinv hA hB hne hsettled.count_current

/-- One coroutine of a shared stack calls `co_dispath` of another one that it has
replaced there. -/
theorem coDispath_switches_iff_demo :
    ∃ m, exec (Machine.step Demo.code) Demo.init (Demo.ops.take 8) = some m ∧
      m.sched.current = 2 ∧
      ¬ ∃ m', m.coDispath Demo.code 1 = some m' ∧ Switches Demo.code m 1 m' := by
  have hrun : (exec (Machine.step Demo.code) Demo.init (Demo.ops.take 8)).map
      (fun m => (m.sched.current, isIdle 1 m.log, m.heap.inStack 1)) =
      some (2, true, some false) := by decide
  obtain ⟨m, hm, heq⟩ := Option.map_eq_some_iff.mp hrun
  simp only [Prod.mk.injEq] at heq
  obtain ⟨hcur, hidle, hstack⟩ := heq
  refine ⟨m, hm, hcur, ?_⟩
  rw [coDispath_switches_iff _ _ _ _ _ m hm 1 hidle]
  intro h
  rw [h.inStack] at hstack
  cases hstack

/-- `main` calls `co_dispath` of a new coroutine, and goes on itself. -/
theorem coDispath_callerGoesOn :
    ∃ m, exec (Machine.step Demo.code) Demo.init [.coCreateShared 1] = some m ∧
      isIdle 1 m.log = true ∧
      ¬ ∃ m', m.coDispath Demo.code 1 = some m' ∧ Switches Demo.code m 1 m' := by
  have hrun : (exec (Machine.step Demo.code) Demo.init [.coCreateShared 1]).map (fun m =>
      (isIdle 1 m.log, (m.coDispath Demo.code 1).map fun m' =>
        decide (m'.runningImage.map (·.cpu.rip) = (lastImage 1 m.log).map (·.cpu.rip)))) =
      some (true, some false) := by decide
  obtain ⟨m, hm, heq⟩ := Option.map_eq_some_iff.mp hrun
  obtain ⟨hidle, hrip⟩ := Prod.mk.inj heq
  refine ⟨m, hm, hidle, ?_⟩
  rintro ⟨m', hcall, h⟩
  rw [hcall, Option.map_some, h.resumed] at hrip
  simp at hrip

/-- Where there is nothing to switch, the target has its stack pointer where the caller has
it, and yet another stack. -/
theorem rsp_of_nothingToSwitch {k : Code} {m : Machine} {b : CoId} {coA coB : Coroutine}
    {sidA sidB : StackId} {stA stB : CoStack} (hinv : Inv (some m.sched.current) m)
    (hA : m.heap.Placed m.sched.current coA sidA stA) (hB : m.heap.Placed b coB sidB stB)
    (hne : m.sched.current ≠ b) (h : NothingToSwitch k m b) :
    sidA ≠ sidB ∧ coB.savedCtx.rsp = m.cpu.rsp := by
  refine ⟨?_, congrArg Cpu.rsp (target_eq h hB)⟩
  rintro rfl
  obtain rfl := Option.some.inj (hA.buf.symm.trans hB.buf)
  obtain ⟨hsA, hsB⟩ := hinv.ok.shared_of_ne hB hA hne
  have husedA := (hinv.runs _ coA sidA stA hA rfl hsA).1
  have husedB := (inPlace h hB).resolve_left (by simp [hsB])
  exact hne (Option.some.inj (husedA.symm.trans husedB))

end NetTraverse
