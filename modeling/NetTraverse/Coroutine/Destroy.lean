import NetTraverse.Coroutine.Order

/-!
# `co_destroy`

`~coroutine` takes a coroutine off its shared stack before it is gone, but the queue
keeps its pointer: `sched->remove(co)` is commented out in `co_destroy`. So a coroutine
that was posted is scheduled after it has been destroyed. `holdsLive_iff` says that this
is the only way to keep such a pointer, and `switches_go_on` that without it every
switch finds the coroutine it goes to.
-/

namespace NetTraverse

open Transition

/-- What the running coroutine does: an operation of `Machine`, or `co_destroy`. -/
inductive LifeOp where
  | op (op : Op)
  | coDestroy (co : CoId)

namespace Machine

variable (m : Machine)

/-- `co_destroy`, declared for a coroutine "which isn't running". The log notes it as
it notes an exit. -/
def coDestroy (c : CoId) : Option Machine :=
  if c = m.sched.current then none
  else do
    let heap ← m.heap.coDestroy c
    some ({ m with heap := heap }.record (.exited c))

def lifeStep (k : Code) (m : Machine) : LifeOp → Option Machine
  | .op op => m.step k op
  | .coDestroy c => m.coDestroy c

/-- Every coroutine that the scheduler or a shared stack points to is there. -/
structure HoldsLive : Prop where
  queue : ∀ p ∈ m.sched.queue, m.heap.isLive p
  current : m.heap.isLive (some m.sched.current)
  usedBy : ∀ sid st o, m.heap.coStacks sid = some st → st.shared = true → st.usedBy = some o →
    m.heap.isLive (some o)

/-- What is destroyed does not wait in the queue. -/
def SparesReady : LifeOp → Prop
  | .op _ => True
  | .coDestroy c => some c ∉ m.sched.queue

end Machine

namespace Control

/-- `co_destroy` of a coroutine that is new or parked. -/
def destroy (s : Control) (c : CoId) : Option Control :=
  if s.idle c then some { s with
    live := Function.update s.live c false
    idle := Function.update s.idle c false }
  else none

variable {s s' : Control} {c : CoId}

theorem destroy_settled (h : s.Settled) (hd : s.destroy c = some s') : s'.Settled := by
  simp only [destroy] at hd
  split at hd
  · next hidle =>
    cases hd
    intro d
    have hplaces := h d
    simp only [places] at hplaces ⊢
    by_cases hdc : d = c
    · subst hdc
      simp only [(h.of_idle hidle).1, (h.of_idle hidle).2, hidle, if_true, if_false] at hplaces
      simp only [Function.update_self, (h.of_idle hidle).2, Bool.false_eq_true, if_false]
      omega
    · simpa only [Function.update_of_ne hdc] using hplaces
  · cases hd

end Control

namespace DestroyLemmas

open SwitchLemmas OrderLemmas

variable {m m' : Machine} {k : Code} {c : CoId} {co : Coroutine} {sid : StackId} {st : CoStack}

/-! ## What a run keeps -/

/-- Who is in the queue is in a place, and whoever is on a shared stack is an object on
that stack. -/
theorem holdsLive_of_lifeInv (h : LifeInv m) : m.HoldsLive where
  queue _ hp := h.queue_live hp
  current := h.current_live
  usedBy sid st o hst hshared ho := by
    obtain ⟨co, hp⟩ := h.rests.ok.owner sid st o hst hshared ho
    simp [hp.obj]

theorem coDestroy_eq_some (hd : m.coDestroy c = some m') :
    c ≠ m.sched.current ∧ ∃ heap co sid st, m.heap.Placed c co sid st ∧
      m.heap.coDestroy c = some heap ∧ m' = { m with heap := heap }.record (.exited c) := by
  simp only [Machine.coDestroy] at hd
  split at hd
  · cases hd
  · next hne =>
    simp only [Option.bind_eq_bind, Option.bind_eq_some_iff, Option.some.injEq] at hd
    obtain ⟨heap, hheap, rfl⟩ := hd
    obtain ⟨p, hplace, -⟩ := Option.bind_eq_some_iff.mp hheap
    exact ⟨hne, heap, p.1, p.2.1, p.2.2, Heap.place_eq_some.mp hplace, hheap, rfl⟩

/-- A coroutine that is neither running nor ready can be destroyed. -/
theorem coDestroy_keeps (h : LifeInv m) (hspare : some c ∉ m.sched.queue)
    (hd : m.coDestroy c = some m') : LifeInv m' := by
  obtain ⟨hne, heap, co, sid, st, hp, hheap, rfl⟩ := coDestroy_eq_some hd
  constructor
  · refine coDestroy_inv h.rests hp hheap fun d => ⟨fun hrun => ⟨hrun, ?_⟩, fun hrun => hrun.1⟩
    rintro rfl
    exact hne (Option.some.inj hrun)
  · have hlive : m.control.live c = true := Option.isSome_iff_exists.mpr ⟨co, hp.obj⟩
    have hidle : m.control.idle c = true := h.settled.idle_of hlive (Ne.symm hne) hspare
    refine Control.destroy_settled (c := c) h.settled ?_
    rw [destroyed_control hp hheap, Control.destroy, if_pos hidle]
  · exact h.noNull

theorem lifeStep_keeps (h : LifeInv m) {a : LifeOp} (hspare : m.SparesReady a)
    (hstep : m.lifeStep k a = some m') : LifeInv m' := by
  cases a with
  | op op => exact step_keeps h hstep
  | coDestroy c => exact coDestroy_keeps h hspare hstep

/-- The queue keeps the pointer to a coroutine that is destroyed while it is ready. -/
theorem sparesReady_of_holdsLive {a : LifeOp} (hstep : m.lifeStep k a = some m')
    (h : m'.HoldsLive) : m.SparesReady a := by
  cases a with
  | op op => trivial
  | coDestroy c =>
    obtain ⟨-, heap, co, sid, st, hp, hheap, rfl⟩ := coDestroy_eq_some hstep
    intro hready
    have hlive := h.queue (some c) hready
    simp [Machine.record, (coDestroy_drops hp hheap).cos] at hlive

end DestroyLemmas

open OrderLemmas DestroyLemmas

/-- All that the scheduler and the shared stacks point to is live throughout a run,
exactly when no coroutine is destroyed while it waits in the queue. -/
theorem holdsLive_iff (k : Code) (cpu : Cpu) (mainBytes : Word → UInt8)
    (blocks : List Machine.SharedBlock) (ops : List LifeOp)
    (hrun : Runs (Machine.lifeStep k) (Machine.coInit k cpu mainBytes blocks) ops) :
    AllStates (Machine.lifeStep k) Machine.HoldsLive
        (Machine.coInit k cpu mainBytes blocks) ops ↔
      AllSteps (Machine.lifeStep k) Machine.SparesReady
        (Machine.coInit k cpu mainBytes blocks) ops := by
  have hinit := coInit_lifeInv (k := k) cpu mainBytes blocks
  refine allStates_iff_allSteps (I := LifeInv) (fun _ _ _ h hspare hs => lifeStep_keeps h hspare hs)
    (fun m a m' h _ hs => ?_) hinit (holdsLive_of_lifeInv hinit) hrun
  constructor
  · exact sparesReady_of_holdsLive hs
  · exact fun hspare => holdsLive_of_lifeInv (lifeStep_keeps h hspare hs)

theorem holdsLive_iff_demo :
    AllStates (Machine.lifeStep Demo.code) Machine.HoldsLive Demo.init
        [.op (.coCreateShared 1), .op (.coCreateShared 2), .op (.coPost 1), .coDestroy 2,
          .op .coResched, .op .coExit] ↔
      AllSteps (Machine.lifeStep Demo.code) Machine.SparesReady Demo.init
        [.op (.coCreateShared 1), .op (.coCreateShared 2), .op (.coPost 1), .coDestroy 2,
          .op .coResched, .op .coExit] :=
  holdsLive_iff _ _ _ _ _ (Option.isSome_iff_exists.mp (by decide))

/-- `main` posts a coroutine and destroys it. The queue has the pointer still, and
`co_resched` takes it from there. -/
theorem holdsLive_posted :
    ∃ ops m s, exec (Machine.lifeStep Demo.code) Demo.init ops = some m ∧
      ¬ AllStates (Machine.lifeStep Demo.code) Machine.HoldsLive Demo.init ops ∧
      m.sched.coResched = some s ∧ m.heap.isLive (some s.current) = false := by
  have hend : (exec (Machine.lifeStep Demo.code) Demo.init
      [.op (.coCreateShared 1), .op (.coPost 1), .coDestroy 1]).map
        (fun m => (m.sched, m.heap.isLive (some 1))) = some (⟨0, [some 1]⟩, false) := by decide
  obtain ⟨m, hm, heq⟩ := Option.map_eq_some_iff.mp hend
  obtain ⟨hsched, hdead⟩ := Prod.mk.inj heq
  refine ⟨_, m, ⟨1, [some 0]⟩, hm, fun hall => ?_, by rw [hsched]; rfl, hdead⟩
  have hlive := (hall.last hm).queue (some 1) (by rw [hsched]; exact List.mem_singleton_self _)
  rw [hdead] at hlive
  cases hlive

/-- Every switch finds the coroutine that it goes to. -/
structure SwitchesGoOn (k : Code) (m : Machine) : Prop where
  resched : ∃ m', m.step k .coResched = some m'
  yield : (∃ m', m.step k .coYield = some m') ↔ m.sched.queue ≠ []
  exit : (∃ m', m.step k .coExit = some m') ↔ m.sched.queue ≠ []

/-- When no coroutine is destroyed while it is ready, a switch is never stuck but for
want of another coroutine. -/
theorem switches_go_on (k : Code) (cpu : Cpu) (mainBytes : Word → UInt8)
    (blocks : List Machine.SharedBlock) (ops : List LifeOp)
    (hspares : AllSteps (Machine.lifeStep k) Machine.SparesReady
      (Machine.coInit k cpu mainBytes blocks) ops) :
    AllStates (Machine.lifeStep k) (SwitchesGoOn k)
      (Machine.coInit k cpu mainBytes blocks) ops := by
  have hall : AllStates (Machine.lifeStep k) LifeInv (Machine.coInit k cpu mainBytes blocks) ops :=
    allStates_of_allSteps (fun _ _ _ h hspare hs => lifeStep_keeps h hspare hs)
      (coInit_lifeInv cpu mainBytes blocks) hspares
  exact hall.mono fun m h => ⟨coResched_goesOn h, coYield_goesOn h, coExit_goesOn h⟩

end NetTraverse
