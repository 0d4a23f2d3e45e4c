import NetTraverse.Coroutine.Control
import NetTraverse.Coroutine.Switch

/-!
# Round-robin scheduling of the machine

The machine refines `Control`: registers, stacks and copies have no influence
on who runs when. `step_refines` is the simulation, one case for each
operation; the partition and the order law are then those of `Control`. A switch goes on
whenever there is somebody to switch to (`coSched_goesOn_iff`), and to `co_resched` there
always is.
-/

namespace NetTraverse

open Transition

/-- The coroutines that `co_sched` made current, oldest first. -/
def madeCurrent : List Event → List CoId
  | [] => []
  | .loaded c _ :: rest => madeCurrent rest ++ [c]
  | _ :: rest => madeCurrent rest

/-- `p` points to a coroutine that has been created, and not destroyed since. -/
def Heap.isLive (h : Heap) (p : CoPtr) : Bool :=
  p.any fun c => (h.cos c).isSome

/-- The control behaviour of a machine state. -/
def Machine.control (m : Machine) : Control where
  sched := m.sched
  live c := (m.heap.cos c).isSome
  idle c := isIdle c m.log
  madeCurrent := madeCurrent m.log

/-- What an operation means for the control state; the running coroutine's own
computation means nothing. -/
def Op.control : Op → List Control.Op
  | .write _ _ => []
  | .compute _ => []
  | .coCreate c _ _ => [.create c]
  | .coCreateShared c => [.create c]
  | .coPost c => [.post c]
  | .coResched => [.resched]
  | .coYield => [.yield]
  | .coExit => [.exit]

namespace OrderLemmas

open SwitchLemmas

variable {h heap : Heap} {c d : CoId} {co co' : Coroutine} {sid : StackId} {st : CoStack}
variable {m m' : Machine} {k : Code}

/-- Two states with the same control behaviour. -/
theorem control_ext (hsched : m'.sched = m.sched)
    (hlive : ∀ d, (m'.heap.cos d).isSome = (m.heap.cos d).isSome)
    (hidle : ∀ d, isIdle d m'.log = isIdle d m.log)
    (hmade : madeCurrent m'.log = madeCurrent m.log) : m'.control = m.control := by
  simp only [Machine.control, Control.mk.injEq]
  exact ⟨hsched, funext hlive, funext hidle, hmade⟩

theorem isSome_setCo (hobj : h.cos c = some co) (new : Coroutine) (d : CoId) :
    ((h.setCo c new).cos d).isSome = (h.cos d).isSome := by
  by_cases hdc : d = c
  · simp [hdc, hobj]
  · simp [hdc]

theorem saveStack_control (hsave : m.saveStack c = some m') : m'.control = m.control := by
  simp only [Machine.saveStack, Option.bind_eq_bind, Option.bind_eq_some_iff,
    Option.some.injEq] at hsave
  obtain ⟨p, hplace, rfl⟩ := hsave
  exact control_ext rfl (isSome_setCo (Heap.place_eq_some.mp hplace).obj _) (fun _ => rfl) rfl

theorem restoreStack_isSome (hres : h.restoreStack c = some heap) (d : CoId) :
    (heap.cos d).isSome = (h.cos d).isSome := by
  simp only [Heap.restoreStack, Option.bind_eq_bind, Option.bind_eq_some_iff] at hres
  obtain ⟨p, hplace, copy, -, hres⟩ := hres
  split at hres
  · cases hres
  · cases hres
    exact isSome_setCo (Heap.place_eq_some.mp hplace).obj _ d

theorem coSwapIn_control (hswap : m.coSwapIn c = some m') : m'.control = m.control := by
  rcases coSwapIn_cases hswap with rfl | ⟨m₁, heap, hsaved, hres, rfl⟩
  · rfl
  · have hrestored : Machine.control { m₁ with heap := heap } = m₁.control :=
      control_ext rfl (restoreStack_isSome hres) (fun _ => rfl) rfl
    rcases hsaved with rfl | ⟨o, hsave⟩
    · exact hrestored
    · exact hrestored.trans (saveStack_control hsave)

/-- `load_context` is the moment at which a coroutine becomes current. -/
theorem load_control (hload : m.load = some m') :
    m'.control = { m.control with
      madeCurrent := m.control.madeCurrent ++ [m.sched.current] } := by
  simp only [Machine.load, Option.bind_eq_bind, Option.bind_eq_some_iff,
    Option.some.injEq] at hload
  obtain ⟨co, -, img, -, rfl⟩ := hload
  rfl

/-- The machine's `co_sched` is the scheduler's. -/
theorem coSched_control (hsched : m.coSched = some m') :
    m.control.coSched = some m'.control := by
  obtain ⟨s, m₁, hs, hswap, hload⟩ := coSched_cases hsched
  have hcontrol : m₁.control = { m.control with sched := s } := by
    rcases hswap with rfl | hswap
    · rfl
    · exact coSwapIn_control hswap
  have hcur : m₁.sched = s := congrArg Control.sched hcontrol
  rw [load_control hload, hcontrol, hcur]
  show ((do let sched ← m.sched.coSched; _) : Option Control) = _
  rw [hs]
  rfl

theorem save_control {img : Image} (hsave : m.save k = some (img, m')) :
    m'.control = m.control := by
  simp only [Machine.save, Option.bind_eq_bind, Option.bind_eq_some_iff, Option.some.injEq,
    Prod.mk.injEq] at hsave
  obtain ⟨co, hobj, _, _, _, rfl⟩ := hsave
  exact control_ext rfl (isSome_setCo hobj _) (fun _ => rfl) rfl

/-- A creation makes one coroutine live and idle. -/
theorem create_control (hadd : Adds k m.heap heap c co sid st)
    (hm : m.created k c heap = some m') :
    m.control.step (.create c) = some m'.control := by
  simp only [Machine.created, Option.bind_eq_bind, Option.bind_eq_some_iff,
    Option.some.injEq] at hm
  obtain ⟨p, -, rfl⟩ := hm
  have hnot : m.control.live c = false := by simp [Machine.control, hadd.fresh]
  simp only [Control.step, hnot, Bool.false_eq_true, if_false, Option.some.injEq]
  simp only [Machine.control, Machine.record, Control.mk.injEq, true_and]
  refine ⟨funext fun d => ?_, funext fun d => ?_, rfl⟩
  · by_cases hdc : d = c
    · simp [hdc, hadd.cos]
    · simp [hdc, hadd.cos]
  · by_cases hdc : d = c
    · simp [hdc, isIdle]
    · simp [hdc, isIdle, Ne.symm hdc]

/-- A coroutine that has been destroyed is neither live nor idle. -/
theorem destroyed_control (hp : m.heap.Placed c co sid st)
    (hd : m.heap.coDestroy c = some heap) :
    Machine.control ({ m with heap := heap }.record (.exited c)) =
      { m.control with
        live := Function.update m.control.live c false
        idle := Function.update m.control.idle c false } := by
  have hdrop := coDestroy_drops hp hd
  simp only [Machine.control, Machine.record, Control.mk.injEq, true_and]
  refine ⟨funext fun d => ?_, funext fun d => ?_, rfl⟩
  · by_cases hdc : d = c
    · simp [hdc, hdrop.cos]
    · simp [hdc, hdrop.cos]
  · by_cases hdc : d = c
    · simp [hdc, isIdle]
    · simp [hdc, isIdle, Ne.symm hdc]

/-- Every step of the machine is the step of `Control` that `Op.control`
names. -/
theorem step_refines (hinv : Inv (some m.sched.current) m) {op : Op}
    (hstep : m.step k op = some m') :
    exec Control.step m.control op.control = some m'.control := by
  cases step_cases hinv.ok hstep with
  | write _ => rfl
  | compute _ _ => rfl
  | coCreate hadd hm => exact exec_cons_iff.mpr ⟨_, create_control hadd hm, rfl⟩
  | coCreateShared hadd hm => exact exec_cons_iff.mpr ⟨_, create_control hadd hm, rfl⟩
  | @coPost c hidle =>
    refine exec_cons_iff.mpr ⟨_, ?_, rfl⟩
    have hidle' : m.control.idle c = true := hidle
    simp only [Control.step, hidle', if_true, Option.some.injEq]
    simp only [Machine.control, Machine.coPost, Machine.record, Control.mk.injEq, true_and]
    refine ⟨funext fun d => ?_, rfl⟩
    by_cases hdc : d = c
    · simp [hdc, isIdle]
    · simp [hdc, isIdle, Ne.symm hdc]
  | coResched hsave hsame hsched =>
    refine exec_cons_iff.mpr ⟨_, ?_, rfl⟩
    rw [← coSched_control hsched, Control.step, ← save_control hsave, ← hsame]
    rfl
  | coYield hsave hsame hsched =>
    refine exec_cons_iff.mpr ⟨_, ?_, rfl⟩
    rw [← coSched_control hsched, Control.step, ← save_control hsave, ← hsame]
    congr 1
    simp only [Machine.control, Machine.record, Control.mk.injEq, true_and]
    refine ⟨funext fun d => ?_, rfl⟩
    by_cases hdc : d = m.sched.current
    · simp [hdc, hsame, isIdle]
    · simp [hdc, hsame, isIdle, Ne.symm hdc]
  | coExit hp hd hsched =>
    refine exec_cons_iff.mpr ⟨_, ?_, rfl⟩
    rw [← coSched_control hsched, destroyed_control hp hd, Control.step]
    rfl

/-- `co_init` leaves `main` current and nobody else. -/
theorem coInit_settled (cpu : Cpu) (mainBytes : Word → UInt8)
    (blocks : List Machine.SharedBlock) :
    (Machine.coInit k cpu mainBytes blocks).control.Settled := by
  intro c
  by_cases hc : c = 0
  · simp [hc, Control.places, Machine.control, Machine.coInit, isIdle]
  · simp [hc, Ne.symm hc, Control.places, Machine.control, Machine.coInit, isIdle]

/-! ## What a run keeps -/

@[simp] theorem isLive_some (h : Heap) (c : CoId) : h.isLive (some c) = (h.cos c).isSome := rfl

@[simp] theorem isLive_none (h : Heap) : h.isLive none = false := rfl

structure LifeInv (m : Machine) : Prop where
  rests : Inv (some m.sched.current) m
  settled : m.control.Settled
  noNull : none ∉ m.sched.queue

/-- Who is in the queue is in a place. -/
theorem LifeInv.queue_live (h : LifeInv m) {p : CoPtr} (hp : p ∈ m.sched.queue) :
    m.heap.isLive p := by
  cases p with
  | none => exact absurd hp h.noNull
  | some c => exact h.settled.live_of_mem hp

theorem LifeInv.current_live (h : LifeInv m) : m.heap.isLive (some m.sched.current) := by
  obtain ⟨co, sid, st, hp⟩ := h.rests.running
  simp [hp.obj]

theorem step_keeps (h : LifeInv m) {op : Op} (hstep : m.step k op = some m') : LifeInv m' := by
  have href := step_refines h.rests hstep
  constructor
  · exact step_inv h.rests hstep
  · exact exec_invariant (fun _ _ _ hs hstep => Control.step_settled hs hstep) h.settled href
  · exact exec_invariant (I := fun s => none ∉ s.sched.queue)
      (fun _ _ _ hs hstep => Control.step_noNull hs hstep) h.noNull href

theorem coInit_lifeInv (cpu : Cpu) (mainBytes : Word → UInt8)
    (blocks : List Machine.SharedBlock) : LifeInv (Machine.coInit k cpu mainBytes blocks) :=
  ⟨coInit_inv, coInit_settled cpu mainBytes blocks, List.not_mem_nil⟩

/-! ## Where a switch gets stuck -/

theorem restoreStack_goesOn {h : Heap} (hp : h.Placed c co sid st) (hcopy : HasCopy co st) :
    ∃ heap, h.restoreStack c = some heap := by
  obtain ⟨hsize, bytes, hbytes, hlength⟩ := hcopy
  have hlong : ¬ bytes.length < co.stackCopySize.toNat := by rw [hsize, hlength]; omega
  simp only [Heap.restoreStack, hp.place, hbytes, hlong, Option.bind_eq_bind, Option.bind_some,
    if_false, Option.some.injEq, exists_eq']

/-- The owner of the stack can be saved, and the copy of `c` is there. -/
theorem coSwapIn_goesOn (h : Inv none m) (hp : m.heap.Placed c co sid st)
    (hs : co.sharedStack = true) : ∃ m', m.coSwapIn c = some m' := by
  simp only [Machine.coSwapIn, inStack_shared hp hs, hp.place, Option.bind_eq_bind,
    Option.bind_some]
  by_cases hu : st.usedBy = some c
  · exact ⟨m, by simp [hu]⟩
  · have hcopy : HasCopy co st := (h.rests c co sid st hp (by simp)).away hs hu
    simp only [hu, decide_false, Bool.false_eq_true, if_false]
    cases hused : st.usedBy with
    | none =>
      obtain ⟨heap, hres⟩ := restoreStack_goesOn hp hcopy
      simp only [hres, Option.bind_some, Option.some.injEq, exists_eq']
    | some o =>
      have hoc : o ≠ c := fun he => hu (by rw [hused, he])
      obtain ⟨coo, hpo⟩ := h.ok.owner sid st o hp.buf ((h.ok.shared_eq hp).trans hs) hused
      obtain ⟨heap, hres⟩ := restoreStack_goesOn (Placed.setCo hp { coo with
        stackCopySize := st.stackTop - coo.savedCtx.rsp
        stackCopy := some (st.above coo.savedCtx.rsp) } (Ne.symm hoc)) hcopy
      simp only [saveStack_eq hpo, Machine.record, hres, Option.bind_some, Option.some.injEq,
        exists_eq']

/-- `co_sched` finds what it needs, exactly when the front of the queue is live. -/
theorem coSched_goesOn_iff (h : Inv none m) : (∃ m', m.coSched = some m') ↔
    ∃ p rest, m.sched.queue = p :: rest ∧ m.heap.isLive p := by
  constructor
  · rintro ⟨m', hm⟩
    obtain ⟨hqueue, hlive, -⟩ := Control.coSched_eq_some.mp (coSched_control hm)
    obtain ⟨co, hobj⟩ := (coSched_inv h hm).live _ rfl
    refine ⟨_, _, hqueue, ?_⟩
    have hnext := congrFun hlive m'.sched.current
    simp only [Machine.control, hobj, Option.isSome_some] at hnext
    exact hnext.symm
  · rintro ⟨p, rest, hqueue, hlive⟩
    cases p with
    | none => cases hlive
    | some c =>
      obtain ⟨co, hobj⟩ := Option.isSome_iff_exists.mp hlive
      obtain ⟨sid, st, hp, -⟩ := h.ok.placed c co hobj
      have hsched : m.sched.coSched = some ⟨c, rest⟩ := Sched.coSched_eq_some.mpr hqueue
      simp only [Machine.coSched, hsched, hobj, Option.bind_eq_bind, Option.bind_some]
      cases hs : co.sharedStack with
      | false =>
        simp only [Bool.false_eq_true, if_false]
        exact ⟨_, load_eq (m := { m with sched := ⟨c, rest⟩ }) hp⟩
      | true =>
        have h₁ := h.sched ⟨c, rest⟩
        obtain ⟨m₁, hswap⟩ := coSwapIn_goesOn h₁ hp hs
        obtain ⟨-, hsame, co', sid', st', hp', -⟩ := coSwapIn_inv h₁ hp hs hswap
        have hcur : m₁.sched.current = c := by rw [hsame]
        simp only [hswap, if_true, Option.bind_some]
        exact ⟨_, load_eq (hcur ▸ hp')⟩

theorem save_goesOn (h : Inv (some m.sched.current) m) :
    ∃ img m', m.save k = some (img, m') := by
  obtain ⟨co, sid, st, hp⟩ := h.running
  exact ⟨_, _, save_eq hp⟩

theorem coDestroy_goesOn {h : Heap} (hp : h.Placed c co sid st) :
    ∃ heap, h.coDestroy c = some heap := by
  simp only [Heap.coDestroy, hp.place, Option.bind_eq_bind, Option.bind_some]
  split
  · exact ⟨_, rfl⟩
  · split
    · exact ⟨_, rfl⟩
    · exact ⟨_, rfl⟩

theorem coSched_goesOn (h : Inv none m) (hlive : ∀ p ∈ m.sched.queue, m.heap.isLive p) :
    (∃ m', m.coSched = some m') ↔ m.sched.queue ≠ [] := by
  rw [coSched_goesOn_iff h, List.ne_nil_iff_exists_cons]
  constructor
  · rintro ⟨p, rest, hqueue, -⟩
    exact ⟨p, rest, hqueue⟩
  · rintro ⟨p, rest, hqueue⟩
    exact ⟨p, rest, hqueue, hlive p (hqueue ▸ List.mem_cons_self)⟩

theorem isLive_congr (hcontrol : m'.control = m.control) (p : CoPtr) :
    m'.heap.isLive p = m.heap.isLive p := by
  cases p with
  | none => rfl
  | some c => exact congrFun (congrArg Control.live hcontrol) c

/-- The caller waits in the queue itself, so there is somebody to switch to. -/
theorem coResched_goesOn (h : LifeInv m) : ∃ m', m.step k .coResched = some m' := by
  obtain ⟨img, m₁, hsave⟩ := save_goesOn (k := k) h.rests
  obtain ⟨hinv, hsame⟩ :=
    suspend_inv (e := .rescheduled m.sched.current img) h.rests hsave (.inl rfl)
  simp only [Machine.step, Machine.coResched, hsave, hsame, Option.bind_eq_bind, Option.bind_some]
  refine (coSched_goesOn (hinv.sched _) fun p hp => ?_).mpr (by simp [Sched.enqueue])
  show m₁.heap.isLive p
  rw [isLive_congr (save_control hsave)]
  have hqueue : p ∈ m₁.sched.queue ++ [some m₁.sched.current] := hp
  rw [hsame] at hqueue
  rcases List.mem_append.mp hqueue with hp | hp
  · exact h.queue_live hp
  · exact List.mem_singleton.mp hp ▸ h.current_live

theorem coYield_goesOn (h : LifeInv m) :
    (∃ m', m.step k .coYield = some m') ↔ m.sched.queue ≠ [] := by
  obtain ⟨img, m₁, hsave⟩ := save_goesOn (k := k) h.rests
  obtain ⟨hinv, hsame⟩ := suspend_inv (e := .yielded m.sched.current img) h.rests hsave (.inr rfl)
  simp only [Machine.step, Machine.coYield, hsave, hsame, Option.bind_eq_bind, Option.bind_some]
  rw [coSched_goesOn hinv fun p hp => ?_]
  · rw [← hsame]
    rfl
  · show m₁.heap.isLive p
    rw [isLive_congr (save_control hsave)]
    exact h.queue_live (hsame ▸ hp)

/-- The caller is not in the queue when it is destroyed. -/
theorem coExit_goesOn (h : LifeInv m) :
    (∃ m', m.step k .coExit = some m') ↔ m.sched.queue ≠ [] := by
  obtain ⟨co, sid, st, hp⟩ := h.rests.running
  obtain ⟨heap, hheap⟩ := coDestroy_goesOn hp
  simp only [Machine.step, Machine.coExit, hheap, Option.bind_eq_bind, Option.bind_some]
  refine coSched_goesOn (exit_inv h.rests hp hheap) fun p hready => ?_
  show heap.isLive p
  have hlive := h.queue_live hready
  cases p with
  | none => exact hlive
  | some c =>
    have hne : c ≠ m.sched.current := by
      rintro rfl
      exact List.count_eq_zero.mp h.settled.count_current hready
    simpa [(coDestroy_drops hp hheap).cos, hne] using hlive

end OrderLemmas

open OrderLemmas SwitchLemmas

/-- A run of the machine is a run of `Control`. -/
theorem machine_refines_control {k : Code} {m m' : Machine} {ops : List Op}
    (hinv : Inv (some m.sched.current) m) (hrun : exec (Machine.step k) m ops = some m') :
    ∃ cops, exec Control.step m.control cops = some m'.control :=
  exec_simulation Machine.control (I := fun m => Inv (some m.sched.current) m)
    (fun _ _ _ h hstep => step_inv h hstep)
    (fun _ _ _ h hstep => ⟨_, step_refines h hstep⟩) hinv hrun

theorem OrderLemmas.lifeInv_of_run {k : Code} {cpu : Cpu} {mainBytes : Word → UInt8}
    {blocks : List Machine.SharedBlock} {ops : List Op} {m : Machine}
    (hrun : exec (Machine.step k) (Machine.coInit k cpu mainBytes blocks) ops = some m) :
    LifeInv m :=
  exec_invariant (fun _ _ _ h hstep => step_keeps h hstep) (coInit_lifeInv cpu mainBytes blocks)
    hrun

/-- Every live coroutine is in exactly one place: current, in the queue once, or
new or parked. -/
def OnePlace (m : Machine) : Prop :=
  ∀ c, (m.heap.cos c).isSome →
    (if m.sched.current = c then 1 else 0) + m.sched.queue.count (some c) +
      (if isIdle c m.log then 1 else 0) = 1

/-- When the running coroutine calls `co_resched` with the queue `q`, the
coroutines that become current from then on are those of `q` in order and then
the caller, as far as the run goes. -/
def KeepsOrder (k : Code) (m : Machine) : Prop :=
  ∀ m₁ later m₂, m.step k .coResched = some m₁ → exec (Machine.step k) m₁ later = some m₂ →
    ∃ next, madeCurrent m₂.log = madeCurrent m.log ++ next ∧
      (next.map some <+: m.sched.queue ++ [some m.sched.current] ∨
        m.sched.queue ++ [some m.sched.current] <+: next.map some)

/-- Round-robin scheduling loses, duplicates and reorders nothing, in every
state that a run reaches, and `co_resched` always finds the next coroutine. -/
theorem round_robin_fair (k : Code) (cpu : Cpu) (mainBytes : Word → UInt8)
    (blocks : List Machine.SharedBlock) (ops : List Op) (m : Machine)
    (hrun : exec (Machine.step k) (Machine.coInit k cpu mainBytes blocks) ops = some m) :
    OnePlace m ∧ (∃ m', m.step k .coResched = some m') ∧ KeepsOrder k m := by
  have hlife := lifeInv_of_run hrun
  have hinv := hlife.rests
  refine ⟨fun c hlive => ?_, coResched_goesOn hlife, fun m₁ later m₂ hresched hlater => ?_⟩
  · have hc := hlife.settled c
    simp only [Control.places, Machine.control, hlive, if_true] at hc
    exact hc
  · obtain ⟨s, hs, hs₁⟩ := exec_cons_iff.mp (step_refines hinv hresched)
    cases hs₁
    obtain ⟨cops, hctl⟩ := machine_refines_control (step_inv hinv hresched) hlater
    exact Control.resched_order hs hctl

/-- Two coroutines wait when `main` calls `co_resched`, and so do they, until everybody
has run. -/
theorem round_robin_fair_demo :
    ∃ m m', exec (Machine.step Demo.code) Demo.init (Demo.ops.take 4) = some m ∧
      m.sched.queue = [some 1, some 2] ∧
      (OnePlace m ∧ (∃ m₁, m.step Demo.code .coResched = some m₁) ∧ KeepsOrder Demo.code m) ∧
      exec (Machine.step Demo.code) m [.coResched, .coResched, .coResched] = some m' ∧
      madeCurrent m'.log = [1, 2, 0] := by
  have hrun : (exec (Machine.step Demo.code) Demo.init (Demo.ops.take 4)).map
      (fun m => (m.sched.queue,
        (exec (Machine.step Demo.code) m [.coResched, .coResched, .coResched]).map
          fun m' => madeCurrent m'.log)) = some ([some 1, some 2], some [1, 2, 0]) := by decide
  obtain ⟨m, hm, heq⟩ := Option.map_eq_some_iff.mp hrun
  obtain ⟨hqueue, hserved⟩ := Prod.mk.inj heq
  obtain ⟨m', hm', hmade⟩ := Option.map_eq_some_iff.mp hserved
  exact ⟨m, m', hm, hqueue, round_robin_fair _ _ _ _ _ m hm, hm', hmade⟩

end NetTraverse
