import NetTraverse.Network.Waiters

/-!
# Edge-triggered readiness

The kernel reports a descriptor once when it becomes ready. With one reader and
one writer on each event no report is missed: whoever is parked although its
descriptor is ready is about to hear of it.
-/

namespace NetTraverse

open Transition

namespace EventLoop

/-- The descriptor is pending in the kernel or in the batch, or the coroutine is
ready. -/
def Hears (s : EventLoop) (c : CoId) (fd : Fd) : Prop :=
  s.pending fd ∨ fd ∈ s.phase.undispatched ∨ some c ∈ s.sched.queue

/-- Whoever is parked although there is data, or room, is about to hear of it. -/
def NoMissedEdge (s : EventLoop) : Prop :=
  ∀ c fd op, s.pcs c = some (.parked fd op) → c ≠ s.sched.current →
    s.ready fd op.kind.dir → s.Hears c fd

variable {s s' : EventLoop} {a : LoopOp}

namespace EdgesLemmas

open SchedulingLemmas WaitersLemmas

variable {c : CoId} {fd : Fd} {op : AsyncOp}

/-- Parked, or between the failed system call and the `co_yield`. -/
def Blocked (s : EventLoop) (c : CoId) (fd : Fd) (op : AsyncOp) : Prop :=
  s.pcs c = some (.mustPark fd op) ∨ s.pcs c = some (.parked fd op) ∧ c ≠ s.sched.current

/-- `NoMissedEdge` in the form that a step keeps: the race between the system
call and the `co_yield` is part of it. -/
def EdgeKept (s : EventLoop) : Prop :=
  ∀ c fd op, Blocked s c fd op → s.ready fd op.kind.dir → s.Hears c fd

theorem blocked_registered (hloc : s.Located) (hb : Blocked s c fd op) :
    (s.handleMap fd).isSome := by
  rcases hb with hb | ⟨hb, -⟩
  · exact hloc.registered c _ fd hb rfl
  · exact hloc.registered c _ fd hb rfl

/-- Who is blocked after a step that moves `c`: `c`, or somebody who was there before. -/
theorem blocked_update {p' : Option Pc} {d : CoId}
    (hpcs : s'.pcs = Function.update s.pcs c p') (hb : Blocked s' d fd op) :
    (d = c ∧ (p' = some (.mustPark fd op) ∨
      p' = some (.parked fd op) ∧ d ≠ s'.sched.current)) ∨
    (d ≠ c ∧ (s.pcs d = some (.mustPark fd op) ∨
      s.pcs d = some (.parked fd op) ∧ d ≠ s'.sched.current)) := by
  rw [Blocked, hpcs] at hb
  rcases hb with hb | ⟨hb, hne⟩
  · exact (update_eq_some.mp hb).imp (And.imp_right .inl) (And.imp_right .inl)
  · exact (update_eq_some.mp hb).imp (And.imp_right fun h => .inr ⟨h, hne⟩)
      (And.imp_right fun h => .inr ⟨h, hne⟩)

/-- A step that blocks nobody, adds no data and loses no report. -/
theorem edgeKept_of (hkept : EdgeKept s)
    (hblocked : ∀ c fd op, Blocked s' c fd op → Blocked s c fd op)
    (hready : ∀ c fd op, Blocked s' c fd op → s'.ready fd op.kind.dir →
      s.ready fd op.kind.dir)
    (hhears : ∀ c fd op, Blocked s' c fd op → s.Hears c fd → s'.Hears c fd) :
    EdgeKept s' := fun c fd op hb hr =>
  hhears c fd op hb (hkept c fd op (hblocked c fd op hb) (hready c fd op hb hr))

/-- A step that moves `c` to a place where it is not blocked, in the same
queue. -/
theorem edgeKept_setPc {p' : Option Pc} (hkept : EdgeKept s)
    (hpcs : s'.pcs = Function.update s.pcs c p')
    (hp' : ∀ p, p' = some p → ∀ fd op, p ≠ .mustPark fd op ∧ p ≠ .parked fd op)
    (hsched : s'.sched = s.sched) (hphase : s'.phase = s.phase)
    (hpending : s'.pending = s.pending)
    (hready : ∀ fd d, s'.ready fd d → s.ready fd d) : EdgeKept s' := by
  refine edgeKept_of hkept (fun d fd op hb => ?_) (fun _ fd _ _ => hready fd _)
    (fun d fd op _ hh => by simpa only [Hears, hphase, hpending, hsched] using hh)
  rcases blocked_update hpcs hb with ⟨-, hb | ⟨hb, -⟩⟩ | ⟨-, hb⟩
  · exact absurd rfl (hp' _ hb fd op).1
  · exact absurd rfl (hp' _ hb fd op).2
  · rwa [hsched] at hb

/-- A step that takes the processor from a coroutine that is not blocked. -/
theorem edgeKept_switch {p' : Option Pc} (hloc : s.Located)
    (hkept : EdgeKept s) (hpcs : s'.pcs = Function.update s.pcs s.sched.current p')
    (hp' : ∀ p, p' = some p → ∀ fd op, p ≠ .mustPark fd op ∧ p ≠ .parked fd op)
    (hphase : s'.phase = s.phase) (hpending : s'.pending = s.pending)
    (hready : s'.ready = s.ready)
    (hqueue : ∀ c, some c ∈ s.sched.queue → c ≠ s'.sched.current → some c ∈ s'.sched.queue) :
    EdgeKept s' := by
  have hold : ∀ c fd op, Blocked s' c fd op →
      s.pcs c = some (.parked fd op) ∧ c ≠ s.sched.current ∧ c ≠ s'.sched.current := by
    intro d fd op hb
    rcases blocked_update hpcs hb with ⟨-, hb | ⟨hb, -⟩⟩ | ⟨hd, hb | ⟨hb, hne⟩⟩
    · exact absurd rfl (hp' _ hb fd op).1
    · exact absurd rfl (hp' _ hb fd op).2
    · exact absurd (hloc.running d _ hb rfl) hd
    · exact ⟨hb, hd, hne⟩
  refine edgeKept_of hkept (fun d fd op hb => .inr ⟨(hold d fd op hb).1, (hold d fd op hb).2.1⟩)
    (fun _ fd op _ hr => by rwa [hready] at hr) (fun d fd op hb hh => ?_)
  rw [Hears, hphase, hpending]
  exact hh.imp_right (Or.imp_right fun hq => hqueue d hq (hold d fd op hb).2.2)

theorem polledEvent_flag (events : BitVec 32) (d : Dir) : polledEvent events &&& d.flag ≠ 0 := by
  rw [polledEvent_eq]
  cases d <;> decide

theorem edgeKept_step (hinv : s.Inv) (hloc : s.Located) (hlost : s.NoLostWaiter)
    (hkept : EdgeKept s) (h : Step s a s') : EdgeKept s' := by
  cases h with
  | coCreate huser hc =>
    exact edgeKept_setPc hkept rfl (by rintro _ ⟨⟩ _ _; simp) rfl rfl rfl fun _ _ => id
  | coPost huser hc =>
    rename_i c
    refine edgeKept_of hkept (fun d fd op hb => ?_) (fun _ _ _ _ => id)
      (fun d fd op _ hh => hh.imp_right (Or.imp_right fun hq => List.mem_append_left _ hq))
    rcases blocked_update rfl hb with ⟨-, hb | ⟨hb, -⟩⟩ | ⟨-, hb⟩
    · cases hb
    · cases hb
    · exact hb
  | enter hcur hpc hfd =>
    exact edgeKept_setPc hkept rfl (by rintro _ ⟨⟩ _ _; simp) rfl rfl rfl fun _ _ => id
  | asyncWait hcur hpc hev hq =>
    exact edgeKept_switch hloc hkept rfl (by rintro _ ⟨⟩ _ _; simp) rfl rfl rfl
      fun c hc hne => mem_queue_of_yield hq hc hne
  | syscall hpc hagain =>
    rename_i fd op r left
    intro c fd' op' hb hr
    have hr : (s.setReady fd op.kind.dir (s.ready fd op.kind.dir && left)).ready
      fd' op'.kind.dir = true := hr
    rw [setReady_ready] at hr
    rcases blocked_update rfl hb with ⟨hc, hb | ⟨-, hne⟩⟩ | ⟨hc, hold⟩
    · -- the call that failed with `EAGAIN` found no data
      rw [Option.some.injEq, AsyncOp.pcAfter] at hb
      split at hb
      · cases hb
      · next hpark =>
        cases hb
        simp [hagain (AsyncOp.again_of_park hpark)] at hr
      · cases hb
      · cases hb
    · exact absurd hc hne
    · refine hkept c fd' op' hold ?_
      split at hr
      · next heq =>
        rw [heq.1, heq.2]
        exact (Bool.and_eq_true_iff.mp hr).1
      · exact hr
  | park hpc hev hq =>
    rename_i fd op ev sched
    intro c fd' op' hb hr
    have hold : Blocked s c fd' op' ∧ c ≠ sched.current := by
      rcases blocked_update rfl hb with ⟨rfl, hb | ⟨hb, hne⟩⟩ | ⟨hc, hb | ⟨hb, hne⟩⟩
      · cases hb
      · cases hb
        exact ⟨.inl hpc, hne⟩
      · -- only the running coroutine is between its call and the `co_yield`
        exact absurd (hloc.running c _ hb rfl) hc
      · exact ⟨.inr ⟨hb, hc⟩, hne⟩
    exact (hkept c fd' op' hold.1 hr).imp_right
      (Or.imp_right fun hmem => mem_queue_of_yield hq hmem hold.2)
  | resumeOp hpc hev =>
    exact edgeKept_setPc hkept rfl (by rintro _ ⟨⟩ _ _; simp) rfl rfl rfl fun _ _ => id
  | resumeWait hpc hev =>
    exact edgeKept_setPc hkept rfl (by rintro _ ⟨⟩ _ _; simp) rfl rfl rfl fun _ _ => id
  | resched hcur hpc hq =>
    have hself : s.pcs = Function.update s.pcs s.sched.current (some .user) := by
      rw [← hpc, curPc, Function.update_eq_self]
    exact edgeKept_switch hloc hkept hself (by rintro _ ⟨⟩ _ _; simp) rfl rfl rfl
      fun c hc hne => mem_queue_of_resched hq hc hne
  | coExit hcur hpc hq =>
    exact edgeKept_switch hloc hkept rfl (by rintro _ ⟨⟩) rfl rfl rfl
      fun c hc hne => mem_queue_of_yield hq hc hne
  | pollResched hcur hphase hq =>
    have hself : s.pcs = Function.update s.pcs s.sched.current (some .user) := by
      rw [← curPc_main hinv hcur, curPc, Function.update_eq_self]
    exact edgeKept_switch hloc hkept hself (by rintro _ ⟨⟩ _ _; simp) rfl rfl rfl
      fun c hc hne => mem_queue_of_resched hq hc hne
  | epollWait hcur hphase hqueue hdistinct =>
    rename_i batch
    refine edgeKept_of hkept (fun _ _ _ hb => hb) (fun _ _ _ _ => id) (fun c fd op _ hh => ?_)
    rcases hh with hp | hu | hq
    · -- what leaves the ready list of the kernel is in the batch
      by_cases hmem : fd ∈ batch.map Prod.fst
      · exact .inr (.inl hmem)
      · exact .inl (by simpa [hp] using hmem)
    · simp [hphase, Phase.undispatched] at hu
    · exact .inr (.inr hq)
  | batchEnd hcur hphase =>
    refine edgeKept_of hkept (fun _ _ _ hb => hb) (fun _ _ _ _ => id) (fun c fd op _ hh => ?_)
    rcases hh with hp | hu | hq
    · exact .inl hp
    · simp [hphase, Phase.undispatched] at hu
    · exact .inr (.inr hq)
  | skip hcur hphase hfd =>
    refine edgeKept_of hkept (fun _ _ _ hb => hb) (fun _ _ _ _ => id) (fun c fd' op hb hh => ?_)
    refine hh.imp_right (Or.imp_left fun hmem => ?_)
    rw [hphase] at hmem
    refine (List.mem_cons.mp hmem).resolve_left ?_
    -- the skipped descriptor has no event, so nobody is blocked on it
    rintro rfl
    have hreg := blocked_registered hloc hb
    simp [hfd] at hreg
  | dispatch hcur hphase hev =>
    rename_i fd events rest ev
    rw [foldl_coPost]
    refine edgeKept_of hkept (fun _ _ _ hb => hb) (fun _ _ _ _ => id) (fun c fd' op hb hh => ?_)
    rcases hh with hp | hu | hq
    · exact .inl hp
    · rw [hphase] at hu
      rcases List.mem_cons.mp hu with rfl | hu
      · -- the only waiter of this direction is in its slot
        refine .inr (.inr (List.mem_append.mpr ?_))
        rcases hb with hb | ⟨hb, hne⟩
        · rw [hloc.running c _ hb rfl] at hb
          exact absurd hcur (ne_main_of_curPc hinv hb (by simp))
        · exact NoLostWaiter.triggerReadies hlost _ ev c op _ hev hb hne
            (polledEvent_flag events op.kind.dir)
      · exact .inr (.inl hu)
    · exact .inr (.inr (List.mem_append_left _ hq))
  | arrive hready =>
    rename_i fd d
    intro c fd' op hb hr
    by_cases hfd : fd' = fd
    · subst hfd
      have hreg := blocked_registered hloc hb
      exact .inl (by simp [show (s.handleMap fd').isSome from hreg])
    · have hr' : s.ready fd' op.kind.dir := by
        have hr : (s.setReady fd d true).ready fd' op.kind.dir = true := hr
        rwa [setReady_ready, if_neg fun h => hfd h.1] at hr
      refine (hkept c fd' op hb hr').imp_left fun hp => ?_
      exact (Function.update_of_ne hfd _ _).trans hp
  | notify hfd =>
    rename_i fd
    refine edgeKept_of hkept (fun _ _ _ hb => hb) (fun _ _ _ _ => id) (fun c fd' op hb hh => ?_)
    refine hh.imp_left fun hp => ?_
    by_cases hfd' : fd' = fd
    · simp [hfd']
    · exact (Function.update_of_ne hfd' _ _).trans hp
  | pollForever hcur hphase =>
    refine edgeKept_of hkept (fun _ _ _ hb => hb) (fun _ _ _ _ => id) (fun c fd op _ hh => ?_)
    rwa [Hears, hphase] at hh
  | construct _ _ => exact hkept
  | asyncWaitDone | arriveMore _ => exact hkept

theorem edgeKept_init (ready : Fd → Dir → Bool) : EdgeKept (init ready) := by
  rintro c fd op (hb | ⟨hb, -⟩) -
  · simp [init] at hb
  · simp [init] at hb

/-- What holds in every state of a run in which each direction has one user. -/
structure EdgeInv (s : EventLoop) : Prop where
  inv : s.Inv
  located : s.Located
  lost : s.NoLostWaiter
  kept : EdgeKept s

theorem edgeInv_step (hinv : EdgeInv s) (hone : s.OneUser) (h : Step s a s') : EdgeInv s' where
  inv := step_inv hinv.inv h
  located := step_located hinv.inv hinv.located h
  lost := (noLostWaiter_step hinv.inv hinv.located hinv.lost h).mpr
    (OneUser.sparesWaiters hone a)
  kept := edgeKept_step hinv.inv hinv.located hinv.lost hinv.kept h

end EdgesLemmas

open EdgesLemmas SchedulingLemmas WaitersLemmas

/-- With one reader and one writer on each event, nobody stays parked on a
descriptor that is ready without hearing of it. -/
theorem no_missed_edge (ready : Fd → Dir → Bool) (ops : List LoopOp)
    (hone : AllStates step OneUser (init ready) ops) :
    AllStates step NoMissedEdge (init ready) ops := by
  have hinit : EdgeInv (init ready) :=
    ⟨init_inv ready, located_init ready, noLostWaiter_init ready, edgeKept_init ready⟩
  refine AllStates.mono (Q := EdgeInv) ?_ (allStates_of_allSteps (P := fun s _ => s.OneUser)
    (fun _ _ _ hinv hP h => edgeInv_step hinv hP (step_cases h)) hinit hone.steps)
  exact fun s hinv c fd op hpc hne => hinv.kept c fd op (.inr ⟨hpc, hne⟩)

theorem no_missed_edge_demo :
    AllStates step NoMissedEdge (init fun _ _ => false) Demo.ops :=
  no_missed_edge _ _ Demo.oneUser

end EventLoop

end NetTraverse
