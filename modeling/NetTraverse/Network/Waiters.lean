import NetTraverse.Network.Scheduling

/-!
# Waiters on a shared event

An event has one slot and one bit for each direction. A coroutine that parks
takes the slot over, and one that is resumed clears the bit, whoever else is
parked there. `noLostWaiter_iff` says which steps lose a waiter: exactly those
that park or resume in a direction in which somebody else is parked and not
ready yet.
-/

namespace NetTraverse

open Transition

/-- The descriptor whose event a coroutine uses. -/
def Pc.event : Pc → Option Fd
  | .call fd _ | .mustPark fd _ | .parked fd _ | .waiting fd => some fd
  | .new | .user => none

/-- The direction of the event that a coroutine in an operation uses. -/
def Pc.uses : Pc → Option (Fd × Dir)
  | .call fd op | .mustPark fd op | .parked fd op => some (fd, op.kind.dir)
  | .new | .user | .waiting _ => none

/-- In an operation, and not in its `co_yield`. -/
def Pc.running : Pc → Bool
  | .call _ _ | .mustPark _ _ => true
  | _ => false

namespace EventLoop

/-- Operations are on events that exist, and only the running coroutine is
between two system calls. -/
structure Located (s : EventLoop) : Prop where
  registered : ∀ c p fd, s.pcs c = some p → p.event = some fd → (s.handleMap fd).isSome
  running : ∀ c p, s.pcs c = some p → p.running → c = s.sched.current

/-- Each coroutine parked in a direction of an event is in the ready queue, or
recorded in the slot of that direction with its bit set. -/
def NoLostWaiter (s : EventLoop) : Prop :=
  ∀ fd ev c op, s.handleMap fd = some ev → s.pcs c = some (.parked fd op) →
    c ≠ s.sched.current →
      some c ∈ s.sched.queue ∨ (ev.slot op.kind.dir = some c ∧ ev.waits op.kind.dir)

/-- A `trigger` that reports a direction makes each coroutine parked in that
direction ready. -/
def TriggerReadies (s : EventLoop) : Prop :=
  ∀ fd ev c op event, s.handleMap fd = some ev → s.pcs c = some (.parked fd op) →
    c ≠ s.sched.current → event &&& op.kind.dir.flag ≠ 0 →
      some c ∈ s.sched.queue ∨ some c ∈ (ev.trigger event).2

/-- Everybody else who is parked in direction `d` of `fd` is ready. -/
def OthersReady (s : EventLoop) (fd : Fd) (d : Dir) : Prop :=
  ∀ c op, c ≠ s.sched.current → s.pcs c = some (.parked fd op) → op.kind.dir = d →
    some c ∈ s.sched.queue

/-- A coroutine parks, or returns from `co_yield`, only when everybody else
parked in the same direction is ready. -/
def SparesWaiters (s : EventLoop) : LoopOp → Prop
  | .park => ∀ fd op, s.curPc = some (.mustPark fd op) → s.OthersReady fd op.kind.dir
  | .resume => ∀ fd op, s.curPc = some (.parked fd op) → s.OthersReady fd op.kind.dir
  | _ => True

/-- Each direction of each event is used by at most one coroutine. -/
def OneUser (s : EventLoop) : Prop :=
  ∀ c c' p p' u, s.pcs c = some p → s.pcs c' = some p' → p.uses = some u → p'.uses = some u →
    c = c'

/-- Operations in direction `d` of `fd` are entered by `owner fd d` only. -/
def KeepsOwners (owner : Fd → Dir → CoId) (s : EventLoop) : LoopOp → Prop
  | .enter fd kind _ => s.sched.current = owner fd kind.dir
  | _ => True

instance (owner : Fd → Dir → CoId) (s : EventLoop) (a : LoopOp) :
    Decidable (s.KeepsOwners owner a) := by
  unfold KeepsOwners
  split <;> infer_instance

variable {s s' : EventLoop} {a : LoopOp}

namespace WaitersLemmas

open SchedulingLemmas

variable {c : CoId} {p : Pc} {fd : Fd} {ev : AsyncFileEvent}

/-! ### Where coroutines are -/

theorem located_init (ready : Fd → Dir → Bool) : (init ready).Located where
  registered := fun c p fd hp hfd => by
    obtain ⟨-, rfl⟩ := by simpa [init] using hp
    cases hfd
  running := fun c p hp hrun => by
    obtain ⟨-, rfl⟩ := by simpa [init] using hp
    cases hrun

/-- A step that moves one coroutine. When it is the running one, the processor
may change hands. -/
theorem located_update {p' : Option Pc} (hloc : s.Located)
    (hpcs : s'.pcs = Function.update s.pcs c p')
    (hmap : ∀ fd, (s.handleMap fd).isSome → (s'.handleMap fd).isSome)
    (hreg : ∀ p fd, p' = some p → p.event = some fd → (s'.handleMap fd).isSome)
    (hrun : ∀ p, p' = some p → p.running → c = s'.sched.current)
    (hcur : s'.sched.current = s.sched.current ∨ c = s.sched.current) : s'.Located where
  registered := fun d p fd hp hfd => by
    rw [hpcs] at hp
    rcases update_eq_some.mp hp with ⟨-, heq⟩ | ⟨-, hp⟩
    · exact hreg p fd heq hfd
    · exact hmap fd (hloc.registered d p fd hp hfd)
  running := fun d p hp hr => by
    rw [hpcs] at hp
    rcases update_eq_some.mp hp with ⟨rfl, heq⟩ | ⟨hdc, hp⟩
    · exact hrun p heq hr
    · have hd := hloc.running d p hp hr
      rcases hcur with hcur | hcur
      · exact hd.trans hcur.symm
      · exact absurd (hd.trans hcur.symm) hdc

/-- A step that moves nobody. -/
theorem located_same (hloc : s.Located) (hpcs : s'.pcs = s.pcs)
    (hmap : ∀ fd, (s.handleMap fd).isSome → (s'.handleMap fd).isSome)
    (hcur : s'.sched.current = s.sched.current ∨ s.curPc = some .user) : s'.Located := by
  have hself : s'.pcs = Function.update s.pcs s.sched.current s.curPc := by
    rw [hpcs, curPc, Function.update_eq_self]
  refine located_update hloc hself hmap ?_ ?_ (.inr rfl)
  · exact fun p fd hp hfd => hmap fd (hloc.registered _ p fd hp hfd)
  · intro p hp hr
    rcases hcur with hcur | hcur
    · exact hcur.symm
    · cases hcur.symm.trans hp
      cases hr

theorem isSome_setEvent (fd' : Fd) (h : (s.handleMap fd').isSome) :
    ((s.setEvent fd ev).handleMap fd').isSome := by
  rw [setEvent_handleMap]
  by_cases hfd : fd' = fd
  · simp [hfd]
  · rwa [Function.update_of_ne hfd]

theorem step_located (hinv : s.Inv) (hloc : s.Located) (h : Step s a s') : s'.Located := by
  cases h with
  | coCreate huser hc =>
    exact located_update hloc rfl (fun _ => id) (by rintro _ _ ⟨⟩ ⟨⟩) (by rintro _ ⟨⟩ ⟨⟩)
      (.inl rfl)
  | coPost huser hc =>
    exact located_update hloc rfl (fun _ => id) (by rintro _ _ ⟨⟩ ⟨⟩) (by rintro _ ⟨⟩ ⟨⟩)
      (.inl rfl)
  | construct huser hfd =>
    exact located_same hloc rfl (fun fd' => isSome_setEvent fd') (.inl rfl)
  | enter hcur hpc hfd =>
    exact located_update hloc rfl (fun _ => id) (by rintro _ _ ⟨⟩ ⟨⟩; exact hfd)
      (fun _ _ _ => rfl) (.inl rfl)
  | asyncWaitDone => exact hloc
  | asyncWait hcur hpc hev hq =>
    exact located_update hloc rfl (fun fd' => isSome_setEvent fd')
      (by rintro _ _ ⟨⟩ ⟨⟩; exact isSome_setEvent _ (by simp [hev])) (by rintro _ ⟨⟩ ⟨⟩)
      (.inr rfl)
  | syscall hpc hagain =>
    rename_i fd op r left
    refine located_update hloc rfl (fun _ => id) ?_ (fun _ _ _ => rfl) (.inl rfl)
    have hfd := hloc.registered _ _ fd hpc rfl
    rintro p fd' hp hfd'
    have hev : ∀ fd', (op.pcAfter fd r).event = some fd' → fd' = fd := by
      intro fd' h
      rw [AsyncOp.pcAfter] at h
      split at h <;> simp_all [Pc.event]
    cases hp
    rw [hev fd' hfd']
    exact hfd
  | park hpc hev hq =>
    exact located_update hloc rfl (fun fd' => isSome_setEvent fd')
      (by rintro _ _ ⟨⟩ ⟨⟩; exact isSome_setEvent _ (by simp [hev])) (by rintro _ ⟨⟩ ⟨⟩)
      (.inr rfl)
  | resumeOp hpc hev =>
    exact located_update hloc rfl (fun fd' => isSome_setEvent fd')
      (by rintro _ _ ⟨⟩ ⟨⟩; exact isSome_setEvent _ (by simp [hev])) (fun _ _ _ => rfl)
      (.inl rfl)
  | resumeWait hpc hev =>
    exact located_update hloc rfl (fun fd' => isSome_setEvent fd') (by rintro _ _ ⟨⟩ ⟨⟩)
      (by rintro _ ⟨⟩ ⟨⟩) (.inl rfl)
  | resched hcur hpc hq => exact located_same hloc rfl (fun _ => id) (.inr hpc)
  | coExit hcur hpc hq =>
    exact located_update hloc rfl (fun _ => id) (by rintro _ _ ⟨⟩) (by rintro _ ⟨⟩) (.inr rfl)
  | pollResched hcur hphase hq =>
    exact located_same hloc rfl (fun _ => id) (.inr (curPc_main hinv hcur))
  | dispatch hcur hphase hev =>
    refine located_same hloc rfl (fun fd' => isSome_setEvent fd') (.inl ?_)
    rw [foldl_coPost]
  | pollForever _ _ | epollWait _ _ _ _ | batchEnd _ _ | skip _ _ _ | arrive _ | notify _ =>
    exact located_same hloc rfl (fun _ => id) (.inl rfl)
  | arriveMore hready => exact hloc

/-! ### Who is lost -/

/-- A step that parks nobody, wakes nobody, and leaves the slots alone. -/
theorem noLostWaiter_of (hlost : s.NoLostWaiter)
    (hparked : ∀ c fd op, s'.pcs c = some (.parked fd op) → c ≠ s'.sched.current →
      s.pcs c = some (.parked fd op) ∧ c ≠ s.sched.current)
    (hqueue : ∀ c, some c ∈ s.sched.queue → c ≠ s'.sched.current → some c ∈ s'.sched.queue)
    (hmap : ∀ c fd op ev', s.pcs c = some (.parked fd op) → s'.handleMap fd = some ev' →
      ∃ ev, s.handleMap fd = some ev ∧ ev'.slot op.kind.dir = ev.slot op.kind.dir ∧
        (ev.waits op.kind.dir → ev'.waits op.kind.dir)) : s'.NoLostWaiter := by
  intro fd ev' c op hev' hpc hcur
  obtain ⟨hpc, hne⟩ := hparked c fd op hpc hcur
  obtain ⟨ev, hev, hslot, hwaits⟩ := hmap c fd op ev' hpc hev'
  rcases hlost fd ev c op hev hpc hne with hq | ⟨hs, hw⟩
  · exact .inl (hqueue c hq hcur)
  · exact .inr ⟨hslot.trans hs, hwaits hw⟩

/-- In particular a step that gives `c` a place where it is not parked. -/
theorem noLostWaiter_setPc {p' : Option Pc} (hlost : s.NoLostWaiter)
    (hpcs : s'.pcs = Function.update s.pcs c p')
    (hp' : ∀ p, p' = some p → p.waitsOn = none)
    (hsched : s'.sched = s.sched) (hmap : s'.handleMap = s.handleMap) : s'.NoLostWaiter := by
  refine noLostWaiter_of hlost (fun d fd op hd hne => ?_) (fun d hd _ => hsched ▸ hd)
    (fun d fd op ev' _ hev' => ⟨ev', hmap ▸ hev', rfl, id⟩)
  rw [hpcs] at hd
  rw [hsched] at hne
  rcases update_eq_some.mp hd with ⟨-, hd⟩ | ⟨-, hd⟩
  · cases hp' _ hd
  · exact ⟨hd, hne⟩

/-- A step that only gives the processor to the front of the queue. -/
theorem noLostWaiter_switch (hlost : s.NoLostWaiter) (hpcs : s'.pcs = s.pcs)
    (hpc : s.curPc = some .user) (hmap : s'.handleMap = s.handleMap)
    (hqueue : ∀ c, some c ∈ s.sched.queue → c ≠ s'.sched.current → some c ∈ s'.sched.queue) :
    s'.NoLostWaiter := by
  refine noLostWaiter_of hlost (fun d fd op hd _ => ⟨hpcs ▸ hd, ?_⟩) hqueue
    (fun d fd op ev' _ hev' => ⟨ev', hmap ▸ hev', rfl, id⟩)
  rintro rfl
  rw [hpcs] at hd
  cases hpc.symm.trans hd

theorem mem_queue_of_yield {sched : Sched}
    (hq : s.sched.queue = some sched.current :: sched.queue) (hc : some c ∈ s.sched.queue)
    (hne : c ≠ sched.current) : some c ∈ sched.queue := by
  rw [hq] at hc
  exact (List.mem_cons.mp hc).resolve_left fun heq => hne (Option.some.inj heq)

theorem mem_queue_of_resched {sched : Sched}
    (hq : s.sched.queue ++ [some s.sched.current] = some sched.current :: sched.queue)
    (hc : some c ∈ s.sched.queue) (hne : c ≠ sched.current) : some c ∈ sched.queue := by
  have hmem : some c ∈ some sched.current :: sched.queue :=
    hq ▸ List.mem_append_left _ hc
  exact (List.mem_cons.mp hmem).resolve_left fun heq => hne (Option.some.inj heq)

/-- Parking takes the slot over, so it loses exactly the waiters that are not
ready yet. -/
theorem noLostWaiter_park {op : AsyncOp} {sched : Sched} (hlost : s.NoLostWaiter)
    (hev : s.handleMap fd = some ev)
    (hq : s.sched.queue = some sched.current :: sched.queue) :
    NoLostWaiter { (s.setEvent fd (ev.park op.kind.dir s.sched.current)).setPc s.sched.current
        (some (.parked fd op)) with sched := sched } ↔ s.OthersReady fd op.kind.dir := by
  constructor
  · intro hlost' c op' hne hpc' hdir
    by_cases hc : c = sched.current
    · rw [hq, hc]
      exact List.mem_cons_self
    · have hpark := hlost' fd (ev.park op.kind.dir s.sched.current) c op' (by simp)
        (by simpa [hne] using hpc') hc
      rcases hpark with hmem | ⟨hslot, -⟩
      · rw [hq]
        exact List.mem_cons_of_mem _ hmem
      · -- the slot names the caller now
        simp only [hdir, AsyncFileEvent.park_slot, if_true, Option.some.injEq] at hslot
        exact absurd hslot.symm hne
  · intro hothers fd' ev' c op' hev' hpc' hne'
    rcases update_eq_some.mp hpc' with ⟨rfl, heq⟩ | ⟨hcur, hpc'⟩
    · cases heq
      simp only [setEvent_handleMap, setPc_handleMap, Function.update_self,
        Option.some.injEq] at hev'
      subst hev'
      exact .inr ⟨by simp, by simp⟩
    · rcases update_eq_some.mp hev' with ⟨rfl, heq⟩ | ⟨-, hev'⟩
      · cases heq
        by_cases hdir : op'.kind.dir = op.kind.dir
        · exact .inl (mem_queue_of_yield hq (hothers c op' hcur hpc' hdir) hne')
        · -- the other slot and the other bit are as before
          rcases hlost fd' ev c op' hev hpc' hcur with hmem | ⟨hslot, hwaits⟩
          · exact .inl (mem_queue_of_yield hq hmem hne')
          · exact .inr ⟨by simp [hdir, hslot], by simp [hwaits]⟩
      · rcases hlost fd' ev' c op' hev' hpc' hcur with hmem | hrec
        · exact .inl (mem_queue_of_yield hq hmem hne')
        · exact .inr hrec

/-- Being resumed clears the bit, with the same effect. -/
theorem noLostWaiter_resume {op : AsyncOp} (hlost : s.NoLostWaiter)
    (hev : s.handleMap fd = some ev) :
    NoLostWaiter ((s.setEvent fd (ev.resume op.kind.dir op.kind.clearsSlot)).setPc
      s.sched.current (some (.call fd op))) ↔ s.OthersReady fd op.kind.dir := by
  constructor
  · intro hlost' c op' hne hpc' hdir
    have hres := hlost' fd (ev.resume op.kind.dir op.kind.clearsSlot) c op'
      (by simp) (by simpa [hne] using hpc') hne
    rcases hres with hmem | ⟨-, hwaits⟩
    · exact hmem
    · exact absurd hdir ((AsyncFileEvent.resume_waits _).mp hwaits).1
  · intro hothers fd' ev' c op' hev' hpc' hne
    have hne : c ≠ s.sched.current := hne
    simp only [setPc_pcs, setEvent_pcs, Function.update_of_ne hne] at hpc'
    rcases update_eq_some.mp hev' with ⟨rfl, heq⟩ | ⟨-, hev'⟩
    · cases heq
      by_cases hdir : op'.kind.dir = op.kind.dir
      · exact .inl (hothers c op' hne hpc' hdir)
      · rcases hlost fd' ev c op' hev hpc' hne with hmem | ⟨hslot, hwaits⟩
        · exact .inl hmem
        · refine .inr ⟨?_, by simp [hdir, hwaits]⟩
          rw [AsyncFileEvent.resume_slot_of_ne _ hdir, hslot]
    · exact hlost fd' ev' c op' hev' hpc' hne

/-- An operation that is about to wait on `fd` does so in one direction of one
event, so the condition of a `park` or a `resume` speaks about that one. -/
theorem othersReady_iff {op : AsyncOp} {place : Fd → AsyncOp → Pc}
    (hinj : ∀ fd op fd' op', place fd op = place fd' op' → fd = fd' ∧ op = op')
    (hpc : s.curPc = some (place fd op)) :
    (∀ fd op, s.curPc = some (place fd op) → s.OthersReady fd op.kind.dir) ↔
      s.OthersReady fd op.kind.dir := by
  constructor
  · exact fun h => h fd op hpc
  · intro h fd' op' hpc'
    obtain ⟨rfl, rfl⟩ := hinj _ _ _ _ (Option.some.inj (hpc.symm.trans hpc'))
    exact h

/-- Only the event of `fd` changes, and its slots stay as they are. -/
theorem slots_setEvent {ev₀ ev' : AsyncFileEvent} {fd' : Fd}
    (hev' : (s.setEvent fd ev).handleMap fd' = some ev') (hev₀ : s.handleMap fd = some ev₀)
    (hslot : ∀ d, ev.slot d = ev₀.slot d) (hwaits : ∀ d, ev₀.waits d → ev.waits d) (d : Dir) :
    ∃ ev'', s.handleMap fd' = some ev'' ∧ ev'.slot d = ev''.slot d ∧
      (ev''.waits d → ev'.waits d) := by
  rcases update_eq_some.mp hev' with ⟨rfl, heq⟩ | ⟨-, hev'⟩
  · cases heq
    exact ⟨ev₀, hev₀, hslot d, hwaits d⟩
  · exact ⟨ev', hev', rfl, id⟩

/-- A step keeps every waiter exactly when it spares them. -/
theorem noLostWaiter_step (hinv : s.Inv) (hloc : s.Located) (hlost : s.NoLostWaiter)
    (h : Step s a s') : s'.NoLostWaiter ↔ s.SparesWaiters a := by
  cases h with
  | park hpc hev hq =>
    rw [noLostWaiter_park hlost hev hq]
    exact (othersReady_iff (fun _ _ _ _ h => by cases h; exact ⟨rfl, rfl⟩) hpc).symm
  | resumeOp hpc hev =>
    rw [noLostWaiter_resume hlost hev]
    exact (othersReady_iff (fun _ _ _ _ h => by cases h; exact ⟨rfl, rfl⟩) hpc).symm
  | resumeWait hpc hev =>
    rename_i fd ev
    refine iff_of_true ?_ fun fd' op hpc' => by cases hpc.symm.trans hpc'
    refine noLostWaiter_of hlost (fun c fd' op hc hne => ?_) (fun _ hc _ => hc)
      (fun c fd' op ev' _ hev' => slots_setEvent hev' hev (fun _ => rfl) (fun _ => id) _)
    have hne : c ≠ s.sched.current := hne
    simp only [setPc_pcs, setEvent_pcs, Function.update_of_ne hne] at hc
    exact ⟨hc, hne⟩
  | coCreate huser hc =>
    exact iff_of_true (noLostWaiter_setPc hlost rfl (by rintro _ ⟨⟩; rfl) rfl rfl) trivial
  | coPost huser hc =>
    rename_i c
    refine iff_of_true (noLostWaiter_of hlost (fun d fd op hd hne => ?_)
      (fun d hd _ => List.mem_append_left _ hd)
      (fun d fd op ev' _ hev' => ⟨ev', hev', rfl, id⟩)) trivial
    rcases update_eq_some.mp hd with ⟨-, heq⟩ | ⟨-, hd⟩
    · cases heq
    · exact ⟨hd, hne⟩
  | construct huser hfd =>
    rename_i fd
    refine iff_of_true (noLostWaiter_of hlost (fun c fd op hc hne => ⟨hc, hne⟩)
      (fun c hc _ => hc) (fun c fd' op ev' hc hev' => ?_)) trivial
    have hne : fd' ≠ fd := by
      rintro rfl
      have hreg := hloc.registered c _ fd' hc rfl
      simp [hfd] at hreg
    rw [setEvent_handleMap, Function.update_of_ne hne] at hev'
    exact ⟨ev', hev', rfl, id⟩
  | enter hcur hpc hfd =>
    exact iff_of_true (noLostWaiter_setPc hlost rfl (by rintro _ ⟨⟩; rfl) rfl rfl) trivial
  | asyncWaitDone => exact iff_of_true hlost trivial
  | asyncWait hcur hpc hev hq =>
    rename_i fd mask ev sched
    refine iff_of_true (noLostWaiter_of hlost (fun c fd' op hc hne => ?_)
      (fun c hc hne => mem_queue_of_yield hq hc hne)
      (fun c fd' op ev' _ hev' => ?_)) trivial
    · rcases update_eq_some.mp hc with ⟨-, heq⟩ | ⟨hc', hc⟩
      · cases heq
      · exact ⟨hc, hc'⟩
    · exact slots_setEvent hev' hev (fun d => by cases d <;> rfl) (fun _ => id) _
  | syscall hpc hagain =>
    rename_i fd op r left
    refine iff_of_true (noLostWaiter_setPc hlost rfl ?_ rfl rfl) trivial
    rintro p ⟨⟩
    rw [AsyncOp.pcAfter]
    split <;> rfl
  | resched hcur hpc hq =>
    exact iff_of_true (noLostWaiter_switch hlost rfl hpc rfl
      fun c hc hne => mem_queue_of_resched hq hc hne) trivial
  | coExit hcur hpc hq =>
    refine iff_of_true (noLostWaiter_of hlost (fun c fd op hc _ => ?_)
      (fun c hc hne => mem_queue_of_yield hq hc hne)
      (fun c fd op ev' _ hev' => ⟨ev', hev', rfl, id⟩)) trivial
    rcases update_eq_some.mp hc with ⟨-, heq⟩ | ⟨hc', hc⟩
    · cases heq
    · exact ⟨hc, hc'⟩
  | pollResched hcur hphase hq =>
    exact iff_of_true (noLostWaiter_switch hlost rfl (curPc_main hinv hcur) rfl
      fun c hc hne => mem_queue_of_resched hq hc hne) trivial
  | dispatch hcur hphase hev =>
    rename_i fd events rest ev
    rw [foldl_coPost]
    refine iff_of_true (noLostWaiter_of hlost (fun c fd op hc hne => ⟨hc, hne⟩)
      (fun c hc _ => List.mem_append_left _ hc) (fun c fd' op ev' _ hev' => ?_)) trivial
    exact slots_setEvent hev' hev (fun _ => by simp) (fun _ hw => by simpa using hw) _
  | pollForever _ _ | epollWait _ _ _ _ | batchEnd _ _ | skip _ _ _ | arriveMore _ | arrive _
  | notify _ => exact iff_of_true hlost trivial

theorem noLostWaiter_init (ready : Fd → Dir → Bool) : (init ready).NoLostWaiter :=
  fun _ _ _ _ hev => by cases hev

theorem slot_mem_trigger {d : Dir} {event : BitVec 32} (hw : ev.waits d)
    (hd : event &&& d.flag ≠ 0) : ev.slot d ∈ (ev.trigger event).2 := by
  have htest : ev.waited &&& (ev.event ||| event) &&& d.flag ≠ 0 := by
    have hw : ev.waited &&& d.flag ≠ 0 := hw
    rw [AsyncFileEvent.and_flag_ne_zero] at hw hd ⊢
    rw [BitVec.getLsbD_and, BitVec.getLsbD_or, hw, hd]
    simp
  have hposted : ev.slot d ∈
      if ev.waited &&& (ev.event ||| event) &&& d.flag ≠ 0 then [ev.slot d] else [] := by
    rw [if_pos htest]
    exact List.mem_singleton_self _
  cases d with
  | read => exact List.mem_append_left _ (List.mem_append_right _ hposted)
  | write => exact List.mem_append_left _ (List.mem_append_left _ hposted)

/-- Who is recorded is posted by the next `trigger` for its direction. -/
theorem NoLostWaiter.triggerReadies (hlost : s.NoLostWaiter) : s.TriggerReadies := by
  intro fd ev c op event hev hpc hne hevent
  rcases hlost fd ev c op hev hpc hne with hmem | ⟨hslot, hwaits⟩
  · exact .inl hmem
  · exact .inr (hslot ▸ slot_mem_trigger hwaits hevent)

/-! ### One user for each direction -/

/-- Whoever parks or is resumed as the only user of its direction overwrites
nobody. -/
theorem OneUser.sparesWaiters (hone : s.OneUser) (a : LoopOp) : s.SparesWaiters a := by
  cases a with
  | park =>
    intro fd op hpc c op' hne hpc' hdir
    exact absurd (hone c _ _ _ (fd, op.kind.dir) hpc' hpc (by simp [Pc.uses, hdir]) rfl) hne
  | resume =>
    intro fd op hpc c op' hne hpc' hdir
    exact absurd (hone c _ _ _ (fd, op.kind.dir) hpc' hpc (by simp [Pc.uses, hdir]) rfl) hne
  | _ => trivial

/-- Whoever is in an operation owns the direction. -/
def Owned (owner : Fd → Dir → CoId) (s : EventLoop) : Prop :=
  ∀ c p u, s.pcs c = some p → p.uses = some u → c = owner u.1 u.2

variable {owner : Fd → Dir → CoId}

theorem Owned.oneUser (h : Owned owner s) : s.OneUser :=
  fun c c' p p' u hc hc' hu hu' => (h c p u hc hu).trans (h c' p' u hc' hu').symm

theorem owned_update {p' : Option Pc} (howned : Owned owner s)
    (hpcs : s'.pcs = Function.update s.pcs c p')
    (hnew : ∀ p u, p' = some p → p.uses = some u → c = owner u.1 u.2) : Owned owner s' := by
  intro d p u hp hu
  rw [hpcs] at hp
  rcases update_eq_some.mp hp with ⟨rfl, heq⟩ | ⟨-, hp⟩
  · exact hnew p u heq hu
  · exact howned d p u hp hu

theorem owned_step (howned : Owned owner s) (hkeeps : s.KeepsOwners owner a)
    (h : Step s a s') : Owned owner s' := by
  cases h with
  | enter hcur hpc hfd => exact owned_update howned rfl (by rintro _ _ ⟨⟩ ⟨⟩; exact hkeeps)
  | @syscall fd op r left hpc hagain =>
    have hold := howned _ _ (fd, op.kind.dir) hpc rfl
    have hsame : ∀ u, (op.pcAfter fd r).uses = some u → u = (fd, op.kind.dir) := by
      intro u hu
      rw [AsyncOp.pcAfter] at hu
      split at hu <;> cases hu <;> rfl
    exact owned_update howned rfl (by rintro _ u ⟨⟩ hu; rw [hsame u hu]; exact hold)
  | park hpc hev hq =>
    exact owned_update howned rfl (by rintro _ _ ⟨⟩ ⟨⟩; exact howned _ _ _ hpc rfl)
  | resumeOp hpc hev =>
    exact owned_update howned rfl (by rintro _ _ ⟨⟩ ⟨⟩; exact howned _ _ _ hpc rfl)
  | coCreate | coPost | asyncWait | resumeWait | coExit =>
    exact owned_update howned rfl (by rintro _ _ ⟨⟩ ⟨⟩)
  | _ => exact howned

/-- A run in which each direction of each event has an owner. -/
theorem oneUser_of_owners {ready : Fd → Dir → Bool} {ops : List LoopOp}
    (h : AllSteps step (KeepsOwners owner) (init ready) ops) :
    AllStates step OneUser (init ready) ops :=
  AllStates.mono (Q := Owned owner) (fun _ howned => howned.oneUser)
    (allStates_of_allSteps (fun _ _ _ howned hkeeps hs => owned_step howned hkeeps (step_cases hs))
      (fun c p u hp hu => by
        obtain ⟨-, rfl⟩ := by simpa [init] using hp
        cases hu) h)

end WaitersLemmas

open WaitersLemmas SchedulingLemmas

/-- No waiter is lost along a run exactly when every coroutine that parks or
returns from `co_yield` finds everybody else who is parked in its direction
ready. -/
theorem noLostWaiter_iff (ready : Fd → Dir → Bool) (ops : List LoopOp)
    (hrun : Runs step (init ready) ops) :
    AllStates step (fun s => s.NoLostWaiter ∧ s.TriggerReadies) (init ready) ops ↔
      AllSteps step SparesWaiters (init ready) ops := by
  have hlost : AllStates step NoLostWaiter (init ready) ops ↔
      AllSteps step SparesWaiters (init ready) ops :=
    allStates_iff_allSteps (I := fun s => s.Inv ∧ s.Located)
      (fun _ _ _ hI _ h => ⟨step_inv hI.1 (step_cases h), step_located hI.1 hI.2 (step_cases h)⟩)
      (fun _ _ _ hI hQ h => noLostWaiter_step hI.1 hI.2 hQ (step_cases h))
      ⟨init_inv ready, located_init ready⟩ (noLostWaiter_init ready) hrun
  rw [← hlost]
  exact ⟨AllStates.mono fun _ h => h.1,
    AllStates.mono fun _ h => ⟨h, NoLostWaiter.triggerReadies h⟩⟩

namespace Demo

/-- Coroutine 1 reads and coroutine 2 writes. -/
def owner (_ : Fd) : Dir → CoId
  | .read => 1
  | .write => 2

theorem oneUser : AllStates step OneUser (init fun _ _ => false) ops := by
  have howners : AllSteps step (KeepsOwners owner) (init fun _ _ => false) ops := by decide
  exact oneUser_of_owners howners

end Demo

/-- A reader and a writer on one descriptor are not lost. -/
theorem noLostWaiter_iff_demo :
    AllStates step (fun s => s.NoLostWaiter ∧ s.TriggerReadies) (init fun _ _ => false)
      Demo.ops :=
  (noLostWaiter_iff _ _ (Option.isSome_iff_exists.mp (by decide))).mpr
    (Demo.oneUser.steps.mono fun _ a hone => OneUser.sparesWaiters hone a)

namespace Demo

/-- Two coroutines write to descriptor 5, which has no room, and both park. -/
def twoWriters : List LoopOp :=
  [.coCreate 1, .coPost 1, .coCreate 2, .coPost 2, .construct 5, .pollForever, .pollResched,
    .enter 5 .asyncWrite 64, .syscall .again false, .park,
    .enter 5 .asyncWrite 60, .syscall .again false, .park]

end Demo

/-- The second writer takes the slot, and the first one is lost. -/
theorem noLostWaiter_twoWriters :
    ¬ ∀ ready ops s, exec step (init ready) ops = some s → s.NoLostWaiter := by
  intro hall
  have hrun : (exec step (init fun _ _ => false) Demo.twoWriters).map
      (fun s => (s.sched, s.pcs 1, (s.handleMap 5).map (·.coWrite))) =
        some (⟨0, []⟩, some (.parked 5 ⟨.asyncWrite, 64, 0⟩), some (some 2)) := by
    decide
  obtain ⟨s, hs, hview⟩ := Option.map_eq_some_iff.mp hrun
  simp only [Prod.mk.injEq, Option.map_eq_some_iff] at hview
  obtain ⟨hsched, hpc, ev, hev, hslot⟩ := hview
  rcases hall _ _ s hs 5 ev 1 _ hev hpc (by simp [hsched]) with hmem | ⟨hrec, -⟩
  · simp [hsched] at hmem
  · simp [OpKind.dir, AsyncFileEvent.slot, hslot] at hrec

end EventLoop

end NetTraverse
