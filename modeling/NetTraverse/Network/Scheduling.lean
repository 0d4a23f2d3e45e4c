import NetTraverse.Network.EventLoop

/-!
# Scheduling in the event loop

The invariant of the loop (`Inv`) and its consequences for the ready queue:
nobody starves `main`, nobody is queued twice, and no queue runs empty under a
`co_yield`.
-/

namespace NetTraverse

open Transition

namespace EventLoop

/-- Everyone who can run, the running coroutine first. -/
def line (s : EventLoop) : List CoPtr := some s.sched.current :: s.sched.queue

/-- Who runs or is ready: each coroutine once, `main` always, and nobody who
was not posted. -/
structure Placed (s : EventLoop) : Prop where
  nodup : s.line.Nodup
  noNull : none ∉ s.line
  main : some mainId ∈ s.line
  posted : ∀ c, some c ∈ s.line → ∃ p, s.pcs c = some p ∧ p ≠ .new

/-- A bit of `waited_` is set only while the coroutine in the slot waits there,
and a mask is set only while the coroutine in `co_wait` does. -/
structure RecordedAt (pcs : CoId → Option Pc) (fd : Fd) (ev : AsyncFileEvent) : Prop where
  slot : ∀ d, ev.waits d →
    ∃ c op, ev.slot d = some c ∧ pcs c = some (.parked fd op) ∧ op.kind.dir = d
  mask : ev.waitedMask ≠ 0 → ∃ c, ev.coWait = some c ∧ pcs c = some (.waiting fd)

/-- The invariant of the loop. While `main` is in a batch, who waits on a
descriptor that is still to be dispatched is not in the queue yet. -/
structure Inv (s : EventLoop) : Prop where
  mainUser : s.pcs mainId = some .user
  placed : s.Placed
  recorded : ∀ fd ev, s.handleMap fd = some ev → RecordedAt s.pcs fd ev
  drain : s.sched.current ≠ mainId → s.phase = .drain
  distinct : s.phase.undispatched.Nodup
  batch : ∀ fd ∈ s.phase.undispatched, ∀ c p, some c ∈ s.sched.queue → s.pcs c = some p →
    p.waitsOn ≠ some fd

variable {s s' : EventLoop} {a : LoopOp}

namespace SchedulingLemmas

variable {c : CoId} {p : Pc} {fd : Fd} {ev : AsyncFileEvent} {pcs : CoId → Option Pc}

/-! ### The line -/

theorem mem_line : some c ∈ s.line ↔ c = s.sched.current ∨ some c ∈ s.sched.queue := by
  simp [line]

theorem Placed.current_notMem (h : s.Placed) : some s.sched.current ∉ s.sched.queue :=
  (List.nodup_cons.mp h.nodup).1

/-- A step that reorders the line at most. -/
theorem Placed.of_perm (h : s.Placed) (hline : s'.line.Perm s.line)
    (hpcs : ∀ c p, s.pcs c = some p → p ≠ .new → some c ∈ s.line →
      ∃ p', s'.pcs c = some p' ∧ p' ≠ .new) : s'.Placed where
  nodup := hline.nodup_iff.mpr h.nodup
  noNull := fun hn => h.noNull (hline.mem_iff.mp hn)
  main := hline.mem_iff.mpr h.main
  posted := fun c hc => by
    have hc' := hline.mem_iff.mp hc
    obtain ⟨p, hp, hnew⟩ := h.posted c hc'
    exact hpcs c p hp hnew hc'

/-- A step that takes the running coroutine, which is not `main`, out of the line. -/
theorem Placed.of_yield (h : s.Placed) (hcur : s.sched.current ≠ mainId)
    (hline : s.sched.queue = s'.line)
    (hpcs : ∀ c, c ≠ s.sched.current → s'.pcs c = s.pcs c) : s'.Placed where
  nodup := hline ▸ (List.nodup_cons.mp h.nodup).2
  noNull := fun hn => h.noNull (List.mem_cons_of_mem _ (hline ▸ hn))
  main := by
    rcases mem_line.mp h.main with hm | hm
    · exact absurd hm.symm hcur
    · exact hline ▸ hm
  posted := fun c hc => by
    have hq : some c ∈ s.sched.queue := hline ▸ hc
    have hne : c ≠ s.sched.current := fun heq => Placed.current_notMem h (heq ▸ hq)
    rw [hpcs c hne]
    exact h.posted c (mem_line.mpr (.inr hq))

/-- A step that adds coroutines at the end of the line. -/
theorem Placed.of_append (h : s.Placed) (posts : List CoPtr)
    (hline : s'.line = s.line ++ posts) (hposts : posts.Nodup)
    (hnew : ∀ x ∈ posts, x ∉ s.line)
    (hx : ∀ x ∈ posts, ∃ c p, x = some c ∧ s'.pcs c = some p ∧ p ≠ .new)
    (hpcs : ∀ c, some c ∈ s.line → s'.pcs c = s.pcs c) : s'.Placed where
  nodup := by
    rw [hline]
    exact List.Nodup.append h.nodup hposts fun x hs hp => hnew x hp hs
  noNull := fun hn => by
    rcases List.mem_append.mp (hline ▸ hn) with hn | hn
    · exact h.noNull hn
    · obtain ⟨c, p, hc, -⟩ := hx _ hn
      cases hc
  main := hline ▸ List.mem_append_left _ h.main
  posted := fun c hc => by
    rcases List.mem_append.mp (hline ▸ hc) with hc | hc
    · rw [hpcs c hc]
      exact h.posted c hc
    · obtain ⟨c', p, heq, hp, hnew⟩ := hx _ hc
      cases heq
      exact ⟨p, hp, hnew⟩

theorem line_resched {sched : Sched}
    (hq : s.sched.queue ++ [some s.sched.current] = some sched.current :: sched.queue) :
    (line { s with sched := sched }).Perm s.line := by
  show (some sched.current :: sched.queue).Perm _
  rw [← hq]
  exact List.perm_append_singleton _ _

/-! ### The slots -/

/-- A coroutine that does not wait on `fd` is in no slot of its event that
counts. -/
theorem RecordedAt.update (h : RecordedAt pcs fd ev)
    (hc : ∀ p, pcs c = some p → p.waitsOn ≠ some fd) (p' : Option Pc) :
    RecordedAt (Function.update pcs c p') fd ev where
  slot := fun d hd => by
    obtain ⟨c', op, hslot, hpc, hdir⟩ := h.slot d hd
    have hne : c' ≠ c := fun heq => hc _ (heq ▸ hpc) rfl
    exact ⟨c', op, hslot, by rw [Function.update_of_ne hne, hpc], hdir⟩
  mask := fun hm => by
    obtain ⟨c', hslot, hpc⟩ := h.mask hm
    have hne : c' ≠ c := fun heq => hc _ (heq ▸ hpc) rfl
    exact ⟨c', hslot, by rw [Function.update_of_ne hne, hpc]⟩

theorem recordedAt_new (pcs : CoId → Option Pc) (fd : Fd) :
    RecordedAt pcs fd (AsyncFileEvent.new fd) where
  slot := fun d hd => by
    have h0 : (0 : BitVec 32) &&& d.flag ≠ 0 := hd
    cases d <;> exact absurd h0 (by decide)
  mask := fun hm => absurd rfl hm

/-- `park` records the running coroutine. -/
theorem recordedAt_park {op : AsyncOp} (h : RecordedAt pcs fd ev)
    (hc : ∀ p, pcs c = some p → p.waitsOn ≠ some fd) :
    RecordedAt (Function.update pcs c (some (.parked fd op))) fd (ev.park op.kind.dir c) where
  slot := fun d hd => by
    by_cases hd' : d = op.kind.dir
    · exact ⟨c, op, by simp [hd'], by simp, hd'.symm⟩
    · have hw : ev.waits d := (AsyncFileEvent.park_waits.mp hd).resolve_left hd'
      obtain ⟨c', op', hslot, hpc, hdir⟩ := (RecordedAt.update h hc _).slot d hw
      exact ⟨c', op', by simp [hd', hslot], hpc, hdir⟩
  mask := fun hm => by
    simp only [AsyncFileEvent.park_waitedMask, AsyncFileEvent.park_coWait] at hm ⊢
    exact (RecordedAt.update h hc _).mask hm

/-- `resume` clears the bit of the direction in which `c` waited, so `c` is in
no slot that counts. -/
theorem recordedAt_resume {op : AsyncOp} {b : Bool} (h : RecordedAt pcs fd ev)
    (hc : pcs c = some (.parked fd op)) (p' : Option Pc) :
    RecordedAt (Function.update pcs c p') fd (ev.resume op.kind.dir b) where
  slot := fun d hd => by
    obtain ⟨hne, hw⟩ := (AsyncFileEvent.resume_waits b).mp hd
    obtain ⟨c', op', hslot, hpc, hdir⟩ := h.slot d hw
    have hc' : c' ≠ c := by
      rintro rfl
      cases hc.symm.trans hpc
      exact hne hdir.symm
    refine ⟨c', op', ?_, by rw [Function.update_of_ne hc', hpc], hdir⟩
    rw [AsyncFileEvent.resume_slot_of_ne b hne, hslot]
  mask := fun hm => by
    simp only [AsyncFileEvent.resume_waitedMask, AsyncFileEvent.resume_coWait] at hm ⊢
    obtain ⟨c', hslot, hpc⟩ := h.mask hm
    have hc' : c' ≠ c := by
      rintro rfl
      cases hc.symm.trans hpc
    exact ⟨c', hslot, by rw [Function.update_of_ne hc', hpc]⟩

theorem recordedAt_wait {mask : BitVec 32} (h : RecordedAt pcs fd ev)
    (hc : ∀ p, pcs c = some p → p.waitsOn ≠ some fd) :
    RecordedAt (Function.update pcs c (some (.waiting fd))) fd
      { ev with waitedMask := mask, coWait := some c } where
  slot := fun d hd => (RecordedAt.update h hc _).slot d hd
  mask := fun _ => ⟨c, rfl, by simp⟩

theorem recordedAt_waited (h : RecordedAt pcs fd ev) (hc : pcs c = some (.waiting fd))
    (p' : Option Pc) :
    RecordedAt (Function.update pcs c p') fd { ev with waitedMask := 0, coWait := none } where
  slot := fun d hd => by
    obtain ⟨c', op, hslot, hpc, hdir⟩ := h.slot d hd
    have hne : c' ≠ c := by
      rintro rfl
      cases hc.symm.trans hpc
    exact ⟨c', op, hslot, by rw [Function.update_of_ne hne, hpc], hdir⟩
  mask := fun hm => absurd rfl hm

/-- What `trigger` posts: coroutines that wait on the descriptor, each once. -/
theorem trigger_posts (h : RecordedAt pcs fd ev) (events : BitVec 32) :
    (ev.trigger (polledEvent events)).2.Nodup ∧
      ∀ x ∈ (ev.trigger (polledEvent events)).2,
        ∃ c p, x = some c ∧ pcs c = some p ∧ p.waitsOn = some fd := by
  rw [AsyncFileEvent.trigger_polled]
  have hone : ∀ (q : Prop) [Decidable q] (x : CoPtr) (r : Pc → Prop),
      (q → ∃ c p, x = some c ∧ pcs c = some p ∧ r p) →
      (if q then [x] else []).Nodup ∧
        ∀ y ∈ (if q then [x] else []), ∃ c p, y = some c ∧ pcs c = some p ∧ r p := by
    intro q _ x r hx
    by_cases hq : q
    · simpa [hq] using hx hq
    · simp [hq]
  have hdir : ∀ d, ev.waits d → ∃ c p, ev.slot d = some c ∧ pcs c = some p ∧
      ∃ op, p = .parked fd op ∧ op.kind.dir = d := fun d hd => by
    obtain ⟨c, op, hslot, hpc, hd⟩ := h.slot d hd
    exact ⟨c, _, hslot, hpc, op, rfl, hd⟩
  have hmask : ev.waitedMask &&& (ev.event ||| polledEvent events) ≠ 0 →
      ∃ c p, ev.coWait = some c ∧ pcs c = some p ∧ p = .waiting fd := fun hm => by
    obtain ⟨c, hslot, hpc⟩ := h.mask fun h0 => hm (by simp [h0])
    exact ⟨c, _, hslot, hpc, rfl⟩
  obtain ⟨hw, hw'⟩ := hone _ ev.coWrite _ (hdir .write)
  obtain ⟨hr, hr'⟩ := hone _ ev.coRead _ (hdir .read)
  obtain ⟨hm, hm'⟩ := hone _ ev.coWait _ hmask
  refine ⟨(hw.append hr ?_).append hm ?_, ?_⟩
  · intro x hx hx'
    obtain ⟨c, p, rfl, hp, op, rfl, hd⟩ := hw' x hx
    obtain ⟨c', p', hc, hp', op', rfl, hd'⟩ := hr' _ hx'
    cases hc
    cases hp.symm.trans hp'
    cases hd.symm.trans hd'
  · intro x hx hx'
    obtain ⟨c', p', rfl, hp', rfl⟩ := hm' x hx'
    rcases List.mem_append.mp hx with hx | hx
    · obtain ⟨c, p, hc, hp, op, rfl, -⟩ := hw' _ hx
      cases hc
      cases hp.symm.trans hp'
    · obtain ⟨c, p, hc, hp, op, rfl, -⟩ := hr' _ hx
      cases hc
      cases hp.symm.trans hp'
  · intro x hx
    rcases List.mem_append.mp hx with hx | hx
    · rcases List.mem_append.mp hx with hx | hx
      · obtain ⟨c, p, hc, hp, op, rfl, -⟩ := hw' _ hx
        exact ⟨c, _, hc, hp, rfl⟩
      · obtain ⟨c, p, hc, hp, op, rfl, -⟩ := hr' _ hx
        exact ⟨c, _, hc, hp, rfl⟩
    · obtain ⟨c, p, hc, hp, rfl⟩ := hm' _ hx
      exact ⟨c, _, hc, hp, rfl⟩

theorem foldl_coPost (posts : List CoPtr) (sched : Sched) :
    posts.foldl Sched.coPost sched = { sched with queue := sched.queue ++ posts } := by
  induction posts generalizing sched with
  | nil => simp
  | cons x xs ih => simp [ih, Sched.coPost, Sched.enqueue]

/-! ### The steps -/

theorem undispatched_of_ne_main (hinv : s.Inv) (hcur : s.sched.current ≠ mainId)
    (hphase : s'.phase = s.phase) : s'.phase.undispatched = [] := by
  rw [hphase, hinv.drain hcur]
  rfl

theorem undispatched_of_inUserCode (hinv : s.Inv) (huser : s.inUserCode)
    (hphase : s'.phase = s.phase) : s'.phase.undispatched = [] := by
  by_cases hcur : s.sched.current = mainId
  · rw [hphase, huser.2 hcur]
    rfl
  · exact undispatched_of_ne_main hinv hcur hphase

/-- Outside a batch the last two clauses of the invariant say nothing. -/
theorem inv_of_drain (hmain : s.pcs mainId = some .user) (hplaced : s.Placed)
    (hrec : ∀ fd ev, s.handleMap fd = some ev → RecordedAt s.pcs fd ev)
    (hdrain : s.sched.current ≠ mainId → s.phase = .drain)
    (hnil : s.phase.undispatched = []) : s.Inv where
  mainUser := hmain
  placed := hplaced
  recorded := hrec
  drain := hdrain
  distinct := by simp [hnil]
  batch := by simp [hnil]

/-- Only the event of `fd` and the place of `c` change, and `c` waits nowhere
else. -/
theorem recorded_update {p' : Option Pc} (hinv : s.Inv)
    (hother : ∀ fd', fd' ≠ fd → ∀ p, s.pcs c = some p → p.waitsOn ≠ some fd')
    (hev : RecordedAt (Function.update s.pcs c p') fd ev) :
    ∀ fd' ev', ((s.setEvent fd ev).setPc c p').handleMap fd' = some ev' →
      RecordedAt ((s.setEvent fd ev).setPc c p').pcs fd' ev' := by
  intro fd' ev' hmap
  rcases update_eq_some.mp hmap with ⟨rfl, heq⟩ | ⟨hfd, hmap⟩
  · cases heq
    exact hev
  · exact RecordedAt.update (hinv.recorded fd' ev' hmap) (hother fd' hfd) p'

/-- Only the event of `fd` changes. -/
theorem recorded_setEvent (hinv : s.Inv) (hev : RecordedAt s.pcs fd ev) :
    ∀ fd' ev', (s.setEvent fd ev).handleMap fd' = some ev' → RecordedAt s.pcs fd' ev' := by
  intro fd' ev' hmap
  rcases update_eq_some.mp hmap with ⟨rfl, heq⟩ | ⟨-, hmap⟩
  · cases heq
    exact hev
  · exact hinv.recorded fd' ev' hmap

/-- Only the place of `c` changes, and `c` does not wait. -/
theorem recorded_setPc (hinv : s.Inv) (hc : ∀ p, s.pcs c = some p → p.waitsOn = none)
    (p' : Option Pc) :
    ∀ fd ev, (s.setPc c p').handleMap fd = some ev → RecordedAt (s.setPc c p').pcs fd ev := by
  intro fd ev hmap
  refine RecordedAt.update (hinv.recorded fd ev hmap) (fun p hp => ?_) p'
  rw [hc p hp]
  simp

theorem waitsOn_curPc (hpc : s.curPc = some p) (hp : p.waitsOn = none) :
    ∀ q, s.pcs s.sched.current = some q → q.waitsOn = none := by
  intro q hq
  cases hpc.symm.trans hq
  exact hp

theorem waitsOn_curPc_ne (hpc : s.curPc = some p) (hp : p.waitsOn = some fd) :
    ∀ fd', fd' ≠ fd → ∀ q, s.pcs s.sched.current = some q → q.waitsOn ≠ some fd' := by
  intro fd' hne q hq
  cases hpc.symm.trans hq
  rw [hp]
  exact fun heq => hne (Option.some.inj heq).symm

theorem curPc_main (hinv : s.Inv) (hcur : s.sched.current = mainId) :
    s.curPc = some .user := by
  rw [curPc, hcur]
  exact hinv.mainUser

theorem ne_main_of_curPc (hinv : s.Inv) (hpc : s.curPc = some p) (hp : p ≠ .user) :
    s.sched.current ≠ mainId := by
  intro hcur
  exact hp (Option.some.inj (hpc.symm.trans (curPc_main hinv hcur)))

theorem setPc_main (hinv : s.Inv) (hc : c ≠ mainId) (p' : Option Pc) :
    (s.setPc c p').pcs mainId = some .user := by
  rw [setPc_pcs, Function.update_of_ne hc.symm]
  exact hinv.mainUser

/-- The running coroutine moves on in its own code or in an operation. -/
theorem placed_setPc (hinv : s.Inv) (hp : p ≠ .new) (s' : EventLoop)
    (hpcs : s'.pcs = Function.update s.pcs s.sched.current (some p))
    (hline : s'.line = s.line) : s'.Placed := by
  refine Placed.of_perm hinv.placed (hline ▸ List.Perm.refl _) fun c q hq hnew _ => ?_
  rw [hpcs]
  by_cases hc : c = s.sched.current
  · exact ⟨p, by simp [hc], hp⟩
  · exact ⟨q, by rw [Function.update_of_ne hc, hq], hnew⟩

/-- A coroutine that is not in the line changes its place. -/
theorem placed_setPc_of_notMem (hinv : s.Inv) (hc : some c ∉ s.line) (p' : Option Pc) :
    (s.setPc c p').Placed := by
  refine Placed.of_perm hinv.placed (List.Perm.refl _) fun d q hq hnew hd => ?_
  have hne : d ≠ c := fun heq => hc (heq ▸ hd)
  exact ⟨q, by rw [setPc_pcs, Function.update_of_ne hne, hq], hnew⟩

theorem notMem_line (hinv : s.Inv) (hc : ∀ p, s.pcs c = some p → p = .new) :
    some c ∉ s.line := by
  intro hmem
  obtain ⟨p, hp, hnew⟩ := hinv.placed.posted c hmem
  exact hnew (hc p hp)

/-- The running coroutine gives up the processor. -/
theorem placed_yield {sched : Sched} (hinv : s.Inv) (hcur : s.sched.current ≠ mainId)
    (hq : s.sched.queue = some sched.current :: sched.queue) (s' : EventLoop)
    (hsched : s'.sched = sched)
    (hpcs : ∀ c, c ≠ s.sched.current → s'.pcs c = s.pcs c) : s'.Placed :=
  Placed.of_yield hinv.placed hcur (by rw [hq, line, hsched]) hpcs

theorem step_inv (hinv : s.Inv) (h : Step s a s') : s'.Inv := by
  cases h with
  | coCreate huser hc =>
    rename_i c
    have hmain : c ≠ mainId := fun heq => by simp [heq, hinv.mainUser] at hc
    have hnot : some c ∉ s.line := notMem_line hinv fun p hp => by simp [hc] at hp
    exact inv_of_drain (setPc_main hinv hmain _) (placed_setPc_of_notMem hinv hnot _)
      (recorded_setPc hinv (fun p hp => by simp [hc] at hp) _) hinv.drain
      (undispatched_of_inUserCode hinv huser rfl)
  | coPost huser hc =>
    rename_i c
    have hmain : c ≠ mainId := fun heq => by simp [heq, hinv.mainUser] at hc
    have hnot : some c ∉ s.line := notMem_line hinv fun p hp => by
      rw [hc] at hp
      exact (Option.some.inj hp).symm
    refine inv_of_drain (setPc_main hinv hmain _) ?_
      (recorded_setPc hinv (fun p hp => by cases hc.symm.trans hp; rfl) _) hinv.drain
      (undispatched_of_inUserCode hinv huser rfl)
    refine Placed.of_append hinv.placed [some c] rfl (by simp) (by simpa using hnot)
      (fun x hx => ?_) (fun d hd => ?_)
    · exact ⟨c, .user, by simpa using hx, by simp [setPc], by simp⟩
    · have hne : d ≠ c := fun heq => hnot (heq ▸ hd)
      exact Function.update_of_ne hne _ _
  | construct huser hfd =>
    exact inv_of_drain hinv.mainUser (Placed.of_perm hinv.placed (List.Perm.refl _)
      fun c q hq hnew _ => ⟨q, hq, hnew⟩) (recorded_setEvent hinv (recordedAt_new _ _)) hinv.drain
      (undispatched_of_inUserCode hinv huser rfl)
  | enter hcur hpc hfd =>
    exact inv_of_drain (setPc_main hinv hcur _) (placed_setPc hinv (by simp) _ rfl rfl)
      (recorded_setPc hinv (waitsOn_curPc hpc rfl) _) hinv.drain
      (undispatched_of_ne_main hinv hcur rfl)
  | asyncWaitDone => exact hinv
  | asyncWait hcur hpc hev hq =>
    have hnot := waitsOn_curPc hpc rfl
    exact inv_of_drain (setPc_main hinv hcur _)
      (placed_yield hinv hcur hq _ rfl fun c hc => Function.update_of_ne hc _ _)
      (recorded_update hinv (fun _ _ p hp => by simp [hnot p hp])
        (recordedAt_wait (hinv.recorded _ _ hev) fun p hp => by simp [hnot p hp]))
      (fun _ => hinv.drain hcur) (undispatched_of_ne_main hinv hcur rfl)
  | syscall hpc hagain =>
    rename_i fd op r left
    have hcur := ne_main_of_curPc hinv hpc (by simp)
    have hnew : op.pcAfter fd r ≠ .new := by
      rw [AsyncOp.pcAfter]
      split <;> simp
    exact inv_of_drain (setPc_main hinv hcur _) (placed_setPc hinv hnew _ rfl rfl)
      (recorded_setPc hinv (waitsOn_curPc hpc rfl) _) hinv.drain
      (undispatched_of_ne_main hinv hcur rfl)
  | park hpc hev hq =>
    have hcur := ne_main_of_curPc hinv hpc (by simp)
    have hnot := waitsOn_curPc hpc rfl
    exact inv_of_drain (setPc_main hinv hcur _)
      (placed_yield hinv hcur hq _ rfl fun c hc => Function.update_of_ne hc _ _)
      (recorded_update hinv (fun _ _ p hp => by simp [hnot p hp])
        (recordedAt_park (hinv.recorded _ _ hev) fun p hp => by simp [hnot p hp]))
      (fun _ => hinv.drain hcur) (undispatched_of_ne_main hinv hcur rfl)
  | resumeOp hpc hev =>
    have hcur := ne_main_of_curPc hinv hpc (by simp)
    have hother := waitsOn_curPc_ne hpc rfl
    exact inv_of_drain (setPc_main hinv hcur _) (placed_setPc hinv (by simp) _ rfl rfl)
      (recorded_update hinv hother (recordedAt_resume (hinv.recorded _ _ hev) hpc _))
      hinv.drain (undispatched_of_ne_main hinv hcur rfl)
  | resumeWait hpc hev =>
    have hcur := ne_main_of_curPc hinv hpc (by simp)
    have hother := waitsOn_curPc_ne hpc rfl
    exact inv_of_drain (setPc_main hinv hcur _) (placed_setPc hinv (by simp) _ rfl rfl)
      (recorded_update hinv hother (recordedAt_waited (hinv.recorded _ _ hev) hpc _))
      hinv.drain (undispatched_of_ne_main hinv hcur rfl)
  | resched hcur hpc hq =>
    exact inv_of_drain hinv.mainUser (Placed.of_perm hinv.placed (line_resched hq)
      fun c q hq hnew _ => ⟨q, hq, hnew⟩) hinv.recorded (fun _ => hinv.drain hcur)
      (undispatched_of_ne_main hinv hcur rfl)
  | coExit hcur hpc hq =>
    exact inv_of_drain (setPc_main hinv hcur _)
      (placed_yield hinv hcur hq _ rfl fun c hc => Function.update_of_ne hc _ _)
      (recorded_setPc hinv (waitsOn_curPc hpc rfl) _) (fun _ => hinv.drain hcur)
      (undispatched_of_ne_main hinv hcur rfl)
  | pollForever hcur hphase =>
    exact inv_of_drain hinv.mainUser (Placed.of_perm hinv.placed (List.Perm.refl _)
      fun c q hq hnew _ => ⟨q, hq, hnew⟩) hinv.recorded (fun _ => rfl) rfl
  | pollResched hcur hphase hq =>
    refine inv_of_drain hinv.mainUser (Placed.of_perm hinv.placed (line_resched hq)
      fun c q hq hnew _ => ⟨q, hq, hnew⟩) hinv.recorded (fun _ => hphase) ?_
    simp [hphase, Phase.undispatched]
  | epollWait hcur hphase hqueue hdistinct =>
    exact
      { mainUser := hinv.mainUser
        placed := Placed.of_perm hinv.placed (List.Perm.refl _)
          fun c q hq hnew _ => ⟨q, hq, hnew⟩
        recorded := hinv.recorded
        drain := fun hne => absurd hcur hne
        distinct := hdistinct
        batch := fun fd _ c p hc => by simp [hqueue] at hc }
  | batchEnd hcur hphase =>
    exact inv_of_drain hinv.mainUser (Placed.of_perm hinv.placed (List.Perm.refl _)
      fun c q hq hnew _ => ⟨q, hq, hnew⟩) hinv.recorded (fun _ => rfl) rfl
  | skip hcur hphase hfd =>
    have hdistinct := hinv.distinct
    have hbatch := hinv.batch
    rw [hphase] at hdistinct hbatch
    exact
      { mainUser := hinv.mainUser
        placed := Placed.of_perm hinv.placed (List.Perm.refl _)
          fun c q hq hnew _ => ⟨q, hq, hnew⟩
        recorded := hinv.recorded
        drain := fun hne => absurd hcur hne
        distinct := (List.nodup_cons.mp hdistinct).2
        batch := fun fd hmem => hbatch fd (List.mem_cons_of_mem _ hmem) }
  | dispatch hcur hphase hev =>
    rename_i fd events rest ev
    have hdistinct := hinv.distinct
    have hbatch := hinv.batch
    rw [hphase] at hdistinct hbatch
    obtain ⟨hfresh, hdistinct⟩ := List.nodup_cons.mp hdistinct
    have hrec := hinv.recorded fd ev hev
    obtain ⟨hnodup, hposts⟩ := trigger_posts hrec events
    -- nobody who waits on `fd` is current or queued yet
    have hnew : ∀ x ∈ (ev.trigger (polledEvent events)).2, x ∉ s.line := by
      intro x hx hmem
      obtain ⟨c, p, rfl, hp, hwait⟩ := hposts x hx
      rcases mem_line.mp hmem with rfl | hmem
      · rw [hcur, hinv.mainUser] at hp
        cases hp
        cases hwait
      · exact hbatch fd List.mem_cons_self c p hmem hp hwait
    rw [foldl_coPost]
    exact
      { mainUser := hinv.mainUser
        placed := Placed.of_append hinv.placed _ rfl hnodup hnew
          (fun x hx => by
            obtain ⟨c, p, rfl, hp, hwait⟩ := hposts x hx
            exact ⟨c, p, rfl, hp, fun hp => by simp [hp, Pc.waitsOn] at hwait⟩)
          (fun _ _ => rfl)
        recorded := recorded_setEvent hinv
          ⟨fun d hd => by simpa using hrec.slot d hd, hrec.mask⟩
        drain := fun hne => absurd hcur hne
        distinct := hdistinct
        batch := fun fd' hmem c p hc hp => by
          rcases List.mem_append.mp hc with hc | hc
          · exact hbatch fd' (List.mem_cons_of_mem _ hmem) c p hc hp
          · -- who was just posted waits on `fd`, which is not in the rest
            obtain ⟨c', p', heq, hp', hwait⟩ := hposts _ hc
            cases heq
            cases hp.symm.trans hp'
            rintro hwait'
            rw [hwait] at hwait'
            cases hwait'
            exact hfresh hmem }
  | arriveMore hready => exact hinv
  | arrive hready =>
    exact ⟨hinv.mainUser, ⟨hinv.placed.nodup, hinv.placed.noNull, hinv.placed.main,
      hinv.placed.posted⟩, hinv.recorded, hinv.drain, hinv.distinct, hinv.batch⟩
  | notify hfd =>
    exact ⟨hinv.mainUser, ⟨hinv.placed.nodup, hinv.placed.noNull, hinv.placed.main,
      hinv.placed.posted⟩, hinv.recorded, hinv.drain, hinv.distinct, hinv.batch⟩

theorem init_inv (ready : Fd → Dir → Bool) : (init ready).Inv where
  mainUser := by simp [init]
  placed :=
    { nodup := List.nodup_singleton _
      noNull := by simp [line, init]
      main := List.mem_cons_self
      posted := fun c hc => by
        have hc' : c = mainId := by simpa [line, init] using hc
        exact ⟨.user, by simp [init, hc'], by simp⟩ }
  recorded := fun fd ev hmap => by simp [init] at hmap
  drain := fun hne => absurd rfl hne
  distinct := List.nodup_nil
  batch := fun fd hmem => by simp [init, Phase.undispatched] at hmem

/-- Every state that the loop reaches satisfies the invariant. -/
theorem reachable_inv {ready : Fd → Dir → Bool} {ops : List LoopOp} {s : EventLoop}
    (hrun : exec step (init ready) ops = some s) : s.Inv :=
  exec_invariant (fun _ _ _ hinv h => step_inv hinv (step_cases h)) (init_inv ready) hrun

end SchedulingLemmas

/-- What the ready queue owes to the loop and to the coroutines. -/
structure WellScheduled (s : EventLoop) : Prop where
  /-- While another coroutine runs, `main` is queued, once. -/
  mainOnce : s.sched.current ≠ mainId → s.sched.queue.count (some mainId) = 1
  /-- `co_yield` and `co_exit` find somebody to switch to. -/
  yields : s.sched.current ≠ mainId → s.sched.dequeue.isSome
  /-- So does `co_resched`, which queues the caller first. -/
  rescheds : (s.sched.enqueue (some s.sched.current)).dequeue.isSome
  once : s.sched.queue.Nodup
  noNull : none ∉ s.sched.queue
  /-- `trigger` hands no `NULL` to `co_post`. -/
  triggers : ∀ fd ev events, s.handleMap fd = some ev →
    none ∉ (ev.trigger (polledEvent events)).2
  /-- `epoll_wait` is entered when nobody is ready. -/
  waits : ∀ batch, (s.step (.epollWait batch)).isSome → s.sched.queue = []

open SchedulingLemmas

/-- The event loop never starves `main` and never schedules anyone twice. -/
theorem poll_forever_well_scheduled (ready : Fd → Dir → Bool) (ops : List LoopOp)
    (s : EventLoop) (hrun : exec step (init ready) ops = some s) : s.WellScheduled := by
  have hinv := reachable_inv hrun
  have hmain : s.sched.current ≠ mainId → some mainId ∈ s.sched.queue := fun hcur =>
    (mem_line.mp hinv.placed.main).resolve_left (Ne.symm hcur)
  have honce : s.sched.queue.Nodup := (List.nodup_cons.mp hinv.placed.nodup).2
  refine
    { mainOnce := fun hcur => List.count_eq_one_of_mem honce (hmain hcur)
      yields := fun hcur => ?_
      rescheds := ?_
      once := honce
      noNull := fun hn => hinv.placed.noNull (List.mem_cons_of_mem _ hn)
      triggers := fun fd ev events hev hn => ?_
      waits := fun batch hb => ?_ }
  · cases hq : s.sched.queue with
    | nil => simp [hq] at hmain; exact absurd hmain hcur
    | cons x xs => simp [Sched.dequeue, hq]
  · cases hq : s.sched.queue with
    | nil => simp [Sched.dequeue, Sched.enqueue, hq]
    | cons x xs => simp [Sched.dequeue, Sched.enqueue, hq]
  · obtain ⟨c, p, hc, -⟩ := (trigger_posts (hinv.recorded fd ev hev) events).2 none hn
    cases hc
  · obtain ⟨s', hs'⟩ := Option.isSome_iff_exists.mp hb
    cases step_cases hs' with
    | epollWait _ _ hqueue _ => exact hqueue

/-! ## A run

Coroutine 1 reads from descriptor 5 and coroutine 2 writes to it. Both wait, the reader
although data came before it could `co_yield`, and both are resumed by one report. -/

namespace Demo

def ops : List LoopOp :=
  [.coCreate 1, .coPost 1, .coCreate 2, .coPost 2, .construct 5, .pollForever, .pollResched,
    .enter 5 .asyncReadSome 16, .syscall .again false, .arrive 5 .read, .park,
    .enter 5 .asyncWrite 64, .syscall .again false, .park,
    .arrive 5 .write, .epollWait [(5, epollIn ||| epollOut)], .dispatch, .dispatch,
    .pollResched, .resume, .syscall (.ok 64) true, .coExit, .resume]

end Demo

theorem poll_forever_well_scheduled_demo :
    ∃ s, exec step (init fun _ _ => false) Demo.ops = some s ∧ s.sched.current = 1 ∧
      s.WellScheduled := by
  have hrun : (exec step (init fun _ _ => false) Demo.ops).map (·.sched.current) = some 1 := by
    decide
  obtain ⟨s, hs, hcur⟩ := Option.map_eq_some_iff.mp hrun
  exact ⟨s, hs, hcur, poll_forever_well_scheduled _ _ s hs⟩

end EventLoop

end NetTraverse
