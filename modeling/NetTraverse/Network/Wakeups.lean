import NetTraverse.Network.Scheduling

/-!
# What wakes a coroutine

`poll_forever` tells `trigger` that a descriptor can be read and written whatever
the kernel reported, so every report wakes everybody who waits on the descriptor.
`wokenByConcern_iff` says when that does no harm. The event sets that the kernel
reported since a coroutine parked are not in the program; a `Monitor` keeps them.
-/

namespace NetTraverse

open Transition

/-- `EPOLLERR` and `EPOLLHUP`. -/
def epollErr : BitVec 32 := 0x8
def epollHup : BitVec 32 := 0x10

/-- The kernel's flag for a direction. -/
def Dir.epollFlag : Dir → BitVec 32
  | .read => epollIn
  | .write => epollOut

/-- An event set says something about a direction. -/
def Dir.concernedBy (d : Dir) (events : BitVec 32) : Prop :=
  events &&& (d.epollFlag ||| epollErr ||| epollHup) ≠ 0

/-- The flag of a direction is in `waited_mask_`. -/
def AsyncFileEvent.masks (ev : AsyncFileEvent) (d : Dir) : Prop :=
  ev.waitedMask &&& d.flag ≠ 0

/-- The directions for which a coroutine waits on an event. -/
def Pc.awaits (ev : AsyncFileEvent) : Pc → Dir → Prop
  | .parked _ op, d => op.kind.dir = d
  | .waiting _, d => ev.masks d
  | _, _ => False

/-- The event sets of a batch for one descriptor. -/
def reportsFor (fd : Fd) (batch : List (Fd × BitVec 32)) : List (BitVec 32) :=
  (batch.filter (·.1 = fd)).map Prod.snd

/-- Those that are still to be dispatched. -/
def Phase.reports : Phase → Fd → List (BitVec 32)
  | .batch rest, fd => reportsFor fd rest
  | _, _ => []

/-- The loop, and for each coroutine the event sets that `epoll_wait` returned for
the descriptor it waits on, since it parked. -/
structure Monitor where
  loop : EventLoop
  heard : CoId → List (BitVec 32)

namespace Monitor

def init (ready : Fd → Dir → Bool) : Monitor := ⟨EventLoop.init ready, fun _ => []⟩

variable (m : Monitor)

/-- What is noted with a label. -/
def hear : LoopOp → CoId → List (BitVec 32)
  | .park, c | .asyncWait _ _, c => if c = m.loop.sched.current then [] else m.heard c
  | .epollWait batch, c =>
    match (m.loop.pcs c).bind Pc.waitsOn with
    | some fd => m.heard c ++ reportsFor fd batch
    | none => m.heard c
  | _, c => m.heard c

def step (a : LoopOp) : Option Monitor :=
  (m.loop.step a).map fun loop => ⟨loop, m.hear a⟩

/-- `trigger` posts a coroutine only if a direction for which it waits is concerned
by something reported since it parked. -/
def WokenByConcern : LoopOp → Prop
  | .dispatch => ∀ fd events rest ev c p,
      m.loop.phase = .batch ((fd, events) :: rest) → m.loop.handleMap fd = some ev →
      some c ∈ (ev.trigger (polledEvent events)).2 → m.loop.pcs c = some p →
      ∃ d, p.awaits ev d ∧ ∃ e ∈ m.heard c, d.concernedBy e
  | _ => True

/-- An event set that is dispatched concerns everybody who waits there: each
direction whose bit is set, and one of those of a mask. -/
def ReportsConcern : LoopOp → Prop
  | .dispatch => ∀ fd events rest ev,
      m.loop.phase = .batch ((fd, events) :: rest) → m.loop.handleMap fd = some ev →
      (∀ d, ev.waits d → d.concernedBy events) ∧
        ((∃ d, ev.masks d) → ∃ d, ev.masks d ∧ d.concernedBy events)
  | _ => True

end Monitor

/-- A coroutine that a report for the event would post. -/
def AsyncFileEvent.Records (ev : AsyncFileEvent) (c : CoId) : Prop :=
  (∃ d, ev.waits d ∧ ev.slot d = some c) ∨
    ((∃ d, ev.masks d) ∧ ev.coWait = some c)

namespace Monitor

/-- What is known in every state: `event_` is clear or has both flags, and a
coroutine that is recorded and not ready has heard what is still to be dispatched,
and nothing else. -/
structure Inv (m : Monitor) : Prop where
  loop : m.loop.Inv
  words : ∀ fd ev, m.loop.handleMap fd = some ev →
    ev.event = 0 ∨ ev.event = Dir.read.flag ||| Dir.write.flag
  heard : ∀ fd ev c, m.loop.handleMap fd = some ev → ev.Records c →
    some c ∈ m.loop.line ∨ m.heard c = m.loop.phase.reports fd

variable {m m' : Monitor} {s : EventLoop} {a : LoopOp}

namespace WakeupsLemmas

open EventLoop SchedulingLemmas AsyncFileEvent

variable {ev : AsyncFileEvent} {c : CoId} {fd : Fd} {p : Pc} {pcs : CoId → Option Pc}

theorem step_eq_some (h : m.step a = some m') :
    Step m.loop a m'.loop ∧ m'.heard = m.hear a := by
  obtain ⟨s, hs, rfl⟩ := Option.map_eq_some_iff.mp h
  exact ⟨step_cases hs, rfl⟩

/-! ### Who is recorded -/

/-- With both flags in `event_`, a mask is met when it has one of them. -/
theorem mask_test (events : BitVec 32)
    (hword : ev.event = 0 ∨ ev.event = Dir.read.flag ||| Dir.write.flag) :
    ev.waitedMask &&& (ev.event ||| polledEvent events) ≠ 0 ↔ ∃ d, ev.masks d := by
  have hboth : ev.event ||| polledEvent events = Dir.read.flag ||| Dir.write.flag := by
    rw [polledEvent_eq]
    rcases hword with h | h <;> rw [h] <;> decide
  have hor : ev.waitedMask &&& (Dir.read.flag ||| Dir.write.flag) ≠ 0 ↔
      ev.masks .read ∨ ev.masks .write := by
    rw [BitVec.and_or_distrib_left]
    exact (not_congr BitVec.or_eq_zero_iff).trans not_and_or
  rw [hboth, hor]
  constructor
  · rintro (h | h)
    · exact ⟨.read, h⟩
    · exact ⟨.write, h⟩
  · rintro ⟨d, h⟩
    cases d with
    | read => exact .inl h
    | write => exact .inr h

theorem mem_trigger_iff (events : BitVec 32)
    (hword : ev.event = 0 ∨ ev.event = Dir.read.flag ||| Dir.write.flag) :
    some c ∈ (ev.trigger (polledEvent events)).2 ↔ ev.Records c := by
  have hone : ∀ (q : Prop) [Decidable q] (x : CoPtr),
      some c ∈ (if q then [x] else []) ↔ q ∧ x = some c := by
    intro q _ x
    split
    · next hq => simp [hq, eq_comm]
    · next hq => simp [hq]
  rw [trigger_polled, List.mem_append, List.mem_append, hone, hone, hone, mask_test events hword]
  refine or_congr ⟨?_, ?_⟩ Iff.rfl
  · rintro (⟨hw, hs⟩ | ⟨hw, hs⟩)
    · exact ⟨.write, hw, hs⟩
    · exact ⟨.read, hw, hs⟩
  · rintro ⟨d, hw, hs⟩
    cases d with
    | read => exact .inr ⟨hw, hs⟩
    | write => exact .inl ⟨hw, hs⟩

theorem waitsOn_of_records (hrec : RecordedAt pcs fd ev) (h : ev.Records c) :
    ∃ p, pcs c = some p ∧ p.waitsOn = some fd := by
  rcases h with ⟨d, hw, hslot⟩ | ⟨⟨d, hm⟩, hslot⟩
  · obtain ⟨c', op, hslot', hpc, -⟩ := hrec.slot d hw
    obtain rfl := Option.some.inj (hslot'.symm.trans hslot)
    exact ⟨_, hpc, rfl⟩
  · obtain ⟨c', hslot', hpc⟩ := hrec.mask fun h0 => hm (by simp [h0])
    obtain rfl := Option.some.inj (hslot'.symm.trans hslot)
    exact ⟨_, hpc, rfl⟩

/-- When each coroutine that would be posted has heard of the report and nothing
else, it is woken by concern exactly when the report concerns it. -/
theorem concern_iff {heard : CoId → List (BitVec 32)} {events : BitVec 32}
    (hword : ev.event = 0 ∨ ev.event = Dir.read.flag ||| Dir.write.flag)
    (hrec : RecordedAt pcs fd ev) (hheard : ∀ c, ev.Records c → heard c = [events]) :
    (∀ c p, some c ∈ (ev.trigger (polledEvent events)).2 → pcs c = some p →
      ∃ d, p.awaits ev d ∧ ∃ e ∈ heard c, d.concernedBy e) ↔
    (∀ d, ev.waits d → d.concernedBy events) ∧
      ((∃ d, ev.masks d) → ∃ d, ev.masks d ∧ d.concernedBy events) := by
  simp only [mem_trigger_iff events hword]
  constructor
  · intro h
    refine ⟨fun d hd => ?_, fun hm => ?_⟩
    · obtain ⟨c, op, hslot, hpc, rfl⟩ := hrec.slot d hd
      have hc : ev.Records c := .inl ⟨_, hd, hslot⟩
      obtain ⟨d', rfl, e, he, hconcern⟩ := h c _ hc hpc
      rw [hheard c hc, List.mem_singleton] at he
      exact he ▸ hconcern
    · obtain ⟨d, hd⟩ := hm
      obtain ⟨c, hslot, hpc⟩ := hrec.mask fun h0 => hd (by simp [h0])
      have hc : ev.Records c := .inr ⟨⟨d, hd⟩, hslot⟩
      obtain ⟨d', hd', e, he, hconcern⟩ := h c _ hc hpc
      rw [hheard c hc, List.mem_singleton] at he
      exact ⟨d', hd', he ▸ hconcern⟩
  · rintro ⟨hdir, hmask⟩ c p hc hp
    simp only [hheard c hc, List.mem_singleton, exists_eq_left]
    rcases hc with ⟨d, hd, hslot⟩ | ⟨hm, hslot⟩
    · obtain ⟨c', op, hslot', hpc, rfl⟩ := hrec.slot d hd
      obtain rfl := Option.some.inj (hslot'.symm.trans hslot)
      cases hpc.symm.trans hp
      exact ⟨_, rfl, hdir _ hd⟩
    · obtain ⟨d, hd⟩ := hm
      obtain ⟨c', hslot', hpc⟩ := hrec.mask fun h0 => hd (by simp [h0])
      obtain rfl := Option.some.inj (hslot'.symm.trans hslot)
      cases hpc.symm.trans hp
      exact hmask ⟨d, hd⟩

/-! ### The steps -/

/-- A step that records nobody, and takes nobody who is recorded out of the
line. -/
theorem heard_keep (hinv : m.Inv) {s' : EventLoop} {heard : CoId → List (BitVec 32)}
    (hmap : ∀ fd ev c, s'.handleMap fd = some ev → ev.Records c →
      ∃ ev', m.loop.handleMap fd = some ev' ∧ ev'.Records c)
    (hline : ∀ c p fd, m.loop.pcs c = some p → p.waitsOn = some fd →
      some c ∈ m.loop.line → some c ∈ s'.line)
    (hheard : heard = m.heard) (hphase : s'.phase.reports = m.loop.phase.reports) :
    ∀ fd ev c, s'.handleMap fd = some ev → ev.Records c →
      some c ∈ s'.line ∨ heard c = s'.phase.reports fd := by
  intro fd ev c hev hc
  obtain ⟨ev', hev', hc'⟩ := hmap fd ev c hev hc
  obtain ⟨p, hp, hwait⟩ := waitsOn_of_records (hinv.loop.recorded fd ev' hev') hc'
  rw [hheard, hphase]
  exact (hinv.heard fd ev' c hev' hc').imp_left (hline c p fd hp hwait)

theorem records_new : ¬ (AsyncFileEvent.new fd).Records c := by
  rintro (⟨d, hd, -⟩ | ⟨⟨d, hd⟩, -⟩)
  · exact hd (by simp [AsyncFileEvent.new])
  · exact hd (by simp [AsyncFileEvent.new])

theorem records_park {d : Dir} {cur : CoId} (h : (ev.park d cur).Records c) :
    c = cur ∨ ev.Records c := by
  rcases h with ⟨d', hd', hslot⟩ | ⟨⟨d', hd'⟩, hslot⟩
  · rw [park_slot] at hslot
    split at hslot
    · exact .inl (Option.some.inj hslot).symm
    · next hne => exact .inr (.inl ⟨d', (park_waits.mp hd').resolve_left hne, hslot⟩)
  · rw [masks, park_waitedMask] at hd'
    rw [park_coWait] at hslot
    exact .inr (.inr ⟨⟨d', hd'⟩, hslot⟩)

theorem records_resume {d : Dir} {b : Bool} (h : (ev.resume d b).Records c) :
    ev.Records c := by
  rcases h with ⟨d', hd', hslot⟩ | ⟨⟨d', hd'⟩, hslot⟩
  · obtain ⟨hne, hd'⟩ := (resume_waits b).mp hd'
    exact .inl ⟨d', hd', resume_slot_of_ne b hne ▸ hslot⟩
  · rw [masks, resume_waitedMask] at hd'
    rw [resume_coWait] at hslot
    exact .inr ⟨⟨d', hd'⟩, hslot⟩

theorem records_wait {mask : BitVec 32} {cur : CoId}
    (h : AsyncFileEvent.Records { ev with waitedMask := mask, coWait := some cur } c) :
    c = cur ∨ ev.Records c := by
  rcases h with hdir | ⟨-, hslot⟩
  · exact .inr (.inl (by obtain ⟨d, hd, hslot⟩ := hdir; exact ⟨d, hd, by cases d <;> exact hslot⟩))
  · exact .inl (Option.some.inj hslot).symm

theorem records_waited
    (h : AsyncFileEvent.Records { ev with waitedMask := 0, coWait := none } c) :
    ev.Records c := by
  rcases h with ⟨d, hd, hslot⟩ | ⟨-, hslot⟩
  · exact .inl ⟨d, hd, by cases d <;> exact hslot⟩
  · cases hslot

/-- Only the event of `fd` changes. -/
theorem records_setEvent_or {ev₀ : AsyncFileEvent} {q : CoId → Prop}
    (hev₀ : s.handleMap fd = some ev₀) (hrec : ∀ c, ev.Records c → q c ∨ ev₀.Records c) :
    ∀ fd' ev' c, (s.setEvent fd ev).handleMap fd' = some ev' → ev'.Records c →
      q c ∨ ∃ ev'', s.handleMap fd' = some ev'' ∧ ev''.Records c := by
  intro fd' ev' c hev' hc
  rcases update_eq_some.mp hev' with ⟨rfl, heq⟩ | ⟨-, hev'⟩
  · cases heq
    exact (hrec c hc).imp_right fun hc => ⟨ev₀, hev₀, hc⟩
  · exact .inr ⟨ev', hev', hc⟩

theorem records_setEvent {ev₀ : AsyncFileEvent} (hev₀ : s.handleMap fd = some ev₀)
    (hrec : ∀ c, ev.Records c → ev₀.Records c) :
    ∀ fd' ev' c, (s.setEvent fd ev).handleMap fd' = some ev' → ev'.Records c →
      ∃ ev'', s.handleMap fd' = some ev'' ∧ ev''.Records c := fun fd' ev' c hev' hc =>
  (records_setEvent_or (q := fun _ => False) hev₀ (fun c hc => .inr (hrec c hc)) fd' ev' c hev'
    hc).resolve_left id

theorem reportsFor_of_ne {fd' : Fd} (h : fd' ≠ fd) (events : BitVec 32)
    (rest : List (Fd × BitVec 32)) :
    reportsFor fd' ((fd, events) :: rest) = reportsFor fd' rest := by
  simp [reportsFor, h.symm]

theorem reportsFor_head (events : BitVec 32) {rest : List (Fd × BitVec 32)}
    (h : fd ∉ rest.map Prod.fst) : reportsFor fd ((fd, events) :: rest) = [events] := by
  have hnil : rest.filter (·.1 = fd) = [] := List.filter_eq_nil_iff.mpr fun x hx => by
    simpa using fun heq : x.1 = fd => h (heq ▸ List.mem_map_of_mem hx)
  simp [reportsFor, hnil]

/-- A coroutine parks, and nobody else is recorded. -/
theorem heard_park (hinv : m.Inv) {s' : EventLoop}
    (hmap : ∀ fd ev c, s'.handleMap fd = some ev → ev.Records c →
      c = m.loop.sched.current ∨ ∃ ev', m.loop.handleMap fd = some ev' ∧ ev'.Records c)
    (hcur : m.loop.sched.current ≠ mainId) (hline : m.loop.sched.queue = s'.line)
    (hphase : s'.phase = m.loop.phase) :
    ∀ fd ev c, s'.handleMap fd = some ev → ev.Records c →
      some c ∈ s'.line ∨ m.hear .park c = s'.phase.reports fd := by
  intro fd ev c hev hc
  have hnil : ∀ fd, m.loop.phase.reports fd = [] := fun fd => by rw [hinv.loop.drain hcur]; rfl
  rw [hphase, hnil fd]
  by_cases hself : c = m.loop.sched.current
  · exact .inr (if_pos hself)
  · obtain ⟨ev', hev', hc'⟩ := (hmap fd ev c hev hc).resolve_left hself
    have hheard : m.hear .park c = m.heard c := if_neg hself
    rw [hheard, ← hnil fd]
    refine (hinv.heard fd ev' c hev' hc').imp_left fun hmem => ?_
    exact hline ▸ (mem_line.mp hmem).resolve_left hself

theorem words_setEvent
    (hwords : ∀ fd ev, s.handleMap fd = some ev →
      ev.event = 0 ∨ ev.event = Dir.read.flag ||| Dir.write.flag)
    (hword : ev.event = 0 ∨ ev.event = Dir.read.flag ||| Dir.write.flag) :
    ∀ fd' ev', (s.setEvent fd ev).handleMap fd' = some ev' →
      ev'.event = 0 ∨ ev'.event = Dir.read.flag ||| Dir.write.flag := by
  intro fd' ev' hev'
  rcases update_eq_some.mp hev' with ⟨rfl, heq⟩ | ⟨-, hev'⟩
  · cases heq
    exact hword
  · exact hwords fd' ev' hev'

theorem words_step (hinv : m.Inv) (h : Step m.loop a s) :
    ∀ fd ev, s.handleMap fd = some ev →
      ev.event = 0 ∨ ev.event = Dir.read.flag ||| Dir.write.flag := by
  cases h with
  | construct huser hfd => exact words_setEvent hinv.words (.inl rfl)
  | @asyncWait fd mask ev sched hcur hpc hev hq =>
    have hword := hinv.words fd ev hev
    exact words_setEvent hinv.words hword
  | @park fd op ev sched hpc hev hq =>
    have hword : (ev.park op.kind.dir m.loop.sched.current).event = ev.event := by
      cases hd : op.kind.dir <;> rfl
    exact words_setEvent hinv.words (hword ▸ hinv.words _ _ hev)
  | @resumeOp fd op ev hpc hev =>
    have hword : (ev.resume op.kind.dir op.kind.clearsSlot).event = ev.event := by
      cases op.kind <;> rfl
    exact words_setEvent hinv.words (hword ▸ hinv.words _ _ hev)
  | @resumeWait fd ev hpc hev =>
    have hword := hinv.words fd ev hev
    exact words_setEvent hinv.words hword
  | @dispatch fd events rest ev hcur hphase hev =>
    refine words_setEvent hinv.words (.inr ?_)
    show ev.event ||| polledEvent events = _
    rw [polledEvent_eq]
    rcases hinv.words fd ev hev with hword | hword <;> rw [hword] <;> decide
  | _ => exact hinv.words

theorem heard_step (hinv : m.Inv) (h : Step m.loop a s) :
    ∀ fd ev c, s.handleMap fd = some ev → ev.Records c →
      some c ∈ s.line ∨ m.hear a c = s.phase.reports fd := by
  cases h with
  | coCreate | enter | syscall | arriveMore | arrive | notify =>
    exact heard_keep hinv (fun _ ev _ hev hc => ⟨ev, hev, hc⟩) (fun _ _ _ _ _ hmem => hmem) rfl rfl
  | coPost huser hc =>
    exact heard_keep hinv (fun _ ev _ hev hc => ⟨ev, hev, hc⟩)
      (fun _ _ _ _ _ hmem => List.mem_append_left _ hmem) rfl rfl
  | @construct fd huser hfd =>
    refine heard_keep hinv (fun fd' ev c hev hc => ?_) (fun _ _ _ _ _ hmem => hmem) rfl rfl
    rcases update_eq_some.mp hev with ⟨rfl, heq⟩ | ⟨-, hev⟩
    · cases heq
      exact absurd hc records_new
    · exact ⟨ev, hev, hc⟩
  | @asyncWaitDone fd' mask =>
    intro fd ev c hev hc
    by_cases hself : c = m.loop.sched.current
    · exact .inl (mem_line.mpr (.inl hself))
    · have hheard : m.hear (.asyncWait fd' mask) c = m.heard c := if_neg hself
      exact hheard ▸ hinv.heard fd ev c hev hc
  | asyncWait hcur hpc hev hq =>
    exact heard_park hinv (records_setEvent_or hev fun c => records_wait) hcur hq rfl
  | park hpc hev hq =>
    exact heard_park hinv (records_setEvent_or hev fun c => records_park)
      (ne_main_of_curPc hinv.loop hpc (by simp)) hq rfl
  | resumeOp hpc hev =>
    exact heard_keep hinv (records_setEvent hev fun c => records_resume)
      (fun _ _ _ _ _ hmem => hmem) rfl rfl
  | resumeWait hpc hev =>
    exact heard_keep hinv (records_setEvent hev fun c => records_waited)
      (fun _ _ _ _ _ hmem => hmem) rfl rfl
  | resched hcur hpc hq =>
    exact heard_keep hinv (fun _ ev _ hev hc => ⟨ev, hev, hc⟩)
      (fun _ _ _ _ _ hmem => (line_resched hq).mem_iff.mpr hmem) rfl rfl
  | coExit hcur hpc hq =>
    refine heard_keep hinv (fun _ ev _ hev hc => ⟨ev, hev, hc⟩) (fun c p fd hp hwait hmem => ?_)
      rfl rfl
    have hne : c ≠ m.loop.sched.current := by
      rintro rfl
      cases hpc.symm.trans hp
      cases hwait
    have hnext := (mem_line.mp hmem).resolve_left hne
    rwa [hq] at hnext
  | pollForever hcur hphase =>
    refine heard_keep hinv (fun _ ev _ hev hc => ⟨ev, hev, hc⟩) (fun _ _ _ _ _ hmem => hmem) rfl ?_
    rw [hphase]
    rfl
  | pollResched hcur hphase hq =>
    exact heard_keep hinv (fun _ ev _ hev hc => ⟨ev, hev, hc⟩)
      (fun _ _ _ _ _ hmem => (line_resched hq).mem_iff.mpr hmem) rfl rfl
  | @epollWait batch hcur hphase hqueue hdistinct =>
    intro fd ev c hev hc
    obtain ⟨p, hp, hwait⟩ := waitsOn_of_records (hinv.loop.recorded fd ev hev) hc
    -- nobody is ready, so all that `c` heard before is dispatched
    have hnot : some c ∉ m.loop.line := by
      rw [mem_line, hqueue, hcur]
      rintro (rfl | hmem)
      · cases hinv.loop.mainUser.symm.trans hp
        cases hwait
      · cases hmem
    have hold : m.heard c = [] := by
      rw [(hinv.heard fd ev c hev hc).resolve_left hnot, hphase]
      rfl
    refine .inr ?_
    simp only [hear, hp, Option.bind_some, hwait, hold, List.nil_append]
    rfl
  | batchEnd hcur hphase =>
    refine heard_keep hinv (fun _ ev _ hev hc => ⟨ev, hev, hc⟩) (fun _ _ _ _ _ hmem => hmem) rfl ?_
    rw [hphase]
    rfl
  | @skip fd events rest hcur hphase hfd =>
    intro fd' ev c hev hc
    have hne : fd' ≠ fd := by
      rintro rfl
      cases hfd.symm.trans hev
    have hrest : m.loop.phase.reports fd' = reportsFor fd' rest := by
      rw [hphase]
      exact reportsFor_of_ne hne events rest
    exact (hinv.heard fd' ev c hev hc).imp_right fun h => h.trans hrest
  | @dispatch fd events rest ev hcur hphase hev =>
    intro fd' ev' c hev' hc
    have hline : ∀ x, x ∈ m.loop.line ∨ x ∈ (ev.trigger (polledEvent events)).2 →
        x ∈ line { m.loop.setEvent fd (ev.trigger (polledEvent events)).1 with
          phase := .batch rest
          sched := (ev.trigger (polledEvent events)).2.foldl Sched.coPost m.loop.sched } := by
      intro x hx
      rw [foldl_coPost]
      exact List.mem_append.mpr hx
    rcases update_eq_some.mp hev' with ⟨rfl, heq⟩ | ⟨hne, hev'⟩
    · -- whoever is recorded for `fd` is posted
      cases heq
      have hrec : ev.Records c :=
        hc.imp_left fun ⟨d, hd, hslot⟩ => ⟨d, hd, trigger_slot (polledEvent events) ▸ hslot⟩
      exact .inl (hline _ (.inr ((mem_trigger_iff events (hinv.words fd' ev hev)).mpr hrec)))
    · have hrest : m.loop.phase.reports fd' = reportsFor fd' rest := by
        rw [hphase]
        exact reportsFor_of_ne hne events rest
      exact (hinv.heard fd' ev' c hev' hc).imp (fun hmem => hline _ (.inl hmem)) fun h =>
        h.trans hrest

theorem step_inv (hinv : m.Inv) (h : m.step a = some m') : m'.Inv := by
  obtain ⟨hstep, hheard⟩ := step_eq_some h
  refine ⟨SchedulingLemmas.step_inv hinv.loop hstep, words_step hinv hstep, ?_⟩
  rw [hheard]
  exact heard_step hinv hstep

theorem init_inv (ready : Fd → Dir → Bool) : (init ready).Inv where
  loop := SchedulingLemmas.init_inv ready
  words := fun _ _ h => by cases h
  heard := fun _ _ _ h => by cases h

/-- At a dispatch, everybody who would be posted has heard just that report. -/
theorem wokenByConcern_iff_reportsConcern (hinv : m.Inv) (a : LoopOp) :
    m.WokenByConcern a ↔ m.ReportsConcern a := by
  cases a with
  | dispatch =>
    unfold WokenByConcern ReportsConcern
    refine forall_congr' fun fd => forall_congr' fun events => forall_congr' fun rest =>
      forall_congr' fun ev => ?_
    have hheard : ∀ (_ : m.loop.phase = .batch ((fd, events) :: rest))
        (_ : m.loop.handleMap fd = some ev) c, ev.Records c → m.heard c = [events] := by
      intro hphase hev c hc
      obtain ⟨p, hp, hwait⟩ := waitsOn_of_records (hinv.loop.recorded fd ev hev) hc
      have hmem : fd ∈ m.loop.phase.undispatched := by simp [hphase, Phase.undispatched]
      have hcur : m.loop.sched.current = mainId := by
        by_contra hne
        simp [hinv.loop.drain hne, Phase.undispatched] at hmem
      have hnot : some c ∉ m.loop.line := by
        rw [mem_line, hcur]
        rintro (rfl | hqueue)
        · cases hinv.loop.mainUser.symm.trans hp
          cases hwait
        · exact hinv.loop.batch fd hmem c p hqueue hp hwait
      have hdistinct := hinv.loop.distinct
      rw [hphase] at hdistinct
      rw [(hinv.heard fd ev c hev hc).resolve_left hnot, hphase]
      exact reportsFor_head events (List.nodup_cons.mp hdistinct).1
    constructor
    · intro h hphase hev
      exact (concern_iff (hinv.words fd ev hev) (hinv.loop.recorded fd ev hev)
        (hheard hphase hev)).mp fun c p => h c p hphase hev
    · intro h c p hphase hev
      exact (concern_iff (hinv.words fd ev hev) (hinv.loop.recorded fd ev hev)
        (hheard hphase hev)).mpr (h hphase hev) c p
  | _ => exact Iff.rfl

end WakeupsLemmas

open WakeupsLemmas

/-- Along a run, coroutines are woken only for what they wait for exactly when
every event set that is dispatched concerns everybody who waits on its
descriptor. -/
theorem wokenByConcern_iff (ready : Fd → Dir → Bool) (ops : List LoopOp)
    (hrun : Runs step (init ready) ops) :
    AllSteps step WokenByConcern (init ready) ops ↔
      AllSteps step ReportsConcern (init ready) ops :=
  allSteps_congr (I := Inv) (fun _ _ _ hinv _ h => step_inv hinv h)
    (fun _ a _ hinv _ => wokenByConcern_iff_reportsConcern hinv a) (init_inv ready) hrun

namespace Demo

/-- What is dispatched says something about both directions. -/
def Concerns (m : Monitor) : LoopOp → Prop
  | .dispatch =>
    match m.loop.phase with
    | .batch ((_, events) :: _) => Dir.read.concernedBy events ∧ Dir.write.concernedBy events
    | _ => True
  | _ => True

instance (m : Monitor) (a : LoopOp) : Decidable (Concerns m a) := by
  unfold Concerns Dir.concernedBy
  split
  · split <;> infer_instance
  · infer_instance

theorem reportsConcern {m : Monitor} {a : LoopOp} (h : Concerns m a) : m.ReportsConcern a := by
  cases a with
  | dispatch =>
    intro fd events rest ev hphase hev
    obtain ⟨hread, hwrite⟩ : Dir.read.concernedBy events ∧ Dir.write.concernedBy events := by
      simpa [Concerns, hphase] using h
    have hall : ∀ d : Dir, d.concernedBy events := fun d => by
      cases d with
      | read => exact hread
      | write => exact hwrite
    exact ⟨fun d _ => hall d, fun ⟨d, hd⟩ => ⟨d, hd, hall d⟩⟩
  | _ => trivial

end Demo

/-- One report for a reader and a writer wakes both. -/
theorem wokenByConcern_iff_demo :
    AllSteps step WokenByConcern (init fun _ _ => false) EventLoop.Demo.ops := by
  have hconcerns : AllSteps step Demo.Concerns (init fun _ _ => false) EventLoop.Demo.ops := by
    decide
  exact (wokenByConcern_iff _ _ (Option.isSome_iff_exists.mp (by decide))).mpr
    (hconcerns.mono fun _ _ => Demo.reportsConcern)

namespace Demo

/-- Coroutine 1 waits for room on descriptor 5 when data comes. -/
def dataForWriter : List LoopOp :=
  [.coCreate 1, .coPost 1, .construct 5, .pollForever, .pollResched,
    .enter 5 .asyncWrite 64, .syscall .again false, .park,
    .arrive 5 .read, .epollWait [(5, epollIn)]]

end Demo

/-- `EPOLLIN` wakes the writer. -/
theorem wokenByConcern_dataForWriter :
    ¬ ∀ ready ops, Runs step (init ready) ops →
      AllSteps step WokenByConcern (init ready) ops := by
  intro hall
  have hrun : (exec step (init fun _ _ => false) Demo.dataForWriter).map
      (fun m => (m.loop.phase, (m.loop.handleMap 5).map fun ev =>
        (ev.trigger (polledEvent epollIn)).2, m.loop.pcs 1, m.heard 1)) =
      some (.batch [(5, epollIn)], some [some 1], some (.parked 5 ⟨.asyncWrite, 64, 0⟩),
        [epollIn]) := by
    decide
  obtain ⟨m, hm, hview⟩ := Option.map_eq_some_iff.mp hrun
  simp only [Prod.mk.injEq, Option.map_eq_some_iff] at hview
  obtain ⟨hphase, ⟨ev, hev, htrigger⟩, hpc, hheard⟩ := hview
  have hsteps := (hall _ (Demo.dataForWriter ++ [.dispatch])
    (Option.isSome_iff_exists.mp (by decide))).last hm
  obtain ⟨d, rfl, e, he, hconcern⟩ :=
    hsteps 5 epollIn [] ev 1 _ hphase hev (by simp [htrigger]) hpc
  rw [hheard, List.mem_singleton] at he
  subst he
  exact hconcern (by decide)

end Monitor

end NetTraverse
