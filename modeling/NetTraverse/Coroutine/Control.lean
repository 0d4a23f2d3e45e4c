import NetTraverse.Lib.Fifo
import NetTraverse.Lib.Transition
import NetTraverse.Coroutine.Scheduler

/-!
# Who runs when

The control behaviour of the coroutine library, without stacks and registers:
which coroutines exist, which of them wait to be posted, and who becomes
current. `Order` shows that the machine behaves like this.

`Settled` says that every live coroutine is in exactly one place. The order law
(`exec_later`) is that of the waiting line: the queue loses coroutines only at
the front and gains them only at the back.
-/

namespace NetTraverse

open Transition

structure Control where
  sched : Sched
  /-- created and not exited -/
  live : CoId → Bool
  /-- new or parked: created or suspended by `co_yield`, not posted since -/
  idle : CoId → Bool
  /-- made current by `co_sched` so far, oldest first -/
  madeCurrent : List CoId

namespace Control

inductive Op where
  | create (co : CoId)
  | post (co : CoId)
  | resched
  | yield
  | exit
deriving DecidableEq, Repr

variable (s : Control)

/-- `co_sched` on the control state. -/
def coSched : Option Control := do
  let sched ← s.sched.coSched
  some { s with sched := sched, madeCurrent := s.madeCurrent ++ [sched.current] }

def step : Op → Option Control
  | .create c =>
    if s.live c then none
    else some { s with
      live := Function.update s.live c true
      idle := Function.update s.idle c true }
  | .post c =>
    if s.idle c then some { s with
      sched := s.sched.coPost (some c)
      idle := Function.update s.idle c false }
    else none
  | .resched => { s with sched := s.sched.enqueue (some s.sched.current) }.coSched
  | .yield => { s with idle := Function.update s.idle s.sched.current true }.coSched
  | .exit => { s with
      live := Function.update s.live s.sched.current false
      idle := Function.update s.idle s.sched.current false }.coSched

/-- In how many places `c` is: current, in the queue (counted as often as it
occurs there), new or parked. -/
def places (c : CoId) : Nat :=
  (if s.sched.current = c then 1 else 0) + s.sched.queue.count (some c) +
    (if s.idle c then 1 else 0)

/-- Live coroutines are in one place, others in none. -/
def Settled : Prop :=
  ∀ c, s.places c = if s.live c then 1 else 0

variable {s} {s' : Control}

theorem coSched_eq_some :
    s.coSched = some s' ↔
      s.sched.queue = some s'.sched.current :: s'.sched.queue ∧
        s'.live = s.live ∧ s'.idle = s.idle ∧
        s'.madeCurrent = s.madeCurrent ++ [s'.sched.current] := by
  simp only [coSched, Option.bind_eq_bind, Option.bind_eq_some_iff, Sched.coSched_eq_some,
    Option.some.injEq]
  constructor
  · rintro ⟨sched, hq, rfl⟩
    exact ⟨hq, rfl, rfl, rfl⟩
  · rintro ⟨hq, hl, hi, hm⟩
    refine ⟨s'.sched, hq, ?_⟩
    cases s'
    simp only at hl hi hm
    simp only [Control.mk.injEq, true_and]
    exact ⟨hl.symm, hi.symm, hm.symm⟩

/-- Between leaving one coroutine and entering the next, nobody is current and
the front of the queue is about to be: everyone is in one place, if the queue
counts. -/
theorem settled_of_coSched (h : s.coSched = some s')
    (hcount : ∀ c, s.sched.queue.count (some c) + (if s.idle c then 1 else 0) =
      if s.live c then 1 else 0) : s'.Settled := by
  obtain ⟨hq, hl, hi, -⟩ := coSched_eq_some.mp h
  intro c
  rw [hl, ← hcount c, hq, List.count_cons, places, hi]
  by_cases hc : s'.sched.current = c
  · simp [hc]
    omega
  · simp [hc]

/-- One step keeps every live coroutine in exactly one place. -/
theorem step_settled (h : s.Settled) {op : Op} (hstep : s.step op = some s') : s'.Settled := by
  have hcur := h s.sched.current
  simp only [places, if_true] at hcur
  cases op with
  | create c =>
    simp only [step] at hstep
    split at hstep
    · cases hstep
    · next hlive =>
      cases hstep
      intro d
      have hd := h d
      simp only [places] at hd ⊢
      by_cases hdc : d = c
      · subst hdc
        simp only [hlive, Bool.false_eq_true, if_false] at hd
        simp only [Function.update_self, if_true]
        split at hd <;> split at hd <;> simp_all
      · simpa [Function.update_of_ne hdc] using hd
  | post c =>
    simp only [step] at hstep
    split at hstep
    · next hidle =>
      cases hstep
      intro d
      have hd := h d
      simp only [places, Sched.coPost, Sched.enqueue, List.count_append,
        List.count_singleton] at hd ⊢
      by_cases hdc : d = c
      · subst hdc
        simp only [hidle, if_true] at hd
        simp only [Function.update_self, beq_self_eq_true, if_true, Bool.false_eq_true, if_false]
        rw [Nat.add_zero, ← Nat.add_assoc]
        exact hd
      · have hne : (some c == some d) = false := by simpa using Ne.symm hdc
        simp only [Function.update_of_ne hdc, hne, Bool.false_eq_true, if_false, Nat.add_zero]
        exact hd
    · cases hstep
  | resched =>
    refine settled_of_coSched hstep fun c => ?_
    have hc := h c
    simp only [places] at hc
    simp only [Sched.enqueue, List.count_append, List.count_singleton]
    rw [← hc]
    by_cases hcc : s.sched.current = c
    · -- the caller moves from current to the queue
      simp [hcc]
      omega
    · have hne : (some s.sched.current == some c) = false := by simpa using hcc
      simp [hne, hcc]
  | yield =>
    refine settled_of_coSched hstep fun c => ?_
    have hc := h c
    simp only [places] at hc
    by_cases hcc : s.sched.current = c
    · subst hcc
      simp only [Function.update_self, if_true]
      split at hcur <;> split at hcur <;> simp_all
    · simpa [Function.update_of_ne (Ne.symm hcc), hcc] using hc
  | exit =>
    refine settled_of_coSched hstep fun c => ?_
    have hc := h c
    simp only [places] at hc
    by_cases hcc : s.sched.current = c
    · subst hcc
      simp only [Function.update_self, Bool.false_eq_true, if_false]
      split at hcur <;> split at hcur <;> simp_all
    · simpa [Function.update_of_ne (Ne.symm hcc), hcc] using hc

/-- Who is new or parked is live and not running. -/
theorem Settled.of_idle (h : s.Settled) {c : CoId} (hidle : s.idle c = true) :
    s.live c = true ∧ s.sched.current ≠ c := by
  have hc := h c
  simp only [places, hidle, if_true] at hc
  split at hc <;> split at hc <;> simp_all

/-- A live coroutine that is not running and not in the queue is new or parked. -/
theorem Settled.idle_of (h : s.Settled) {c : CoId} (hlive : s.live c = true)
    (hne : s.sched.current ≠ c) (hqueue : some c ∉ s.sched.queue) : s.idle c = true := by
  have hc := h c
  simp only [places, if_neg hne, List.count_eq_zero.mpr hqueue, hlive, if_true] at hc
  split at hc
  · assumption
  · cases hc

/-- Who waits in the queue is live. -/
theorem Settled.live_of_mem (h : s.Settled) {c : CoId} (hmem : some c ∈ s.sched.queue) :
    s.live c = true := by
  have hcount : 0 < s.sched.queue.count (some c) := List.count_pos_iff.mpr hmem
  by_contra hdead
  have hc := h c
  simp only [places, if_neg hdead] at hc
  omega

/-- Who is running does not wait in the queue. -/
theorem Settled.count_current (h : s.Settled) :
    s.sched.queue.count (some s.sched.current) = 0 := by
  have hc := h s.sched.current
  simp only [places, if_true] at hc
  split at hc <;> split at hc <;> omega

/-- Only the running coroutine can exit. -/
theorem step_live {c : CoId} {op : Op} (hlive : s.live c = true) (hne : s.sched.current ≠ c)
    (hstep : s.step op = some s') : s'.live c = true := by
  cases op with
  | create d =>
    simp only [step] at hstep
    split at hstep
    · cases hstep
    · cases hstep
      by_cases hcd : c = d
      · simp [hcd]
      · simpa [Function.update_of_ne hcd] using hlive
  | post d =>
    simp only [step] at hstep
    split at hstep
    · cases hstep
      exact hlive
    · cases hstep
  | resched =>
    rw [(coSched_eq_some.mp hstep).2.1]
    exact hlive
  | yield =>
    rw [(coSched_eq_some.mp hstep).2.1]
    exact hlive
  | exit =>
    rw [(coSched_eq_some.mp hstep).2.1]
    simpa [Function.update_of_ne (Ne.symm hne)] using hlive

/-! ## Order -/

/-- The queue as a waiting line, with everyone it has let out. -/
def line (s : Control) : Fifo.Line CoPtr :=
  ⟨s.madeCurrent.map some, s.sched.queue⟩

theorem coSched_later {t : Control} (h : t.coSched = some s') (hline : t.line = s.line) :
    s.line.Later s'.line := by
  obtain ⟨hq, -, -, hm⟩ := coSched_eq_some.mp h
  have hserve : t.line.serve = some (some s'.sched.current, s'.line) := by
    simp [line, Fifo.Line.serve, hq, hm]
  exact hline ▸ Fifo.Line.serve_later hserve

/-- `co_resched` joins the line before the next coroutine leaves it. -/
theorem resched_later (h : s.step .resched = some s') :
    (s.line.join (some s.sched.current)).Later s'.line :=
  coSched_later (s := { s with sched := s.sched.enqueue (some s.sched.current) }) h rfl

theorem step_later {op : Op} (hstep : s.step op = some s') : s.line.Later s'.line := by
  cases op with
  | create c =>
    simp only [step] at hstep
    split at hstep
    · cases hstep
    · cases hstep
      exact .refl _
  | post c =>
    simp only [step] at hstep
    split at hstep
    · cases hstep
      exact Fifo.Line.join_later _ _
    · cases hstep
  | resched => exact (Fifo.Line.join_later _ _).trans (resched_later hstep)
  | yield => exact coSched_later hstep rfl
  | exit => exact coSched_later hstep rfl

theorem exec_later {ops : List Op} (h : exec step s ops = some s') : s.line.Later s'.line := by
  have hrun := exec_invariant (I := fun t => s.line.Later t.line)
    (fun _ _ _ hlater hstep => hlater.trans (step_later hstep)) (.refl _) h
  exact hrun

/-- When `c` calls `co_resched` with the queue `q`, the coroutines that become
current from then on are those of `q` in order and then `c`, as far as the run
goes. -/
theorem resched_order {s₁ s₂ : Control} {ops : List Op} (hresched : s.step .resched = some s₁)
    (hrun : exec step s₁ ops = some s₂) :
    ∃ next, s₂.madeCurrent = s.madeCurrent ++ next ∧
      (next.map some <+: s.sched.queue ++ [some s.sched.current] ∨
        s.sched.queue ++ [some s.sched.current] <+: next.map some) := by
  obtain ⟨next, hserved, horder⟩ :=
    Fifo.Line.served_next ((resched_later hresched).trans (exec_later hrun))
  have hmap : s₂.madeCurrent.map some = s.madeCurrent.map some ++ next := hserved
  obtain ⟨l₁, l₂, hsplit, hl₁, hl₂⟩ := List.map_eq_append_iff.mp hmap
  have hl : l₁ = s.madeCurrent :=
    List.map_injective_iff.mpr (fun _ _ h => Option.some.inj h) hl₁
  refine ⟨l₂, by rw [hsplit, hl], ?_⟩
  rw [hl₂]
  exact horder

/-! ## NULL -/

theorem coSched_noNull (h : none ∉ s.sched.queue) (hsched : s.coSched = some s') :
    none ∉ s'.sched.queue := by
  rw [(coSched_eq_some.mp hsched).1] at h
  exact fun hmem => h (List.mem_cons_of_mem _ hmem)

/-- Nobody enqueues `NULL`, as `co_post` gets coroutines only. -/
theorem step_noNull (h : none ∉ s.sched.queue) {op : Op} (hstep : s.step op = some s') :
    none ∉ s'.sched.queue := by
  cases op with
  | create d =>
    simp only [step] at hstep
    split at hstep
    · cases hstep
    · cases hstep
      exact h
  | post d =>
    simp only [step] at hstep
    split at hstep
    · cases hstep
      simpa [Sched.coPost, Sched.enqueue] using h
    · cases hstep
  | resched =>
    refine coSched_noNull ?_ hstep
    simpa [Sched.enqueue] using h
  | yield =>
    refine coSched_noNull ?_ hstep
    exact h
  | exit =>
    refine coSched_noNull ?_ hstep
    exact h

end Control

end NetTraverse
