import NetTraverse.Network.Registry

/-!
# The handler map and the interest list

`add_event` enters a descriptor into both, `del_event` and `clear_event` only take
it out of the map, and `close`, which the pool does not see, only takes it out of
the list. `keepsLaw_iff` says which sequences of these keep the two together.
-/

namespace NetTraverse

open Transition

namespace Registry

variable (r : Registry)

def delEvent (fd : Fd) : Registry :=
  { r with handleMap := Function.update r.handleMap fd none }

def clearEvent : Registry := { r with handleMap := fun _ => none }

/-- The open descriptors in the map are those in the list. -/
def Agrees : Prop := ∀ fd, r.opened fd → ((r.handleMap fd).isSome ↔ r.interest fd)

/-- A descriptor that was closed while it was registered, and is open again. -/
def Stale (fd : Fd) : Prop := r.opened fd ∧ (r.handleMap fd).isSome ∧ ¬ r.interest fd

end Registry

/-- What happens to a pool; a handler is known by the object that it is bound to. -/
inductive PoolOp where
  | addEvent (fd : Fd) (handler : ObjId)
  | delEvent (fd : Fd)
  | clearEvent
  | close (fd : Fd)
  | reopen (fd : Fd)
deriving DecidableEq, Repr

/-- The pool itself is called. -/
def PoolOp.onPool : PoolOp → Bool
  | .addEvent _ _ | .delEvent _ | .clearEvent => true
  | .close _ | .reopen _ => false

/-- A pool and the kernel, with the handler of the latest `add_event` of each
descriptor; `none` when it was never added, or removed since. -/
structure PoolRun where
  registry : Registry
  given : Fd → Option ObjId

namespace PoolRun

def init : PoolRun := ⟨Registry.init, fun _ => none⟩

variable (s : PoolRun)

def step : PoolOp → Option PoolRun
  | .addEvent fd handler => do
    let r ← s.registry.addEvent fd handler
    some ⟨r, Function.update s.given fd (some handler)⟩
  | .delEvent fd => some ⟨s.registry.delEvent fd, Function.update s.given fd none⟩
  | .clearEvent => some ⟨s.registry.clearEvent, fun _ => none⟩
  | .close fd =>
    if s.registry.opened fd then some { s with registry := s.registry.closeFd fd } else none
  | .reopen fd =>
    if s.registry.opened fd then none else some { s with registry := s.registry.openFd fd }

/-- What is promised after an operation: the map and the list agree if it was one
of the pool, an event is dispatched to the handler given last, and `add_event` of an
open descriptor that was not added or was removed does not exit. -/
structure Law (a : PoolOp) : Prop where
  agrees : a.onPool → s.registry.Agrees
  dispatch : ∀ fd, s.registry.interest fd → s.registry.handleMap fd = s.given fd
  accepts : ∀ fd handler, s.registry.opened fd → s.given fd = none →
    (s.registry.addEvent fd handler).isSome

def KeepsLaw (a : PoolOp) : Prop := ∀ s', s.step a = some s' → s'.Law a

/-- An operation of the pool finds no other descriptor stale, `add_event` finds no
other handler in the map, and what is removed is no longer in the list. -/
def Careful : PoolOp → Prop
  | .addEvent fd handler =>
    (∀ h, s.registry.handleMap fd = some h → h = handler) ∧
      ∀ fd', fd' ≠ fd → ¬ s.registry.Stale fd'
  | .delEvent fd => ¬ s.registry.interest fd ∧ ∀ fd', fd' ≠ fd → ¬ s.registry.Stale fd'
  | .clearEvent => ∀ fd, ¬ s.registry.interest fd
  | .close _ | .reopen _ => True

/-- Along careful operations: what is in the list is open, and in the map with the
handler given last. -/
structure Inv : Prop where
  opened : ∀ fd, s.registry.interest fd → s.registry.opened fd
  given : ∀ fd, s.registry.interest fd →
    s.registry.handleMap fd = s.given fd ∧ (s.given fd).isSome

variable {s : PoolRun} {s' : PoolRun} {a : PoolOp}

namespace InterestListLemmas

variable {fd : Fd} {handler : ObjId}

theorem step_addEvent (h : s.step (.addEvent fd handler) = some s') :
    s.registry.opened fd ∧ ¬ s.registry.interest fd ∧
      s' = ⟨{ s.registry with
          interest := Function.update s.registry.interest fd true
          handleMap := Function.update s.registry.handleMap fd
            ((s.registry.handleMap fd).or (some handler)) },
        Function.update s.given fd (some handler)⟩ := by
  obtain ⟨r, hr, h⟩ := Option.bind_eq_some_iff.mp h
  cases h
  rw [Registry.addEvent] at hr
  split at hr
  · next hguard =>
    cases hr
    exact ⟨hguard.1, hguard.2, rfl⟩
  · cases hr

theorem step_close (h : s.step (.close fd) = some s') :
    s' = { s with registry := s.registry.closeFd fd } := by
  rw [step] at h
  split at h
  · exact (Option.some.inj h).symm
  · cases h

theorem step_reopen (h : s.step (.reopen fd) = some s') :
    ¬ s.registry.opened fd ∧ s' = { s with registry := s.registry.openFd fd } := by
  rw [step] at h
  split at h
  · cases h
  · next hclosed => exact ⟨hclosed, (Option.some.inj h).symm⟩

/-- The promises about events and about `add_event` follow from the invariant. -/
theorem law_of_inv (hinv : s.Inv) (hagrees : a.onPool → s.registry.Agrees) : s.Law a where
  agrees := hagrees
  dispatch fd hfd := (hinv.given fd hfd).1
  accepts fd handler hopen hnone := by
    have hint : ¬ s.registry.interest fd := fun hfd => by
      simpa [hnone] using (hinv.given fd hfd).2
    rw [Registry.addEvent, if_pos ⟨hopen, hint⟩]
    rfl

/-- Under the invariant a descriptor on which the two disagree is stale. -/
theorem agreesAt_iff (hinv : s.Inv) :
    (s.registry.opened fd → ((s.registry.handleMap fd).isSome ↔ s.registry.interest fd)) ↔
      ¬ s.registry.Stale fd := by
  constructor
  · rintro h ⟨hopen, hkey, hint⟩
    exact hint ((h hopen).mp hkey)
  · intro h hopen
    refine ⟨fun hkey => by_contra fun hint => h ⟨hopen, hkey, hint⟩, fun hint => ?_⟩
    rw [(hinv.given fd hint).1]
    exact (hinv.given fd hint).2

theorem agrees_of_addEvent (hinv : s.Inv) (h : s.step (.addEvent fd handler) = some s') :
    s'.registry.Agrees ↔ ∀ fd', fd' ≠ fd → ¬ s.registry.Stale fd' := by
  obtain ⟨-, -, rfl⟩ := step_addEvent h
  refine forall_congr' fun fd' => ?_
  by_cases hfd : fd' = fd
  · subst hfd
    simp
  · simpa [hfd] using agreesAt_iff hinv

theorem agrees_delEvent (hinv : s.Inv) : (s.registry.delEvent fd).Agrees ↔
    ¬ s.registry.interest fd ∧ ∀ fd', fd' ≠ fd → ¬ s.registry.Stale fd' := by
  have hself : (s.registry.opened fd → ¬ s.registry.interest fd) ↔ ¬ s.registry.interest fd :=
    ⟨fun h hint => h (hinv.opened fd hint) hint, fun h _ => h⟩
  rw [← hself]
  constructor
  · intro h
    refine ⟨fun hopen hint => ?_, fun fd' hfd => (agreesAt_iff hinv).mp ?_⟩
    · simpa [Registry.delEvent] using (h fd hopen).mpr hint
    · simpa [Registry.delEvent, hfd] using h fd'
  · rintro ⟨hfree, hother⟩ fd' hopen
    by_cases hfd : fd' = fd
    · subst hfd
      simpa [Registry.delEvent] using hfree hopen
    · simpa [Registry.delEvent, hfd] using (agreesAt_iff hinv).mpr (hother fd' hfd) hopen

theorem agrees_clearEvent (hinv : s.Inv) :
    s.registry.clearEvent.Agrees ↔ ∀ fd, ¬ s.registry.interest fd := by
  constructor
  · intro h fd hint
    simpa [Registry.clearEvent] using (h fd (hinv.opened fd hint)).mpr hint
  · intro h fd _
    simpa [Registry.clearEvent] using h fd

/-- The entry that `add_event` leaves is the new one exactly when there was no
other. -/
theorem or_handler_iff (entry : Option ObjId) :
    entry.or (some handler) = some handler ↔ ∀ h, entry = some h → h = handler := by
  cases entry <;> simp

theorem step_inv (hinv : s.Inv) (hcareful : s.Careful a) (h : s.step a = some s') : s'.Inv := by
  cases a with
  | addEvent fd handler =>
    obtain ⟨hopen, -, rfl⟩ := step_addEvent h
    refine ⟨fun fd' hint => ?_, fun fd' hint => ?_⟩
    · by_cases hfd : fd' = fd
      · exact hfd ▸ hopen
      · exact hinv.opened fd' (by simpa [hfd] using hint)
    · by_cases hfd : fd' = fd
      · subst hfd
        simp only [Function.update_self, (or_handler_iff _).mpr hcareful.1, Option.isSome_some,
          and_self]
      · simpa [hfd] using hinv.given fd' (by simpa [hfd] using hint)
  | delEvent fd =>
    cases h
    refine ⟨hinv.opened, fun fd' hint => ?_⟩
    have hfd : fd' ≠ fd := by
      rintro rfl
      exact hcareful.1 hint
    simpa [Registry.delEvent, hfd] using hinv.given fd' hint
  | clearEvent =>
    cases h
    exact ⟨hinv.opened, fun fd hint => absurd hint (hcareful fd)⟩
  | close fd =>
    obtain rfl := step_close h
    refine ⟨fun fd' hint => ?_, fun fd' hint => ?_⟩
    · by_cases hfd : fd' = fd
      · simp [Registry.closeFd, hfd] at hint
      · simpa [Registry.closeFd, hfd] using hinv.opened fd'
          (by simpa [Registry.closeFd, hfd] using hint)
    · by_cases hfd : fd' = fd
      · simp [Registry.closeFd, hfd] at hint
      · exact hinv.given fd' (by simpa [Registry.closeFd, hfd] using hint)
  | reopen fd =>
    obtain ⟨-, rfl⟩ := step_reopen h
    refine ⟨fun fd' hint => ?_, hinv.given⟩
    by_cases hfd : fd' = fd
    · simp [Registry.openFd, hfd]
    · simpa [Registry.openFd, hfd] using hinv.opened fd' hint

/-- An operation keeps the promises exactly when it is careful. -/
theorem keepsLaw_iff_careful (hinv : s.Inv) (h : s.step a = some s') :
    s.KeepsLaw a ↔ s.Careful a := by
  have hnext : s.KeepsLaw a ↔ s'.Law a :=
    ⟨fun hlaw => hlaw s' h, fun hlaw s'' h' => Option.some.inj (h.symm.trans h') ▸ hlaw⟩
  rw [hnext]
  constructor
  · intro hlaw
    cases a with
    | addEvent fd handler =>
      refine ⟨?_, (agrees_of_addEvent hinv h).mp (hlaw.agrees rfl)⟩
      obtain ⟨-, -, rfl⟩ := step_addEvent h
      have hentry := hlaw.dispatch fd (by simp)
      simp only [Function.update_self] at hentry
      exact (or_handler_iff _).mp hentry
    | delEvent fd =>
      cases h
      exact (agrees_delEvent hinv).mp (hlaw.agrees rfl)
    | clearEvent =>
      cases h
      exact (agrees_clearEvent hinv).mp (hlaw.agrees rfl)
    | close fd => trivial
    | reopen fd => trivial
  · intro hcareful
    refine law_of_inv (step_inv hinv hcareful h) fun hpool => ?_
    cases a with
    | addEvent fd handler => exact (agrees_of_addEvent hinv h).mpr hcareful.2
    | delEvent fd =>
      cases h
      exact (agrees_delEvent hinv).mpr hcareful
    | clearEvent =>
      cases h
      exact (agrees_clearEvent hinv).mpr hcareful
    | close fd => cases hpool
    | reopen fd => cases hpool

theorem init_inv : init.Inv where
  opened := fun _ h => by cases h
  given := fun _ h => by cases h

end InterestListLemmas

open InterestListLemmas

/-- The map and the list stay together along a run exactly when its operations are
careful. -/
theorem keepsLaw_iff (ops : List PoolOp) (hrun : Runs step init ops) :
    AllSteps step KeepsLaw init ops ↔ AllSteps step Careful init ops :=
  allSteps_congr (I := Inv)
    (fun _ _ _ hinv hlaw h => step_inv hinv ((keepsLaw_iff_careful hinv h).mp hlaw) h)
    (fun _ _ _ hinv h => keepsLaw_iff_careful hinv h) init_inv hrun

theorem keepsLaw_iff_demo :
    AllSteps step KeepsLaw init [.reopen 5, .addEvent 5 0, .close 5, .delEvent 5] ↔
      AllSteps step Careful init [.reopen 5, .addEvent 5 0, .close 5, .delEvent 5] :=
  keepsLaw_iff _ (Option.isSome_iff_exists.mp (by decide))

/-- `del_event` on a descriptor that is still open. -/
theorem keepsLaw_delEvent :
    ¬ ∀ ops, Runs step init ops → AllSteps step KeepsLaw init ops := by
  intro hall
  have hrun : (exec step init [.reopen 5, .addEvent 5 0]).map
      (fun s => (s.registry.opened 5, s.registry.interest 5)) = some (true, true) := by
    decide
  obtain ⟨s, hs, hview⟩ := Option.map_eq_some_iff.mp hrun
  obtain ⟨hopen, hint⟩ := Prod.mk.inj hview
  have hlaw : s.KeepsLaw (.delEvent 5) :=
    (hall ([.reopen 5, .addEvent 5 0] ++ [.delEvent 5])
      (Option.isSome_iff_exists.mp (by decide))).last hs
  have hkey := ((hlaw _ rfl).agrees rfl 5 hopen).mpr hint
  simp [Registry.delEvent] at hkey

end PoolRun

end NetTraverse
