import NetTraverse.Network.Registry

/-!
# Who closes a descriptor

A socket closes its descriptor when it is destroyed, so each descriptor must be in
one live object. The constructors, the move constructors and the destructors see to
that; `accept` overwrites the descriptor that the constructor of its result got.
-/

namespace NetTraverse

open Transition

/-- The operation constructs no bare `async_file_event`, which owns nothing. -/
def RegistryOp.onSockets : RegistryOp → Bool
  | .construct kind _ _ => kind ≠ .asyncFileEvent
  | _ => true

def RegistryOp.accepts : RegistryOp → Bool
  | .accept _ _ _ _ => true
  | _ => false

namespace Registry

/-- The operations of `tcp_socket` and `udp_socket`. -/
def socketStep (r : Registry) (a : RegistryOp) : Option Registry :=
  if a.onSockets then r.step a else none

variable (r : Registry)

/-- `fd` is the `handle_.fd_` of the live object `o`. -/
def Owns (o : ObjId) (fd : Fd) : Prop :=
  ∃ obj, r.objs o = some obj ∧ obj.alive ∧ obj.fd = fd

/-- Every descriptor that was given out and not closed has one owner, and what a live
object would close is open. -/
structure OwnedOnce : Prop where
  owner : ∀ fd, r.opened fd → ∃! o, r.Owns o fd
  opened : ∀ o fd, r.Owns o fd → fd ≠ -1 → r.opened fd

/-- Afterwards each descriptor has one owner, and what was closed was closed by
destroying its owner. -/
def KeepsOwners (a : RegistryOp) : Prop :=
  ∀ r', r.socketStep a = some r' →
    r'.OwnedOnce ∧ ∀ fd, r.opened fd → ¬ r'.opened fd → ∃ o, a = .destroy o ∧ r.Owns o fd

structure OwnerInv : Prop where
  once : r.OwnedOnce
  valid : ∀ fd, r.opened fd → fd ≠ -1
  sockets : ∀ o obj, r.objs o = some obj → obj.kind ≠ .asyncFileEvent

variable {r r' : Registry}

namespace OwnershipLemmas

open RegistryLemmas

variable {kind : ObjKind} {o src dst : ObjId} {fd : Fd} {obj : Obj}

theorem owns_iff (h : r.objs o = some obj) : r.Owns o fd ↔ obj.alive ∧ obj.fd = fd := by
  simp [Owns, h]

theorem not_owns_of_none (h : r.objs o = none) : ¬ r.Owns o fd := by
  simp [Owns, h]

/-- Who owns what after an object was set. -/
theorem owns_setObj (o' : ObjId) : (r.setObj o obj).Owns o' fd ↔
    if o' = o then obj.alive ∧ obj.fd = fd else r.Owns o' fd := by
  by_cases h : o' = o
  · have hset : (r.setObj o obj).objs o' = some obj := by simp [setObj, h]
    rw [if_pos h, owns_iff hset]
  · rw [if_neg h]
    simp [Owns, setObj, h]

theorem owns_construct (h : r.Constructs r' kind o fd) (o' : ObjId) (fd' : Fd) :
    r'.Owns o' fd' ↔ if o' = o then fd = fd' else r.Owns o' fd' := by
  split
  · next heq => rw [owns_iff (by rw [h.objs, if_pos heq])]; simp
  · next hne => rw [Owns, h.objs, if_neg hne, Owns]

theorem construct_inv (hinv : r.OwnerInv) (hkind : kind ≠ .asyncFileEvent)
    (h : r.Constructs r' kind o fd) : r'.OwnerInv := by
  have hclosed : ¬ r.opened fd := h.closed.resolve_left hkind
  have hnew : ∀ fd', ¬ r.Owns o fd' := fun fd' => not_owns_of_none h.new
  have hfresh : ∀ o', ¬ r.Owns o' fd := fun o' ho' =>
    hclosed (hinv.once.opened o' fd ho' (ne_neg_one h.nonneg))
  refine ⟨⟨fun fd' hopen => ?_, fun o' fd' ho' hvalid => ?_⟩, fun fd' hopen => ?_,
    fun o' obj hobj => ?_⟩
  · by_cases hfd : fd' = fd
    · subst hfd
      refine ⟨o, by simp [owns_construct h], fun o' ho' => ?_⟩
      by_contra hne
      simp only [owns_construct h, if_neg hne] at ho'
      exact hfresh o' ho'
    · rw [h.opened, if_neg hfd] at hopen
      obtain ⟨o₁, ho₁, huniq⟩ := hinv.once.owner fd' hopen
      have hne : o₁ ≠ o := by
        rintro rfl
        exact hnew fd' ho₁
      refine ⟨o₁, by simpa [owns_construct h, hne] using ho₁, fun o' ho' => ?_⟩
      simp only [owns_construct h] at ho'
      split at ho'
      · exact absurd ho'.symm hfd
      · exact huniq o' ho'
  · rw [owns_construct h] at ho'
    rw [h.opened]
    split at ho'
    · rw [if_pos ho'.symm]
    · split
      · rfl
      · exact hinv.once.opened o' fd' ho' hvalid
  · rw [h.opened] at hopen
    split at hopen
    · next heq => exact heq ▸ ne_neg_one h.nonneg
    · exact hinv.valid fd' hopen
  · rw [h.objs] at hobj
    split at hobj
    · cases hobj
      exact hkind
    · exact hinv.sockets o' obj hobj

/-- A socket that is moved hands its descriptor over. -/
theorem move_owns (hinv : r.OwnerInv) (h : r.move dst src = some r') :
    dst ≠ src ∧ (∀ fd, ¬ r.Owns dst fd) ∧ r'.opened = r.opened ∧
      (∀ o obj, r'.objs o = some obj → obj.kind ≠ .asyncFileEvent) ∧
      ∀ o fd, r'.Owns o fd ↔
        if o = src then fd = -1 else if o = dst then r.Owns src fd else r.Owns o fd := by
  rw [move] at h
  split at h
  · next obj hobj =>
    split at h
    · next hguard =>
      cases h
      have hne : dst ≠ src := by
        rintro rfl
        simp [hobj] at hguard
      have hkind := hinv.sockets src obj hobj
      refine ⟨hne, fun fd => not_owns_of_none hguard.2, rfl, fun o obj' hobj' => ?_,
        fun o fd => ?_⟩
      · simp only [setObj, Function.update_apply] at hobj'
        split at hobj'
        · cases hobj'
          exact hkind
        · split at hobj'
          · cases hobj'
            exact hkind
          · exact hinv.sockets o obj' hobj'
      · simp only [owns_setObj, hkind, if_false, owns_iff hobj]
        split
        · simp [hguard.1, eq_comm]
        · rfl
    · cases h
  · cases h

theorem move_inv (hinv : r.OwnerInv) (h : r.move dst src = some r') :
    r'.OwnerInv ∧ r'.opened = r.opened := by
  obtain ⟨hne, hnew, hopened, hsockets, howns⟩ := move_owns hinv h
  refine ⟨⟨⟨fun fd hopen => ?_, fun o fd ho hvalid => ?_⟩, ?_, hsockets⟩, hopened⟩
  · rw [hopened] at hopen
    have hvalid := hinv.valid fd hopen
    obtain ⟨o₁, ho₁, huniq⟩ := hinv.once.owner fd hopen
    -- the owner is the same, or `dst` if it was `src`
    refine ⟨if o₁ = src then dst else o₁, ?_, fun o ho => ?_⟩
    · split
      · next heq => simpa [howns, hne] using heq ▸ ho₁
      · next hsrc =>
        have hdst : o₁ ≠ dst := by
          rintro rfl
          exact hnew fd ho₁
        simpa [howns, hsrc, hdst] using ho₁
    · simp only [howns] at ho
      split at ho
      · exact absurd ho hvalid
      · next hsrc =>
        split at ho
        · next hdst => rw [if_pos (huniq src ho).symm, hdst]
        · rw [← huniq o ho, if_neg hsrc]
  · rw [hopened]
    rw [howns] at ho
    split at ho
    · exact absurd ho hvalid
    · split at ho
      · exact hinv.once.opened src fd ho hvalid
      · exact hinv.once.opened o fd ho hvalid
  · rw [hopened]
    exact hinv.valid

/-- A socket that is destroyed takes its descriptor along. -/
theorem destroy_owns (hinv : r.OwnerInv) (h : r.destroy o = some r') :
    (∀ fd, r'.opened fd ↔ r.opened fd ∧ ¬ r.Owns o fd) ∧
      (∀ o obj, r'.objs o = some obj → obj.kind ≠ .asyncFileEvent) ∧
      ∀ o' fd, r'.Owns o' fd ↔ o' ≠ o ∧ r.Owns o' fd := by
  rw [destroy] at h
  split at h
  · next obj hobj =>
    split at h
    · next halive =>
      cases h
      have hkind := hinv.sockets o obj hobj
      have hown : ∀ fd, r.Owns o fd ↔ obj.fd = fd := fun fd => by simp [owns_iff hobj, halive]
      have hobjs : (if obj.kind ≠ .asyncFileEvent ∧ obj.fd ≠ -1 then r.closeFd obj.fd else r).objs =
          r.objs := by
        split <;> rfl
      refine ⟨fun fd => ?_, fun o' obj' hobj' => ?_, fun o' fd => ?_⟩
      · rw [hown]
        by_cases hvalid : obj.fd = -1
        · have hne : r.opened fd → ¬ obj.fd = fd := fun hopen heq =>
            hinv.valid fd hopen (heq.symm.trans hvalid)
          simpa [setObj, hvalid] using fun hopen => hvalid ▸ hne hopen
        · by_cases heq : fd = obj.fd
          · simp [setObj, closeFd, hkind, hvalid, heq]
          · simp [setObj, closeFd, hkind, hvalid, heq, Ne.symm heq]
      · simp only [setObj, Function.update_apply, hobjs] at hobj'
        split at hobj'
        · cases hobj'
          exact hkind
        · exact hinv.sockets o' obj' hobj'
      · rw [owns_setObj]
        split
        · next heq => simp [heq]
        · next hne => simp [Owns, hobjs, hne]
    · cases h
  · cases h

theorem destroy_inv (hinv : r.OwnerInv) (h : r.destroy o = some r') : r'.OwnerInv := by
  obtain ⟨hopened, hsockets, howns⟩ := destroy_owns hinv h
  refine ⟨⟨fun fd hopen => ?_, fun o' fd ho' hvalid => ?_⟩, fun fd hopen => ?_, hsockets⟩
  · obtain ⟨hopen, hnot⟩ := (hopened fd).mp hopen
    obtain ⟨o₁, ho₁, huniq⟩ := hinv.once.owner fd hopen
    have hne : o₁ ≠ o := by
      rintro rfl
      exact hnot ho₁
    exact ⟨o₁, (howns o₁ fd).mpr ⟨hne, ho₁⟩, fun o' ho' => huniq o' ((howns o' fd).mp ho').2⟩
  · obtain ⟨hne, ho'⟩ := (howns o' fd).mp ho'
    have hopen := hinv.once.opened o' fd ho' hvalid
    refine (hopened fd).mpr ⟨hopen, fun ho => hne ?_⟩
    exact (hinv.once.owner fd hopen).unique ho' ho
  · exact hinv.valid fd ((hopened fd).mp hopen).1

/-- The descriptor that the constructor got for the result of `accept` has no
owner. -/
theorem accept_not_once {listener : ObjId} {own : Fd} (hinv : r.OwnerInv)
    (h : r.accept listener o fd own = some r') : ¬ r'.OwnedOnce := by
  rw [accept] at h
  split at h
  · split at h
    · next hguard =>
      obtain ⟨r₁, hr₁, h⟩ := Option.bind_eq_some_iff.mp h
      obtain ⟨obj, hobj, h⟩ := Option.bind_eq_some_iff.mp h
      cases h
      have hc := construct_constructs hr₁
      have hclosed : ¬ (r.openFd fd).opened own := hc.closed.resolve_left (by decide)
      have hne : fd ≠ own := by
        rintro rfl
        simp [openFd] at hclosed
      have hnot : ¬ r.opened own := by simpa [openFd, hne.symm] using hclosed
      intro honce
      obtain ⟨o', ho', -⟩ := honce.owner own (by simp [setObj, hc.opened])
      rw [owns_setObj] at ho'
      split at ho'
      · exact hne ho'.2
      · next hother =>
        rw [owns_construct hc, if_neg hother] at ho'
        exact hnot (hinv.once.opened o' own ho' (ne_neg_one hc.nonneg))
    · cases h
  · cases h

theorem init_ownerInv : init.OwnerInv where
  once := ⟨fun _ h => (Bool.false_ne_true h).elim, fun o fd h => absurd h (not_owns_of_none rfl)⟩
  valid := fun _ h => by cases h
  sockets := fun _ _ h => by cases h

theorem socketStep_eq_some {a : RegistryOp} (h : r.socketStep a = some r') :
    a.onSockets ∧ r.step a = some r' := by
  rw [socketStep] at h
  split at h
  · next hsock => exact ⟨hsock, h⟩
  · cases h

/-- A step that is no `accept` keeps the invariant, and closes only what it takes
from an owner. -/
theorem socketStep_inv {a : RegistryOp} (hinv : r.OwnerInv) (ha : ¬ a.accepts)
    (h : r.socketStep a = some r') : r'.OwnerInv ∧
      ∀ fd, r.opened fd → ¬ r'.opened fd → ∃ o, a = .destroy o ∧ r.Owns o fd := by
  obtain ⟨hsock, h⟩ := socketStep_eq_some h
  cases a with
  | construct kind o fd =>
    have hc := construct_constructs h
    refine ⟨construct_inv hinv (by simpa [RegistryOp.onSockets] using hsock) hc,
      fun fd' hopen hclosed => absurd ?_ hclosed⟩
    rw [hc.opened]
    split
    · rfl
    · exact hopen
  | move dst src =>
    obtain ⟨hinv', hopened⟩ := move_inv hinv h
    exact ⟨hinv', fun fd hopen hclosed => absurd (hopened ▸ hopen) hclosed⟩
  | accept listener o fd own => exact absurd rfl ha
  | destroy o =>
    refine ⟨destroy_inv hinv h, fun fd hopen hclosed => ⟨o, rfl, ?_⟩⟩
    by_contra hnot
    exact hclosed (((destroy_owns hinv h).1 fd).mpr ⟨hopen, hnot⟩)

theorem keepsOwners_iff {a : RegistryOp} (hinv : r.OwnerInv) (h : r.socketStep a = some r') :
    r.KeepsOwners a ↔ ¬ a.accepts := by
  constructor
  · intro hkeeps ha
    obtain ⟨-, hstep⟩ := socketStep_eq_some h
    cases a with
    | accept listener o fd own => exact accept_not_once hinv hstep (hkeeps r' h).1
    | _ => cases ha
  · intro ha r'' h'
    obtain rfl := Option.some.inj (h.symm.trans h')
    obtain ⟨hinv', hcloses⟩ := socketStep_inv hinv ha h
    exact ⟨hinv'.once, hcloses⟩

end OwnershipLemmas

open OwnershipLemmas

/-- Descriptors have one owner along a run exactly when nothing is accepted. -/
theorem ownedOnce_iff (ops : List RegistryOp) (hrun : Runs socketStep init ops) :
    AllSteps socketStep KeepsOwners init ops ↔ ∀ a ∈ ops, ¬ a.accepts := by
  rw [← allSteps_iff_forall hrun]
  exact allSteps_congr (I := OwnerInv)
    (fun _ _ _ hinv hkeeps h => (socketStep_inv hinv ((keepsOwners_iff hinv h).mp hkeeps) h).1)
    (fun _ _ _ hinv h => keepsOwners_iff hinv h) init_ownerInv hrun

theorem ownedOnce_iff_demo :
    AllSteps socketStep KeepsOwners init
        [.construct .tcpSocket 0 3, .move 1 0, .destroy 0, .destroy 1] ↔
      ∀ a ∈ [RegistryOp.construct .tcpSocket 0 3, .move 1 0, .destroy 0, .destroy 1],
        ¬ a.accepts :=
  ownedOnce_iff _ (Option.isSome_iff_exists.mp (by decide))

/-- A listener on descriptor 3 accepts a connection: the result has 5, and 4 is
lost. -/
theorem ownedOnce_accept :
    ¬ ∀ ops, Runs socketStep init ops → AllSteps socketStep KeepsOwners init ops := by
  intro hall
  obtain ⟨r', hr'⟩ : Runs socketStep init [.construct .tcpSocket 0 3, .accept 0 1 5 4] :=
    Option.isSome_iff_exists.mp (by decide)
  obtain ⟨r, hr, hlast⟩ := exec_cons_iff.mp hr'
  obtain ⟨r'', haccept, -⟩ := exec_cons_iff.mp hlast
  have hinv := (socketStep_inv init_ownerInv (by decide) hr).1
  have hkeeps := (hall [.construct .tcpSocket 0 3, .accept 0 1 5 4] ⟨r', hr'⟩).2 r hr
  exact (keepsOwners_iff hinv haccept).mp hkeeps.1 rfl

end Registry

end NetTraverse
