import Mathlib.Logic.Function.Basic
import NetTraverse.Lib.Transition
import NetTraverse.Network.AsyncFileEvent

/-!
# Registration of event objects

The constructors, the move constructors, `tcp_socket::accept` and the
destructors of `async_file_event`, `udp_socket` and `tcp_socket`, with what they
do to the pool and to the kernel. `add_event` is called by the one constructor
that takes a pool; nothing calls `del_event`.
-/

namespace NetTraverse

open Transition

/-- The identity of an event object; a handler is bound to one. -/
abbrev ObjId := Nat

inductive ObjKind where
  | asyncFileEvent
  | udpSocket
  | tcpSocket
deriving DecidableEq, Repr

/-- An object that was constructed. -/
structure Obj where
  kind : ObjKind
  /-- `handle_.fd_` -/
  fd : Fd
  /-- The other members; `none` where the move constructor of `async_file_event`
  left them indeterminate. -/
  members : Option AsyncFileEvent
  alive : Bool
  movedFrom : Bool
deriving DecidableEq, Repr

structure Registry where
  /-- The descriptors that the system has given out. -/
  opened : Fd → Bool
  /-- The interest list of the epoll instance. -/
  interest : Fd → Bool
  handleMap : Fd → Option ObjId
  objs : ObjId → Option Obj

namespace Registry

/-- A new pool. -/
def init : Registry where
  opened _ := false
  interest _ := false
  handleMap _ := none
  objs _ := none

variable (r : Registry)

def setObj (o : ObjId) (obj : Obj) : Registry :=
  { r with objs := Function.update r.objs o (some obj) }

/-- The system gives out a descriptor. -/
def openFd (fd : Fd) : Registry :=
  { r with opened := Function.update r.opened fd true }

/-- `close`. The kernel drops a closed descriptor from the interest list. -/
def closeFd (fd : Fd) : Registry :=
  { r with
    opened := Function.update r.opened fd false
    interest := Function.update r.interest fd false }

/-- `add_event`. `epoll_ctl` fails for a descriptor that is not open or is
registered already, and the program then exits; `emplace` keeps an entry that is
there. -/
def addEvent (fd : Fd) (o : ObjId) : Option Registry :=
  if r.opened fd ∧ ¬ r.interest fd then
    some { r with
      interest := Function.update r.interest fd true
      handleMap := Function.update r.handleMap fd ((r.handleMap fd).or (some o)) }
  else none

/-- The constructor of `async_file_event`, on a descriptor that is open. -/
def constructEvent (kind : ObjKind) (o : ObjId) (fd : Fd) : Option Registry := do
  let r ← r.addEvent fd o
  some (r.setObj o
    { kind := kind, fd := fd, members := some (AsyncFileEvent.new fd), alive := true,
      movedFrom := false })

/-- The constructors that register. Those of the sockets get their descriptor
from `socket`; `async_file_event` is given one. -/
def construct (kind : ObjKind) (o : ObjId) (fd : Fd) : Option Registry :=
  if r.objs o = none ∧ 0 ≤ fd ∧ (kind = .asyncFileEvent ∨ ¬ r.opened fd) then
    (r.openFd fd).constructEvent kind o fd
  else none

/-- The move constructors. That of `async_file_event` copies the handle; those
of the sockets take it from the source. -/
def move (dst src : ObjId) : Option Registry :=
  match r.objs src with
  | some obj =>
    if obj.alive ∧ r.objs dst = none then
      let srcFd := if obj.kind = .asyncFileEvent then obj.fd else -1
      let r := r.setObj dst { obj with members := none, movedFrom := false }
      some (r.setObj src { obj with fd := srcFd, movedFrom := true })
    else none
  | none => none

/-- A successful `tcp_socket::accept` on `listener`: the system returns `fd`,
the constructor of the result `o` gets `own` from `socket` and registers that,
then `fd` replaces it. The result is built in place. -/
def accept (listener o : ObjId) (fd own : Fd) : Option Registry :=
  match r.objs listener with
  | some l =>
    if l.alive ∧ l.kind = .tcpSocket ∧ l.fd ≠ -1 ∧ 0 ≤ fd ∧ ¬ r.opened fd then do
      let r ← (r.openFd fd).construct .tcpSocket o own
      let obj ← r.objs o
      some (r.setObj o { obj with fd := fd })
    else none
  | none => none

/-- The destructors. Those of the sockets close the descriptor. -/
def destroy (o : ObjId) : Option Registry :=
  match r.objs o with
  | some obj =>
    if obj.alive then
      let r := if obj.kind ≠ .asyncFileEvent ∧ obj.fd ≠ -1 then r.closeFd obj.fd else r
      some (r.setObj o { obj with alive := false })
    else none
  | none => none

end Registry

inductive RegistryOp where
  | construct (kind : ObjKind) (o : ObjId) (fd : Fd)
  | move (dst src : ObjId)
  | accept (listener o : ObjId) (fd own : Fd)
  | destroy (o : ObjId)
deriving DecidableEq, Repr

/-- The operation constructs an object on its pool. -/
def RegistryOp.constructs : RegistryOp → Bool
  | .construct _ _ _ => true
  | _ => false

def Registry.step (r : Registry) : RegistryOp → Option Registry
  | .construct kind o fd => r.construct kind o fd
  | .move dst src => r.move dst src
  | .accept listener o fd own => r.accept listener o fd own
  | .destroy o => r.destroy o

namespace Registry

/-- Each live object with a descriptor is registered under it, and its members
are initialised; each entry is bound to an object that is live and was not moved
from. -/
structure FollowsObjects (r : Registry) : Prop where
  registered : ∀ o obj, r.objs o = some obj → obj.alive → obj.fd ≠ -1 →
    r.interest obj.fd ∧ r.handleMap obj.fd = some o ∧ obj.members.isSome
  bound : ∀ fd o, r.handleMap fd = some o →
    ∃ obj, r.objs o = some obj ∧ obj.alive ∧ ¬ obj.movedFrom

/-- What the registry looks like as long as objects are only constructed. -/
structure Fresh (r : Registry) : Prop where
  interest : ∀ fd, r.interest fd → r.opened fd
  entry : ∀ fd o, r.handleMap fd = some o → ∃ obj, r.objs o = some obj ∧ obj.fd = fd
  live : ∀ o obj, r.objs o = some obj → obj.alive ∧ 0 ≤ obj.fd

/-- What a constructor needs and does. -/
structure Constructs (r r' : Registry) (kind : ObjKind) (o : ObjId) (fd : Fd) : Prop where
  new : r.objs o = none
  nonneg : 0 ≤ fd
  closed : kind = .asyncFileEvent ∨ ¬ r.opened fd
  unregistered : ¬ r.interest fd
  opened : ∀ fd', r'.opened fd' = if fd' = fd then true else r.opened fd'
  interest : ∀ fd', r'.interest fd' = if fd' = fd then true else r.interest fd'
  handleMap : ∀ fd', r'.handleMap fd' =
    if fd' = fd then (r.handleMap fd).or (some o) else r.handleMap fd'
  objs : ∀ o', r'.objs o' =
    if o' = o then
      some
        { kind := kind, fd := fd, members := some (AsyncFileEvent.new fd), alive := true,
          movedFrom := false }
    else r.objs o'

variable {r r' : Registry}

namespace RegistryLemmas

variable {kind : ObjKind} {o : ObjId} {fd : Fd}

theorem ne_neg_one (h : 0 ≤ fd) : fd ≠ -1 := by
  rintro rfl
  exact absurd h (by decide)

theorem Fresh.fd_ne (hfresh : r.Fresh) {obj : Obj} (h : r.objs o = some obj) : obj.fd ≠ -1 :=
  ne_neg_one (hfresh.live o obj h).2

theorem construct_constructs (h : r.construct kind o fd = some r') :
    r.Constructs r' kind o fd := by
  rw [construct] at h
  split at h
  · next hguard =>
    rw [constructEvent, addEvent] at h
    split at h
    · next hadd =>
      cases h
      refine ⟨hguard.1, hguard.2.1, hguard.2.2, hadd.2, ?_, ?_, ?_, ?_⟩
      all_goals
        intro x
        simp [setObj, openFd, Function.update_apply]
    · cases h
  · cases h

/-- A descriptor that is not in the interest list has no entry. -/
theorem handleMap_eq_none (hfresh : r.Fresh) (hfollows : r.FollowsObjects)
    (hint : ¬ r.interest fd) : r.handleMap fd = none := by
  by_contra hne
  obtain ⟨o, ho⟩ := Option.ne_none_iff_exists'.mp hne
  obtain ⟨obj, hobj, hfd⟩ := hfresh.entry fd o ho
  have hreg := (hfollows.registered o obj hobj (hfresh.live o obj hobj).1
    (Fresh.fd_ne hfresh hobj)).1
  exact hint (hfd ▸ hreg)

theorem construct_fresh (hfresh : r.Fresh) (hfollows : r.FollowsObjects)
    (h : r.Constructs r' kind o fd) : r'.Fresh := by
  have hnone := handleMap_eq_none hfresh hfollows h.unregistered
  refine ⟨fun fd' hint' => ?_, fun fd' o' ho' => ?_, fun o' obj' hobj' => ?_⟩
  · rw [h.opened]
    rw [h.interest] at hint'
    split at hint'
    · next heq => simp [heq]
    · next hne => simpa [hne] using hfresh.interest fd' hint'
  · rw [h.handleMap, hnone] at ho'
    split at ho'
    · next heq =>
      obtain rfl : o = o' := by simpa using ho'
      exact ⟨_, by rw [h.objs, if_pos rfl], heq.symm⟩
    · obtain ⟨obj, hobj, heq⟩ := hfresh.entry fd' o' ho'
      have hne : o' ≠ o := by
        rintro rfl
        simp [h.new] at hobj
      exact ⟨obj, by rw [h.objs, if_neg hne, hobj], heq⟩
  · rw [h.objs] at hobj'
    split at hobj'
    · cases hobj'
      exact ⟨rfl, h.nonneg⟩
    · exact hfresh.live o' obj' hobj'

theorem construct_follows (hfresh : r.Fresh) (hfollows : r.FollowsObjects)
    (h : r.Constructs r' kind o fd) : r'.FollowsObjects := by
  have hnone := handleMap_eq_none hfresh hfollows h.unregistered
  refine ⟨fun o' obj' hobj' halive hfd' => ?_, fun fd' o' ho' => ?_⟩
  · rw [h.objs] at hobj'
    split at hobj'
    · next heq =>
      cases hobj'
      exact ⟨by rw [h.interest, if_pos rfl], by rw [h.handleMap, if_pos rfl, hnone, heq]; rfl, rfl⟩
    · obtain ⟨hreg, hmap, hmem⟩ := hfollows.registered o' obj' hobj' halive hfd'
      -- the descriptor of another object is registered, so it is not `fd`
      have hne : obj'.fd ≠ fd := fun heq => h.unregistered (heq ▸ hreg)
      exact ⟨by rw [h.interest, if_neg hne, hreg], by rw [h.handleMap, if_neg hne, hmap], hmem⟩
  · rw [h.handleMap, hnone] at ho'
    split at ho'
    · obtain rfl : o = o' := by simpa using ho'
      exact ⟨_, by rw [h.objs, if_pos rfl], rfl, by simp⟩
    · obtain ⟨obj, hobj, hrest⟩ := hfollows.bound fd' o' ho'
      have hne : o' ≠ o := by
        rintro rfl
        simp [h.new] at hobj
      exact ⟨obj, by rw [h.objs, if_neg hne, hobj], hrest⟩

theorem setObj_self (obj : Obj) : (r.setObj o obj).objs o = some obj := by
  simp [setObj]

/-- A moved object has members that nobody set. -/
theorem move_not_follows {dst src : ObjId} (hfresh : r.Fresh)
    (h : r.move dst src = some r') : ¬ r'.FollowsObjects := by
  rw [move] at h
  split at h
  · next obj hobj =>
    split at h
    · next hguard =>
      cases h
      have hne : dst ≠ src := by
        rintro rfl
        simp [hobj] at hguard
      have hfd : obj.fd ≠ -1 := Fresh.fd_ne hfresh hobj
      intro hfollows
      -- the new object is live with a descriptor, and has no members
      have hdst := hfollows.registered dst { obj with members := none, movedFrom := false }
        (by simp [setObj, hne]) hguard.1 hfd
      simp at hdst
    · cases h
  · cases h

/-- The descriptor that `accept` puts into its result is not registered. -/
theorem accept_not_follows {listener : ObjId} {own : Fd} (hfresh : r.Fresh)
    (h : r.accept listener o fd own = some r') : ¬ r'.FollowsObjects := by
  rw [accept] at h
  split at h
  · split at h
    · next hguard =>
      obtain ⟨-, -, -, hfd, hclosed⟩ := hguard
      obtain ⟨r₁, hr₁, h⟩ := Option.bind_eq_some_iff.mp h
      obtain ⟨obj, hobj, h⟩ := Option.bind_eq_some_iff.mp h
      cases h
      have hc := construct_constructs hr₁
      have hne : fd ≠ own := by
        rintro rfl
        simpa [openFd] using hc.closed
      rw [hc.objs, if_pos rfl] at hobj
      cases hobj
      intro hfollows
      -- the accepted descriptor is open since just now, and was not registered before
      have hreg := (hfollows.registered o _ (setObj_self _) rfl (ne_neg_one hfd)).1
      have hint : r₁.interest fd = true := hreg
      rw [hc.interest, if_neg hne] at hint
      exact hclosed (hfresh.interest fd hint)
    · cases h
  · cases h

/-- The entry of a destroyed object stays. -/
theorem destroy_not_follows (hfresh : r.Fresh) (hfollows : r.FollowsObjects)
    (h : r.destroy o = some r') : ¬ r'.FollowsObjects := by
  rw [destroy] at h
  split at h
  · next obj hobj =>
    split at h
    · next halive =>
      cases h
      intro hfollows'
      have hmap := (hfollows.registered o obj hobj halive (Fresh.fd_ne hfresh hobj)).2.1
      obtain ⟨obj', hobj', halive', -⟩ := hfollows'.bound obj.fd o (by split <;> exact hmap)
      rw [setObj_self] at hobj'
      cases hobj'
      cases halive'
    · cases h
  · cases h

theorem init_fresh : init.Fresh where
  interest := fun _ h => by cases h
  entry := fun _ _ h => by cases h
  live := fun _ _ h => by cases h

theorem init_follows : init.FollowsObjects where
  registered := fun _ _ h => by cases h
  bound := fun _ _ h => by cases h

end RegistryLemmas

open RegistryLemmas

/-- The registration follows the objects along a run exactly when the run does
nothing but construct. -/
theorem followsObjects_iff (ops : List RegistryOp) (hrun : Runs step init ops) :
    AllStates step FollowsObjects init ops ↔ ∀ a ∈ ops, a.constructs := by
  rw [← allSteps_iff_forall hrun]
  refine allStates_iff_allSteps (I := fun r => r.Fresh ∧ r.FollowsObjects) ?_ ?_
    ⟨init_fresh, init_follows⟩ init_follows hrun
  · intro r a r' hinv hP h
    cases a with
    | construct kind o fd =>
      exact ⟨construct_fresh hinv.1 hinv.2 (construct_constructs h),
        construct_follows hinv.1 hinv.2 (construct_constructs h)⟩
    | _ => cases hP
  · intro r a r' hinv _ h
    cases a with
    | construct kind o fd =>
      exact iff_of_true (construct_follows hinv.1 hinv.2 (construct_constructs h)) rfl
    | move dst src =>
      exact iff_of_false (move_not_follows hinv.1 h) (by simp [RegistryOp.constructs])
    | accept listener o fd own =>
      exact iff_of_false (accept_not_follows hinv.1 h) (by simp [RegistryOp.constructs])
    | destroy o =>
      exact iff_of_false (destroy_not_follows hinv.1 hinv.2 h) (by simp [RegistryOp.constructs])

theorem followsObjects_iff_demo :
    AllStates step FollowsObjects init
        [.construct .asyncFileEvent 0 3, .construct .udpSocket 1 4, .destroy 1] ↔
      ∀ a ∈ [RegistryOp.construct .asyncFileEvent 0 3, .construct .udpSocket 1 4, .destroy 1],
        a.constructs :=
  followsObjects_iff _ (Option.isSome_iff_exists.mp (by decide))

/-- A socket takes the descriptor of one that was destroyed, and the entry is
still bound to that one. -/
theorem followsObjects_reused :
    ¬ ∀ ops r, exec step init ops = some r → r.FollowsObjects := by
  intro hall
  have hrun : (exec step init
      [.construct .udpSocket 0 4, .destroy 0, .construct .udpSocket 1 4]).map
        (fun r => (r.handleMap 4, (r.objs 0).map (·.alive))) = some (some 0, some false) := by
    decide
  obtain ⟨r, hr, hview⟩ := Option.map_eq_some_iff.mp hrun
  simp only [Prod.mk.injEq, Option.map_eq_some_iff] at hview
  obtain ⟨hmap, obj, hobj, hdead⟩ := hview
  obtain ⟨obj', hobj', halive, -⟩ := (hall _ r hr).bound 4 0 hmap
  obtain rfl := Option.some.inj (hobj.symm.trans hobj')
  simp [hdead] at halive

end Registry

end NetTraverse
