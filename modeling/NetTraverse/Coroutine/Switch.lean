import NetTraverse.Lib.Transition
import NetTraverse.Coroutine.Machine

/-!
# Switching preserves suspended coroutines

A coroutine that uses a shared stack keeps its bytes in one of two places while
it is suspended: on the shared stack when `used_by` names it, in `stack_copy_`
otherwise. `Inv` says so for every coroutine but the running one. `HeapOk` is
what makes it stable: private stacks have one user, and `used_by` of a shared
stack names a coroutine on that very stack.

`Inv run m` is about the state between two functions: `run` is the coroutine
whose code is running, or `none` while a handler runs on its own stack and no
coroutine has its context in the registers. Each function of `Machine` has one
lemma (`suspend_inv`, `coSwapIn_inv`, `load_inv`, ..); `step_inv` assembles
them.
-/

namespace NetTraverse

open Region Transition

/-- The image that `c` had when it was last suspended, or created. -/
def lastImage (c : CoId) : List Event → Option Image
  | [] => none
  | .created d img :: rest => if d = c then some img else lastImage c rest
  | .rescheduled d img :: rest => if d = c then some img else lastImage c rest
  | .yielded d img :: rest => if d = c then some img else lastImage c rest
  | _ :: rest => lastImage c rest

/-- What the log of a run must show: every load gives a coroutine the image it
left, and no copy size wraps around. -/
structure Faithful (log : List Event) : Prop where
  loads : ∀ c img rest, (Event.loaded c img :: rest) <:+ log → lastImage c rest = some img
  copies : ∀ c rsp top size, Event.copied c rsp top size ∈ log →
    rsp ≤ top ∧ size.toNat = top.toNat - rsp.toNat

namespace SwitchLemmas

theorem Faithful.cons {log : List Event} {e : Event} (h : Faithful log)
    (hload : ∀ c img, e = .loaded c img → lastImage c log = some img)
    (hcopy : ∀ c rsp top size, e = .copied c rsp top size →
      rsp ≤ top ∧ size.toNat = top.toNat - rsp.toNat) : Faithful (e :: log) where
  loads c img rest hsuf := by
    rcases List.suffix_cons_iff.mp hsuf with heq | hsuf
    · obtain ⟨rfl, rfl⟩ := List.cons.inj heq
      exact hload c img rfl
    · exact h.loads c img rest hsuf
  copies c rsp top size hmem := by
    rcases List.mem_cons.mp hmem with heq | hmem
    · exact hcopy c rsp top size heq.symm
    · exact h.copies c rsp top size hmem

/-! ## Objects and their stacks -/

structure HeapOk (h : Heap) : Prop where
  placed : ∀ c co, h.cos c = some co →
    ∃ sid st, h.Placed c co sid st ∧ st.shared = co.sharedStack
  alone : ∀ c d co co' sid, h.cos c = some co → h.cos d = some co' →
    co.stack = some sid → co'.stack = some sid → co.sharedStack = false → c = d
  owner : ∀ sid st o, h.coStacks sid = some st → st.shared = true → st.usedBy = some o →
    ∃ co, h.Placed o co sid st
  room : ∀ sid st, h.coStacks sid = some st → st.shared = true → 8 ≤ st.stackTop.toNat
  pool : ∀ sid ∈ h.sharedStackPool, ∃ st, h.coStacks sid = some st ∧ st.shared = true

variable {h : Heap} {c d : CoId} {co co' : Coroutine} {sid sid' : StackId} {st st' : CoStack}

theorem Placed.det (hp : h.Placed c co sid st) (hp' : h.Placed c co' sid' st') :
    co' = co ∧ sid' = sid ∧ st' = st := by
  obtain rfl := Option.some.inj (hp.obj.symm.trans hp'.obj)
  obtain rfl := Option.some.inj (hp.ptr.symm.trans hp'.ptr)
  obtain rfl := Option.some.inj (hp.buf.symm.trans hp'.buf)
  exact ⟨rfl, rfl, rfl⟩

theorem HeapOk.shared_eq (ok : HeapOk h) (hp : h.Placed c co sid st) :
    st.shared = co.sharedStack := by
  obtain ⟨sid', st', hp', heq⟩ := ok.placed c co hp.obj
  obtain ⟨-, rfl, rfl⟩ := Placed.det hp hp'
  exact heq

/-- Two coroutines on one stack both use it as a shared one. -/
theorem HeapOk.shared_of_ne (ok : HeapOk h) (hc : h.Placed c co sid st)
    (hd : h.Placed d co' sid st') (hne : d ≠ c) :
    co'.sharedStack = true ∧ co.sharedStack = true := by
  constructor
  · by_contra hs
    exact hne (ok.alone d c co' co sid hd.obj hc.obj hd.ptr hc.ptr (by simpa using hs))
  · by_contra hs
    exact hne (ok.alone c d co co' sid hc.obj hd.obj hc.ptr hd.ptr (by simpa using hs)).symm

theorem placed_setCo {new : Coroutine} (hd : (h.setCo c new).Placed d co sid st) :
    (d = c ∧ co = new ∧ new.stack = some sid ∧ h.coStacks sid = some st) ∨
    (d ≠ c ∧ h.Placed d co sid st) := by
  have hobj := hd.obj
  by_cases hdc : d = c
  · simp only [Heap.setCo_cos, hdc, if_true, Option.some.injEq] at hobj
    subst hobj
    exact .inl ⟨hdc, rfl, hd.ptr, hd.buf⟩
  · simp only [Heap.setCo_cos, hdc, if_false] at hobj
    exact .inr ⟨hdc, hobj, hd.ptr, hd.buf⟩

theorem Placed.setCo (hp : h.Placed d co sid st) (new : Coroutine) (hne : d ≠ c) :
    (h.setCo c new).Placed d co sid st :=
  ⟨by simpa [hne] using hp.obj, hp.ptr, hp.buf⟩

theorem placed_setStackObj {new : CoStack} (hd : (h.setStackObj sid new).Placed d co sid' st) :
    (sid' = sid ∧ st = new ∧ h.cos d = some co ∧ co.stack = some sid) ∨
    (sid' ≠ sid ∧ h.Placed d co sid' st) := by
  have hbuf := hd.buf
  by_cases hsid : sid' = sid
  · simp only [Heap.setStackObj_coStacks, hsid, if_true, Option.some.injEq] at hbuf
    exact .inl ⟨hsid, hbuf.symm, hd.obj, hsid ▸ hd.ptr⟩
  · simp only [Heap.setStackObj_coStacks, hsid, if_false] at hbuf
    exact .inr ⟨hsid, hd.obj, hd.ptr, hbuf⟩

/-- A change of a coroutine object that leaves its stack pointer alone. -/
theorem HeapOk.setCo (ok : HeapOk h) (hp : h.Placed c co sid st) {new : Coroutine}
    (hptr : new.stack = co.stack) (hsh : new.sharedStack = co.sharedStack) :
    HeapOk (h.setCo c new) where
  placed d co' hd := by
    by_cases hdc : d = c
    · subst hdc
      simp only [Heap.setCo_cos, if_true, Option.some.injEq] at hd
      subst hd
      exact ⟨sid, st, ⟨by simp, hptr.trans hp.ptr, hp.buf⟩, (ok.shared_eq hp).trans hsh.symm⟩
    · simp only [Heap.setCo_cos, hdc, if_false] at hd
      obtain ⟨sid', st', hp', heq⟩ := ok.placed d co' hd
      exact ⟨sid', st', Placed.setCo hp' new hdc, heq⟩
  alone d e co₁ co₂ sid' hd he hs₁ hs₂ hpriv := by
    -- both objects have the stack and the kind of an object of `h`
    have old : ∀ {x y}, (h.setCo c new).cos x = some y →
        ∃ z, h.cos x = some z ∧ z.stack = y.stack ∧ z.sharedStack = y.sharedStack := by
      intro x y hx
      by_cases hxc : x = c
      · subst hxc
        simp only [Heap.setCo_cos, if_true, Option.some.injEq] at hx
        subst hx
        exact ⟨co, hp.obj, hptr.symm, hsh.symm⟩
      · simp only [Heap.setCo_cos, hxc, if_false] at hx
        exact ⟨y, hx, rfl, rfl⟩
    obtain ⟨z₁, hz₁, hst₁, hk₁⟩ := old hd
    obtain ⟨z₂, hz₂, hst₂, -⟩ := old he
    exact ok.alone d e z₁ z₂ sid' hz₁ hz₂ (hst₁.trans hs₁) (hst₂.trans hs₂) (hk₁.trans hpriv)
  owner sid' st' o hst hshared ho := by
    obtain ⟨co', hp'⟩ := ok.owner sid' st' o hst hshared ho
    by_cases hoc : o = c
    · subst hoc
      obtain ⟨rfl, rfl, rfl⟩ := Placed.det hp hp'
      exact ⟨new, by simp, hptr.trans hp.ptr, hp.buf⟩
    · exact ⟨co', Placed.setCo hp' new hoc⟩
  room := ok.room
  pool := ok.pool

/-- A change of a co_stack that keeps its bounds and its kind. A new user of a
shared stack must be one of its coroutines. -/
theorem HeapOk.setStackObj (ok : HeapOk h) (hst : h.coStacks sid = some st) {new : CoStack}
    (htop : new.stackTop = st.stackTop) (hsh : new.shared = st.shared)
    (hown : ∀ o, new.shared = true → new.usedBy = some o →
      ∃ co, h.cos o = some co ∧ co.stack = some sid) :
    HeapOk (h.setStackObj sid new) where
  placed d co' hd := by
    obtain ⟨sid', st', hp', heq⟩ := ok.placed d co' hd
    by_cases hsid : sid' = sid
    · subst hsid
      obtain rfl := Option.some.inj (hst.symm.trans hp'.buf)
      exact ⟨sid', new, ⟨hd, hp'.ptr, by simp⟩, hsh.trans heq⟩
    · exact ⟨sid', st', ⟨hd, hp'.ptr, by simpa [hsid] using hp'.buf⟩, heq⟩
  alone := ok.alone
  owner sid' st' o hst' hshared ho := by
    by_cases hsid : sid' = sid
    · subst hsid
      simp only [Heap.setStackObj_coStacks, if_true, Option.some.injEq] at hst'
      subst hst'
      obtain ⟨co', hobj, hptr⟩ := hown o hshared ho
      exact ⟨co', hobj, hptr, by simp⟩
    · simp only [Heap.setStackObj_coStacks, hsid, if_false] at hst'
      obtain ⟨co', hp'⟩ := ok.owner sid' st' o hst' hshared ho
      exact ⟨co', hp'.obj, hp'.ptr, by simpa [hsid] using hst'⟩
  room sid' st' hst' hshared := by
    by_cases hsid : sid' = sid
    · subst hsid
      simp only [Heap.setStackObj_coStacks, if_true, Option.some.injEq] at hst'
      subst hst'
      exact htop ▸ ok.room sid' st hst (hsh ▸ hshared)
    · simp only [Heap.setStackObj_coStacks, hsid, if_false] at hst'
      exact ok.room sid' st' hst' hshared
  pool sid' hmem := by
    obtain ⟨st', hst', hshared⟩ := ok.pool sid' hmem
    by_cases hsid : sid' = sid
    · subst hsid
      obtain rfl := Option.some.inj (hst.symm.trans hst')
      exact ⟨new, by simp, hsh.trans hshared⟩
    · exact ⟨st', by simpa [hsid] using hst', hshared⟩

/-! ## The invariant -/

/-- Where the bytes of a suspended coroutine are. -/
def restingBytes (c : CoId) (co : Coroutine) (st : CoStack) : List UInt8 :=
  if co.sharedStack = false ∨ st.usedBy = some c then st.above co.savedCtx.rsp
  else co.stackCopy.getD []

theorem restingBytes_inPlace (hin : co.sharedStack = false ∨ st.usedBy = some c) :
    restingBytes c co st = st.above co.savedCtx.rsp := if_pos hin

theorem restingBytes_away (hs : co.sharedStack = true) (hu : st.usedBy ≠ some c) :
    restingBytes c co st = co.stackCopy.getD [] := by
  simp [restingBytes, hs, hu]

/-- A coroutine is in place on a private stack, or as the user of a shared one. -/
theorem inPlace_of_shared (hin : co.sharedStack = true → st.usedBy = some c) :
    co.sharedStack = false ∨ st.usedBy = some c := by
  cases hs : co.sharedStack with
  | false => exact .inl rfl
  | true => exact .inr (hin hs)

/-- The copy of a coroutine that is off its stack covers the bytes from its
saved stack pointer to the top. -/
structure HasCopy (co : Coroutine) (st : CoStack) : Prop where
  size : co.stackCopySize = st.stackTop - co.savedCtx.rsp
  copy : ∃ bytes, co.stackCopy = some bytes ∧
    bytes.length = (st.stackTop - co.savedCtx.rsp).toNat

/-- The suspended coroutine `c` has its last image. -/
structure Rests (log : List Event) (c : CoId) (co : Coroutine) (st : CoStack) : Prop where
  fits : co.sharedStack = true → co.savedCtx.rsp ≤ st.stackTop
  away : co.sharedStack = true → st.usedBy ≠ some c → HasCopy co st
  kept : lastImage c log = some ⟨loadContext co.savedCtx, restingBytes c co st⟩

/-- The bytes of a coroutine in its private copy do not depend on the stack. -/
theorem Rests.away_congr {log : List Event} (hr : Rests log c co st)
    (hs : co.sharedStack = true) (hu : st.usedBy ≠ some c)
    (hu' : st'.usedBy ≠ some c) (htop : st'.stackTop = st.stackTop) : Rests log c co st' where
  fits _ := htop ▸ hr.fits hs
  away _ _ := ⟨htop ▸ (hr.away hs hu).size, htop ▸ (hr.away hs hu).copy⟩
  kept := by
    rw [restingBytes_away hs hu', ← restingBytes_away hs hu]
    exact hr.kept

theorem Rests.log_congr {log log' : List Event} (hr : Rests log c co st)
    (hlog : lastImage c log' = lastImage c log) : Rests log' c co st :=
  ⟨hr.fits, hr.away, hlog.trans hr.kept⟩

structure Inv (run : CoPtr) (m : Machine) : Prop where
  ok : HeapOk m.heap
  live : ∀ c, some c = run → ∃ co, m.heap.cos c = some co
  rests : ∀ c co sid st, m.heap.Placed c co sid st → some c ≠ run → Rests m.log c co st
  runs : ∀ c co sid st, m.heap.Placed c co sid st → some c = run → co.sharedStack = true →
    st.usedBy = some c ∧ m.cpu.rsp ≤ st.stackTop
  history : Faithful m.log

variable {m m' : Machine} {run : CoPtr} {k : Code}

/-- The running coroutine has a stack. -/
theorem Inv.running (h : Inv (some c) m) : ∃ co sid st, m.heap.Placed c co sid st := by
  obtain ⟨co, hobj⟩ := h.live c rfl
  obtain ⟨sid, st, hp, -⟩ := h.ok.placed c co hobj
  exact ⟨co, sid, st, hp⟩

theorem Inv.sched (h : Inv run m) (s : Sched) : Inv run { m with sched := s } :=
  ⟨h.ok, h.live, h.rests, h.runs, h.history⟩

/-- Recording an event that carries no image of a suspended coroutine. -/
theorem Inv.record (h : Inv run m) {e : Event}
    (hlast : ∀ c, lastImage c (e :: m.log) = lastImage c m.log)
    (hhist : Faithful (e :: m.log)) : Inv run (m.record e) where
  ok := h.ok
  live := h.live
  rests c co sid st hp hne := (h.rests c co sid st hp hne).log_congr (hlast c)
  runs := h.runs
  history := hhist

/-! ## Steps of the running coroutine -/

/-- A store of the running coroutine on its own stack: whoever else uses that
stack has its bytes in a copy. -/
theorem write_inv (h : Inv (some c) m) (hp : m.heap.Placed c co sid st)
    (bytes : Word → UInt8) :
    Inv (some c) { m with heap := m.heap.setStackObj sid { st with bytes := bytes } } where
  ok := h.ok.setStackObj hp.buf rfl rfl fun o hsh ho => by
    obtain ⟨co', hp'⟩ := h.ok.owner sid st o hp.buf hsh ho
    exact ⟨co', hp'.obj, hp'.ptr⟩
  live := h.live
  rests d co' sid' st' hd hne := by
    rcases placed_setStackObj hd with ⟨rfl, rfl, hobj, hptr⟩ | ⟨-, hd'⟩
    · have hd' : m.heap.Placed d co' sid' st := ⟨hobj, hptr, hp.buf⟩
      have hdc : d ≠ c := fun he => hne (by rw [he])
      obtain ⟨hs, hsc⟩ := h.ok.shared_of_ne hp hd' hdc
      have hu : st.usedBy ≠ some d := by
        rw [(h.runs c co sid' st hp rfl hsc).1]
        exact fun he => hdc (Option.some.inj he).symm
      exact (h.rests d co' sid' st hd' hne).away_congr hs hu hu rfl
    · exact h.rests d co' sid' st' hd' hne
  runs d co' sid' st' hd heq hs := by
    rcases placed_setStackObj hd with ⟨rfl, rfl, hobj, hptr⟩ | ⟨-, hd'⟩
    · exact h.runs d co' sid' st ⟨hobj, hptr, hp.buf⟩ heq hs
    · exact h.runs d co' sid' st' hd' heq hs
  history := h.history

/-- The running coroutine computes, with its stack pointer on its stack. -/
theorem compute_inv {cpu : Cpu} (h : Inv (some c) m) (hp : m.heap.Placed c co sid st)
    (hold : st.holds cpu.rsp = true) : Inv (some c) { m with cpu := cpu } where
  ok := h.ok
  live := h.live
  rests := h.rests
  history := h.history
  runs d co' sid' st' hd heq hs := by
    have hused := (h.runs d co' sid' st' hd heq hs).1
    obtain rfl : d = c := Option.some.inj heq
    obtain ⟨rfl, rfl, rfl⟩ := Placed.det hp hd
    refine ⟨hused, ?_⟩
    have hroom := h.ok.room sid' st' hp.buf ((h.ok.shared_eq hp).trans hs)
    simp only [CoStack.holds, Bool.or_eq_true, beq_iff_eq, Bool.and_eq_true,
      decide_eq_true_eq] at hold
    rcases hold with hzero | ⟨-, hle⟩
    · rw [hzero] at hroom
      simp at hroom
    · exact hle

/-! ## Suspending -/

/-- An event that notes `img` as the image `c` was left with. -/
def NotesImage (e : Event) (c : CoId) (img : Image) : Prop :=
  e = .rescheduled c img ∨ e = .yielded c img

theorem NotesImage.lastImage {e : Event} {img : Image} (he : NotesImage e c img)
    (log : List Event) :
    lastImage d (e :: log) = if c = d then some img else lastImage d log := by
  rcases he with rfl | rfl <;> rfl

theorem NotesImage.faithful {e : Event} {img : Image} (he : NotesImage e c img)
    {log : List Event} (hlog : Faithful log) : Faithful (e :: log) := by
  apply Faithful.cons hlog
  · rintro d img' rfl
    rcases he with he | he <;> cases he
  · rintro d rsp top size rfl
    rcases he with he | he <;> cases he

theorem runningImage_eq (hp : m.heap.Placed m.sched.current co sid st) :
    m.runningImage = some ⟨m.cpu, st.above m.cpu.rsp⟩ := by
  simp only [Machine.runningImage, hp.place, Option.bind_eq_bind, Option.bind_some]

theorem save_eq (hp : m.heap.Placed m.sched.current co sid st) :
    m.save k = some (⟨{ m.cpu with rip := k.retaddr }, st.above m.cpu.rsp⟩, { m with
      heap := m.heap.setCo m.sched.current
        { co with savedCtx := saveContext k co.savedCtx m.cpu } }) := by
  simp only [Machine.save, runningImage_eq hp, hp.obj, Option.bind_eq_bind, Option.bind_some]

/-- After `save_context` the caller rests in place: its bytes are where it
left them, and its registers are in `saved_ctx`. -/
theorem suspend_inv {img : Image} {e : Event} (h : Inv (some m.sched.current) m)
    (hsave : m.save k = some (img, m')) (he : NotesImage e m.sched.current img) :
    Inv none (m'.record e) ∧ m'.sched = m.sched := by
  obtain ⟨co, sid, st, hp⟩ := h.running
  rw [save_eq hp, Option.some.injEq, Prod.mk.injEq] at hsave
  obtain ⟨rfl, rfl⟩ := hsave
  refine ⟨?_, rfl⟩
  constructor
  · exact h.ok.setCo hp rfl rfl
  · exact fun _ hrun => nomatch hrun
  · intro d co' sid' st' hd _
    rcases placed_setCo hd with ⟨rfl, rfl, hptr, hbuf⟩ | ⟨hne, hd'⟩
    · -- the caller: nothing above its stack pointer has moved
      obtain ⟨-, rfl, rfl⟩ := Placed.det hp ⟨hp.obj, hptr, hbuf⟩
      have hin : co.sharedStack = true → st'.usedBy = some m.sched.current ∧
          m.cpu.rsp ≤ st'.stackTop := h.runs _ co sid' st' hp rfl
      constructor
      · exact fun hs => (hin hs).2
      · exact fun hs hu => absurd (hin hs).1 hu
      · have hplace' := inPlace_of_shared fun hs => (hin hs).1
        show lastImage _ (e :: m.log) = _
        rw [he.lastImage, if_pos rfl, loadContext_saveContext,
          restingBytes_inPlace (by exact hplace')]
        rfl
    · have hr := h.rests d co' sid' st' hd' (fun hc => hne (Option.some.inj hc))
      refine hr.log_congr ?_
      show lastImage d (e :: m.log) = _
      rw [he.lastImage, if_neg (Ne.symm hne)]
  · intro d co' sid' st' _ hrun
    cases hrun
  · exact he.faithful h.history

/-! ## Swapping in -/

/-- The copy of `co` holds what is on its stack. -/
structure Saved (co : Coroutine) (st : CoStack) : Prop where
  size : co.stackCopySize = st.stackTop - co.savedCtx.rsp
  copy : co.stackCopy = some (st.above co.savedCtx.rsp)

theorem Saved.hasCopy (h : Saved co st) : HasCopy co st :=
  ⟨h.size, _, h.copy, by simp [CoStack.above]⟩

theorem saveStack_eq {o : CoId} (hp : m.heap.Placed o co sid st) :
    m.saveStack o = some ({ m with
        heap := m.heap.setCo o { co with
          stackCopySize := st.stackTop - co.savedCtx.rsp
          stackCopy := some (st.above co.savedCtx.rsp) } }.record
      (.copied o co.savedCtx.rsp st.stackTop (st.stackTop - co.savedCtx.rsp))) := by
  simp only [Machine.saveStack, hp.place, Option.bind_eq_bind, Option.bind_some, CoStack.above]

/-- `save_stack` of the user of a shared stack copies without wrapping around,
and changes nothing that counts yet. -/
theorem saveStack_inv {o : CoId} (h : Inv none m) (hp : m.heap.Placed o co sid st)
    (hs : co.sharedStack = true) (hu : st.usedBy = some o) (hsave : m.saveStack o = some m') :
    Inv none m' ∧ m'.sched = m.sched ∧ m'.heap.coStacks = m.heap.coStacks ∧
      (∀ d co', d ≠ o → (m'.heap.cos d = some co' ↔ m.heap.cos d = some co')) ∧
      ∃ co', m'.heap.Placed o co' sid st ∧ Saved co' st := by
  rw [saveStack_eq hp, Option.some.injEq] at hsave
  subst hsave
  have hr := h.rests o co sid st hp (by simp)
  have hle : co.savedCtx.rsp ≤ st.stackTop := hr.fits hs
  have hsize : (st.stackTop - co.savedCtx.rsp).toNat =
      st.stackTop.toNat - co.savedCtx.rsp.toNat := BitVec.toNat_sub_of_le hle
  refine ⟨?_, rfl, rfl, ?_, ?_⟩
  · constructor
    · exact h.ok.setCo hp rfl rfl
    · exact fun _ hrun => nomatch hrun
    · intro d co' sid' st' hd _
      rcases placed_setCo hd with ⟨rfl, rfl, hptr, hbuf⟩ | ⟨-, hd'⟩
      · obtain ⟨-, rfl, rfl⟩ := Placed.det hp ⟨hp.obj, hptr, hbuf⟩
        refine ⟨hr.fits, fun _ hne => absurd hu hne, ?_⟩
        rw [restingBytes_inPlace (.inr hu)]
        have hk := hr.kept
        rwa [restingBytes_inPlace (.inr hu)] at hk
      · exact (h.rests d co' sid' st' hd' (by simp)).log_congr rfl
    · intro d co' sid' st' _ hrun
      cases hrun
    · refine Faithful.cons h.history (fun _ _ he => nomatch he) ?_
      rintro _ _ _ _ ⟨⟩
      exact ⟨hle, hsize⟩
  · intro d co' hne
    simp [Machine.record, hne]
  · refine ⟨{ co with
        stackCopySize := st.stackTop - co.savedCtx.rsp
        stackCopy := some (st.above co.savedCtx.rsp) }, ⟨?_, hp.ptr, hp.buf⟩, rfl, rfl⟩
    simp [Machine.record]

/-- Writing a copy back to the top of the stack puts its first byte at the
saved stack pointer. -/
theorem above_restore {rsp size : Word} {copy : List UInt8} (hsize : size = st.stackTop - rsp)
    (hlen : copy.length = (st.stackTop - rsp).toNat) (used : CoPtr) :
    CoStack.above
      { st with
        bytes := writeBytes st.bytes (st.stackTop - size) (copy.take size.toNat)
        usedBy := used } rsp = copy := by
  have hdst : st.stackTop - size = rsp := by
    rw [hsize]
    bv_omega
  have htake : copy.take size.toNat = copy :=
    List.take_of_length_le (by rw [hlen, hsize])
  simp only [CoStack.above, hdst, htake]
  rw [← hlen]
  exact readBytes_writeBytes _ _ _ (by rw [hlen]; exact Nat.le_of_lt (BitVec.isLt _))

theorem restoreStack_eq {heap : Heap} (hp : h.Placed c co sid st) {copy : List UInt8}
    (hcopy : co.stackCopy = some copy) (hres : h.restoreStack c = some heap) :
    heap = (h.setCo c { co with stackCopy := none }).setStackObj sid
      { st with
        bytes := writeBytes st.bytes (st.stackTop - co.stackCopySize)
          (copy.take co.stackCopySize.toNat)
        usedBy := some c } := by
  simp only [Heap.restoreStack, hp.place, hcopy, Option.bind_eq_bind, Option.bind_some] at hres
  split at hres
  · cases hres
  · exact (Option.some.inj hres).symm

/-- `restore_stack` moves the bytes of `c` from its copy to the stack, once the
former user has been saved. -/
theorem restoreStack_inv {heap : Heap} (h : Inv none m) (hp : m.heap.Placed c co sid st)
    (hs : co.sharedStack = true) (hu : st.usedBy ≠ some c)
    (hprev : ∀ o co', st.usedBy = some o → m.heap.Placed o co' sid st → Saved co' st)
    (hres : m.heap.restoreStack c = some heap) :
    Inv none { m with heap := heap } ∧
      ∃ co' st', heap.Placed c co' sid st' ∧ st'.usedBy = some c := by
  have hr := h.rests c co sid st hp (by simp)
  obtain ⟨hsize, copy, hcopy, hlen⟩ := hr.away hs hu
  obtain rfl := restoreStack_eq hp hcopy hres
  refine ⟨⟨?_, (fun _ hrun => nomatch hrun), ?_, ?_, h.history⟩,
    { co with stackCopy := none }, _,
    ⟨by simp, hp.ptr, if_pos rfl |> (Heap.setStackObj_coStacks ..).trans⟩, rfl⟩
  · have hok : HeapOk (m.heap.setCo c { co with stackCopy := none }) := h.ok.setCo hp rfl rfl
    refine hok.setStackObj hp.buf rfl rfl ?_
    rintro o - ⟨⟩
    exact ⟨{ co with stackCopy := none }, by simp, hp.ptr⟩
  · intro d co' sid' st' hd _
    rcases placed_setStackObj hd with ⟨rfl, rfl, hobj, hptr⟩ | ⟨hsid, hd'⟩
    · by_cases hdc : d = c
      · subst hdc
        simp only [Heap.setCo_cos, if_true, Option.some.injEq] at hobj
        subst hobj
        refine ⟨hr.fits, fun _ hne => absurd rfl hne, ?_⟩
        rw [restingBytes_inPlace (.inr rfl), above_restore hsize hlen]
        have hk := hr.kept
        rwa [restingBytes_away hs hu, hcopy] at hk
      · simp only [Heap.setCo_cos, hdc, if_false] at hobj
        have hd' : m.heap.Placed d co' sid' st := ⟨hobj, hptr, hp.buf⟩
        have hsd := (h.ok.shared_of_ne hp hd' hdc).1
        have hrd := h.rests d co' _ _ hd' (by simp)
        have hnew : (some c : CoPtr) ≠ some d := fun he => hdc (Option.some.inj he).symm
        by_cases hud : st.usedBy = some d
        · -- the former user: its bytes were just copied
          have hsaved := hprev d co' hud hd'
          refine ⟨hrd.fits, fun _ _ => ⟨hsaved.hasCopy.size, hsaved.hasCopy.copy⟩, ?_⟩
          rw [restingBytes_away hsd hnew, hsaved.copy]
          have hk := hrd.kept
          rwa [restingBytes_inPlace (.inr hud)] at hk
        · exact hrd.away_congr hsd hud hnew rfl
    · rcases placed_setCo hd' with ⟨rfl, rfl, hptr, -⟩ | ⟨-, hd''⟩
      · exact absurd (Option.some.inj (hptr.symm.trans hp.ptr)) hsid
      · exact h.rests d co' sid' st' hd'' (by simp)
  · intro d co' sid' st' _ hrun
    cases hrun

theorem inStack_shared (hp : m.heap.Placed c co sid st) (hs : co.sharedStack = true) :
    m.heap.inStack c = some (decide (st.usedBy = some c)) := by
  simp [Heap.inStack, hp.obj, hp.ptr, hp.buf, hs]

/-- After `co_swap_in` the coroutine has the shared stack, and every other
coroutine still rests. -/
theorem coSwapIn_inv (h : Inv none m) (hp : m.heap.Placed c co sid st)
    (hs : co.sharedStack = true) (hswap : m.coSwapIn c = some m') :
    Inv none m' ∧ m'.sched = m.sched ∧
      ∃ co' sid' st', m'.heap.Placed c co' sid' st' ∧ st'.usedBy = some c := by
  simp only [Machine.coSwapIn, inStack_shared hp hs, Option.bind_eq_bind,
    Option.bind_some] at hswap
  by_cases hu : st.usedBy = some c
  · -- it was the last one on the stack
    simp only [hu, decide_true, if_true, Option.some.injEq] at hswap
    subst hswap
    exact ⟨h, rfl, co, sid, st, hp, hu⟩
  · simp only [hu, decide_false, Bool.false_eq_true, if_false, hp.place,
      Option.bind_some] at hswap
    cases hused : st.usedBy with
    | none =>
      simp only [hused, Option.bind_eq_some_iff, Option.some.injEq] at hswap
      obtain ⟨heap, hres, rfl⟩ := hswap
      obtain ⟨hinv, co', st', hp', hu'⟩ := restoreStack_inv h hp hs hu
        (fun o co' ho => by rw [hused] at ho; cases ho) hres
      exact ⟨hinv, rfl, co', sid, st', hp', hu'⟩
    | some o =>
      simp only [hused, Option.bind_eq_some_iff, Option.some.injEq] at hswap
      obtain ⟨m₁, hsaved, heap, hres, rfl⟩ := hswap
      -- the user is saved first, and `owner` finds it on this very stack
      have hoc : o ≠ c := fun he => hu (by rw [hused, he])
      obtain ⟨coo, hpo⟩ := h.ok.owner sid st o hp.buf ((h.ok.shared_eq hp).trans hs) hused
      have hso := (h.ok.shared_of_ne hp hpo hoc).1
      obtain ⟨hinv, hsched, hstacks, hcos, coo', hpo', hsv⟩ :=
        saveStack_inv h hpo hso hused hsaved
      have hp₁ : m₁.heap.Placed c co sid st :=
        ⟨(hcos c co (Ne.symm hoc)).mpr hp.obj, hp.ptr, by rw [hstacks]; exact hp.buf⟩
      obtain ⟨hinv', co', st', hp', hu'⟩ := restoreStack_inv hinv hp₁ hs hu
        (fun o' co'' ho hp'' => by
          obtain rfl : o' = o := Option.some.inj (ho.symm.trans hused)
          obtain ⟨rfl, -, -⟩ := Placed.det hpo' hp''
          exact hsv) hres
      exact ⟨hinv', hsched, co', sid, st', hp', hu'⟩

theorem load_eq (hp : m.heap.Placed m.sched.current co sid st) :
    m.load = some ({ m with cpu := loadContext co.savedCtx }.record
      (.loaded m.sched.current ⟨loadContext co.savedCtx, st.above co.savedCtx.rsp⟩)) := by
  simp only [Machine.load, hp.obj, Option.bind_eq_bind, Option.bind_some]
  rw [runningImage_eq (m := { m with cpu := loadContext co.savedCtx }) hp]
  rfl

/-- `load_context` hands the registers of a resting coroutine to it; its bytes
are in place. -/
theorem load_inv (h : Inv none m) (hp : m.heap.Placed m.sched.current co sid st)
    (hin : co.sharedStack = true → st.usedBy = some m.sched.current)
    (hload : m.load = some m') : Inv (some m'.sched.current) m' := by
  have hr := h.rests _ co sid st hp (by simp)
  have hplace := inPlace_of_shared hin
  rw [load_eq hp, Option.some.injEq] at hload
  subst hload
  constructor
  · exact h.ok
  · rintro d ⟨⟩
    exact ⟨co, hp.obj⟩
  · intro d co' sid' st' hd _
    exact (h.rests d co' sid' st' hd (by simp)).log_congr rfl
  · intro d co' sid' st' hd heq hs
    obtain rfl : d = m.sched.current := Option.some.inj heq
    obtain ⟨rfl, rfl, rfl⟩ := Placed.det hp hd
    exact ⟨hin hs, hr.fits hs⟩
  · refine Faithful.cons h.history ?_ (fun _ _ _ _ he => nomatch he)
    rintro _ _ ⟨⟩
    have hk := hr.kept
    rwa [restingBytes_inPlace hplace] at hk

/-- `co_sched`, from a handler to the next coroutine. -/
theorem coSched_inv (h : Inv none m) (hsched : m.coSched = some m') :
    Inv (some m'.sched.current) m' := by
  simp only [Machine.coSched, Option.bind_eq_bind] at hsched
  obtain ⟨s, -, hsched⟩ := Option.bind_eq_some_iff.mp hsched
  obtain ⟨co, hobj, hsched⟩ := Option.bind_eq_some_iff.mp hsched
  have h₁ := h.sched s
  obtain ⟨sid, st, hp, hsh⟩ := h₁.ok.placed _ co hobj
  cases hs : co.sharedStack with
  | false =>
    simp only [hs, Bool.false_eq_true, if_false, Option.bind_some] at hsched
    exact load_inv h₁ hp (fun ht => by rw [hs] at ht; cases ht) hsched
  | true =>
    simp only [hs, if_true] at hsched
    obtain ⟨m₁, hswap, hload⟩ := Option.bind_eq_some_iff.mp hsched
    obtain ⟨h₂, hsched, co', sid', st', hp', hu⟩ := coSwapIn_inv h₁ hp hs hswap
    have hcur : m₁.sched.current = s.current := by rw [hsched]
    rw [← hcur] at hp' hu
    exact load_inv h₂ hp' (fun _ => hu) hload

/-- `co_swap_in` does nothing, or restores `c` after the former user has been saved. -/
theorem coSwapIn_cases (hswap : m.coSwapIn c = some m') :
    m' = m ∨ ∃ m₁ heap, (m₁ = m ∨ ∃ o, m.saveStack o = some m₁) ∧
      m₁.heap.restoreStack c = some heap ∧ m' = { m₁ with heap := heap } := by
  simp only [Machine.coSwapIn, Option.bind_eq_bind] at hswap
  obtain ⟨inStack, -, hswap⟩ := Option.bind_eq_some_iff.mp hswap
  cases inStack with
  | true => exact .inl (Option.some.inj hswap).symm
  | false =>
    simp only [Bool.false_eq_true, if_false] at hswap
    obtain ⟨p, -, hswap⟩ := Option.bind_eq_some_iff.mp hswap
    cases hused : p.2.2.usedBy with
    | none =>
      simp only [hused, Option.bind_some, Option.bind_eq_some_iff, Option.some.injEq] at hswap
      obtain ⟨heap, hres, rfl⟩ := hswap
      exact .inr ⟨m, heap, .inl rfl, hres, rfl⟩
    | some o =>
      simp only [hused, Option.bind_eq_some_iff, Option.some.injEq] at hswap
      obtain ⟨m₁, hsave, heap, hres, rfl⟩ := hswap
      exact .inr ⟨m₁, heap, .inr ⟨o, hsave⟩, hres, rfl⟩

/-- `co_sched` loads the next coroutine, after it has been swapped in if need be. -/
theorem coSched_cases (hsched : m.coSched = some m') :
    ∃ s m₁, m.sched.coSched = some s ∧
      (m₁ = { m with sched := s } ∨
        Machine.coSwapIn { m with sched := s } s.current = some m₁) ∧ m₁.load = some m' := by
  simp only [Machine.coSched, Option.bind_eq_bind] at hsched
  obtain ⟨s, hs, hsched⟩ := Option.bind_eq_some_iff.mp hsched
  obtain ⟨co, -, hsched⟩ := Option.bind_eq_some_iff.mp hsched
  cases hsh : co.sharedStack with
  | false =>
    simp only [hsh, Bool.false_eq_true, if_false, Option.bind_some] at hsched
    exact ⟨s, _, hs, .inl rfl, hsched⟩
  | true =>
    simp only [hsh, if_true] at hsched
    obtain ⟨m₁, hswap, hload⟩ := Option.bind_eq_some_iff.mp hsched
    exact ⟨s, m₁, hs, .inr hswap, hload⟩

/-! ## Exit -/

/-- A shared stack after `~coroutine` of `c`. -/
def release (c : CoId) (st : CoStack) : CoStack :=
  if st.usedBy = some c then { st with usedBy := none } else st

theorem release_of_ne (hu : st.usedBy ≠ some c) : release c st = st := if_neg hu

theorem release_shared : (release c st).shared = st.shared := by
  unfold release
  split <;> rfl

theorem release_stackTop : (release c st).stackTop = st.stackTop := by
  unfold release
  split <;> rfl

theorem release_usedBy (hd : (release c st).usedBy = some d) : st.usedBy = some d ∧ d ≠ c := by
  unfold release at hd
  split at hd
  · cases hd
  · next hu => exact ⟨hd, fun hdc => hu (hdc ▸ hd)⟩

/-- `~coroutine`: the object is gone, a private stack with it; a shared stack
stays, released. -/
structure Drops (h h' : Heap) (c : CoId) (co : Coroutine) (sid : StackId) (st : CoStack) :
    Prop where
  cos : ∀ d, h'.cos d = if d = c then none else h.cos d
  coStacks : ∀ s, h'.coStacks s =
    if s = sid then (if co.sharedStack then some (release c st) else none) else h.coStacks s
  pool : h'.sharedStackPool = h.sharedStackPool

theorem coDestroy_drops {heap : Heap} (hp : h.Placed c co sid st)
    (hd : h.coDestroy c = some heap) : Drops h heap c co sid st := by
  simp only [Heap.coDestroy, hp.place, Option.bind_eq_bind, Option.bind_some] at hd
  cases hs : co.sharedStack with
  | false =>
    simp only [hs, Bool.not_false, if_true, Option.some.injEq] at hd
    subst hd
    exact ⟨fun d => Function.update_apply .., fun s => by simp [Function.update_apply, hs], rfl⟩
  | true =>
    simp only [hs, Bool.not_true, Bool.false_eq_true, if_false] at hd
    by_cases hu : st.usedBy = some c
    · simp only [hu, if_true, Option.some.injEq] at hd
      subst hd
      exact ⟨fun d => Function.update_apply .., fun s => by simp [hs, release, hu], rfl⟩
    · simp only [hu, if_false, Option.some.injEq] at hd
      subst hd
      refine ⟨fun d => Function.update_apply .., fun s => ?_, rfl⟩
      by_cases hsid : s = sid
      · simp [hs, release_of_ne hu, hsid, hp.buf]
      · simp [hsid]

variable {heap : Heap}

theorem Drops.obj (hdrop : Drops h heap c co sid st) (hd : heap.cos d = some co') :
    d ≠ c ∧ h.cos d = some co' := by
  rw [hdrop.cos] at hd
  split at hd
  · cases hd
  · next hdc => exact ⟨hdc, hd⟩

theorem Drops.buf (hdrop : Drops h heap c co sid st) (hst : heap.coStacks sid' = some st') :
    (sid' = sid ∧ co.sharedStack = true ∧ st' = release c st) ∨
    (sid' ≠ sid ∧ h.coStacks sid' = some st') := by
  rw [hdrop.coStacks] at hst
  by_cases hsid : sid' = sid
  · rw [if_pos hsid] at hst
    cases hs : co.sharedStack with
    | false => simp [hs] at hst
    | true =>
      simp only [hs, if_true, Option.some.injEq] at hst
      exact .inl ⟨hsid, rfl, hst.symm⟩
  · rw [if_neg hsid] at hst
    exact .inr ⟨hsid, hst⟩

/-- Whoever was placed before and is not `c` still is. -/
theorem Drops.placed (ok : HeapOk h) (hp : h.Placed c co sid st)
    (hdrop : Drops h heap c co sid st) (hd : h.Placed d co' sid' st') (hne : d ≠ c) :
    ∃ new, heap.Placed d co' sid' new ∧ new.shared = st'.shared := by
  have hobj : heap.cos d = some co' := by
    rw [hdrop.cos, if_neg hne]
    exact hd.obj
  by_cases hsid : sid' = sid
  · subst hsid
    have hs := (ok.shared_of_ne hp hd hne).2
    obtain rfl := Option.some.inj (hp.buf.symm.trans hd.buf)
    exact ⟨release c st, ⟨hobj, hd.ptr, by simp [hdrop.coStacks, hs]⟩, release_shared⟩
  · exact ⟨st', ⟨hobj, hd.ptr, by simpa [hdrop.coStacks, hsid] using hd.buf⟩, rfl⟩

theorem Drops.heapOk (ok : HeapOk h) (hp : h.Placed c co sid st)
    (hdrop : Drops h heap c co sid st) : HeapOk heap where
  placed d co' hd := by
    obtain ⟨hne, hobj⟩ := hdrop.obj hd
    obtain ⟨sid', st', hp', heq⟩ := ok.placed d co' hobj
    obtain ⟨new, hnew, hsh⟩ := hdrop.placed ok hp hp' hne
    exact ⟨sid', new, hnew, hsh.trans heq⟩
  alone d e co₁ co₂ sid' hd he :=
    ok.alone d e co₁ co₂ sid' (hdrop.obj hd).2 (hdrop.obj he).2
  owner sid' st' o hst hsh ho := by
    rcases hdrop.buf hst with ⟨rfl, hs, rfl⟩ | ⟨hsid, hst'⟩
    · obtain ⟨ho', hne⟩ := release_usedBy ho
      obtain ⟨co', hp'⟩ := ok.owner sid' st o hp.buf (release_shared ▸ hsh) ho'
      obtain ⟨new, hnew, -⟩ := hdrop.placed ok hp hp' hne
      obtain rfl := Option.some.inj (hst.symm.trans hnew.buf)
      exact ⟨co', hnew⟩
    · obtain ⟨co', hp'⟩ := ok.owner sid' st' o hst' hsh ho
      have hne : o ≠ c := by
        rintro rfl
        exact hsid (Placed.det hp hp').2.1
      obtain ⟨new, hnew, -⟩ := hdrop.placed ok hp hp' hne
      obtain rfl := Option.some.inj (hst.symm.trans hnew.buf)
      exact ⟨co', hnew⟩
  room sid' st' hst hsh := by
    rcases hdrop.buf hst with ⟨rfl, -, rfl⟩ | ⟨-, hst'⟩
    · rw [release_stackTop]
      exact ok.room sid' st hp.buf (release_shared ▸ hsh)
    · exact ok.room sid' st' hst' hsh
  pool sid' hmem := by
    obtain ⟨st', hst', hsh⟩ := ok.pool sid' (hdrop.pool ▸ hmem)
    by_cases hsid : sid' = sid
    · subst hsid
      obtain rfl := Option.some.inj (hp.buf.symm.trans hst')
      have hs : co.sharedStack = true := (ok.shared_eq hp).symm.trans hsh
      exact ⟨release c st, by simp [hdrop.coStacks, hs], release_shared.trans hsh⟩
    · exact ⟨st', by simpa [hdrop.coStacks, hsid] using hst', hsh⟩

/-- Whoever else is on the stack of `c` still rests when `c` has been destroyed. -/
theorem Rests.released {log : List Event} (hr : Rests log d co st) (hs : co.sharedStack = true)
    (hne : d ≠ c) : Rests log d co (release c st) := by
  by_cases hu : st.usedBy = some c
  · have hud : st.usedBy ≠ some d := by
      rw [hu]
      exact fun he => hne (Option.some.inj he).symm
    exact hr.away_congr hs hud (fun he => hud (release_usedBy he).1) release_stackTop
  · rwa [release_of_ne hu]

/-- Destroying `c` leaves the others as they are, whether `c` was running or not. -/
theorem coDestroy_inv {run' : CoPtr} (h : Inv run m) (hp : m.heap.Placed c co sid st)
    (hd : m.heap.coDestroy c = some heap)
    (hrun : ∀ d, some d = run' ↔ some d = run ∧ d ≠ c) :
    Inv run' ({ m with heap := heap }.record (.exited c)) := by
  have hdrop := coDestroy_drops hp hd
  constructor
  · exact hdrop.heapOk h.ok hp
  · intro d hd'
    obtain ⟨hd', hne⟩ := (hrun d).mp hd'
    obtain ⟨cod, hobj⟩ := h.live d hd'
    exact ⟨cod, (hdrop.cos d).trans (by rw [if_neg hne, hobj])⟩
  · intro d co' sid' st' hd' hrun'
    obtain ⟨hne, hobj⟩ := hdrop.obj hd'.obj
    have hold : some d ≠ run := fun he => hrun' ((hrun d).mpr ⟨he, hne⟩)
    rcases hdrop.buf hd'.buf with ⟨rfl, -, rfl⟩ | ⟨-, hst'⟩
    · have hpd : m.heap.Placed d co' sid' st := ⟨hobj, hd'.ptr, hp.buf⟩
      have hsd := (h.ok.shared_of_ne hp hpd hne).1
      exact ((h.rests d co' sid' st hpd hold).released hsd hne).log_congr rfl
    · exact (h.rests d co' sid' st' ⟨hobj, hd'.ptr, hst'⟩ hold).log_congr rfl
  · intro d co' sid' st' hd' hrun' hs
    obtain ⟨hold, hne⟩ := (hrun d).mp hrun'
    obtain ⟨-, hobj⟩ := hdrop.obj hd'.obj
    rcases hdrop.buf hd'.buf with ⟨rfl, -, rfl⟩ | ⟨-, hst'⟩
    · -- the running coroutine has the stack, so it was not `c` that had it
      have hused := h.runs d co' sid' st ⟨hobj, hd'.ptr, hp.buf⟩ hold hs
      have hu : st.usedBy ≠ some c := by
        rw [hused.1]
        exact fun he => hne (Option.some.inj he)
      rw [release_of_ne hu]
      exact hused
    · exact h.runs d co' sid' st' ⟨hobj, hd'.ptr, hst'⟩ hold hs
  · exact Faithful.cons h.history (fun _ _ he => nomatch he) (fun _ _ _ _ he => nomatch he)

/-- Destroying the running coroutine leaves nobody running. -/
theorem exit_inv (h : Inv (some c) m) (hp : m.heap.Placed c co sid st)
    (hd : m.heap.coDestroy c = some heap) :
    Inv none ({ m with heap := heap }.record (.exited c)) :=
  coDestroy_inv h hp hd fun _ =>
    ⟨(fun he => nomatch he), fun ⟨he, hne⟩ => absurd (Option.some.inj he) hne⟩

/-! ## Creation -/

/-- The heap with a new coroutine `c` on `sid`: a new private stack, or one of
the shared ones. -/
structure Adds (k : Code) (h h' : Heap) (c : CoId) (co : Coroutine) (sid : StackId)
    (st : CoStack) : Prop where
  cos : ∀ d, h'.cos d = if d = c then some co else h.cos d
  coStacks : ∀ s, h'.coStacks s = if s = sid then some st else h.coStacks s
  pool : h'.sharedStackPool = h.sharedStackPool
  fresh : h.cos c = none
  ptr : co.stack = some sid
  kind : st.shared = co.sharedStack
  room : 8 ≤ st.stackTop.toNat
  ctx : co.savedCtx = { (Coroutine.new k false).savedCtx with rsp := st.stackTop - 8 }
  priv : co.sharedStack = false → h.coStacks sid = none ∧ st.above (st.stackTop - 8) = le64 k.coExit
  shar : co.sharedStack = true → h.coStacks sid = some st ∧
    co.stackCopy = some (le64 k.coExit) ∧ co.stackCopySize = 8

theorem Adds.placed (ok : HeapOk h) (hadd : Adds k h heap c co sid st)
    (hd : heap.Placed d co' sid' st') :
    (d = c ∧ co' = co ∧ sid' = sid ∧ st' = st) ∨
    (d ≠ c ∧ h.Placed d co' sid' st' ∧ (sid' = sid → co.sharedStack = true)) := by
  have hobj := hd.obj
  have hbuf := hd.buf
  rw [hadd.cos] at hobj
  rw [hadd.coStacks] at hbuf
  by_cases hdc : d = c
  · rw [if_pos hdc, Option.some.injEq] at hobj
    subst hobj
    obtain rfl : sid = sid' := Option.some.inj (hadd.ptr.symm.trans hd.ptr)
    rw [if_pos rfl, Option.some.injEq] at hbuf
    exact .inl ⟨hdc, rfl, rfl, hbuf.symm⟩
  · rw [if_neg hdc] at hobj
    refine .inr ⟨hdc, ?_⟩
    by_cases hsid : sid' = sid
    · subst hsid
      rw [if_pos rfl, Option.some.injEq] at hbuf
      subst hbuf
      obtain ⟨sid'', st'', hp, -⟩ := ok.placed d co' hobj
      obtain rfl : sid' = sid'' := Option.some.inj (hd.ptr.symm.trans hp.ptr)
      cases hs : co.sharedStack with
      | false =>
        have := hp.buf
        rw [(hadd.priv hs).1] at this
        cases this
      | true => exact ⟨⟨hobj, hd.ptr, (hadd.shar hs).1⟩, fun _ => rfl⟩
    · rw [if_neg hsid] at hbuf
      exact ⟨⟨hobj, hd.ptr, hbuf⟩, fun he => absurd he hsid⟩

theorem Adds.old (hadd : Adds k h heap c co sid st)
    (hd : h.Placed d co' sid' st') : d ≠ c ∧ heap.Placed d co' sid' st' := by
  have hdc : d ≠ c := by
    rintro rfl
    have := hd.obj
    rw [hadd.fresh] at this
    cases this
  refine ⟨hdc, by rw [hadd.cos, if_neg hdc]; exact hd.obj, hd.ptr, ?_⟩
  rw [hadd.coStacks]
  by_cases hsid : sid' = sid
  · subst hsid
    rw [if_pos rfl]
    cases hs : co.sharedStack with
    | false =>
      have := hd.buf
      rw [(hadd.priv hs).1] at this
      cases this
    | true => rw [← (hadd.shar hs).1, hd.buf]
  · rw [if_neg hsid]
    exact hd.buf

/-- An object of the new heap is the new one, or an old one. -/
theorem Adds.obj (hadd : Adds k h heap c co sid st) (hd : heap.cos d = some co') :
    (d = c ∧ co' = co) ∨ (d ≠ c ∧ h.cos d = some co') := by
  rw [hadd.cos] at hd
  by_cases hdc : d = c
  · rw [if_pos hdc, Option.some.injEq] at hd
    exact .inl ⟨hdc, hd.symm⟩
  · rw [if_neg hdc] at hd
    exact .inr ⟨hdc, hd⟩

/-- So is a co_stack; a new one is private. -/
theorem Adds.buf (hadd : Adds k h heap c co sid st) (hst : heap.coStacks sid' = some st') :
    (st' = st ∧ co.sharedStack = false) ∨ h.coStacks sid' = some st' := by
  rw [hadd.coStacks] at hst
  by_cases hsid : sid' = sid
  · rw [if_pos hsid, Option.some.injEq] at hst
    subst hst hsid
    cases hs : co.sharedStack with
    | false => exact .inl ⟨rfl, rfl⟩
    | true => exact .inr (hadd.shar hs).1
  · rw [if_neg hsid] at hst
    exact .inr hst

/-- Nobody is on a new private stack. -/
theorem Adds.ne_stack (ok : HeapOk h) (hadd : Adds k h heap c co sid st)
    (hs : co.sharedStack = false) (hd : h.cos d = some co') : co'.stack ≠ some sid := by
  intro hptr
  obtain ⟨sid', st', hp, -⟩ := ok.placed d co' hd
  obtain rfl : sid = sid' := Option.some.inj (hptr.symm.trans hp.ptr)
  have := hp.buf
  rw [(hadd.priv hs).1] at this
  cases this

theorem Adds.heapOk (ok : HeapOk h) (hadd : Adds k h heap c co sid st) : HeapOk heap where
  placed d co' hd := by
    rcases hadd.obj hd with ⟨rfl, rfl⟩ | ⟨-, hobj⟩
    · exact ⟨sid, st, ⟨hd, hadd.ptr, by simp [hadd.coStacks]⟩, hadd.kind⟩
    · obtain ⟨sid', st', hp, heq⟩ := ok.placed d co' hobj
      exact ⟨sid', st', (hadd.old hp).2, heq⟩
  alone d e co₁ co₂ sid' hd he hs₁ hs₂ hpriv := by
    rcases hadd.obj hd with ⟨rfl, rfl⟩ | ⟨-, hd'⟩ <;>
      rcases hadd.obj he with ⟨rfl, rfl⟩ | ⟨-, he'⟩
    · rfl
    · exact absurd (hs₂.trans (hs₁.symm.trans hadd.ptr)) (hadd.ne_stack ok hpriv he')
    · -- `d` is private and was there before, so the new one is not on its stack
      obtain rfl : sid = sid' := Option.some.inj (hadd.ptr.symm.trans hs₂)
      cases hs : co₂.sharedStack with
      | false => exact absurd hs₁ (hadd.ne_stack ok hs hd')
      | true =>
        obtain ⟨sid'', st'', hp, heq⟩ := ok.placed d co₁ hd'
        obtain rfl : sid = sid'' := Option.some.inj (hs₁.symm.trans hp.ptr)
        obtain rfl := Option.some.inj (hp.buf.symm.trans (hadd.shar hs).1)
        rw [hadd.kind, hs, hpriv] at heq
        cases heq
    · exact ok.alone d e co₁ co₂ sid' hd' he' hs₁ hs₂ hpriv
  owner sid' st' o hst hsh ho := by
    rcases hadd.buf hst with ⟨rfl, hs⟩ | hst'
    · rw [hadd.kind, hs] at hsh
      cases hsh
    · obtain ⟨co', hp⟩ := ok.owner sid' st' o hst' hsh ho
      exact ⟨co', (hadd.old hp).2⟩
  room sid' st' hst hsh := by
    rcases hadd.buf hst with ⟨rfl, hs⟩ | hst'
    · rw [hadd.kind, hs] at hsh
      cases hsh
    · exact ok.room sid' st' hst' hsh
  pool sid' hmem := by
    obtain ⟨st', hst', hsh⟩ := ok.pool sid' (hadd.pool ▸ hmem)
    refine ⟨st', ?_, hsh⟩
    rw [hadd.coStacks]
    by_cases hsid : sid' = sid
    · subst hsid
      rw [if_pos rfl]
      cases hs : co.sharedStack with
      | false =>
        rw [(hadd.priv hs).1] at hst'
        cases hst'
      | true => rw [← (hadd.shar hs).1, hst']
    · rw [if_neg hsid]
      exact hst'

theorem sub_eight_le {top : Word} (h8 : 8 ≤ top.toNat) : top - 8 ≤ top := by
  rw [BitVec.le_def]
  bv_omega

theorem sub_sub_eight (top : Word) : top - (top - 8) = 8 := by
  bv_omega

theorem length_le64 (v : Word) : (le64 v).length = 8 := by
  simp [le64]

/-- A new coroutine rests with the launch image: on its own stack, or in the
copy that the constructor made. -/
theorem Adds.rests_new (ok : HeapOk h) (hadd : Adds k h heap c co sid st) (log : List Event) :
    Rests (.created c (launchImage k st.stackTop) :: log) c co st := by
  have hrsp : co.savedCtx.rsp = st.stackTop - 8 := by rw [hadd.ctx]
  have hcpu : loadContext co.savedCtx = (launchImage k st.stackTop).cpu := by
    rw [hadd.ctx]
    rfl
  constructor
  · exact fun _ => hrsp ▸ sub_eight_le hadd.room
  · intro hs _
    obtain ⟨-, hcopy, hsize⟩ := hadd.shar hs
    refine ⟨?_, le64 k.coExit, hcopy, ?_⟩
    · rw [hsize, hrsp, sub_sub_eight]
    · rw [hrsp, sub_sub_eight, length_le64]
      rfl
  · simp only [lastImage, if_true, hcpu]
    cases hs : co.sharedStack with
    | false =>
      rw [restingBytes_inPlace (.inl hs), hrsp, (hadd.priv hs).2]
      rfl
    | true =>
      obtain ⟨hst, hcopy, -⟩ := hadd.shar hs
      have hu : st.usedBy ≠ some c := by
        intro hu
        obtain ⟨co', hp⟩ := ok.owner sid st c hst (hadd.kind.trans hs) hu
        have := hp.obj
        rw [hadd.fresh] at this
        cases this
      rw [restingBytes_away hs hu, hcopy]
      rfl

/-- `new` of a coroutine by the running one. -/
theorem create_inv {r : CoId} (h : Inv (some r) m)
    (hadd : Adds k m.heap heap c co sid st) (hm : m.created k c heap = some m') :
    Inv (some r) m' ∧ m'.sched = m.sched := by
  have hpc : heap.Placed c co sid st :=
    ⟨by simp [hadd.cos], hadd.ptr, by simp [hadd.coStacks]⟩
  simp only [Machine.created, hpc.place,
    Option.bind_eq_bind, Option.bind_some, Option.some.injEq] at hm
  subst hm
  obtain ⟨cor, hr⟩ := h.live r rfl
  have hrc : r ≠ c := by
    rintro rfl
    rw [hadd.fresh] at hr
    cases hr
  refine ⟨⟨hadd.heapOk h.ok, ?_, ?_, ?_, ?_⟩, rfl⟩
  · rintro d ⟨⟩
    exact ⟨cor, by simpa [Machine.record, hadd.cos, hrc] using hr⟩
  · intro d co' sid' st' hd hne
    rcases hadd.placed h.ok hd with ⟨rfl, rfl, rfl, rfl⟩ | ⟨hdc, hd', -⟩
    · exact hadd.rests_new h.ok m.log
    · refine (h.rests d co' sid' st' hd' hne).log_congr ?_
      simp [Machine.record, lastImage, Ne.symm hdc]
  · intro d co' sid' st' hd hrun hs
    rcases hadd.placed h.ok hd with ⟨rfl, rfl, rfl, rfl⟩ | ⟨-, hd', -⟩
    · exact absurd (Option.some.inj hrun).symm hrc
    · exact h.runs d co' sid' st' hd' hrun hs
  · exact Faithful.cons h.history (fun _ _ he => nomatch he) (fun _ _ _ _ he => nomatch he)

theorem coCreate_adds {b : Block} (hc : h.cos c = none) (hsid : h.coStacks sid = none)
    (hsize : 8 ≤ b.size.toNat) (hcreate : h.coCreate k c sid b = some heap) :
    ∃ co st, Adds k h heap c co sid st := by
  simp only [Heap.coCreate, Heap.setStack, Heap.setStackObj_cos, Heap.setCo_cos, if_true,
    Heap.setStackObj_coStacks, Option.bind_eq_bind, Option.bind_some, Coroutine.new, CoStack.new,
    Bool.false_and, Bool.false_eq_true, if_false, Option.some.injEq] at hcreate
  subst hcreate
  have htop : (b.bottom + b.size).toNat = b.bottom.toNat + b.size.toNat := by
    have := b.fits
    rw [BitVec.toNat_add, Nat.mod_eq_of_lt this]
  refine ⟨{ Coroutine.new k false with
      stack := some sid
      savedCtx := { (Coroutine.new k false).savedCtx with rsp := b.bottom + b.size - 8 } },
    (CoStack.new b false).setExitGuard k, ?_, ?_, rfl, hc, rfl, rfl, ?_, rfl, ?_, ?_⟩
  · intro d
    by_cases hdc : d = c
    · simp [hdc, Coroutine.new]
    · simp [hdc]
  · intro s
    by_cases hss : s = sid
    · simp [hss, CoStack.new]
    · simp [hss]
  · show 8 ≤ (b.bottom + b.size).toNat
    omega
  · refine fun _ => ⟨hsid, ?_⟩
    simp only [CoStack.above, CoStack.setExitGuard, CoStack.new, sub_sub_eight]
    exact readBytes_writeBytes _ _ (le64 k.coExit) (by simp [length_le64])
  · intro hs
    cases hs

theorem coCreateShared_adds (ok : HeapOk h) (hc : h.cos c = none)
    (hcreate : h.coCreateShared k c = some heap) :
    ∃ co sid st, Adds k h heap c co sid st := by
  simp only [Heap.coCreateShared, Heap.coAllocSharedStack, Option.bind_eq_bind,
    Option.bind_eq_some_iff, Option.some.injEq] at hcreate
  obtain ⟨⟨sid, h₂⟩, ⟨sid', hget, heq⟩, hset⟩ := hcreate
  obtain ⟨rfl, rfl⟩ := Prod.mk.inj heq
  obtain ⟨st, hst, hsh⟩ := ok.pool sid' (List.mem_of_getElem? hget)
  simp only [Heap.setStack, Heap.setCo_cos, if_true, Option.bind_eq_bind, Option.bind_some,
    Heap.setCo_coStacks, hst, hsh, Coroutine.new, Bool.not_true, Bool.and_false,
    Bool.false_eq_true, if_false, Option.some.injEq] at hset
  subst hset
  refine ⟨{ Coroutine.new k true with
      stack := some sid'
      savedCtx := { (Coroutine.new k true).savedCtx with rsp := st.stackTop - 8 } },
    sid', st, ?_, ?_, rfl, hc, rfl, hsh, ok.room sid' st hst hsh, rfl, ?_, ?_⟩
  · intro d
    by_cases hdc : d = c
    · simp [hdc, Coroutine.new]
    · simp [hdc]
  · intro s
    by_cases hss : s = sid'
    · simp [hss, hst]
    · simp [hss]
  · intro hs
    cases hs
  · exact fun _ => ⟨hst, rfl, rfl⟩

/-! ## Runs -/

/-- What a step can do. -/
inductive Stepped (k : Code) (m : Machine) : Op → Machine → Prop
  | write {x : Word} {v : UInt8} {co : Coroutine} {sid : StackId} {st : CoStack} :
      m.heap.Placed m.sched.current co sid st →
      Stepped k m (.write x v) { m with
        heap := m.heap.setStackObj sid { st with bytes := Function.update st.bytes x v } }
  | compute {cpu : Cpu} {co : Coroutine} {sid : StackId} {st : CoStack} :
      m.heap.Placed m.sched.current co sid st → st.holds cpu.rsp = true →
      Stepped k m (.compute cpu) { m with cpu := cpu }
  | coCreate {c : CoId} {sid : StackId} {b : Block} {heap : Heap} {co : Coroutine} {st : CoStack}
      {m' : Machine} :
      Adds k m.heap heap c co sid st → m.created k c heap = some m' →
      Stepped k m (.coCreate c sid b) m'
  | coCreateShared {c : CoId} {heap : Heap} {co : Coroutine} {sid : StackId} {st : CoStack}
      {m' : Machine} :
      Adds k m.heap heap c co sid st → m.created k c heap = some m' →
      Stepped k m (.coCreateShared c) m'
  | coPost {c : CoId} : isIdle c m.log = true → Stepped k m (.coPost c) (m.coPost c)
  | coResched {img : Image} {m₁ m' : Machine} :
      m.save k = some (img, m₁) → m₁.sched = m.sched →
      Machine.coSched { m₁.record (.rescheduled m.sched.current img) with
        sched := m.sched.enqueue (some m.sched.current) } = some m' →
      Stepped k m .coResched m'
  | coYield {img : Image} {m₁ m' : Machine} :
      m.save k = some (img, m₁) → m₁.sched = m.sched →
      (m₁.record (.yielded m.sched.current img)).coSched = some m' →
      Stepped k m .coYield m'
  | coExit {heap : Heap} {co : Coroutine} {sid : StackId} {st : CoStack} {m' : Machine} :
      m.heap.Placed m.sched.current co sid st →
      m.heap.coDestroy m.sched.current = some heap →
      Machine.coSched ({ m with heap := heap }.record (.exited m.sched.current)) = some m' →
      Stepped k m .coExit m'

theorem save_sched {img : Image} (hsave : m.save k = some (img, m')) : m'.sched = m.sched := by
  simp only [Machine.save, Option.bind_eq_bind, Option.bind_eq_some_iff, Option.some.injEq,
    Prod.mk.injEq] at hsave
  obtain ⟨_, -, _, -, -, rfl⟩ := hsave
  rfl

theorem step_cases (ok : HeapOk m.heap) {op : Op} (hstep : m.step k op = some m') :
    Stepped k m op m' := by
  cases op with
  | write x v =>
    simp only [Machine.step, Option.bind_eq_bind, Option.bind_eq_some_iff] at hstep
    obtain ⟨p, hplace, hstep⟩ := hstep
    split at hstep
    · cases hstep
      exact .write (Heap.place_eq_some.mp hplace)
    · cases hstep
  | compute cpu =>
    simp only [Machine.step, Option.bind_eq_bind, Option.bind_eq_some_iff] at hstep
    obtain ⟨p, hplace, hstep⟩ := hstep
    split at hstep
    · next hold =>
      cases hstep
      exact .compute (Heap.place_eq_some.mp hplace) hold
    · cases hstep
  | coCreate c sid b =>
    simp only [Machine.step] at hstep
    split at hstep
    · next hguard =>
      simp only [Bool.and_eq_true, Option.isNone_iff_eq_none, decide_eq_true_eq] at hguard
      obtain ⟨⟨hc, hsid⟩, hsize⟩ := hguard
      obtain ⟨heap, hcreate, hm⟩ := Option.bind_eq_some_iff.mp hstep
      obtain ⟨co, st, hadd⟩ := coCreate_adds hc hsid hsize hcreate
      exact .coCreate hadd hm
    · cases hstep
  | coCreateShared c =>
    simp only [Machine.step] at hstep
    split at hstep
    · next hguard =>
      obtain ⟨heap, hcreate, hm⟩ := Option.bind_eq_some_iff.mp hstep
      obtain ⟨co, sid, st, hadd⟩ :=
        coCreateShared_adds ok (Option.isNone_iff_eq_none.mp hguard) hcreate
      exact .coCreateShared hadd hm
    · cases hstep
  | coPost c =>
    simp only [Machine.step] at hstep
    split at hstep
    · next hidle =>
      cases hstep
      exact .coPost hidle
    · cases hstep
  | coResched =>
    simp only [Machine.step, Machine.coResched, Option.bind_eq_bind,
      Option.bind_eq_some_iff] at hstep
    obtain ⟨⟨img, m₁⟩, hsave, hsched⟩ := hstep
    refine .coResched hsave (save_sched hsave) ?_
    rw [← save_sched hsave]
    exact hsched
  | coYield =>
    simp only [Machine.step, Machine.coYield, Option.bind_eq_bind,
      Option.bind_eq_some_iff] at hstep
    obtain ⟨⟨img, m₁⟩, hsave, hsched⟩ := hstep
    refine .coYield hsave (save_sched hsave) ?_
    rw [← save_sched hsave]
    exact hsched
  | coExit =>
    simp only [Machine.step, Machine.coExit, Option.bind_eq_bind,
      Option.bind_eq_some_iff] at hstep
    obtain ⟨heap, hd, hsched⟩ := hstep
    obtain ⟨p, hplace, -⟩ := Option.bind_eq_some_iff.mp hd
    exact .coExit (Heap.place_eq_some.mp hplace) hd hsched

/-- One step keeps the invariant of the running coroutine. -/
theorem step_inv (h : Inv (some m.sched.current) m) {op : Op} (hstep : m.step k op = some m') :
    Inv (some m'.sched.current) m' := by
  cases step_cases h.ok hstep with
  | write hp => exact write_inv h hp _
  | compute hp hold => exact compute_inv h hp hold
  | coCreate hadd hm =>
    obtain ⟨hinv, hsched⟩ := create_inv h hadd hm
    rwa [hsched]
  | coCreateShared hadd hm =>
    obtain ⟨hinv, hsched⟩ := create_inv h hadd hm
    rwa [hsched]
  | coPost _ =>
    exact (h.sched _).record (fun _ => rfl)
      (Faithful.cons h.history (fun _ _ he => nomatch he) (fun _ _ _ _ he => nomatch he))
  | @coResched img _ _ hsave _ hsched =>
    have hrest := (suspend_inv (e := .rescheduled m.sched.current img) h hsave (.inl rfl)).1
    exact coSched_inv (hrest.sched _) hsched
  | @coYield img _ _ hsave _ hsched =>
    have hrest := (suspend_inv (e := .yielded m.sched.current img) h hsave (.inr rfl)).1
    exact coSched_inv hrest hsched
  | coExit hp hd hsched => exact coSched_inv (exit_inv h hp hd) hsched

variable {cpu : Cpu} {mainBytes : Word → UInt8} {blocks : List Machine.SharedBlock}

/-- Only `main` is there at the start, and it is running. -/
theorem coInit_placed (hp : (Machine.coInit k cpu mainBytes blocks).heap.Placed c co sid st) :
    c = 0 ∧ sid = 0 ∧ co.sharedStack = false ∧ st.shared = false := by
  have hobj := hp.obj
  simp only [Machine.coInit] at hobj
  split at hobj
  · next hc =>
    cases hobj
    obtain rfl : 0 = sid := Option.some.inj hp.ptr
    have hbuf := hp.buf
    cases hbuf
    exact ⟨hc, rfl, rfl, rfl⟩
  · cases hobj

theorem coInit_coStacks
    (hst : (Machine.coInit k cpu mainBytes blocks).heap.coStacks sid = some st)
    (hsh : st.shared = true) : ∃ b ∈ blocks, st = CoStack.new b.val true := by
  cases sid with
  | zero =>
    cases hst
    cases hsh
  | succ i =>
    obtain ⟨b, hb, rfl⟩ := Option.map_eq_some_iff.mp hst
    exact ⟨b, List.mem_of_getElem? hb, rfl⟩

theorem coInit_inv : Inv (some 0) (Machine.coInit k cpu mainBytes blocks) where
  ok :=
    { placed := fun c co hobj => by
        have hobj' := hobj
        simp only [Machine.coInit] at hobj'
        split at hobj'
        · cases hobj'
          exact ⟨0, _, ⟨hobj, rfl, rfl⟩, rfl⟩
        · cases hobj'
      alone := fun c d co co' sid hc hd _ _ _ => by
        simp only [Machine.coInit] at hc hd
        split at hc <;> split at hd
        · next h₁ h₂ => rw [h₁, h₂]
        · cases hd
        · cases hc
        · cases hc
      owner := fun sid st o hst hsh ho => by
        obtain ⟨b, -, rfl⟩ := coInit_coStacks hst hsh
        cases ho
      room := fun sid st hst hsh => by
        obtain ⟨b, -, rfl⟩ := coInit_coStacks hst hsh
        have hsize := b.property
        have hfits := b.val.fits
        simp only [CoStack.new, BitVec.toNat_add, Nat.mod_eq_of_lt hfits]
        rw [hsize]
        simp
      pool := fun sid hmem => by
        simp only [Machine.coInit, List.mem_map, List.mem_range] at hmem
        obtain ⟨i, hi, rfl⟩ := hmem
        exact ⟨CoStack.new blocks[i].val true, by simp [Machine.coInit, Machine.initStacks, hi],
          rfl⟩ }
  live := by
    rintro c ⟨⟩
    exact ⟨_, rfl⟩
  rests c co sid st hp hne := absurd (congrArg some (coInit_placed hp).1) hne
  runs c co sid st hp _ hs := by
    rw [(coInit_placed hp).2.2.1] at hs
    cases hs
  history :=
    ⟨(fun _ _ _ hsuf => nomatch List.suffix_nil.mp hsuf), (fun _ _ _ _ hmem => nomatch hmem)⟩

/-- The invariant holds in every state that a run reaches. -/
theorem inv_of_run {ops : List Op}
    (hrun : exec (Machine.step k) (Machine.coInit k cpu mainBytes blocks) ops = some m) :
    Inv (some m.sched.current) m :=
  exec_invariant (I := fun m => Inv (some m.sched.current) m)
    (fun _ _ _ h hstep => step_inv h hstep) coInit_inv hrun

end SwitchLemmas

open SwitchLemmas

/-- Shared-stack switching preserves every suspended coroutine. For every pool
and every run, each time `co_sched` loads a coroutine it loads the registers,
stack pointer, resume address and control words that the coroutine was last
suspended with, or the launch context, and finds the same bytes from there up
to the top of its stack; and no copy size computed by `save_stack` wraps
around. -/
theorem switch_preserves_suspended (k : Code) (cpu : Cpu) (mainBytes : Word → UInt8)
    (blocks : List Machine.SharedBlock) (ops : List Op) (m : Machine)
    (hrun : exec (Machine.step k) (Machine.coInit k cpu mainBytes blocks) ops = some m) :
    Faithful m.log :=
  (inv_of_run hrun).history

namespace Demo

def code : Code := ⟨0x401000, 0x402000, 0x403000⟩

def cpu : Cpu where
  rbx := 1
  rbp := 2
  r12 := 3
  r13 := 4
  r14 := 5
  r15 := 6
  rsp := 0xfffffffffffffff0
  rip := 0x400000
  mxcsr := 0x1f80
  x87Cw := 0x37f

/-- One shared stack, from `0x10000` to `0x110000`. -/
def block : Machine.SharedBlock :=
  ⟨⟨0x10000, 1024 * 1024, fun _ => 0, by decide⟩, rfl⟩

def init : Machine := Machine.coInit code cpu (fun _ => 0) [block]

/-- Two coroutines on one stack. The first stores a byte and yields; the second
stores another one at the same address, posts the first and exits; `main` lets
the first go on. -/
def ops : List Op :=
  [.coCreateShared 1, .coCreateShared 2, .coPost 1, .coPost 2, .coResched,
   .compute { cpu with rsp := 0x10ffe0, rbx := 7 }, .write 0x10fff0 0xab, .coYield,
   .compute { cpu with rsp := 0x10ffd0 }, .write 0x10fff0 0xcd, .coPost 1, .coExit, .coResched]

end Demo

theorem switch_preserves_suspended_demo :
    ∃ m, exec (Machine.step Demo.code) Demo.init Demo.ops = some m ∧
      m.sched.current = 1 ∧ m.cpu.rbx = 7 ∧ Faithful m.log := by
  have hrun : (exec (Machine.step Demo.code) Demo.init Demo.ops).map
      (fun m => (m.sched.current, m.cpu.rbx)) = some (1, 7) := by decide
  obtain ⟨m, hm, heq⟩ := Option.map_eq_some_iff.mp hrun
  obtain ⟨hcur, hrbx⟩ := Prod.mk.inj heq
  exact ⟨m, hm, hcur, hrbx, switch_preserves_suspended _ _ _ _ _ m hm⟩

end NetTraverse
