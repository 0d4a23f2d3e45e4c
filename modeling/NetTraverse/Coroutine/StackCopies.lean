import NetTraverse.Coroutine.Destroy

/-!
# Who owns a stack copy

`stack_copy_` is a block that `save_stack` allocates, and `restore_stack` and
`~coroutine` free. `Copies` says that a coroutine has one exactly while it is
off its shared stack, so `save_stack` never overwrites a pointer to a live
block, and `restore_stack` never reads through a null one. It also keeps the stack
pointers on their stacks: what `save_stack` copies lies in the buffer.
-/

namespace NetTraverse

open Transition

namespace CopiesLemmas

open SwitchLemmas DestroyLemmas

/-- As in `Inv`, `run` is the coroutine whose context is in the registers. -/
structure Copies (run : CoPtr) (m : Machine) : Prop where
  owned : ∀ c co sid st, m.heap.Placed c co sid st → co.sharedStack = true →
    (co.stackCopy = none ↔ st.usedBy = some c)
  plain : ∀ c co, m.heap.cos c = some co → co.sharedStack = false → co.stackCopy = none
  block : ∀ sid st, m.heap.coStacks sid = some st → st.shared = true →
    st.stackBottom.toNat + 8 ≤ st.stackTop.toNat
  held : ∀ c co sid st, m.heap.Placed c co sid st → some c ≠ run →
    st.holds co.savedCtx.rsp = true
  heldRun : ∀ c co sid st, m.heap.Placed c co sid st → some c = run → st.holds m.cpu.rsp = true

variable {m m' : Machine} {run : CoPtr} {k : Code} {c d : CoId} {co : Coroutine} {sid : StackId}
  {st : CoStack} {heap : Heap}

theorem holds_iff {a : Word} : st.holds a = true ↔
    st.stackTop = 0 ∨ (st.stackBottom ≤ a ∧ a ≤ st.stackTop) := by
  simp [CoStack.holds]

/-- A stack with a top has a bottom. -/
theorem low_of_holds {a : Word} (hold : st.holds a = true) (htop : 8 ≤ st.stackTop.toNat) :
    st.stackBottom ≤ a := by
  rcases holds_iff.mp hold with hzero | ⟨hle, -⟩
  · rw [hzero] at htop
    simp at htop
  · exact hle

/-- The copy of a coroutine that is off its stack fits into the buffer. -/
theorem Copies.fits (h : Copies run m) (hinv : Inv run m) (hp : m.heap.Placed c co sid st)
    (hs : co.sharedStack = true) (hu : st.usedBy ≠ some c) (hrun : some c ≠ run) :
    ∃ copy, co.stackCopy = some copy ∧ copy.length = co.stackCopySize.toNat ∧
      copy.length ≤ (st.stackTop - st.stackBottom).toNat := by
  have hr := hinv.rests c co sid st hp hrun
  obtain ⟨hsize, copy, hcopy, hlen⟩ := hr.away hs hu
  have hroom := hinv.ok.room sid st hp.buf ((hinv.ok.shared_eq hp).trans hs)
  have hlow := low_of_holds (h.held c co sid st hp hrun) hroom
  have hhigh := hr.fits hs
  refine ⟨copy, hcopy, by rw [hlen, hsize], ?_⟩
  rw [hlen, BitVec.toNat_sub_of_le hhigh, BitVec.toNat_sub_of_le (BitVec.le_trans hlow hhigh)]
  rw [BitVec.le_def] at hlow
  omega

/-! ## Steps of the running coroutine -/

theorem Copies.congr (h : Copies run m) (hheap : m'.heap = m.heap) (hcpu : m'.cpu = m.cpu) :
    Copies run m' := by
  cases m
  cases m'
  cases hheap
  cases hcpu
  exact ⟨h.owned, h.plain, h.block, h.held, h.heldRun⟩

theorem write_copies (h : Copies run m) (hst : m.heap.coStacks sid = some st)
    (bytes : Word → UInt8) :
    Copies run { m with heap := m.heap.setStackObj sid { st with bytes := bytes } } := by
  -- whoever is placed now was placed on a stack with the same user and bounds
  have old : ∀ {d co' sid' st'},
      (m.heap.setStackObj sid { st with bytes := bytes }).Placed d co' sid' st' →
      ∃ st₀, m.heap.Placed d co' sid' st₀ ∧ st'.usedBy = st₀.usedBy ∧
        st'.holds = st₀.holds := by
    intro d co' sid' st' hd
    rcases placed_setStackObj hd with ⟨rfl, rfl, hobj, hptr⟩ | ⟨-, hd'⟩
    · exact ⟨st, ⟨hobj, hptr, hst⟩, rfl, rfl⟩
    · exact ⟨st', hd', rfl, rfl⟩
  constructor
  · intro d co' sid' st' hd hs
    obtain ⟨st₀, hp, hu, -⟩ := old hd
    rw [hu]
    exact h.owned d co' sid' st₀ hp hs
  · exact h.plain
  · intro sid' st' hst' hsh
    by_cases hsid : sid' = sid
    · subst hsid
      simp only [Heap.setStackObj_coStacks, if_true, Option.some.injEq] at hst'
      subst hst'
      exact h.block sid' st hst hsh
    · simp only [Heap.setStackObj_coStacks, hsid, if_false] at hst'
      exact h.block sid' st' hst' hsh
  · intro d co' sid' st' hd hrun
    obtain ⟨st₀, hp, -, hholds⟩ := old hd
    rw [hholds]
    exact h.held d co' sid' st₀ hp hrun
  · intro d co' sid' st' hd hrun
    obtain ⟨st₀, hp, -, hholds⟩ := old hd
    rw [hholds]
    exact h.heldRun d co' sid' st₀ hp hrun

theorem compute_copies {cpu : Cpu} (h : Copies (some c) m) (hp : m.heap.Placed c co sid st)
    (hold : st.holds cpu.rsp = true) : Copies (some c) { m with cpu := cpu } := by
  refine ⟨h.owned, h.plain, h.block, h.held, ?_⟩
  intro d co' sid' st' hd hrun
  obtain rfl : d = c := Option.some.inj hrun
  obtain ⟨rfl, rfl, rfl⟩ := Placed.det hp hd
  exact hold

/-- `save_context` puts the stack pointer of the caller into its record. -/
theorem save_copies {img : Image} (hinv : Inv (some m.sched.current) m)
    (h : Copies (some m.sched.current) m) (hsave : m.save k = some (img, m')) :
    Copies none m' := by
  obtain ⟨co, sid, st, hp⟩ := hinv.running
  rw [save_eq hp, Option.some.injEq, Prod.mk.injEq] at hsave
  obtain ⟨-, rfl⟩ := hsave
  constructor
  · intro d co' sid' st' hd hs
    rcases placed_setCo hd with ⟨rfl, rfl, hptr, hbuf⟩ | ⟨-, hd'⟩
    · exact h.owned _ co sid' st' ⟨hp.obj, hptr, hbuf⟩ hs
    · exact h.owned d co' sid' st' hd' hs
  · intro d co' hobj hs
    by_cases hd : d = m.sched.current
    · subst hd
      simp only [Heap.setCo_cos, if_true, Option.some.injEq] at hobj
      subst hobj
      exact h.plain _ co hp.obj hs
    · simp only [Heap.setCo_cos, hd, if_false] at hobj
      exact h.plain d co' hobj hs
  · exact h.block
  · intro d co' sid' st' hd _
    rcases placed_setCo hd with ⟨rfl, rfl, hptr, hbuf⟩ | ⟨hne, hd'⟩
    · exact h.heldRun _ co sid' st' ⟨hp.obj, hptr, hbuf⟩ rfl
    · exact h.held d co' sid' st' hd' fun he => hne (Option.some.inj he)
  · intro d co' sid' st' _ hrun
    cases hrun

theorem load_copies (h : Copies none m) (hp : m.heap.Placed m.sched.current co sid st)
    (hload : m.load = some m') : Copies (some m'.sched.current) m' := by
  rw [load_eq hp, Option.some.injEq] at hload
  subst hload
  refine ⟨h.owned, h.plain, h.block, fun d co' sid' st' hd _ => ?_, ?_⟩
  · exact h.held d co' sid' st' hd (by simp)
  · intro d co' sid' st' hd hrun
    obtain rfl : d = m.sched.current := Option.some.inj hrun
    obtain ⟨rfl, rfl, rfl⟩ := Placed.det hp hd
    exact h.held _ _ _ _ hp (by simp)

/-! ## Swapping in -/

/-- What `co_swap_in` of `c` makes of a coroutine `d`: the copy of `c` is gone,
and the one that has the stack `st` gets a copy. -/
def swapped (c : CoId) (st : CoStack) (d : CoId) (co : Coroutine) : Coroutine :=
  if d = c then { co with stackCopy := none }
  else if st.usedBy = some d then
    { co with
      stackCopySize := st.stackTop - co.savedCtx.rsp
      stackCopy := some (st.above co.savedCtx.rsp) }
  else co

theorem swapped_fixed (c : CoId) (st : CoStack) (d : CoId) (co : Coroutine) :
    (swapped c st d co).stack = co.stack ∧ (swapped c st d co).sharedStack = co.sharedStack ∧
      (swapped c st d co).savedCtx = co.savedCtx := by
  unfold swapped
  split
  · exact ⟨rfl, rfl, rfl⟩
  · split <;> exact ⟨rfl, rfl, rfl⟩

theorem swapped_of_ne (hdc : d ≠ c) (hdu : st.usedBy ≠ some d) : swapped c st d co = co := by
  simp [swapped, hdc, hdu]

structure SwapsIn (m m' : Machine) (c : CoId) (sid : StackId) (st : CoStack) : Prop where
  cos : ∀ d, m'.heap.cos d = (m.heap.cos d).map (swapped c st d)
  stack : ∃ bytes, m'.heap.coStacks sid = some { st with bytes := bytes, usedBy := some c }
  rest : ∀ s, s ≠ sid → m'.heap.coStacks s = m.heap.coStacks s

/-- `co_swap_in` of a coroutine that is off its stack. -/
theorem coSwapIn_swaps (hinv : Inv none m) (hp : m.heap.Placed c co sid st)
    (hs : co.sharedStack = true) (hu : st.usedBy ≠ some c) (hswap : m.coSwapIn c = some m') :
    SwapsIn m m' c sid st := by
  obtain ⟨-, copy, hcopy, -⟩ := (hinv.rests c co sid st hp (by simp)).away hs hu
  simp only [Machine.coSwapIn, inStack_shared hp hs, hu, decide_false, Bool.false_eq_true,
    if_false, hp.place, Option.bind_eq_bind, Option.bind_some] at hswap
  cases hused : st.usedBy with
  | none =>
    simp only [hused, Option.bind_eq_some_iff, Option.some.injEq] at hswap
    obtain ⟨heap, hres, rfl⟩ := hswap
    obtain rfl := restoreStack_eq hp hcopy hres
    refine ⟨fun d => ?_, ⟨_, by simp; rfl⟩, fun s hss => by simp [hss]⟩
    by_cases hdc : d = c
    · subst hdc
      simp [swapped, hp.obj]
    · cases hobj : m.heap.cos d <;> simp [swapped, hdc, hused, hobj]
  | some o =>
    simp only [hused, Option.bind_eq_some_iff, Option.some.injEq] at hswap
    obtain ⟨m₁, hsaved, heap, hres, rfl⟩ := hswap
    have hoc : o ≠ c := fun he => hu (by rw [hused, he])
    obtain ⟨coo, hpo⟩ := hinv.ok.owner sid st o hp.buf ((hinv.ok.shared_eq hp).trans hs) hused
    rw [saveStack_eq hpo, Option.some.injEq] at hsaved
    subst hsaved
    obtain rfl := restoreStack_eq (Placed.setCo hp _ (Ne.symm hoc)) hcopy hres
    refine ⟨fun d => ?_, ⟨_, by simp; rfl⟩, fun s hss => by simp [hss]⟩
    by_cases hdc : d = c
    · subst hdc
      simp [swapped, hp.obj]
    · by_cases hdo : d = o
      · subst hdo
        simp [swapped, hdc, hused, hpo.obj]
      · cases hobj : m.heap.cos d <;> simp [swapped, hdc, hdo, hused, hobj, Ne.symm hdo]

/-- Who is on a stack after the switch was on it before. -/
theorem SwapsIn.placed (h : SwapsIn m m' c sid st) (hst : m.heap.coStacks sid = some st)
    {co' : Coroutine} {sid' : StackId} {st' : CoStack} (hd : m'.heap.Placed d co' sid' st') :
    ∃ cod st₀, m.heap.Placed d cod sid' st₀ ∧ co' = swapped c st d cod ∧
      st'.holds = st₀.holds ∧ (sid' = sid → st'.usedBy = some c ∧ st₀ = st) ∧
      (sid' ≠ sid → st' = st₀) := by
  have hobj := hd.obj
  rw [h.cos] at hobj
  obtain ⟨cod, hcod, rfl⟩ := Option.map_eq_some_iff.mp hobj
  have hptr : cod.stack = some sid' := (swapped_fixed c st d cod).1.symm.trans hd.ptr
  by_cases hsid : sid' = sid
  · subst hsid
    obtain ⟨bytes, hbuf⟩ := h.stack
    obtain rfl := Option.some.inj (hd.buf.symm.trans hbuf)
    exact ⟨cod, st, ⟨hcod, hptr, hst⟩, rfl, rfl, fun _ => ⟨rfl, rfl⟩, fun hne => absurd rfl hne⟩
  · exact ⟨cod, st', ⟨hcod, hptr, (h.rest sid' hsid).symm.trans hd.buf⟩, rfl, rfl,
      fun he => absurd he hsid, fun _ => rfl⟩

theorem SwapsIn.copies (h : SwapsIn m m' c sid st) (hinv : Inv none m) (hc : Copies none m)
    (hp : m.heap.Placed c co sid st) (hs : co.sharedStack = true) : Copies none m' := by
  have hsh : st.shared = true := (hinv.ok.shared_eq hp).trans hs
  -- the user of the stack is one of its coroutines
  have owner : ∀ {d cod}, st.usedBy = some d → m.heap.cos d = some cod →
      cod.stack = some sid ∧ cod.sharedStack = true := by
    intro d cod hdu hobj
    obtain ⟨cod', hpd⟩ := hinv.ok.owner sid st d hp.buf hsh hdu
    obtain rfl := Option.some.inj (hobj.symm.trans hpd.obj)
    exact ⟨hpd.ptr, (hinv.ok.shared_eq hpd).symm.trans hsh⟩
  constructor
  · intro d co' sid' st' hd hs'
    obtain ⟨cod, st₀, hp₀, rfl, -, hon, hoff⟩ := h.placed hp.buf hd
    have hold := hc.owned d cod sid' st₀ hp₀ ((swapped_fixed c st d cod).2.1.symm.trans hs')
    by_cases hsid : sid' = sid
    · obtain ⟨hnew, rfl⟩ := hon hsid
      rw [hnew]
      by_cases hdc : d = c
      · simp [swapped, hdc]
      · have hne : (some c : CoPtr) ≠ some d := fun he => hdc (Option.some.inj he).symm
        by_cases hdu : st₀.usedBy = some d
        · simp [swapped, hdc, hdu, hne]
        · simpa [swapped, hdc, hdu, hne] using hold.mp.mt hdu
    · obtain rfl := hoff hsid
      have hdc : d ≠ c := by
        rintro rfl
        exact hsid (Placed.det hp hp₀).2.1
      have hdu : st.usedBy ≠ some d := fun he =>
        hsid (Option.some.inj (hp₀.ptr.symm.trans (owner he hp₀.obj).1))
      rw [swapped_of_ne hdc hdu]
      exact hold
  · intro d co' hobj hs'
    rw [h.cos] at hobj
    obtain ⟨cod, hcod, rfl⟩ := Option.map_eq_some_iff.mp hobj
    have hplain := (swapped_fixed c st d cod).2.1.symm.trans hs'
    have hdu : st.usedBy ≠ some d := fun he => by
      rw [(owner he hcod).2] at hplain
      cases hplain
    by_cases hdc : d = c
    · simp [swapped, hdc]
    · rw [swapped_of_ne hdc hdu]
      exact hc.plain d cod hcod hplain
  · intro sid' st' hst' hsh'
    by_cases hsid : sid' = sid
    · subst hsid
      obtain ⟨bytes, hbuf⟩ := h.stack
      obtain rfl := Option.some.inj (hst'.symm.trans hbuf)
      exact hc.block sid' st hp.buf hsh
    · exact hc.block sid' st' ((h.rest sid' hsid).symm.trans hst') hsh'
  · intro d co' sid' st' hd _
    obtain ⟨cod, st₀, hp₀, rfl, hholds, -, -⟩ := h.placed hp.buf hd
    rw [hholds, (swapped_fixed c st d cod).2.2]
    exact hc.held d cod sid' st₀ hp₀ (by simp)
  · intro d co' sid' st' _ hrun
    cases hrun

/-- `co_sched`, from a handler to the next coroutine. -/
theorem coSched_copies (hinv : Inv none m) (hc : Copies none m) (hsched : m.coSched = some m') :
    Copies (some m'.sched.current) m' := by
  simp only [Machine.coSched, Option.bind_eq_bind] at hsched
  obtain ⟨s, -, hsched⟩ := Option.bind_eq_some_iff.mp hsched
  obtain ⟨co, hobj, hsched⟩ := Option.bind_eq_some_iff.mp hsched
  have hinv₁ := hinv.sched s
  have hc₁ : Copies none { m with sched := s } := hc.congr rfl rfl
  obtain ⟨sid, st, hp, -⟩ := hinv₁.ok.placed _ co hobj
  cases hs : co.sharedStack with
  | false =>
    simp only [hs, Bool.false_eq_true, if_false, Option.bind_some] at hsched
    exact load_copies hc₁ hp hsched
  | true =>
    simp only [hs, if_true] at hsched
    obtain ⟨m₁, hswap, hload⟩ := Option.bind_eq_some_iff.mp hsched
    obtain ⟨-, hsame, co', sid', st', hp', -⟩ := coSwapIn_inv hinv₁ hp hs hswap
    have hcur : m₁.sched.current = s.current := by rw [hsame]
    rw [← hcur] at hp'
    by_cases hu : st.usedBy = some s.current
    · -- still on its stack: nothing moves
      simp only [Machine.coSwapIn, inStack_shared hp hs, hu, decide_true, Option.bind_eq_bind,
        Option.bind_some, if_true, Option.some.injEq] at hswap
      subst hswap
      exact load_copies hc₁ hp' hload
    · have hcopies := (coSwapIn_swaps hinv₁ hp hs hu hswap).copies hinv₁ hc₁ hp hs
      exact load_copies hcopies hp' hload

/-! ## Destruction and creation -/

theorem coDestroy_copies {run' : CoPtr} (h : Copies run m) (hp : m.heap.Placed c co sid st)
    (hd : m.heap.coDestroy c = some heap) (hrun : ∀ d, some d = run' ↔ some d = run ∧ d ≠ c) :
    Copies run' ({ m with heap := heap }.record (.exited c)) := by
  have hdrop := coDestroy_drops hp hd
  -- whoever is left was there before; a released stack has no user
  have old : ∀ {d co' sid' st'}, heap.Placed d co' sid' st' → d ≠ c ∧
      ∃ st₀, m.heap.Placed d co' sid' st₀ ∧ (st'.usedBy = some d ↔ st₀.usedBy = some d) ∧
        st'.holds = st₀.holds := by
    intro d co' sid' st' hd'
    obtain ⟨hne, hobj⟩ := hdrop.obj hd'.obj
    refine ⟨hne, ?_⟩
    rcases hdrop.buf hd'.buf with ⟨rfl, -, rfl⟩ | ⟨-, hst'⟩
    · refine ⟨st, ⟨hobj, hd'.ptr, hp.buf⟩, ⟨fun hu => (release_usedBy hu).1, fun hu => ?_⟩, ?_⟩
      · have hnc : st.usedBy ≠ some c := by
          rw [hu]
          exact fun he => hne (Option.some.inj he)
        rwa [release_of_ne hnc]
      · unfold release
        split <;> rfl
    · exact ⟨st', ⟨hobj, hd'.ptr, hst'⟩, Iff.rfl, rfl⟩
  constructor
  · intro d co' sid' st' hd' hs
    obtain ⟨-, st₀, hp₀, hu, -⟩ := old hd'
    rw [hu]
    exact h.owned d co' sid' st₀ hp₀ hs
  · exact fun d co' hobj => h.plain d co' (hdrop.obj hobj).2
  · intro sid' st' hst' hsh
    rcases hdrop.buf hst' with ⟨rfl, -, rfl⟩ | ⟨-, hst'⟩
    · have hbot : (release c st).stackBottom = st.stackBottom := by
        unfold release
        split <;> rfl
      rw [hbot, release_stackTop]
      exact h.block sid' st hp.buf (release_shared ▸ hsh)
    · exact h.block sid' st' hst' hsh
  · intro d co' sid' st' hd' hrun'
    obtain ⟨hne, st₀, hp₀, -, hholds⟩ := old hd'
    rw [hholds]
    exact h.held d co' sid' st₀ hp₀ fun he => hrun' ((hrun d).mpr ⟨he, hne⟩)
  · intro d co' sid' st' hd' hrun'
    obtain ⟨-, st₀, hp₀, -, hholds⟩ := old hd'
    rw [hholds]
    exact h.heldRun d co' sid' st₀ hp₀ ((hrun d).mp hrun').1

theorem create_copies {r : CoId} (hinv : Inv (some r) m) (h : Copies (some r) m)
    (hadd : Adds k m.heap heap c co sid st) (hm : m.created k c heap = some m')
    (hnew : co.sharedStack = false →
      co.stackCopy = none ∧ st.stackBottom.toNat + 8 ≤ st.stackTop.toNat) :
    Copies (some r) m' := by
  have hblock : st.stackBottom.toNat + 8 ≤ st.stackTop.toNat := by
    cases hs : co.sharedStack with
    | false => exact (hnew hs).2
    | true => exact h.block sid st (hadd.shar hs).1 (hadd.kind.trans hs)
  have hpc : heap.Placed c co sid st :=
    ⟨by simp [hadd.cos], hadd.ptr, by simp [hadd.coStacks]⟩
  simp only [Machine.created, hpc.place, Option.bind_eq_bind, Option.bind_some,
    Option.some.injEq] at hm
  subst hm
  constructor
  · intro d co' sid' st' hd hs
    rcases hadd.placed hinv.ok hd with ⟨rfl, rfl, rfl, rfl⟩ | ⟨-, hd', -⟩
    · obtain ⟨hst, hcopy, -⟩ := hadd.shar hs
      rw [hcopy]
      refine ⟨by simp, fun hu => ?_⟩
      obtain ⟨co₀, hp₀⟩ := hinv.ok.owner sid' st' d hst (hadd.kind.trans hs) hu
      exact absurd (hp₀.obj.symm.trans hadd.fresh) (by simp)
    · exact h.owned d co' sid' st' hd' hs
  · intro d co' hobj hs
    rcases hadd.obj hobj with ⟨rfl, rfl⟩ | ⟨-, hobj'⟩
    · exact (hnew hs).1
    · exact h.plain d co' hobj' hs
  · intro sid' st' hst' hsh
    rcases hadd.buf hst' with ⟨rfl, hs⟩ | hst'
    · rw [hadd.kind, hs] at hsh
      cases hsh
    · exact h.block sid' st' hst' hsh
  · intro d co' sid' st' hd hrun
    rcases hadd.placed hinv.ok hd with ⟨rfl, rfl, rfl, rfl⟩ | ⟨-, hd', -⟩
    · rw [hadd.ctx, holds_iff, BitVec.le_def]
      refine .inr ⟨?_, sub_eight_le hadd.room⟩
      show st'.stackBottom.toNat ≤ (st'.stackTop - 8).toNat
      bv_omega
    · exact h.held d co' sid' st' hd' hrun
  · intro d co' sid' st' hd hrun
    rcases hadd.placed hinv.ok hd with ⟨rfl, rfl, rfl, rfl⟩ | ⟨-, hd', -⟩
    · obtain ⟨cor, hr⟩ := hinv.live r rfl
      obtain rfl := Option.some.inj hrun
      exact absurd (hr.symm.trans hadd.fresh) (by simp)
    · exact h.heldRun d co' sid' st' hd' hrun

/-! ## Runs -/

/-- A coroutine on a private stack is created without a copy, on a block with room for
the guard. -/
theorem coCreate_new {h : Heap} {b : Block} {sid' : StackId} (hsize : 8 ≤ b.size.toNat)
    (hcreate : h.coCreate k c sid b = some heap) (hp : heap.Placed c co sid' st) :
    co.stackCopy = none ∧ st.stackBottom.toNat + 8 ≤ st.stackTop.toNat := by
  simp only [Heap.coCreate, Heap.setStack, Heap.setStackObj_cos, Heap.setCo_cos, if_true,
    Heap.setStackObj_coStacks, Option.bind_eq_bind, Option.bind_some, Coroutine.new, CoStack.new,
    Bool.false_and, Bool.false_eq_true, if_false, Option.some.injEq] at hcreate
  subst hcreate
  obtain ⟨hobj, hptr, hbuf⟩ := hp
  simp only [Heap.setCo_cos, if_true, Option.some.injEq] at hobj
  subst hobj
  obtain rfl : sid = sid' := Option.some.inj hptr
  simp only [Heap.setCo_coStacks, Heap.setStackObj_coStacks, if_true, Option.some.injEq] at hbuf
  subst hbuf
  refine ⟨rfl, ?_⟩
  show b.bottom.toNat + 8 ≤ (b.bottom + b.size).toNat
  rw [BitVec.toNat_add, Nat.mod_eq_of_lt b.fits]
  omega

/-- One that is created on a shared stack has the copy of the constructor. -/
theorem coCreateShared_kind {h : Heap} (hcreate : h.coCreateShared k c = some heap)
    (hobj : heap.cos c = some co) : co.sharedStack = true := by
  simp only [Heap.coCreateShared, Heap.coAllocSharedStack, Option.bind_eq_bind,
    Option.bind_eq_some_iff, Option.some.injEq] at hcreate
  obtain ⟨⟨sid, h₂⟩, ⟨sid', -, heq⟩, hset⟩ := hcreate
  obtain ⟨rfl, rfl⟩ := Prod.mk.inj heq
  simp only [Heap.setStack, Heap.setCo_cos, if_true, Option.bind_eq_bind, Option.bind_some,
    Option.bind_eq_some_iff] at hset
  obtain ⟨st, -, hset⟩ := hset
  split at hset
  · cases hset
  · simp only [Coroutine.new, if_true, Option.some.injEq] at hset
    subst hset
    simp only [Heap.setCo_cos, if_true, Option.some.injEq] at hobj
    rw [← hobj]

theorem created_heap (hm : m.created k c heap = some m') : m'.heap = heap := by
  simp only [Machine.created, Option.bind_eq_bind, Option.bind_eq_some_iff,
    Option.some.injEq] at hm
  obtain ⟨_, -, rfl⟩ := hm
  rfl

theorem step_new {op : Op} (hstep : m.step k op = some m')
    (hop : (∃ sid b, op = .coCreate c sid b) ∨ op = .coCreateShared c)
    (hp : m'.heap.Placed c co sid st) (hs : co.sharedStack = false) :
    co.stackCopy = none ∧ st.stackBottom.toNat + 8 ≤ st.stackTop.toNat := by
  rcases hop with ⟨sid, b, rfl⟩ | rfl
  · simp only [Machine.step] at hstep
    split at hstep
    · next hguard =>
      obtain ⟨heap, hcreate, hm⟩ := Option.bind_eq_some_iff.mp hstep
      simp only [Bool.and_eq_true, decide_eq_true_eq] at hguard
      exact coCreate_new hguard.2 hcreate (created_heap hm ▸ hp)
    · cases hstep
  · simp only [Machine.step] at hstep
    split at hstep
    · obtain ⟨heap, hcreate, hm⟩ := Option.bind_eq_some_iff.mp hstep
      rw [coCreateShared_kind hcreate (created_heap hm ▸ hp.obj)] at hs
      cases hs
    · cases hstep

/-- The new coroutine is on its stack. -/
theorem placed_created {h : Heap} (hadd : Adds k h heap c co sid st)
    (hm : m.created k c heap = some m') : m'.heap.Placed c co sid st := by
  rw [created_heap hm]
  exact ⟨by simp [hadd.cos], hadd.ptr, by simp [hadd.coStacks]⟩

theorem step_copies (hinv : Inv (some m.sched.current) m) (h : Copies (some m.sched.current) m)
    {op : Op} (hstep : m.step k op = some m') : Copies (some m'.sched.current) m' := by
  cases step_cases hinv.ok hstep with
  | write hp => exact write_copies h hp.buf _
  | compute hp hold => exact compute_copies h hp hold
  | coCreate hadd hm =>
    obtain ⟨-, hsched⟩ := create_inv hinv hadd hm
    rw [hsched]
    exact create_copies hinv h hadd hm
      (step_new hstep (.inl ⟨_, _, rfl⟩) (placed_created hadd hm))
  | coCreateShared hadd hm =>
    obtain ⟨-, hsched⟩ := create_inv hinv hadd hm
    rw [hsched]
    exact create_copies hinv h hadd hm (step_new hstep (.inr rfl) (placed_created hadd hm))
  | coPost _ => exact h.congr rfl rfl
  | @coResched img _ _ hsave _ hsched =>
    have hrest := (suspend_inv (e := .rescheduled m.sched.current img) hinv hsave (.inl rfl)).1
    have hcopies := save_copies hinv h hsave
    exact coSched_copies (hrest.sched _) (hcopies.congr rfl rfl) hsched
  | @coYield img _ _ hsave _ hsched =>
    have hrest := (suspend_inv (e := .yielded m.sched.current img) hinv hsave (.inr rfl)).1
    have hcopies := save_copies hinv h hsave
    exact coSched_copies hrest (hcopies.congr rfl rfl) hsched
  | coExit hp hd hsched =>
    refine coSched_copies (exit_inv hinv hp hd) (coDestroy_copies h hp hd fun d => ?_) hsched
    exact ⟨by simp, fun ⟨he, hne⟩ => absurd (Option.some.inj he) hne⟩

theorem lifeStep_copies (hinv : Inv (some m.sched.current) m)
    (h : Copies (some m.sched.current) m) {a : LifeOp} (hstep : m.lifeStep k a = some m') :
    Inv (some m'.sched.current) m' ∧ Copies (some m'.sched.current) m' := by
  cases a with
  | op op => exact ⟨step_inv hinv hstep, step_copies hinv h hstep⟩
  | coDestroy c =>
    obtain ⟨hne, heap, co, sid, st, hp, hheap, rfl⟩ := coDestroy_eq_some hstep
    have hrun : ∀ d, some d = (some m.sched.current : CoPtr) ↔
        some d = (some m.sched.current : CoPtr) ∧ d ≠ c := by
      refine fun d => ⟨fun hd => ⟨hd, ?_⟩, fun hd => hd.1⟩
      rintro rfl
      exact hne (Option.some.inj hd)
    exact ⟨coDestroy_inv hinv hp hheap hrun, coDestroy_copies h hp hheap hrun⟩

theorem coInit_copies (cpu : Cpu) (mainBytes : Word → UInt8)
    (blocks : List Machine.SharedBlock) :
    Copies (some 0) (Machine.coInit k cpu mainBytes blocks) where
  owned c co sid st hp hs := by
    rw [(coInit_placed hp).2.2.1] at hs
    cases hs
  plain c co hobj hs := by
    simp only [Machine.coInit] at hobj
    split at hobj
    · cases hobj
      rfl
    · cases hobj
  block sid st hst hsh := by
    obtain ⟨b, -, rfl⟩ := coInit_coStacks hst hsh
    have hsize := b.property
    have hfits := b.val.fits
    simp only [CoStack.new, BitVec.toNat_add, Nat.mod_eq_of_lt hfits]
    rw [hsize]
    simp
  held c co sid st hp hne := absurd (congrArg some (coInit_placed hp).1) hne
  heldRun c co sid st hp _ := by
    obtain ⟨-, rfl, -, -⟩ := coInit_placed hp
    obtain rfl := Option.some.inj hp.buf
    rfl

end CopiesLemmas

open SwitchLemmas CopiesLemmas

/-- The blocks behind the `stack_copy_` pointers. -/
structure CopiesOwned (m : Machine) : Prop where
  /-- A coroutine on a shared stack has a copy exactly while another one has the
  stack, or nobody. -/
  away : ∀ c co sid st, m.heap.Placed c co sid st → co.sharedStack = true →
    (co.stackCopy.isSome ↔ st.usedBy ≠ some c)
  plain : ∀ c co, m.heap.cos c = some co → co.sharedStack = false → co.stackCopy = none
  /-- A copy is as long as `stack_copy_size_` says, and fits into the buffer. -/
  fits : ∀ c co sid st copy, m.heap.Placed c co sid st → co.stackCopy = some copy →
    copy.length = co.stackCopySize.toNat ∧
      copy.length ≤ (st.stackTop - st.stackBottom).toNat

namespace CopiesLemmas

theorem Copies.copiesOwned {m : Machine} (hinv : Inv (some m.sched.current) m)
    (h : Copies (some m.sched.current) m) : CopiesOwned m where
  away c co sid st hp hs := by
    rw [← Option.ne_none_iff_isSome]
    exact not_congr (h.owned c co sid st hp hs)
  plain := h.plain
  fits c co sid st copy hp hcopy := by
    have hs : co.sharedStack = true := by
      by_contra hs
      rw [h.plain c co hp.obj (by simpa using hs)] at hcopy
      cases hcopy
    have hu : st.usedBy ≠ some c := fun hu => by
      rw [(h.owned c co sid st hp hs).mpr hu] at hcopy
      cases hcopy
    have hrun : some c ≠ (some m.sched.current : CoPtr) := fun he =>
      hu (hinv.runs c co sid st hp he hs).1
    obtain ⟨bytes, hbytes, hfits⟩ := h.fits hinv hp hs hu hrun
    obtain rfl := Option.some.inj (hcopy.symm.trans hbytes)
    exact hfits

end CopiesLemmas

/-- In every state of every run, `co_destroy` included: no copy is leaked when
the stack is saved, none is missing when it is restored, and neither leaves the
buffer of the stack. -/
theorem copies_owned (k : Code) (cpu : Cpu) (mainBytes : Word → UInt8)
    (blocks : List Machine.SharedBlock) (ops : List LifeOp) :
    AllStates (Machine.lifeStep k) CopiesOwned (Machine.coInit k cpu mainBytes blocks) ops := by
  have hall : AllStates (Machine.lifeStep k)
      (fun m => Inv (some m.sched.current) m ∧ Copies (some m.sched.current) m)
      (Machine.coInit k cpu mainBytes blocks) ops :=
    allStates_of_allSteps (P := fun _ _ => True)
      (fun _ _ _ h _ hstep => lifeStep_copies h.1 h.2 hstep)
      ⟨coInit_inv, coInit_copies cpu mainBytes blocks⟩
      (allSteps_of_forall fun _ _ _ => trivial)
  exact hall.mono fun m h => h.2.copiesOwned h.1

end NetTraverse
