import NetTraverse.Bridge.MacTable
import NetTraverse.Coroutine.Scheduler
import NetTraverse.Lib.Transition

/-!
# `forward` with handlers that suspend

Several coroutines call `forward` of one `ethernet_bridge`. A handler may suspend
its coroutine, and only there other coroutines run. A broadcast holds an iterator
into the table meanwhile, and executes the function that is stored in the record.
`safe_iff` says which calls of `forward` destroy what a suspended broadcast uses:
those that erase or assign to the record whose handler is suspended.

Nodes of the map and assignments to records are numbered by `fresh`, in order to
tell a record from its successors under the same address.
-/

namespace NetTraverse

/-- A node of `table_`, as an iterator points to it. -/
structure Entry where
  addr : EtherAddr
  node : Nat

/-- The loop of a broadcast. -/
structure Loop where
  src : EtherAddr
  /-- `fresh` when the loop started. -/
  start : Nat
  /-- Whose handlers have been called. -/
  called : List EtherAddr

/-- A call of `forward` from where it has learned the source address. -/
inductive Call (T : Type) where
  /-- Before or in `send_handler(buffer)`. The handler is a copy. -/
  | unicast (dst : EtherAddr) (sendHandler : T) (running : Bool)
  /-- At `it != table_.end()`. -/
  | test (loop : Loop) (it : Option Entry)
  /-- In `(*it)(buffer)`, on the record of the given assignment. -/
  | handler (loop : Loop) (it : Entry) (stamp : Nat)

/-- In a handler. -/
def Call.suspendable {T : Type} : Call T → Bool
  | .unicast _ _ running => running
  | .test _ _ => false
  | .handler _ _ _ => true

/-- `ethernet_bridge`, with the calls of `forward` in progress. -/
structure EthernetBridge (T : Type) where
  table : MacTable T
  /-- When the entry of an address was inserted. -/
  node : EtherAddr → Nat
  /-- When its record was last assigned. -/
  stamp : EtherAddr → Nat
  fresh : Nat
  /-- The running coroutine. -/
  current : CoId
  calls : CoId → Option (Call T)

/-- `switch` is all that happens between two coroutines, `proceed` is a step of
the running one up to the next call of a handler, and `handlerReturn` is the
return of a handler with the `++it` after it. -/
inductive BridgeOp (T : Type) where
  | switch (c : CoId)
  | forward (buffer : List UInt8) (replyHandler : T) (t₁ t₂ : Int)
  | proceed
  | handlerReturn

namespace EthernetBridge

variable {T : Type}

def init : EthernetBridge T := ⟨.empty, fun _ => 0, fun _ => 0, 1, 0, fun _ => none⟩

variable (s : EthernetBridge T)

/-- The call of the running coroutine. -/
def call : Option (Call T) := s.calls s.current

def setCall (call : Option (Call T)) : EthernetBridge T :=
  { s with calls := Function.update s.calls s.current call }

/-- The node is still there. -/
def valid (it : Entry) : Bool := (s.table.find? it.addr).isSome && s.node it.addr == it.node

def entry (x : EtherAddr × Record T) : Entry := ⟨x.1, s.node x.1⟩

/-- `table_.begin()` and `++it`. -/
def begin : Option Entry := s.table.first?.map s.entry
def next (it : Entry) : Option Entry := (s.table.next? it.addr).map s.entry

/-- `clean_up` -/
def cleanUp (now : Int) : EthernetBridge T := { s with table := s.table.checkTimeout now }

/-- `table_.update(src, reply_handler)` -/
def learn (now : Int) (src : EtherAddr) (replyHandler : T) : EthernetBridge T :=
  { s with
    table := s.table.update now src replyHandler
    node :=
      if (s.table.find? src).isSome then s.node else Function.update s.node src s.fresh
    stamp := Function.update s.stamp src s.fresh
    fresh := s.fresh + 1 }

/-- Where `forward` goes after `update`. -/
def dispatch (dst src : EtherAddr) : EthernetBridge T :=
  s.setCall <|
    if dst ≠ .broadcast then
      (s.table.query dst).map fun sendHandler => .unicast dst sendHandler false
    else some (.test ⟨src, s.fresh, []⟩ s.begin)

/-- `forward` up to its first handler. -/
def forward (buffer : List UInt8) (replyHandler : T) (t₁ t₂ : Int) : EthernetBridge T :=
  let s := s.cleanUp t₁
  if buffer.length < etherHeaderSize then s
  else
    let dst := frameDst buffer
    let src := frameSrc buffer
    let s := s.learn t₂ src replyHandler
    s.dispatch dst src

def step (s : EthernetBridge T) : BridgeOp T → Option (EthernetBridge T)
  | .switch c =>
    match s.call with
    | none => some { s with current := c }
    | some call => if call.suspendable then some { s with current := c } else none
  | .forward buffer replyHandler t₁ t₂ =>
    match s.call with
    | none => some (s.forward buffer replyHandler t₁ t₂)
    | some _ => none
  | .proceed =>
    match s.call with
    | some (.unicast dst sendHandler false) =>
      some (s.setCall (some (.unicast dst sendHandler true)))
    | some (.test _ none) => some (s.setCall none)
    | some (.test loop (some it)) =>
      if s.valid it then
        if it.addr ≠ loop.src then
          some (s.setCall (some (.handler { loop with called := loop.called ++ [it.addr] } it
            (s.stamp it.addr))))
        else some (s.setCall (some (.test loop (s.next it))))
      else none
    | _ => none
  | .handlerReturn =>
    match s.call with
    | some (.unicast _ _ true) => some (s.setCall none)
    | some (.handler loop it _) =>
      if s.valid it then some (s.setCall (some (.test loop (s.next it)))) else none
    | _ => none

/-! ## What a broadcast relies on -/

/-- What a call relies on. An iterator points to an entry of the table. The
record whose handler is executed is still the one that it was called on. A loop
at its end has called each entry that was there all the time once. -/
def SafeCall : Call T → Prop
  | .unicast _ _ _ => True
  | .test loop none => ∀ k, (s.table.find? k).isSome → s.node k < loop.start → k ≠ loop.src →
      loop.called.count k = 1
  | .test _ (some it) => s.valid it
  | .handler _ it stamp => s.valid it ∧ s.stamp it.addr = stamp

/-- Every call can rely on that. -/
def Safe : Prop := ∀ c call, s.calls c = some call → s.SafeCall call

/-- A call of `forward` neither erases nor assigns to a record whose handler is
suspended: the record is not expired, and the frame is not from its address. -/
def SparesHandlers : BridgeOp T → Prop
  | .forward buffer _ t₁ _ => ∀ c loop it stamp r,
      s.calls c = some (.handler loop it stamp) → s.table.find? it.addr = some r →
        ¬ MacTable.expired t₁ r ∧
          (etherHeaderSize ≤ buffer.length → frameSrc buffer ≠ it.addr)
  | _ => True

/-- Below `bound`, a loop has called the entries that were there all the time,
and it has called nobody twice. -/
structure Visited (loop : Loop) (bound : EtherAddr → Prop) : Prop where
  nodup : loop.called.Nodup
  called : ∀ k ∈ loop.called, bound k
  complete : ∀ k, bound k → (s.table.find? k).isSome → s.node k < loop.start → k ≠ loop.src →
    k ∈ loop.called

/-- How far a call has come. -/
def Progress : Call T → Prop
  | .unicast _ _ _ => True
  | .test loop none => loop.start ≤ s.fresh ∧ s.Visited loop fun _ => True
  | .test loop (some it) => loop.start ≤ s.fresh ∧ s.Visited loop (· < it.addr)
  | .handler loop it stamp =>
    loop.start ≤ s.fresh ∧ stamp < s.fresh ∧ s.Visited loop (· ≤ it.addr)

structure Inv : Prop where
  node_lt : ∀ k, s.node k < s.fresh
  stamp_lt : ∀ k, s.stamp k < s.fresh
  progress : ∀ c call, s.calls c = some call → s.Progress call
  /-- Only the running coroutine is outside its handlers. -/
  running : ∀ c call, s.calls c = some call → c ≠ s.current → call.suspendable

/-! ## The steps -/

inductive Step (s : EthernetBridge T) : BridgeOp T → EthernetBridge T → Prop
  | switch {c : CoId} (hcall : ∀ call, s.call = some call → call.suspendable) :
      Step s (.switch c) { s with current := c }
  | forward {buffer : List UInt8} {replyHandler : T} {t₁ t₂ : Int} (hidle : s.call = none) :
      Step s (.forward buffer replyHandler t₁ t₂) (s.forward buffer replyHandler t₁ t₂)
  | sendHandler {dst : EtherAddr} {t : T} (hcall : s.call = some (.unicast dst t false)) :
      Step s .proceed (s.setCall (some (.unicast dst t true)))
  | loopEnd {loop : Loop} (hcall : s.call = some (.test loop none)) :
      Step s .proceed (s.setCall none)
  | invoke {loop : Loop} {it : Entry} (hcall : s.call = some (.test loop (some it)))
      (hvalid : s.valid it) (hne : it.addr ≠ loop.src) :
      Step s .proceed (s.setCall (some
        (.handler { loop with called := loop.called ++ [it.addr] } it (s.stamp it.addr))))
  | skip {loop : Loop} {it : Entry} (hcall : s.call = some (.test loop (some it)))
      (hvalid : s.valid it) (heq : it.addr = loop.src) :
      Step s .proceed (s.setCall (some (.test loop (s.next it))))
  | sent {dst : EtherAddr} {t : T} (hcall : s.call = some (.unicast dst t true)) :
      Step s .handlerReturn (s.setCall none)
  | handlerReturn {loop : Loop} {it : Entry} {stamp : Nat}
      (hcall : s.call = some (.handler loop it stamp)) (hvalid : s.valid it) :
      Step s .handlerReturn (s.setCall (some (.test loop (s.next it))))

variable {s} {s' : EthernetBridge T} {a : BridgeOp T}

theorem step_cases (h : s.step a = some s') : Step s a s' := by
  cases a with
  | switch c =>
    rw [step] at h
    split at h
    · next hcall =>
      cases h
      exact .switch (by simp [hcall])
    · next call hcall =>
      split at h
      · next hsusp =>
        cases h
        exact .switch (by simpa [hcall] using hsusp)
      · cases h
  | forward buffer replyHandler t₁ t₂ =>
    rw [step] at h
    split at h
    · next hcall =>
      cases h
      exact .forward hcall
    · cases h
  | proceed =>
    rw [step] at h
    split at h
    · next hcall =>
      cases h
      exact .sendHandler hcall
    · next hcall =>
      cases h
      exact .loopEnd hcall
    · next hcall =>
      split at h
      · next hvalid =>
        split at h
        · next hne =>
          cases h
          exact .invoke hcall hvalid hne
        · next heq =>
          cases h
          exact .skip hcall hvalid (not_not.mp heq)
      · cases h
    · cases h
  | handlerReturn =>
    rw [step] at h
    split at h
    · next hcall =>
      cases h
      exact .sent hcall
    · next hcall =>
      split at h
      · next hvalid =>
        cases h
        exact .handlerReturn hcall hvalid
      · cases h
    · cases h

theorem Step.step_eq (h : Step s a s') : s.step a = some s' := by
  cases h with
  | switch hcall =>
    rw [step]
    split
    · rfl
    · next call hc => rw [if_pos (hcall call hc)]
  | forward hcall | sendHandler hcall | loopEnd hcall | sent hcall => rw [step, hcall]
  | invoke hcall hvalid hne =>
    rw [step, hcall]
    exact (if_pos hvalid).trans (if_pos hne)
  | skip hcall hvalid heq =>
    rw [step, hcall]
    exact (if_pos hvalid).trans (if_neg (not_not.mpr heq))
  | handlerReturn hcall hvalid =>
    rw [step, hcall]
    exact if_pos hvalid

namespace BroadcastLemmas

variable {c : CoId} {call : Call T} {loop : Loop} {it : Entry} {k : EtherAddr}

/-! ### Positions -/

theorem valid_begin (h : s.begin = some it) : s.valid it := by
  obtain ⟨x, hx, rfl⟩ := Option.map_eq_some_iff.mp h
  simp [valid, entry, (OrdMap.first?_eq_some hx).1]

theorem valid_next {it' : Entry} (h : s.next it = some it') : s.valid it' := by
  obtain ⟨x, hx, rfl⟩ := Option.map_eq_some_iff.mp h
  simp [valid, entry, (OrdMap.next?_eq_some hx).1]

theorem safeCall_test {x : Option Entry} (hprog : s.Progress (.test loop x))
    (hvalid : ∀ it, x = some it → s.valid it) : s.SafeCall (.test loop x) := by
  cases x with
  | some it => exact hvalid it rfl
  | none =>
    intro k hk hnode hsrc
    obtain ⟨-, hvis⟩ := hprog
    exact List.count_eq_one_of_mem hvis.nodup (hvis.complete k trivial hk hnode hsrc)

/-- Nothing is below the first entry. -/
theorem progress_begin : s.Progress (.test ⟨k, s.fresh, []⟩ s.begin) := by
  cases hbegin : s.table.first? with
  | none =>
    rw [begin, hbegin]
    refine ⟨Nat.le_refl _, List.nodup_nil, by simp, fun j _ hj => ?_⟩
    rw [OrdMap.first?_eq_none hbegin] at hj
    cases hj
  | some x =>
    rw [begin, hbegin]
    refine ⟨Nat.le_refl _, List.nodup_nil, by simp, fun j hlt hj => ?_⟩
    obtain ⟨r, hr⟩ := Option.isSome_iff_exists.mp hj
    exact absurd hlt (not_lt.mpr ((OrdMap.first?_eq_some hbegin).2 j r hr))

/-- Nothing is between an entry and the next one. -/
theorem progress_next (hstart : loop.start ≤ s.fresh) (hvis : s.Visited loop (· ≤ it.addr)) :
    s.Progress (.test loop (s.next it)) := by
  cases hnext : s.table.next? it.addr with
  | none =>
    rw [next, hnext]
    refine ⟨hstart, hvis.nodup, fun _ _ => trivial, fun j _ hj => hvis.complete j ?_ hj⟩
    by_contra hlt
    rw [OrdMap.next?_eq_none hnext (not_le.mp hlt)] at hj
    cases hj
  | some x =>
    obtain ⟨-, hgt, hleast⟩ := OrdMap.next?_eq_some hnext
    rw [next, hnext]
    refine ⟨hstart, hvis.nodup, fun j hj => lt_of_le_of_lt (hvis.called j hj) hgt,
      fun j hlt hj => hvis.complete j ?_ hj⟩
    by_contra hgt'
    obtain ⟨r, hr⟩ := Option.isSome_iff_exists.mp hj
    exact absurd hlt (not_lt.mpr (hleast j r hr (not_le.mp hgt')))

/-- Past the entry of the source address itself. -/
theorem visited_skip (heq : it.addr = loop.src) (hvis : s.Visited loop (· < it.addr)) :
    s.Visited loop (· ≤ it.addr) where
  nodup := hvis.nodup
  called := fun k hk => le_of_lt (hvis.called k hk)
  complete := fun k hle hk hnode hsrc =>
    hvis.complete k (lt_of_le_of_ne hle fun h => hsrc (h.trans heq)) hk hnode hsrc

/-- With the handler of the entry called. -/
theorem visited_invoke (hvis : s.Visited loop (· < it.addr)) :
    s.Visited { loop with called := loop.called ++ [it.addr] } (· ≤ it.addr) where
  nodup := by
    refine List.Nodup.append hvis.nodup (List.nodup_singleton _) ?_
    rw [List.disjoint_singleton]
    exact fun hmem => lt_irrefl _ (hvis.called _ hmem)
  called := fun k hk => by
    rcases List.mem_append.mp hk with hk | hk
    · exact le_of_lt (hvis.called k hk)
    · exact le_of_eq (List.mem_singleton.mp hk)
  complete := fun k hle hk hnode hsrc => by
    rcases lt_or_eq_of_le hle with hlt | rfl
    · exact List.mem_append_left _ (hvis.complete k hlt hk hnode hsrc)
    · exact List.mem_append_right _ List.mem_cons_self

/-! ### What a step changes -/

/-- When the old entries of `s'` are entries of `s`. -/
theorem progress_mono (hfresh : s.fresh ≤ s'.fresh)
    (hold : ∀ k, (s'.table.find? k).isSome → s'.node k < s.fresh →
      (s.table.find? k).isSome ∧ s.node k = s'.node k)
    (h : s.Progress call) : s'.Progress call := by
  have hvis {loop : Loop} {bound : EtherAddr → Prop} (hstart : loop.start ≤ s.fresh)
      (hvis : s.Visited loop bound) : s'.Visited loop bound :=
    ⟨hvis.nodup, hvis.called, fun k hk hin hnode hsrc => by
      obtain ⟨hin', hnode'⟩ := hold k hin (lt_of_lt_of_le hnode hstart)
      exact hvis.complete k hk hin' (hnode'.trans_lt hnode) hsrc⟩
  cases call with
  | unicast => trivial
  | test loop x =>
    cases x with
    | none => exact ⟨h.1.trans hfresh, hvis h.1 h.2⟩
    | some it => exact ⟨h.1.trans hfresh, hvis h.1 h.2⟩
  | handler loop it stamp => exact ⟨h.1.trans hfresh, h.2.1.trans_le hfresh, hvis h.1 h.2.2⟩

theorem setCall_of_ne {x : Option (Call T)} (h : c ≠ s.current) :
    (s.setCall x).calls c = s.calls c := Function.update_of_ne h _ _

theorem setCall_current {x : Option (Call T)} : (s.setCall x).calls s.current = x :=
  Function.update_self _ _ _

/-- What holds of all calls and of the new one. -/
theorem forall_setCall {P : Call T → Prop} {x : Option (Call T)}
    (h : ∀ c call, s.calls c = some call → P call) (hx : ∀ call, x = some call → P call) :
    ∀ c call, (s.setCall x).calls c = some call → P call := by
  intro c call hc
  by_cases hcur : c = s.current
  · rw [hcur, setCall_current] at hc
    exact hx call hc
  · exact h c call (setCall_of_ne hcur ▸ hc)

/-- The other calls, when the running coroutine has none. -/
theorem forall_of_setCall {P : Call T → Prop} {x : Option (Call T)} (hidle : s.call = none)
    (h : ∀ c call, (s.setCall x).calls c = some call → P call) :
    ∀ c call, s.calls c = some call → P call := by
  intro c call hc
  have hcur : c ≠ s.current := by
    rintro rfl
    cases hidle.symm.trans hc
  exact h c call ((setCall_of_ne hcur).trans hc)

theorem inv_setCall {x : Option (Call T)} (hinv : s.Inv)
    (hx : ∀ call, x = some call → s.Progress call) : (s.setCall x).Inv where
  node_lt := hinv.node_lt
  stamp_lt := hinv.stamp_lt
  progress := fun c call hc => by
    have hprog : s.Progress call := forall_setCall hinv.progress hx c call hc
    exact progress_mono (Nat.le_refl s.fresh) (fun _ hk _ => ⟨hk, rfl⟩) hprog
  running := fun c call hc (hcur : c ≠ s.current) =>
    hinv.running c call ((setCall_of_ne hcur).symm.trans hc) hcur

theorem inv_cleanUp (hinv : s.Inv) (now : Int) : (s.cleanUp now).Inv where
  node_lt := hinv.node_lt
  stamp_lt := hinv.stamp_lt
  progress := fun c call hc => by
    have hprog : s.Progress call := hinv.progress c call hc
    refine progress_mono (Nat.le_refl s.fresh) (fun k hk _ => ⟨?_, rfl⟩) hprog
    rw [cleanUp, MacTable.find?_checkTimeout, Option.isSome_filter] at hk
    exact Option.isSome_of_any hk
  running := hinv.running

theorem inv_learn (hinv : s.Inv) (now : Int) (src : EtherAddr) (t : T) :
    (s.learn now src t).Inv where
  node_lt := fun k => by
    have hk := hinv.node_lt k
    simp only [learn]
    split
    · omega
    · by_cases heq : k = src
      · simp [heq]
      · rw [Function.update_of_ne heq]
        omega
  stamp_lt := fun k => by
    have hk := hinv.stamp_lt k
    simp only [learn]
    by_cases heq : k = src
    · simp [heq]
    · rw [Function.update_of_ne heq]
      omega
  progress := fun c call hc => by
    have hprog : s.Progress call := hinv.progress c call hc
    refine progress_mono (Nat.le_succ s.fresh) (fun k hk hnode => ?_) hprog
    simp only [learn, MacTable.find?_update] at hk hnode ⊢
    by_cases hin : (s.table.find? src).isSome
    · -- an assignment keeps the node
      rw [if_pos hin]
      refine ⟨?_, rfl⟩
      split at hk
      · next heq => rwa [heq]
      · exact hk
    · rw [if_neg hin] at hnode ⊢
      by_cases heq : k = src
      · -- an insertion is younger than every loop
        rw [heq, Function.update_self] at hnode
        exact absurd hnode (lt_irrefl _)
      · rw [if_neg heq] at hk
        exact ⟨hk, (Function.update_of_ne heq _ _).symm⟩
  running := hinv.running

theorem forward_of_short {buffer : List UInt8} {t : T} {t₁ t₂ : Int}
    (h : buffer.length < etherHeaderSize) : s.forward buffer t t₁ t₂ = s.cleanUp t₁ := if_pos h

theorem forward_of_frame {buffer : List UInt8} {t : T} {t₁ t₂ : Int}
    (h : ¬ buffer.length < etherHeaderSize) : s.forward buffer t t₁ t₂ =
      ((s.cleanUp t₁).learn t₂ (frameSrc buffer) t).dispatch (frameDst buffer) (frameSrc buffer) :=
  if_neg h

theorem inv_dispatch {dst src : EtherAddr} (hinv : s.Inv) : (s.dispatch dst src).Inv := by
  refine inv_setCall hinv fun call hcall => ?_
  split at hcall
  · obtain ⟨sendHandler, -, rfl⟩ := Option.map_eq_some_iff.mp hcall
    trivial
  · cases hcall
    exact progress_begin

theorem step_inv (hinv : s.Inv) (h : Step s a s') : s'.Inv := by
  cases h with
  | switch hcall =>
    refine ⟨hinv.node_lt, hinv.stamp_lt, fun c call hc => ?_, fun c call hc _ => ?_⟩
    · have hprog : s.Progress call := hinv.progress c call hc
      exact progress_mono (Nat.le_refl s.fresh) (fun _ hk _ => ⟨hk, rfl⟩) hprog
    · by_cases hold : c = s.current
      · exact hcall call (by rwa [hold] at hc)
      · exact hinv.running c call hc hold
  | @forward buffer t t₁ t₂ hidle =>
    by_cases hshort : buffer.length < etherHeaderSize
    · rw [forward_of_short hshort]
      exact inv_cleanUp hinv t₁
    · rw [forward_of_frame hshort]
      exact inv_dispatch (inv_learn (inv_cleanUp hinv t₁) _ _ _)
  | sendHandler hcall =>
    exact inv_setCall hinv (by rintro _ ⟨⟩; trivial)
  | loopEnd hcall | sent hcall => exact inv_setCall hinv (by rintro _ ⟨⟩)
  | invoke hcall hvalid hne =>
    refine inv_setCall hinv ?_
    rintro _ ⟨⟩
    obtain ⟨hstart, hvis⟩ := hinv.progress _ _ hcall
    exact ⟨hstart, hinv.stamp_lt _, visited_invoke hvis⟩
  | skip hcall hvalid heq =>
    refine inv_setCall hinv ?_
    rintro _ ⟨⟩
    obtain ⟨hstart, hvis⟩ := hinv.progress _ _ hcall
    exact progress_next hstart (visited_skip heq hvis)
  | handlerReturn hcall hvalid =>
    refine inv_setCall hinv ?_
    rintro _ ⟨⟩
    obtain ⟨hstart, -, hvis⟩ := hinv.progress _ _ hcall
    exact progress_next hstart hvis

/-! ### Who is safe -/

/-- What a call relies on is in the table, wherever the other calls are. -/
theorem safe_setCall {x : Option (Call T)} (hsafe : s.Safe)
    (hx : ∀ call, x = some call → s.SafeCall call) : (s.setCall x).Safe := by
  intro c call hc
  have hcall : s.SafeCall call := forall_setCall hsafe hx c call hc
  exact hcall

/-- While the running coroutine is outside `forward`, everybody else is in a
handler, and only a broadcast relies on the table there. -/
theorem safe_iff_handlers (hinv : s.Inv) (hidle : s.call = none) :
    s.Safe ↔ ∀ c loop it stamp, s.calls c = some (.handler loop it stamp) →
      s.valid it ∧ s.stamp it.addr = stamp := by
  refine ⟨fun h c loop it stamp hc => h c _ hc, fun h c call hc => ?_⟩
  have hsusp : call.suspendable := by
    refine hinv.running c call hc ?_
    rintro rfl
    cases hidle.symm.trans hc
  cases call with
  | unicast => trivial
  | test => cases hsusp
  | handler loop it stamp => exact h c loop it stamp hc

theorem valid_cleanUp {now : Int} :
    (s.cleanUp now).valid it ↔
      s.valid it ∧ ∀ r, s.table.find? it.addr = some r → ¬ MacTable.expired now r := by
  simp only [valid, cleanUp, MacTable.find?_checkTimeout]
  cases s.table.find? it.addr <;> simp [and_comm]

/-- `clean_up` is safe exactly when nothing in use is expired. -/
theorem safe_cleanUp {now : Int} (hinv : s.Inv) (hidle : s.call = none) (hsafe : s.Safe) :
    (s.cleanUp now).Safe ↔ ∀ c loop it stamp r, s.calls c = some (.handler loop it stamp) →
      s.table.find? it.addr = some r → ¬ MacTable.expired now r := by
  rw [safe_iff_handlers (inv_cleanUp hinv now) hidle]
  constructor
  · intro h c loop it stamp r hc hr
    exact (valid_cleanUp.mp (h c loop it stamp hc).1).2 r hr
  · intro h c loop it stamp hc
    obtain ⟨hvalid, hstamp⟩ := hsafe c _ hc
    exact ⟨valid_cleanUp.mpr ⟨hvalid, fun r => h c loop it stamp r hc⟩, hstamp⟩

/-- `update` is safe exactly when the record of the address is not in use. -/
theorem safe_learn {now : Int} {src : EtherAddr} {t : T} (hinv : s.Inv)
    (hidle : s.call = none) :
    (s.learn now src t).Safe ↔
      s.Safe ∧ ∀ c loop it stamp, s.calls c = some (.handler loop it stamp) → src ≠ it.addr := by
  have hother {it : Entry} (hne : src ≠ it.addr) :
      ((s.learn now src t).valid it ↔ s.valid it) ∧
        (s.learn now src t).stamp it.addr = s.stamp it.addr := by
    have hnode : (s.learn now src t).node it.addr = s.node it.addr := by
      simp only [learn]
      split
      · rfl
      · exact Function.update_of_ne hne.symm _ _
    have hfind : (s.learn now src t).table.find? it.addr = s.table.find? it.addr :=
      OrdMap.find?_insert_of_ne hne.symm
    exact ⟨by rw [valid, valid, hnode, hfind], Function.update_of_ne hne.symm _ _⟩
  rw [safe_iff_handlers (inv_learn hinv now src t) hidle, safe_iff_handlers hinv hidle]
  constructor
  · intro h
    have hne : ∀ c loop it stamp, s.calls c = some (.handler loop it stamp) →
        src ≠ it.addr := by
      rintro c loop it stamp hc rfl
      -- the record in use would have a new stamp
      have hstamp := (h c loop it stamp hc).2
      have hold := (hinv.progress c _ hc).2.1
      have hnew : (s.learn now it.addr t).stamp it.addr = s.fresh := Function.update_self _ _ _
      omega
    refine ⟨fun c loop it stamp hc => ?_, hne⟩
    obtain ⟨hvalid, hstamp⟩ := hother (hne c loop it stamp hc)
    have hnew := h c loop it stamp hc
    rwa [hvalid, hstamp] at hnew
  · rintro ⟨h, hne⟩ c loop it stamp hc
    obtain ⟨hvalid, hstamp⟩ := hother (hne c loop it stamp hc)
    rw [hvalid, hstamp]
    exact h c loop it stamp hc

theorem safe_dispatch {dst src : EtherAddr} (hidle : s.call = none) :
    (s.dispatch dst src).Safe ↔ s.Safe := by
  constructor
  · intro h c call hc
    exact forall_of_setCall hidle h c call hc
  · intro h
    refine safe_setCall h fun call hcall => ?_
    split at hcall
    · obtain ⟨sendHandler, -, rfl⟩ := Option.map_eq_some_iff.mp hcall
      trivial
    · cases hcall
      exact safeCall_test progress_begin fun it => valid_begin

theorem safe_forward {buffer : List UInt8} {t : T} {t₁ t₂ : Int} (hinv : s.Inv)
    (hidle : s.call = none) (hsafe : s.Safe) :
    (s.forward buffer t t₁ t₂).Safe ↔ s.SparesHandlers (.forward buffer t t₁ t₂) := by
  by_cases hshort : buffer.length < etherHeaderSize
  · rw [forward_of_short hshort, safe_cleanUp hinv hidle hsafe]
    constructor
    · intro h c loop it stamp r hc hr
      exact ⟨h c loop it stamp r hc hr, fun hlong => absurd hshort (not_lt.mpr hlong)⟩
    · exact fun h c loop it stamp r hc hr => (h c loop it stamp r hc hr).1
  · have hclean := inv_cleanUp hinv t₁
    have hlearned : ((s.cleanUp t₁).learn t₂ (frameSrc buffer) t).call = none := hidle
    rw [forward_of_frame hshort, safe_dispatch hlearned, safe_learn hclean hidle,
      safe_cleanUp hinv hidle hsafe]
    constructor
    · rintro ⟨hexpired, hsrc⟩ c loop it stamp r hc hr
      exact ⟨hexpired c loop it stamp r hc hr, fun _ => hsrc c loop it stamp hc⟩
    · intro h
      refine ⟨fun c loop it stamp r hc hr => (h c loop it stamp r hc hr).1,
        fun c loop it stamp hc => ?_⟩
      have hin := (Bool.and_eq_true_iff.mp (hsafe c _ hc).1).1
      obtain ⟨r, hr⟩ := Option.isSome_iff_exists.mp hin
      exact (h c loop it stamp r hc hr).2 (not_lt.mp hshort)

theorem safe_step (hinv : s.Inv) (hsafe : s.Safe) (h : Step s a s') :
    s'.Safe ↔ s.SparesHandlers a := by
  cases h with
  | forward hidle => exact safe_forward hinv hidle hsafe
  | switch => exact iff_of_true hsafe trivial
  | sendHandler => exact iff_of_true (safe_setCall hsafe (by rintro _ ⟨⟩; trivial)) trivial
  | loopEnd | sent => exact iff_of_true (safe_setCall hsafe (by rintro _ ⟨⟩)) trivial
  | invoke hcall hvalid hne =>
    refine iff_of_true (safe_setCall hsafe ?_) trivial
    rintro _ ⟨⟩
    exact ⟨hvalid, rfl⟩
  | skip hcall hvalid heq =>
    refine iff_of_true (safe_setCall hsafe ?_) trivial
    rintro _ ⟨⟩
    obtain ⟨hstart, hvis⟩ := hinv.progress _ _ hcall
    exact safeCall_test (progress_next hstart (visited_skip heq hvis)) fun it => valid_next
  | handlerReturn hcall hvalid =>
    refine iff_of_true (safe_setCall hsafe ?_) trivial
    rintro _ ⟨⟩
    obtain ⟨hstart, -, hvis⟩ := hinv.progress _ _ hcall
    exact safeCall_test (progress_next hstart hvis) fun it => valid_next

theorem init_inv : (init : EthernetBridge T).Inv where
  node_lt := fun _ => Nat.one_pos
  stamp_lt := fun _ => Nat.one_pos
  progress := fun _ _ hc => by cases hc
  running := fun _ _ hc => by cases hc

theorem init_safe : (init : EthernetBridge T).Safe := fun _ _ hc => by cases hc

end BroadcastLemmas

open BroadcastLemmas

/-- Along a run every broadcast is safe exactly when no call of `forward` erases
or assigns to a record whose handler is suspended. -/
theorem safe_iff (ops : List (BridgeOp T)) (hrun : Transition.Runs step init ops) :
    Transition.AllStates step Safe init ops ↔
      Transition.AllSteps step SparesHandlers init ops :=
  Transition.allStates_iff_allSteps (I := Inv)
    (fun _ _ _ hI _ h => step_inv hI (step_cases h))
    (fun _ _ _ hI hQ h => safe_step hI hQ (step_cases h)) init_inv init_safe hrun

namespace Demo

/-- A broadcast frame. -/
def frameFrom (k : UInt8) : List UInt8 :=
  List.replicate 6 0xff ++ [2, 0, 0, 0, 0, k, 8, 0]

/-- Coroutine 2 is suspended in the handler of the first address. -/
def suspended : List (BridgeOp Unit) :=
  [.switch 1, .forward (frameFrom 1) () 0 0, .proceed, .proceed,
    .switch 2, .forward (frameFrom 2) () 0 0, .proceed, .switch 1]

/-- Coroutine 1 broadcasts a frame of a third address meanwhile. -/
def interleaved : List (BridgeOp Unit) :=
  suspended ++ [.forward (frameFrom 3) () 5 5, .proceed, .handlerReturn, .proceed, .handlerReturn,
    .proceed, .proceed, .switch 2, .handlerReturn, .proceed, .proceed, .handlerReturn, .proceed]

end Demo

theorem safe_iff_demo :
    Transition.AllStates step Safe init Demo.interleaved ↔
      Transition.AllSteps step SparesHandlers init Demo.interleaved :=
  safe_iff _ (Option.isSome_iff_exists.mp (by decide +kernel))

/-- A frame of the first address is assigned to the record in use. -/
theorem safe_overwritten :
    ¬ ∀ (ops : List (BridgeOp Unit)) s, Transition.exec step init ops = some s → s.Safe := by
  intro hall
  have hrun : (Transition.exec step init
      (Demo.suspended ++ [.forward (Demo.frameFrom 1) () 5 5])).map
        (fun s => match s.calls 2 with
          | some (.handler _ it stamp) => some (s.stamp it.addr, stamp)
          | _ => none) = some (some (3, 1)) := by
    decide +kernel
  obtain ⟨s, hs, hview⟩ := Option.map_eq_some_iff.mp hrun
  split at hview
  · next hcall =>
    have hstamp := (hall _ s hs 2 _ hcall).2
    simp only [hstamp, Option.some.injEq, Prod.mk.injEq] at hview
    omega
  · cases hview

/-! ## A call that is not interrupted -/

/-- The handler that the running coroutine calls when it proceeds. -/
def calling (s : EthernetBridge T) : Option (EtherAddr × T) :=
  match s.call with
  | some (.unicast dst sendHandler false) => some (dst, sendHandler)
  | some (.test loop (some it)) =>
    if it.addr ≠ loop.src then (s.table.find? it.addr).map fun r => (it.addr, r.t) else none
  | _ => none

/-- The handlers that a step calls. -/
def invoked (s : EthernetBridge T) : BridgeOp T → List (EtherAddr × T)
  | .proceed => s.calling.toList
  | _ => []

open Transition

/-- The running coroutine can go on to the end of its call without a switch, and
calls these handlers. -/
def Finishes (s : EthernetBridge T) (handlers : List (EtherAddr × T)) : Prop :=
  ∃ ops, (∀ c, .switch c ∉ ops) ∧ exec step s ops = some (s.setCall none) ∧
    outputs step invoked s ops = handlers

namespace BroadcastLemmas

theorem setCall_setCall {x y : Option (Call T)} : (s.setCall x).setCall y = s.setCall y := by
  simp [setCall]

theorem setCall_none (hidle : s.call = none) : s.setCall none = s := by
  rw [← hidle, setCall, call, Function.update_eq_self]

theorem Finishes.idle (hidle : s.call = none) : s.Finishes [] :=
  ⟨[], fun _ => List.not_mem_nil, by rw [setCall_none hidle]; rfl, rfl⟩

/-- A step in front. -/
theorem Finishes.cons {x : Option (Call T)} {handlers : List (EtherAddr × T)}
    (ha : ∀ c, a ≠ .switch c) (hstep : Step s a (s.setCall x))
    (h : (s.setCall x).Finishes handlers) : s.Finishes (s.invoked a ++ handlers) := by
  obtain ⟨ops, hswitch, hexec, hout⟩ := h
  refine ⟨a :: ops, fun c hc => ?_, ?_, by rw [outputs_cons hstep.step_eq, hout]⟩
  · rcases List.mem_cons.mp hc with heq | hc
    · exact ha c heq.symm
    · exact hswitch c hc
  · rw [setCall_setCall] at hexec
    exact exec_cons_iff.mpr ⟨_, hstep.step_eq, hexec⟩

theorem call_setCall {x : Option (Call T)} : (s.setCall x).call = x := setCall_current

theorem finishes_unicast {dst : EtherAddr} {t : T} (hcall : s.call = some (.unicast dst t false)) :
    s.Finishes [(dst, t)] := by
  have hout : s.invoked .proceed = [(dst, t)] := by simp [invoked, calling, hcall]
  have hsent : (s.setCall (some (.unicast dst t true))).Finishes [] :=
    Finishes.cons (by simp) (.sent call_setCall) (Finishes.idle call_setCall)
  have hall := Finishes.cons (by simp) (.sendHandler hcall) hsent
  rwa [hout] at hall

/-- The rest of a loop calls the handlers of the entries that are left. -/
theorem finishes_loop {suf : List (EtherAddr × Record T)} :
    ∀ {s : EthernetBridge T} {pre loop}, s.table.entries = pre ++ suf →
      s.call = some (.test loop (suf.head?.map s.entry)) →
      s.Finishes ((suf.filter fun e => e.1 ≠ loop.src).map fun e => (e.1, e.2.t)) := by
  induction suf with
  | nil =>
    intro s pre loop _ hcall
    have hout : s.invoked .proceed = [] := by simp [invoked, calling, hcall]
    have hall := Finishes.cons (by simp) (.loopEnd hcall) (Finishes.idle call_setCall)
    rwa [hout] at hall
  | cons e suf ih =>
    intro s pre loop hentries hcall
    replace hcall : s.call = some (.test loop (some (s.entry e))) := hcall
    have hfind : s.table.find? e.1 = some e.2 :=
      OrdMap.find?_eq_some.mpr (hentries ▸ List.mem_append_right _ List.mem_cons_self)
    have hvalid : s.valid (s.entry e) := by simp [valid, entry, hfind]
    have hnext : s.next (s.entry e) = suf.head?.map s.entry :=
      congrArg _ (OrdMap.next?_eq_head? hentries)
    have hentries' : s.table.entries = (pre ++ [e]) ++ suf := by simpa using hentries
    by_cases hsrc : e.1 = loop.src
    · have hout : s.invoked .proceed = [] := by simp [invoked, calling, hcall, entry, hsrc]
      have hskip := Step.skip hcall hvalid hsrc
      rw [hnext] at hskip
      have hall := Finishes.cons (by simp) hskip (ih hentries' call_setCall)
      rw [hout] at hall
      simpa [hsrc] using hall
    · have hout : s.invoked .proceed = [(e.1, e.2.t)] := by
        simp [invoked, calling, hcall, entry, hsrc, hfind]
      set s' := s.setCall (some (.handler { loop with called := loop.called ++ [e.1] }
        (s.entry e) (s.stamp e.1))) with hs'
      have hvalid' : s'.valid (s.entry e) := hvalid
      have hnext' : s'.next (s.entry e) = suf.head?.map s'.entry := hnext
      have hreturn := Step.handlerReturn call_setCall hvalid'
      rw [hnext'] at hreturn
      have hrest := Finishes.cons (by simp) hreturn (ih hentries' call_setCall)
      have hall := Finishes.cons (by simp) (.invoke hcall hvalid hsrc) hrest
      rw [hout] at hall
      simpa [hsrc, invoked] using hall

end BroadcastLemmas

/-- A call that is not interrupted is `forward` on the table. -/
theorem forward_uninterrupted (buffer : List UInt8) (t : T) (t₁ t₂ : Int)
    (hidle : s.call = none) :
    (s.forward buffer t t₁ t₂).table = (NetTraverse.forward s.table t₁ t₂ buffer t).table ∧
      (s.forward buffer t t₁ t₂).Finishes
        (NetTraverse.forward s.table t₁ t₂ buffer t).invoked := by
  by_cases hshort : buffer.length < etherHeaderSize
  · rw [forward_of_short hshort, NetTraverse.forward_short hshort]
    exact ⟨rfl, Finishes.idle hidle⟩
  · rw [forward_of_frame hshort]
    set b := (s.cleanUp t₁).learn t₂ (frameSrc buffer) t with hb
    have hidle' : b.call = none := hidle
    by_cases hdst : frameDst buffer = .broadcast
    · rw [forward_broadcast hshort hdst, dispatch, if_neg (not_not.mpr hdst)]
      have hloop := finishes_loop
        (s := b.setCall (some (.test ⟨frameSrc buffer, b.fresh, []⟩ b.begin)))
        (List.nil_append _).symm call_setCall
      exact ⟨rfl, hloop⟩
    · rw [forward_unicast hshort hdst, dispatch, if_pos hdst]
      refine ⟨rfl, ?_⟩
      show Finishes _ ((b.table.query (frameDst buffer)).toList.map _)
      cases b.table.query (frameDst buffer) with
      | none => exact Finishes.idle call_setCall
      | some sendHandler => exact finishes_unicast call_setCall

/-! ## What handlers are called -/

/-- `P` holds of each address with the handler that is stored for it, or that was
copied and not called yet. -/
structure Stores (s : EthernetBridge T) (P : EtherAddr → T → Prop) : Prop where
  record : ∀ k r, s.table.find? k = some r → P k r.t
  sendHandler : ∀ c k t, s.calls c = some (.unicast k t false) → P k t

namespace BroadcastLemmas

variable {P P' : EtherAddr → T → Prop} {t : T}

theorem stores_calling (h : s.Stores P) (hcall : s.calling = some (k, t)) : P k t := by
  rw [EthernetBridge.calling] at hcall
  split at hcall
  · next hc =>
    cases hcall
    exact h.sendHandler _ _ _ hc
  · split at hcall
    · obtain ⟨r, hr, heq⟩ := Option.map_eq_some_iff.mp hcall
      cases heq
      exact h.record _ r hr
    · cases hcall
  · cases hcall

theorem stores_setCall {x : Option (Call T)} (h : s.Stores P)
    (hx : ∀ call, x = some call → ∀ k t, call = .unicast k t false → P k t) :
    (s.setCall x).Stores P where
  record := h.record
  sendHandler := fun c k t hc =>
    forall_setCall (P := fun call => ∀ k t, call = .unicast k t false → P k t)
      (fun c _ hc k t heq => h.sendHandler c k t (heq ▸ hc)) hx c _ hc k t rfl

theorem stores_forward {buffer : List UInt8} {t₁ t₂ : Int} (hinv : s.Inv)
    (hidle : s.call = none) (h : s.Stores P)
    (hold : ∀ k t, (etherHeaderSize ≤ buffer.length → k ≠ frameSrc buffer) → P k t → P' k t)
    (hnew : etherHeaderSize ≤ buffer.length → P' (frameSrc buffer) t) :
    (s.forward buffer t t₁ t₂).Stores P' := by
  -- nobody has a copy that is not called yet
  have hnone : ∀ c k t, s.calls c ≠ some (.unicast k t false) := by
    intro c k t hc
    have hsusp := hinv.running c _ hc (by rintro rfl; cases hidle.symm.trans hc)
    cases hsusp
  have hclean : ∀ k r, (s.cleanUp t₁).table.find? k = some r → P k r.t := by
    intro k r hr
    rw [cleanUp, MacTable.find?_checkTimeout, Option.filter_eq_some_iff] at hr
    exact h.record k r hr.1
  by_cases hshort : buffer.length < etherHeaderSize
  · rw [forward_of_short hshort]
    refine ⟨fun k r hr => hold k r.t ?_ (hclean k r hr), fun c k t hc => absurd hc (hnone c k t)⟩
    exact fun hlong => absurd hshort (not_lt.mpr hlong)
  · have hlearned : ((s.cleanUp t₁).learn t₂ (frameSrc buffer) t).Stores P' := by
      refine ⟨fun k r hr => ?_, fun c k t hc => absurd hc (hnone c k t)⟩
      rw [learn, MacTable.find?_update] at hr
      split at hr
      · next heq =>
        cases hr
        exact heq ▸ hnew (not_lt.mp hshort)
      · next hne => exact hold k r.t (fun _ => hne) (hclean k r hr)
    rw [forward_of_frame hshort]
    refine stores_setCall hlearned fun _ hcall k t heq => ?_
    split at hcall
    · obtain ⟨sendHandler, hquery, rfl⟩ := Option.map_eq_some_iff.mp hcall
      cases heq
      obtain ⟨r, hr, rfl⟩ := Option.map_eq_some_iff.mp hquery
      exact hlearned.record _ r hr
    · cases hcall
      cases heq

/-- The other steps store nothing. -/
theorem stores_step (h : s.Stores P) (hstep : Step s a s')
    (ha : ∀ buffer t t₁ t₂, a ≠ .forward buffer t t₁ t₂) : s'.Stores P := by
  cases hstep with
  | switch => exact ⟨h.record, h.sendHandler⟩
  | forward => exact absurd rfl (ha _ _ _ _)
  | sendHandler | invoke | skip | handlerReturn =>
    exact stores_setCall h (by rintro _ ⟨⟩ _ _ ⟨⟩)
  | loopEnd | sent => exact stores_setCall h (by rintro _ ⟨⟩)

end BroadcastLemmas

end EthernetBridge

end NetTraverse
