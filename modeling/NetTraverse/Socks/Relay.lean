import NetTraverse.Crypto.ByteBuffer
import NetTraverse.Lib.Transition

/-!
# The relay loops

The two loops at the end of `socks5_handler`, each in its coroutine: one reads from
the client and writes to the target, the other one the other way round. A step of
the system is the return of a read or of a write in one of them, so a list of steps
is an interleaving. The result of `async_read_some` is stored in a `size_t`, where
the -1 of an error is the largest count there is.
`relayLaw_iff` says that the loops copy what they read, and stop when they should,
exactly as long as no read fails.
-/

namespace NetTraverse

open Transition

/-- What `async_read_some` returns on an array of 4096 bytes. -/
inductive SomeResult where
  | got (bytes : List UInt8) (pos : 0 < bytes.length) (le : bytes.length ≤ 4096)
  | closed
  | error

namespace SomeResult

def value : SomeResult → Int
  | got bytes _ _ => bytes.length
  | closed => 0
  | error => -1

/-- The bytes that it stored. -/
def bytes : SomeResult → List UInt8
  | got bytes _ _ => bytes
  | closed | error => []

end SomeResult

/-- A call of `async_write`. -/
structure WriteCall where
  buf : List UInt8
  count : Nat
deriving DecidableEq, Repr

/-- The bytes that it passes. -/
def WriteCall.bytes (w : WriteCall) : List UInt8 := w.buf.take w.count

inductive LoopPhase where
  | reading
  | writing
  | stopped
deriving DecidableEq, Repr

/-- A loop, with the results that it got and the calls that it made of them. -/
structure Pipe where
  phase : LoopPhase
  buf : List UInt8
  rounds : List (SomeResult × Option WriteCall)

namespace Pipe

def start (junk : Nat → UInt8) : Pipe := ⟨.reading, newBytes junk 4096, []⟩

variable (p : Pipe)

/-- `size_t ret = async_read_some(..)`, and what the loop makes of it. -/
def receive (result : SomeResult) : Pipe :=
  let buf := result.bytes ++ p.buf.drop result.bytes.length
  let ret := sizeT result.value
  if ret > 0 then ⟨.writing, buf, p.rounds ++ [(result, some ⟨buf, ret⟩)]⟩
  else ⟨.stopped, buf, p.rounds ++ [(result, none)]⟩

def received : List UInt8 := p.rounds.flatMap fun r => r.1.bytes

def written : List UInt8 := p.rounds.flatMap fun r => r.2.toList.flatMap WriteCall.bytes

end Pipe

/-- Which way a loop copies: from `rsock` to `sock`, or from `sock` to `rsock`. -/
inductive Way where
  | toClient
  | toTarget
deriving DecidableEq, Repr

abbrev Relay := Way → Pipe

def Relay.start (junk : Way → Nat → UInt8) : Relay := fun w => .start (junk w)

inductive RelayOp where
  | readReturns (w : Way) (result : SomeResult)
  | writeReturns (w : Way)

def relayStep (s : Relay) : RelayOp → Option Relay
  | .readReturns w result =>
    if (s w).phase = .reading then some (Function.update s w ((s w).receive result)) else none
  | .writeReturns w =>
    if (s w).phase = .writing then some (Function.update s w { s w with phase := .reading })
    else none

/-- All that was read was written, no call asked for more than was just read, and the
first result that is not positive was the last one. -/
structure PipeLaw (p : Pipe) : Prop where
  copies : p.written = p.received
  counts : ∀ r ∈ p.rounds, ∀ w, r.2 = some w → w.count ≤ r.1.bytes.length
  stops : ∀ before r after, p.rounds = before ++ r :: after → r.1.value ≤ 0 →
    r.2 = none ∧ after = [] ∧ p.phase = .stopped

def RelayLaw (s : Relay) : Prop := ∀ w, PipeLaw (s w)

/-- The step is not the return of a read that failed. -/
def RelayOp.NoError : RelayOp → Prop
  | .readReturns _ result => result.value ≠ -1
  | .writeReturns _ => True

namespace RelayLemmas

variable {p : Pipe} {result : SomeResult}

theorem pipeLaw_start (junk : Nat → UInt8) : PipeLaw (.start junk) :=
  ⟨rfl, nofun, fun before _ _ h => by simp [Pipe.start] at h⟩

/-- A loop that goes on got positive results. -/
theorem value_pos (h : PipeLaw p) (hphase : p.phase ≠ .stopped) :
    ∀ r ∈ p.rounds, 0 < r.1.value := by
  intro r hr
  obtain ⟨before, after, hsplit⟩ := List.append_of_mem hr
  by_contra hvalue
  exact hphase (h.stops before r after hsplit (not_lt.mp hvalue)).2.2

theorem receive_got {bytes : List UInt8} (hpos : 0 < bytes.length) (hle : bytes.length ≤ 4096) :
    p.receive (.got bytes hpos hle) =
      let buf := bytes ++ p.buf.drop bytes.length
      ⟨.writing, buf, p.rounds ++ [(.got bytes hpos hle, some ⟨buf, bytes.length⟩)]⟩ := by
  have hsize : sizeT bytes.length = bytes.length := by
    unfold sizeT
    omega
  simp only [Pipe.receive, SomeResult.value, SomeResult.bytes, hsize]
  exact if_pos hpos

theorem receive_closed : p.receive .closed = ⟨.stopped, p.buf, p.rounds ++ [(.closed, none)]⟩ := rfl

/-- The largest `size_t` is positive. -/
theorem receive_error : p.receive .error =
    ⟨.writing, p.buf, p.rounds ++ [(.error, some ⟨p.buf, 2 ^ 64 - 1⟩)]⟩ := rfl

/-- What the law says of the rounds up to a last one. -/
theorem stops_concat {rounds before after : List (SomeResult × Option WriteCall)}
    {last r : SomeResult × Option WriteCall} (hpos : ∀ r ∈ rounds, 0 < r.1.value)
    (h : rounds ++ [last] = before ++ r :: after) (hr : r.1.value ≤ 0) : r = last ∧ after = [] := by
  rcases List.eq_nil_or_concat after with rfl | ⟨after, x, rfl⟩
  · exact ⟨(List.append_singleton_inj.mp h).2.symm, rfl⟩
  · rw [List.concat_eq_append, ← List.cons_append, ← List.append_assoc] at h
    have hmem : r ∈ rounds := by
      rw [(List.append_singleton_inj.mp h).1]
      exact List.mem_append_right _ List.mem_cons_self
    exact absurd (hpos r hmem) (not_lt.mpr hr)

/-- The return of a read keeps the law exactly when the read did not fail. -/
theorem pipeLaw_receive_iff (h : PipeLaw p) (hphase : p.phase = .reading) :
    PipeLaw (p.receive result) ↔ result.value ≠ -1 := by
  have hpos := value_pos h (by rw [hphase]; decide)
  have hcopies := h.copies
  rw [Pipe.written, Pipe.received] at hcopies
  cases result with
  | got bytes hlen hle =>
    refine iff_of_true ?_ (by rw [SomeResult.value]; omega)
    rw [receive_got]
    constructor
    · simp [Pipe.written, Pipe.received, hcopies, WriteCall.bytes, SomeResult.bytes]
    · intro r hr w hw
      rcases List.mem_append.mp hr with hr | hr
      · exact h.counts r hr w hw
      · obtain rfl := List.mem_singleton.mp hr
        obtain rfl := Option.some.inj hw
        exact Nat.le_refl _
    · intro before r after heq hr
      obtain ⟨rfl, -⟩ := stops_concat hpos heq hr
      exact absurd hr (not_le.mpr (Int.ofNat_lt.mpr hlen))
  | closed =>
    refine iff_of_true ?_ (by decide)
    rw [receive_closed]
    constructor
    · simp [Pipe.written, Pipe.received, hcopies, SomeResult.bytes]
    · intro r hr w hw
      rcases List.mem_append.mp hr with hr | hr
      · exact h.counts r hr w hw
      · obtain rfl := List.mem_singleton.mp hr
        cases hw
    · intro before r after heq hr
      obtain ⟨rfl, rfl⟩ := stops_concat hpos heq hr
      exact ⟨rfl, rfl, rfl⟩
  | error =>
    refine iff_of_false (fun hlaw => ?_) (by decide)
    rw [receive_error] at hlaw
    have hcount : 2 ^ 64 - 1 ≤ 0 :=
      hlaw.counts _ (List.mem_append_right _ List.mem_cons_self) _ rfl
    omega

/-- So does the return of a write. -/
theorem pipeLaw_resume (h : PipeLaw p) (hphase : p.phase = .writing) :
    PipeLaw { p with phase := .reading } := by
  have hpos := value_pos h (by rw [hphase]; decide)
  refine ⟨h.copies, h.counts, fun before r after heq hr => ?_⟩
  have hmem : r ∈ p.rounds := heq ▸ List.mem_append_right _ List.mem_cons_self
  exact absurd (hpos r hmem) (not_lt.mpr hr)

/-- A law of all loops after a step of one of them. -/
theorem relayLaw_update {s : Relay} {w : Way} (h : RelayLaw s) :
    RelayLaw (Function.update s w p) ↔ PipeLaw p := by
  constructor
  · intro hlaw
    have hw := hlaw w
    rwa [Function.update_self] at hw
  · intro hlaw w'
    by_cases hw : w' = w
    · subst hw
      rwa [Function.update_self]
    · rw [Function.update_of_ne hw]
      exact h w'

theorem relayLaw_step_iff {s s' : Relay} {op : RelayOp} (h : RelayLaw s)
    (hstep : relayStep s op = some s') : RelayLaw s' ↔ op.NoError := by
  cases op with
  | readReturns w result =>
    rw [relayStep] at hstep
    split at hstep
    · next hphase =>
      obtain rfl := Option.some.inj hstep
      rw [relayLaw_update h]
      exact pipeLaw_receive_iff (h w) hphase
    · cases hstep
  | writeReturns w =>
    rw [relayStep] at hstep
    split at hstep
    · next hphase =>
      obtain rfl := Option.some.inj hstep
      rw [relayLaw_update h]
      exact iff_of_true (pipeLaw_resume (h w) hphase) trivial
    · cases hstep

end RelayLemmas

open RelayLemmas in
/-- Along every interleaving, the loops copy exactly, and stop when they should, if
and only if no read fails. -/
theorem relayLaw_iff (junk : Way → Nat → UInt8) (ops : List RelayOp)
    (hrun : Runs relayStep (Relay.start junk) ops) :
    AllStates relayStep RelayLaw (Relay.start junk) ops ↔ ∀ op ∈ ops, op.NoError := by
  rw [← allSteps_iff_forall hrun]
  exact allStates_iff_allSteps (I := fun _ => True) (fun _ _ _ _ _ _ => trivial)
    (fun _ _ _ _ hlaw hstep => relayLaw_step_iff hlaw hstep) trivial
    (fun w => pipeLaw_start (junk w)) hrun

/-- Both ways are in use, and the target closes. -/
theorem relayLaw_iff_demo : AllStates relayStep RelayLaw (Relay.start fun _ _ => 0)
    [.readReturns .toClient (.got [1, 2] (by decide) (by decide)),
      .readReturns .toTarget (.got [3] (by decide) (by decide)), .writeReturns .toClient,
      .readReturns .toClient .closed, .writeReturns .toTarget] := by
  refine (relayLaw_iff (fun _ _ => 0) _ ⟨_, rfl⟩).mpr ?_
  simp [RelayOp.NoError, SomeResult.value]

open RelayLemmas in
/-- The target resets the connection. -/
theorem relayLaw_reset : ¬ AllStates relayStep RelayLaw (Relay.start fun _ _ => 0)
    [.readReturns .toClient .error] := by
  rintro ⟨hstart, hall⟩
  have hlaw := hall _ rfl
  have hnone : RelayOp.NoError (.readReturns .toClient .error) :=
    (relayLaw_step_iff hstart rfl).mp hlaw
  exact hnone rfl

end NetTraverse
