import NetTraverse.Network.AsyncFileEvent

/-!
# Reading from a connection

`async_read` on what a peer sends. The kernel decides call by call whether there
is something to read and how much of it (`Arrival`), and what `read` says once
everything was read depends on how the peer left (`StreamEnd`). That a connection
broke is reported once, by the first call that comes to it; after that `read` finds
the end.
`asyncRead_cases` says that none of the cuts matters: `async_read` takes the next
`count` bytes off the stream, or what is left when the connection breaks.
-/

namespace NetTraverse

/-- What the next call of `read` finds: nothing yet, or something, of which it
gets at most `n + 1` bytes. -/
inductive Arrival where
  | again
  | part (n : Nat)
deriving DecidableEq, Repr

def Arrival.isPart : Arrival → Bool
  | .again => false
  | .part _ => true

/-- How a peer leaves: not at all, by closing the connection, or by breaking it. When it
breaks `early`, the next write finds out. -/
inductive StreamEnd where
  | silent
  | closed
  | broken (early : Bool)
deriving DecidableEq, Repr

namespace StreamEnd

/-- What `read` returns at the end. -/
def result : StreamEnd → SysResult
  | silent => .again
  | closed => .ok 0
  | broken _ => .error

/-- The end that the next call finds after `result`. -/
def reported : StreamEnd → StreamEnd
  | broken _ => closed
  | silent => silent
  | closed => closed

/-- The end after a write. -/
def written : StreamEnd → StreamEnd
  | broken true => closed
  | broken false => broken false
  | silent => silent
  | closed => closed

def breaks : StreamEnd → Bool
  | broken _ => true
  | silent | closed => false

end StreamEnd

/-- What is still to be read on a connection, and the end. -/
structure ByteStream where
  input : List UInt8
  atEnd : StreamEnd
deriving DecidableEq, Repr

namespace ByteStream

/-- What is left after `count` bytes. -/
def drop (s : ByteStream) (count : Nat) : ByteStream := { s with input := s.input.drop count }

/-- What `async_read` does with the stream as a whole. -/
def read (s : ByteStream) (count : Nat) : Option ((Int × List UInt8) × ByteStream) :=
  if count ≤ s.input.length then some ((count, s.input.take count), s.drop count)
  else if s.atEnd.breaks then some ((-1, s.input), ⟨[], .closed⟩)
  else none

/-- What a write does to it. -/
def written (s : ByteStream) : ByteStream := { s with atEnd := s.atEnd.written }

end ByteStream

/-- The receiving side of a connection, with the calls of `read` to come. -/
structure TcpStream extends ByteStream where
  schedule : List Arrival
deriving DecidableEq, Repr

def TcpStream.written (s : TcpStream) : TcpStream := { s with atEnd := s.atEnd.written }

/-- `read`: its result, the bytes that it stores, and what it leaves. -/
def sysRead (s : ByteStream) (count : Nat) : Arrival → SysResult × List UInt8 × ByteStream
  | .again => (.again, [], s)
  | .part n =>
    if count = 0 then (.ok 0, [], s)
    else if s.input = [] then (s.atEnd.result, [], ⟨[], s.atEnd.reported⟩)
    else
      let data := s.input.take (min (n + 1) count)
      (.ok data.length, data, s.drop data.length)

/-- `async_read`, with the bytes that it has: the value that it returns and the
bytes that are in the buffer then. It does not return when the schedule runs
out. -/
def asyncReadLoop (count : Nat) :
    List Arrival → ByteStream → List UInt8 → Option ((Int × List UInt8) × TcpStream)
  | [], _, _ => none
  | a :: schedule, s, got =>
    let (result, data, s) := sysRead s (count - got.length) a
    match fullLoop count got.length result with
    | .call _ => asyncReadLoop count schedule s (got ++ data)
    | .park => asyncReadLoop count schedule s got
    | .ret v => some ((v, got ++ data), ⟨s, schedule⟩)
    | .throw => none

def asyncRead (s : TcpStream) (count : Nat) : Option ((Int × List UInt8) × TcpStream) :=
  asyncReadLoop count s.schedule s.toByteStream []

/-- How often there is something to read. -/
def parts (schedule : List Arrival) : Nat := schedule.countP Arrival.isPart

/-- A read of `count` bytes finds something at most this often. -/
def readCost (count : Nat) : Nat := max 1 count

namespace TcpStreamLemmas

variable {atEnd : StreamEnd} {count : Nat} {schedule : List Arrival} {input got : List UInt8}
  {s : ByteStream}

theorem read_of_le (h : count ≤ input.length) : ByteStream.read ⟨input, atEnd⟩ count =
    some (((count : Int), input.take count), ⟨input.drop count, atEnd⟩) := if_pos h

theorem read_of_lt (h : input.length < count) : ByteStream.read ⟨input, atEnd⟩ count =
    if atEnd.breaks then some ((-1, input), ⟨[], .closed⟩) else none :=
  if_neg (Nat.not_le.mpr h)

/-- The buffer is full. -/
theorem asyncReadLoop_full (a : Arrival) (h : got.length = count) :
    asyncReadLoop count (a :: schedule) s got =
      some (((count : Int), got), ⟨s, schedule⟩) := by
  cases a with
  | again => simp [asyncReadLoop, sysRead, fullLoop, h]
  | part n => simp [asyncReadLoop, sysRead, fullLoop, h]

theorem asyncReadLoop_again (h : got.length < count) :
    asyncReadLoop count (.again :: schedule) s got = asyncReadLoop count schedule s got := by
  simp [asyncReadLoop, sysRead, fullLoop, h.ne]

/-- There is nothing left to read. -/
theorem asyncReadLoop_end (n : Nat) (h : got.length < count) :
    asyncReadLoop count (.part n :: schedule) ⟨[], atEnd⟩ got =
      if atEnd.breaks then some ((-1, got), ⟨⟨[], .closed⟩, schedule⟩)
      else asyncReadLoop count schedule ⟨[], atEnd⟩ got := by
  have hpos : ¬ count - got.length = 0 := by omega
  cases atEnd <;>
    simp [asyncReadLoop, sysRead, StreamEnd.result, StreamEnd.reported, StreamEnd.breaks, fullLoop,
      h.ne, hpos]

/-- Some bytes are read. -/
theorem asyncReadLoop_part (atEnd : StreamEnd) (schedule : List Arrival) (n : Nat)
    (h : got.length < count) (hinput : input ≠ []) :
    ∃ k, 0 < k ∧ k ≤ input.length ∧ got.length + k ≤ count ∧
      asyncReadLoop count (.part n :: schedule) ⟨input, atEnd⟩ got =
        if got.length + k = count then
          some (((count : Int), got ++ input.take k), ⟨⟨input.drop k, atEnd⟩, schedule⟩)
        else asyncReadLoop count schedule ⟨input.drop k, atEnd⟩ (got ++ input.take k) := by
  have hlen : 0 < input.length := List.length_pos_iff.mpr hinput
  have hpos : ¬ count - got.length = 0 := by omega
  set m := min (n + 1) (count - got.length) with hm
  have htake : input.take m = input.take (input.take m).length := by
    rw [List.length_take, ← List.take_eq_take_min]
  refine ⟨(input.take m).length, ?_, ?_, ?_, ?_⟩
  · rw [List.length_take]
    omega
  · rw [List.length_take]
    omega
  · rw [List.length_take]
    omega
  · rw [← htake, asyncReadLoop, sysRead, if_neg hpos, if_neg hinput, ← hm]
    simp only [fullLoop, ByteStream.drop]
    by_cases hfull : got.length + (input.take m).length = count
    · rw [if_pos hfull, if_pos hfull, hfull]
    · rw [if_neg hfull, if_neg hfull]

/-- Whatever the kernel does, `async_read` returns what the stream says, or has
been given too few chances to read; the latter only when the stream has too
little or the schedule is short. -/
theorem asyncReadLoop_cases (hgot : got.length ≤ count) :
    (asyncReadLoop count schedule ⟨input, atEnd⟩ got = none ∧
      (ByteStream.read ⟨got ++ input, atEnd⟩ count = none ∨
        parts schedule < readCost (count - got.length))) ∨
    ∃ r t, asyncReadLoop count schedule ⟨input, atEnd⟩ got = some (r, t) ∧
      ByteStream.read ⟨got ++ input, atEnd⟩ count = some (r, t.toByteStream) ∧
      parts schedule ≤ parts t.schedule + readCost (count - got.length) := by
  induction schedule generalizing input got with
  | nil => exact .inl ⟨rfl, .inr (by rw [readCost, parts]; simp)⟩
  | cons a schedule ih =>
    have hcons : parts (a :: schedule) ≤ parts schedule + 1 := by
      rw [parts, parts, List.countP_cons]
      split <;> omega
    rcases Nat.lt_or_eq_of_le hgot with hlt | heq
    · cases a with
      | again =>
        have hparts : parts (.again :: schedule) = parts schedule := List.countP_cons_of_neg nofun
        rw [asyncReadLoop_again hlt, hparts]
        exact ih hgot
      | part n =>
        by_cases hinput : input = []
        · subst hinput
          rw [asyncReadLoop_end n hlt, List.append_nil]
          split
          · next hend =>
            refine .inr ⟨_, _, rfl, by rw [read_of_lt hlt, if_pos hend], ?_⟩
            unfold readCost
            dsimp only
            omega
          · next hend =>
            have hnone : ByteStream.read ⟨got, atEnd⟩ count = none := by
              rw [read_of_lt hlt, if_neg hend]
            rcases @ih [] got hgot with ⟨hloop, -⟩ | ⟨r, t, -, hstream, -⟩
            · exact .inl ⟨hloop, .inl hnone⟩
            · rw [List.append_nil, hnone] at hstream
              cases hstream
        · obtain ⟨k, hk, hkin, hkcount, hloop⟩ :=
            asyncReadLoop_part atEnd schedule n hlt hinput
          have hlen : (got ++ input.take k).length = got.length + k := by
            rw [List.length_append, List.length_take, Nat.min_eq_left hkin]
          have hjoin : got ++ input.take k ++ input.drop k = got ++ input := by
            rw [List.append_assoc, List.take_append_drop]
          rw [hloop]
          split
          · next hfull =>
            refine .inr ⟨_, _, rfl, ?_, ?_⟩
            · rw [read_of_le (by rw [List.length_append]; omega), ← hjoin,
                List.take_left' (hlen.trans hfull), List.drop_left' (hlen.trans hfull)]
            · unfold readCost
              dsimp only
              omega
          · next hmore =>
            -- at least one byte of the cost is paid
            have hih := @ih (input.drop k) (got ++ input.take k) (by omega)
            rw [hjoin, hlen] at hih
            have hcost : readCost (count - (got.length + k)) + 1 ≤
                readCost (count - got.length) := by
              simp only [readCost]
              omega
            rcases hih with ⟨hnone, hwhy⟩ | ⟨r, t, hloop, hstream, hparts⟩
            · exact .inl ⟨hnone, hwhy.imp id fun h => by omega⟩
            · exact .inr ⟨r, t, hloop, hstream, by omega⟩
    · refine .inr ⟨_, _, asyncReadLoop_full a heq, ?_, ?_⟩
      · rw [read_of_le (by rw [List.length_append]; omega), List.take_left' heq,
          List.drop_left' heq]
      · unfold readCost
        dsimp only
        omega

end TcpStreamLemmas

open TcpStreamLemmas

/-- `async_read` takes the next `count` bytes off the stream, however it is
cut. -/
theorem asyncRead_cases (s : TcpStream) (count : Nat) :
    (asyncRead s count = none ∧
      (s.toByteStream.read count = none ∨ parts s.schedule < readCost count)) ∨
    ∃ r t, asyncRead s count = some (r, t) ∧
      s.toByteStream.read count = some (r, t.toByteStream) ∧
      parts s.schedule ≤ parts t.schedule + readCost count :=
  asyncReadLoop_cases (Nat.zero_le count)

end NetTraverse
