import NetTraverse.Bridge.MacTable
import NetTraverse.Lib.Latest

/-!
# What the bridge has learned

Runs of `forward` on the table that starts empty. The table is compared with the
calls themselves: it holds, for each address, what the latest frame from it
brought, unless a `clean_up` since then found it too old (`find?_tableAfter`).
`forward_unicast_latest` says what that means for a frame to one address.
-/

namespace NetTraverse

/-- A call of `forward`, with the clock readings of `clean_up` and of
`update`. -/
structure ForwardCall (T : Type) where
  buffer : List UInt8
  replyHandler : T
  t₁ : Int
  t₂ : Int

namespace ForwardCall

variable {T : Type} (c : ForwardCall T)

def run (table : MacTable T) : Forwarded T := forward table c.t₁ c.t₂ c.buffer c.replyHandler

/-- The handlers that are called, each with what it is called with. -/
def deliveries (table : MacTable T) : List (T × List UInt8) :=
  (c.run table).invoked.map fun e => (e.2, c.buffer)

/-- The frame has a header and comes from `m`. -/
def Learns (m : EtherAddr) : Prop := etherHeaderSize ≤ c.buffer.length ∧ frameSrc c.buffer = m

instance (m : EtherAddr) : Decidable (c.Learns m) := inferInstanceAs (Decidable (_ ∧ _))

/-- The `clean_up` of a later call does not find `c` too old. -/
def Keeps (later : ForwardCall T) : Prop := ¬ later.t₁ - c.t₂ > MacTable.timeout

instance (later : ForwardCall T) : Decidable (c.Keeps later) := inferInstanceAs (Decidable (¬ _))

end ForwardCall

variable {T : Type}

/-- What each call of a run delivers. -/
def deliveriesFrom : MacTable T → List (ForwardCall T) → List (List (T × List UInt8))
  | _, [] => []
  | table, c :: calls => c.deliveries table :: deliveriesFrom (c.run table).table calls

/-- The table after a run. -/
def tableAfter (calls : List (ForwardCall T)) : MacTable T :=
  calls.foldl (fun table c => (c.run table).table) OrdMap.empty

/-- What the calls so far say of an address: the latest frame from it, when no
`clean_up` since then saw it more than 600 seconds old. -/
def LatestFrom (m : EtherAddr) (calls : List (ForwardCall T)) (c : ForwardCall T) : Prop :=
  Latest (fun d => d.Learns m) ForwardCall.Keeps calls c

namespace LearningLemmas

variable {m : EtherAddr} {c : ForwardCall T} {calls : List (ForwardCall T)} {table : MacTable T}

/-- One call, seen from one address. -/
theorem find?_run : (c.run table).table.find? m =
    if c.Learns m then some ⟨m, c.t₂, c.replyHandler⟩
    else (table.find? m).filter fun r => !MacTable.expired c.t₁ r := by
  have hlearned {table' : MacTable T} :
      (MacTable.update table' c.t₂ (frameSrc c.buffer) c.replyHandler).find? m =
        if frameSrc c.buffer = m then some ⟨m, c.t₂, c.replyHandler⟩ else table'.find? m := by
    rw [MacTable.find?_update]
    by_cases hm : m = frameSrc c.buffer
    · rw [if_pos hm, if_pos hm.symm, hm]
    · rw [if_neg hm, if_neg (Ne.symm hm)]
  by_cases hshort : c.buffer.length < etherHeaderSize
  · have hnot : ¬ c.Learns m := fun h => absurd h.1 (not_le.mpr hshort)
    rw [ForwardCall.run, forward_short hshort, if_neg hnot]
    exact MacTable.find?_checkTimeout
  · have htable : (c.run table).table =
        (table.checkTimeout c.t₁).update c.t₂ (frameSrc c.buffer) c.replyHandler := by
      by_cases hdst : frameDst c.buffer = .broadcast
      · rw [ForwardCall.run, forward_broadcast hshort hdst]
      · rw [ForwardCall.run, forward_unicast hshort hdst]
    rw [htable, hlearned, MacTable.find?_checkTimeout]
    simp only [ForwardCall.Learns, not_lt.mp hshort, true_and]

theorem tableAfter_concat (calls : List (ForwardCall T)) (c : ForwardCall T) :
    tableAfter (calls ++ [c]) = (c.run (tableAfter calls)).table := by
  simp [tableAfter]

/-- The table holds what the history says. -/
theorem find?_tableAfter {r : Record T} : (tableAfter calls).find? m = some r ↔
    ∃ c, LatestFrom m calls c ∧ r = ⟨m, c.t₂, c.replyHandler⟩ := by
  induction calls using List.reverseRecOn generalizing r with
  | nil => exact ⟨nofun, fun ⟨c, hc, _⟩ => absurd hc Latest.not_nil⟩
  | append_singleton calls d ih =>
    rw [tableAfter_concat, find?_run]
    split
    · next hd =>
      constructor
      · intro h
        exact ⟨d, Latest.concat_iff.mpr (.inl ⟨hd, rfl⟩), (Option.some.inj h).symm⟩
      · rintro ⟨c, hc, rfl⟩
        rcases Latest.concat_iff.mp hc with ⟨-, rfl⟩ | ⟨hnot, -⟩
        · rfl
        · exact absurd hd hnot
    · next hd =>
      rw [Option.filter_eq_some_iff, ih]
      constructor
      · rintro ⟨⟨c, hc, rfl⟩, hkeep⟩
        have hkeeps : c.Keeps d := by simpa [MacTable.expired, ForwardCall.Keeps] using hkeep
        exact ⟨c, Latest.concat_iff.mpr (.inr ⟨hd, hkeeps, hc⟩), rfl⟩
      · rintro ⟨c, hc, rfl⟩
        rcases Latest.concat_iff.mp hc with ⟨hd', -⟩ | ⟨-, hkeeps, hc⟩
        · exact absurd hd' hd
        · refine ⟨⟨c, hc, rfl⟩, ?_⟩
          simpa [MacTable.expired, ForwardCall.Keeps] using hkeeps

theorem getElem?_deliveriesFrom {table : MacTable T} {i : Nat} :
    (deliveriesFrom table calls)[i]? = calls[i]?.map fun c =>
      c.deliveries ((calls.take i).foldl (fun table c => (c.run table).table) table) := by
  induction calls generalizing table i with
  | nil => rfl
  | cons c calls ih =>
    cases i with
    | zero => rfl
    | succ i => exact ih

/-- A frame to one address goes to the handler that the table has for it, the
frame itself being learned. -/
theorem deliveries_unicast (hlong : etherHeaderSize ≤ c.buffer.length)
    (hdst : frameDst c.buffer ≠ .broadcast) :
    c.deliveries table = (((c.run table).table.find? (frameDst c.buffer)).toList.map
      fun r => (r.t, c.buffer)) := by
  rw [ForwardCall.deliveries, ForwardCall.run, forward_unicast (not_lt.mpr hlong) hdst]
  simp only [MacTable.query, Option.toList_map, List.map_map]
  rfl

end LearningLemmas

open LearningLemmas

/-- A frame to an address that is not the broadcast address is passed to the
handler of the latest frame from that address, once and unchanged; when there
is none, or a `clean_up` since found it too old, to nobody. The frame counts
itself. -/
theorem forward_unicast_latest (calls : List (ForwardCall T)) (i : Nat) (c : ForwardCall T)
    (hc : calls[i]? = some c) (hlong : etherHeaderSize ≤ c.buffer.length)
    (hdst : frameDst c.buffer ≠ .broadcast) :
    (∀ d, LatestFrom (frameDst c.buffer) (calls.take (i + 1)) d →
      (deliveriesFrom OrdMap.empty calls)[i]? = some [(d.replyHandler, c.buffer)]) ∧
    ((∀ d, ¬ LatestFrom (frameDst c.buffer) (calls.take (i + 1)) d) →
      (deliveriesFrom OrdMap.empty calls)[i]? = some []) := by
  have htake : calls.take (i + 1) = calls.take i ++ [c] := by
    rw [List.take_add_one, hc]
    rfl
  have hdeliver : (deliveriesFrom OrdMap.empty calls)[i]? =
      some (((tableAfter (calls.take (i + 1))).find? (frameDst c.buffer)).toList.map
        fun r => (r.t, c.buffer)) := by
    rw [getElem?_deliveriesFrom, hc, htake, tableAfter_concat, ← deliveries_unicast hlong hdst]
    rfl
  rw [hdeliver]
  constructor
  · intro d hd
    rw [find?_tableAfter.mpr ⟨d, hd, rfl⟩]
    rfl
  · intro hnone
    have hfind : (tableAfter (calls.take (i + 1))).find? (frameDst c.buffer) = none := by
      rw [Option.eq_none_iff_forall_ne_some]
      intro r hr
      obtain ⟨d, hd, -⟩ := find?_tableAfter.mp hr
      exact hnone d hd
    rw [hfind]
    rfl

namespace ForwardCall.Demo

/-- A frame from the address `src` to the address `dst`, with its clock. -/
def call (dst src : UInt8) (handler : Nat) (t : Int) : ForwardCall Nat :=
  ⟨[2, 0, 0, 0, 0, dst, 2, 0, 0, 0, 0, src, 8, 0], handler, t, t⟩

/-- The address 1 is learned at 0, and asked for after 600 and 601 seconds. -/
def calls : List (ForwardCall Nat) := [call 9 1 7 0, call 1 2 8 600, call 1 3 9 601]

end ForwardCall.Demo

open ForwardCall.Demo in
theorem forward_unicast_latest_demo :
    (deliveriesFrom OrdMap.empty calls)[1]? = some [(7, (call 1 2 8 600).buffer)] ∧
      (deliveriesFrom OrdMap.empty calls)[2]? = some [] := by
  have hlatest : LatestFrom (frameDst (call 1 2 8 600).buffer) (calls.take 2) (call 9 1 7 0) :=
    ⟨[], [call 1 2 8 600], rfl, by decide +kernel, by
      intro d hd
      obtain rfl := List.mem_singleton.mp hd
      exact ⟨by decide +kernel, by decide +kernel⟩⟩
  have hnone (d : ForwardCall Nat) :
      ¬ LatestFrom (frameDst (call 1 3 9 601).buffer) (calls.take 3) d := by
    intro hd
    have hfind := find?_tableAfter.mpr ⟨d, hd, rfl⟩
    have hempty : (tableAfter (calls.take 3)).find? (frameDst (call 1 3 9 601).buffer) = none := by
      decide +kernel
    rw [hempty] at hfind
    cases hfind
  exact ⟨(forward_unicast_latest calls 1 (call 1 2 8 600) rfl (by decide) (by decide +kernel)).1
      _ hlatest,
    (forward_unicast_latest calls 2 (call 1 3 9 601) rfl (by decide) (by decide +kernel)).2 hnone⟩

end NetTraverse
