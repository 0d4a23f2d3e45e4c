import NetTraverse.Bridge.Learning
import NetTraverse.Bridge.Reply

/-!
# Where the copies of a frame go

A handler sends to one port: the tap, or one UDP peer. The table knows of
addresses and handlers, not of ports, and `forward` leaves out of a broadcast the
source address, not the port that the frame came in on.
`portLaw_iff_separated` says when no frame goes back out of its own port and no
other port gets a broadcast twice.
-/

namespace NetTraverse

inductive Port where
  | tap
  | peer (addr : UdpAddr)
deriving DecidableEq, Repr

variable {T : Type}

/-- How many copies of the frame are sent out of a port. -/
def ForwardCall.copies (port : T → Port) (table : MacTable T) (c : ForwardCall T)
    (q : Port) : Nat :=
  ((c.deliveries table).map fun d => port d.1).count q

/-- The frame has the broadcast address as its destination. -/
def ForwardCall.IsBroadcast (c : ForwardCall T) : Prop :=
  etherHeaderSize ≤ c.buffer.length ∧ frameDst c.buffer = .broadcast

/-- No copy goes out of the port that the frame came in on, and of a broadcast
each other port with an entry in the table gets one. -/
structure PortLaw (port : T → Port) (table : MacTable T) (c : ForwardCall T) : Prop where
  noEcho : c.copies port table (port c.replyHandler) = 0
  oneCopy : c.IsBroadcast → ∀ q, q ≠ port c.replyHandler →
    (∃ m r, (c.run table).table.find? m = some r ∧ port r.t = q) → c.copies port table q = 1

/-- The entries besides that of the source that `clean_up` leaves. -/
def ForwardCall.LiveEntry (table : MacTable T) (c : ForwardCall T) (m : EtherAddr)
    (r : Record T) : Prop :=
  m ≠ frameSrc c.buffer ∧ table.find? m = some r ∧ ¬ MacTable.expired c.t₁ r

/-- The destination is neither the source nor on the port of the source; before
a broadcast no entry is on that port, and no two are on one. -/
structure Separated (port : T → Port) (table : MacTable T) (c : ForwardCall T) : Prop where
  unicast : etherHeaderSize ≤ c.buffer.length → frameDst c.buffer ≠ .broadcast →
    frameDst c.buffer ≠ frameSrc c.buffer ∧
      ∀ r, c.LiveEntry table (frameDst c.buffer) r → port r.t ≠ port c.replyHandler
  broadcast : c.IsBroadcast →
    (∀ m r, c.LiveEntry table m r → port r.t ≠ port c.replyHandler) ∧
      ∀ m r m' r', c.LiveEntry table m r → c.LiveEntry table m' r' → port r.t = port r'.t → m = m'

namespace PortsLemmas

variable {port : T → Port} {table : MacTable T} {c : ForwardCall T}

/-- The table after a frame with a header: the source, and the live entries. -/
theorem find?_run_of_long (hlong : etherHeaderSize ≤ c.buffer.length) {m : EtherAddr}
    {r : Record T} : (c.run table).table.find? m = some r ↔
      (m = frameSrc c.buffer ∧ r = ⟨m, c.t₂, c.replyHandler⟩) ∨ c.LiveEntry table m r := by
  rw [LearningLemmas.find?_run, ForwardCall.LiveEntry]
  split
  · next hm =>
    have hm' : m = frameSrc c.buffer := hm.2.symm
    constructor
    · exact fun h => .inl ⟨hm', (Option.some.inj h).symm⟩
    · rintro (⟨-, rfl⟩ | hlive)
      · rfl
      · exact absurd hm' hlive.1
  · next hm =>
    have hm' : m ≠ frameSrc c.buffer := fun h => hm ⟨hlong, h.symm⟩
    simp [hm', Option.filter_eq_some_iff]

theorem deliveries_short (hshort : c.buffer.length < etherHeaderSize) :
    c.deliveries table = [] := by
  rw [ForwardCall.deliveries, ForwardCall.run, forward_short hshort]
  rfl

/-- The entries that a broadcast goes through. -/
def others (table : MacTable T) (c : ForwardCall T) : List (EtherAddr × Record T) :=
  (c.run table).table.entries.filter fun e => e.1 ≠ frameSrc c.buffer

theorem mem_others (hlong : etherHeaderSize ≤ c.buffer.length) {e : EtherAddr × Record T} :
    e ∈ others table c ↔ c.LiveEntry table e.1 e.2 := by
  obtain ⟨m, r⟩ := e
  rw [others, List.mem_filter, ← OrdMap.find?_eq_some, find?_run_of_long hlong]
  constructor
  · rintro ⟨⟨rfl, -⟩ | hlive, hne⟩
    · simp at hne
    · exact hlive
  · intro hlive
    exact ⟨.inr hlive, by simpa using hlive.1⟩

theorem ports_broadcast (port : T → Port) (table : MacTable T) (hb : c.IsBroadcast) :
    ((c.deliveries table).map fun d => port d.1) =
      (others table c).map fun e => port e.2.t := by
  rw [others, ForwardCall.deliveries, ForwardCall.run,
    forward_broadcast (not_lt.mpr hb.1) hb.2]
  simp

theorem others_nodup : (others table c).Nodup :=
  ((c.run table).table.sorted.imp fun {a b} h => fun heq => absurd h (by simp [heq])).filter _

/-- A broadcast frame. -/
theorem portLaw_broadcast_iff (hb : c.IsBroadcast) :
    PortLaw port table c ↔ Separated port table c := by
  have hlong := hb.1
  have hports := ports_broadcast port table hb
  constructor
  · intro h
    refine ⟨fun _ hne => absurd hb.2 hne, fun _ => ?_⟩
    have hcount := h.noEcho
    rw [ForwardCall.copies, hports, List.count_eq_zero] at hcount
    have hfar : ∀ m r, c.LiveEntry table m r → port r.t ≠ port c.replyHandler := by
      intro m r hlive heq
      exact hcount (List.mem_map.mpr ⟨(m, r), (mem_others hlong).mpr hlive, heq⟩)
    have hnodup : ((others table c).map fun e => port e.2.t).Nodup := by
      rw [List.nodup_iff_count_le_one]
      intro q
      by_cases hq : q ∈ (others table c).map fun e => port e.2.t
      · obtain ⟨⟨m, r⟩, hmem, rfl⟩ := List.mem_map.mp hq
        have hlive := (mem_others hlong).mp hmem
        have hone := h.oneCopy hb (port r.t) (hfar m r hlive)
          ⟨m, r, (find?_run_of_long hlong).mpr (.inr hlive), rfl⟩
        rw [ForwardCall.copies, hports] at hone
        exact le_of_eq hone
      · exact le_of_eq_of_le (List.count_eq_zero.mpr hq) (Nat.zero_le 1)
    refine ⟨hfar, fun m r m' r' hlive hlive' heq => ?_⟩
    have hinj := List.inj_on_of_nodup_map hnodup ((mem_others (e := (m, r)) hlong).mpr hlive)
      ((mem_others (e := (m', r')) hlong).mpr hlive') heq
    exact congrArg Prod.fst hinj
  · intro h
    obtain ⟨hfar, hinj⟩ := h.broadcast hb
    refine ⟨?_, fun _ q hq hsome => ?_⟩
    · rw [ForwardCall.copies, hports, List.count_eq_zero]
      intro hmem
      obtain ⟨⟨m, r⟩, hmem, heq⟩ := List.mem_map.mp hmem
      exact hfar m r ((mem_others hlong).mp hmem) heq
    · obtain ⟨m, r, hfind, rfl⟩ := hsome
      have hlive : c.LiveEntry table m r := by
        rcases (find?_run_of_long hlong).mp hfind with ⟨-, rfl⟩ | hlive
        · exact absurd rfl hq
        · exact hlive
      have hnodup : ((others table c).map fun e => port e.2.t).Nodup := by
        refine others_nodup.map_on fun e he e' he' heq => ?_
        have hkey : e.1 = e'.1 :=
          hinj _ _ _ _ ((mem_others hlong).mp he) ((mem_others hlong).mp he') heq
        have hfind := ((mem_others hlong).mp he).2.1
        have hfind' := ((mem_others hlong).mp he').2.1
        rw [hkey, hfind'] at hfind
        exact Prod.ext hkey (Option.some.inj hfind).symm
      rw [ForwardCall.copies, hports]
      exact List.count_eq_one_of_mem hnodup
        (List.mem_map.mpr ⟨(m, r), (mem_others hlong).mpr hlive, rfl⟩)

/-- A frame to one address. -/
theorem portLaw_unicast_iff (hlong : etherHeaderSize ≤ c.buffer.length)
    (hdst : frameDst c.buffer ≠ .broadcast) :
    PortLaw port table c ↔ Separated port table c := by
  have hnot : ¬ c.IsBroadcast := fun hb => hdst hb.2
  have hcount : c.copies port table (port c.replyHandler) = 0 ↔
      ∀ r, (c.run table).table.find? (frameDst c.buffer) = some r →
        port r.t ≠ port c.replyHandler := by
    rw [ForwardCall.copies, LearningLemmas.deliveries_unicast hlong hdst, List.count_eq_zero]
    simp [eq_comm]
  constructor
  · intro h
    have hall := hcount.mp h.noEcho
    refine ⟨fun _ _ => ⟨fun heq => ?_, fun r hlive => ?_⟩, fun hb => absurd hb hnot⟩
    · exact hall _ ((find?_run_of_long hlong).mpr (.inl ⟨heq, rfl⟩)) rfl
    · exact hall r ((find?_run_of_long hlong).mpr (.inr hlive))
  · intro h
    obtain ⟨hne, hfar⟩ := h.unicast hlong hdst
    refine ⟨hcount.mpr fun r hfind => ?_, fun hb => absurd hb hnot⟩
    rcases (find?_run_of_long hlong).mp hfind with ⟨heq, -⟩ | hlive
    · exact absurd heq hne
    · exact hfar r hlive

/-- One frame. -/
theorem portLaw_iff : PortLaw port table c ↔ Separated port table c := by
  by_cases hshort : c.buffer.length < etherHeaderSize
  · have hnot : ¬ etherHeaderSize ≤ c.buffer.length := not_le.mpr hshort
    constructor
    · exact fun _ => ⟨fun hlong => absurd hlong hnot, fun hb => absurd hb.1 hnot⟩
    · refine fun _ => ⟨?_, fun hb => absurd hb.1 hnot⟩
      rw [ForwardCall.copies, deliveries_short hshort]
      rfl
  · have hlong := not_lt.mp hshort
    by_cases hdst : frameDst c.buffer = .broadcast
    · exact portLaw_broadcast_iff ⟨hlong, hdst⟩
    · exact portLaw_unicast_iff hlong hdst

end PortsLemmas

open PortsLemmas Transition

/-- A run of `forward`. -/
def forwardStep (table : MacTable T) (c : ForwardCall T) : Option (MacTable T) :=
  some (c.run table).table

/-- No frame of a run is echoed or duplicated, exactly when each of them finds
the addresses on separate ports. -/
theorem portLaw_iff_separated (port : T → Port) (calls : List (ForwardCall T)) :
    AllSteps forwardStep (PortLaw port) OrdMap.empty calls ↔
      AllSteps forwardStep (Separated port) OrdMap.empty calls :=
  allSteps_congr_of_keeps (I := fun _ => True) (fun _ _ _ _ _ _ => trivial)
    (fun _ _ _ => portLaw_iff) trivial

namespace Port.Demo

open ForwardCall.Demo (call)

/-- Handler 0 writes to the tap, the others send to peers. -/
def port (handler : Nat) : Port :=
  if handler = 0 then .tap else .peer ⟨0x0a000000 + UInt32.ofNat handler, 4000⟩

/-- Two addresses behind the tap. -/
def learned : List (ForwardCall Nat) := [call 9 1 0 0, call 9 2 0 0]

/-- A broadcast from a peer. -/
def arp : ForwardCall Nat := ⟨List.replicate 6 0xff ++ [2, 0, 0, 0, 0, 3, 8, 0], 7, 1, 1⟩

end Port.Demo

open Port.Demo in
/-- The broadcast is written to the tap twice. -/
theorem portLaw_two_on_tap : ¬ ∀ (port : Nat → Port) (calls : List (ForwardCall Nat)),
    AllSteps forwardStep (PortLaw port) OrdMap.empty calls := by
  intro hall
  obtain ⟨-, h⟩ := hall port (learned ++ [arp])
  have hlaw : PortLaw port (tableAfter learned) arp := ((h _ rfl).2 _ rfl).1
  have hquery : (arp.run (tableAfter learned)).table.query (.ofBytes [2, 0, 0, 0, 0, 1]) =
      some 0 := by
    decide +kernel
  obtain ⟨r, hfind, ht⟩ := Option.map_eq_some_iff.mp hquery
  have hone := hlaw.oneCopy ⟨by decide, by decide +kernel⟩ .tap (by decide)
    ⟨_, r, hfind, by rw [ht]; rfl⟩
  exact absurd hone (by decide +kernel)

end NetTraverse
