import NetTraverse.Bridge.UdpBridge
import NetTraverse.Lib.Transition

/-!
# Whom the table lists

`foward` enters a sender before it looks at the message, and gives the entry its time
and sweeps the table only if it gets to its end. A message that it does not
understand, or cannot relay, leaves an entry behind whose time is not initialised, and
one that it relays may go to a peer that the sweep after it is going to erase.
`peersLaw_iff` says along which runs the table lists the active peers and no others.
-/

namespace NetTraverse

open Transition

/-- The bridge after a call, and what happened. -/
structure UdpRun where
  peerMap : PeerMap
  /-- The datagrams that the last call sent. -/
  sent : List Sent
  faulted : Bool
  /-- When the latest message from an address was processed. -/
  latest : SockAddr → Option Int
  /-- The clock in the last call. -/
  now : Int
  examined : SockAddr → Int
  done : Int

namespace UdpRun

def start (now : Int) : UdpRun := ⟨.empty, [], false, fun _ => none, now, fun _ => now, now⟩

/-- There was a message from `a` in the 60 seconds before `clock`. -/
def ActiveAt (s : UdpRun) (a : SockAddr) (clock : Int) : Prop :=
  ∃ t, s.latest a = some t ∧ clock ≤ t + 60

end UdpRun

variable (dump : List (List (List UInt8)) → List UInt8)

/-- A call of `foward`. The clock does not go back, and after a fault there is nothing
more. -/
def udpStep (s : UdpRun) (c : UdpCall) : Option UdpRun :=
  if s.faulted = false ∧ s.done ≤ c.now then
    let latest := Function.update s.latest c.sender (some c.now)
    match c.foward dump s.peerMap with
    | .error _ => some ⟨s.peerMap, [], true, latest, c.now, c.examined, c.done⟩
    | .ok f => some ⟨f.peerMap, f.sent, false, latest, c.now, c.examined, c.done⟩
  else none

/-- The table lists the active peers, with the time of their latest message, and a DATA
message went to an active one. What is active is said at the moment when the clock was
read for it. -/
structure PeersLaw (s : UdpRun) : Prop where
  alive : s.faulted = false
  listed : ∀ a, (s.peerMap.find? a).isSome ↔ s.ActiveAt a (s.examined a)
  stamped : ∀ a peer, s.peerMap.find? a = some peer →
    peer.lastActive.initialised = true ∧ s.latest a = some peer.lastActive.value
  relayed : ∀ d data, .relay d data ∈ s.sent → s.ActiveAt d s.now

/-- The message has a type. One that `foward` gets to its end with is relayed to the
sender or to an active peer; at another one, the latest message of the sender was
processed at the same time, and all peers in the table are still active. -/
structure Harmless (s : UdpRun) (c : UdpCall) : Prop where
  typed : c.type ≠ none
  relays : ∀ d, c.Relays s.peerMap d → d = c.sender ∨ s.ActiveAt d c.now
  early : ¬ c.Completes s.peerMap → s.latest c.sender = some c.now ∧
    ∀ a, (s.peerMap.find? a).isSome → s.ActiveAt a (c.examined a)

/-- The peers are stored under their addresses, and the clock has not gone back. -/
structure UdpInv (s : UdpRun) : Prop where
  keyed : ∀ a peer, s.peerMap.find? a = some peer → peer.addr = a
  examined_le : ∀ a, s.examined a ≤ s.done

namespace UdpPeersLemmas

open UdpBridgeLemmas

variable {dump : List (List (List UInt8)) → List UInt8} {s s' : UdpRun} {c : UdpCall}

/-- What one call can do. -/
theorem udpStep_cases (h : udpStep dump s c = some s') :
    s.done ≤ c.now ∧ s'.latest = Function.update s.latest c.sender (some c.now) ∧
    s'.now = c.now ∧ s'.examined = c.examined ∧ s'.done = c.done ∧
    ((c.type = none ∧ s'.faulted = true ∧ s'.peerMap = s.peerMap) ∨
      (c.Completes s.peerMap ∧ s'.faulted = false ∧ s'.peerMap = c.finish (c.enter s.peerMap) ∧
        ∀ d data, .relay d data ∈ s'.sent ↔ c.Relays s.peerMap c.target ∧ data = c.relayed ∧
          ∃ peer, (c.enter s.peerMap).find? c.target = some peer ∧ d = peer.addr) ∨
      (c.type ≠ none ∧ ¬ c.Completes s.peerMap ∧ s'.faulted = false ∧
        s'.peerMap = c.enter s.peerMap ∧ s'.sent = [])) := by
  unfold udpStep at h
  split at h
  · next hguard =>
    refine ⟨hguard.2, ?_⟩
    rcases @foward_cases dump c s.peerMap with
      ⟨htype, hf⟩ | ⟨hcompletes, sent, hf, hsent⟩ | ⟨htype, hnot, hf⟩
    · rw [hf] at h
      obtain rfl := Option.some.inj h
      exact ⟨rfl, rfl, rfl, rfl, .inl ⟨htype, rfl, rfl⟩⟩
    · rw [hf] at h
      obtain rfl := Option.some.inj h
      exact ⟨rfl, rfl, rfl, rfl, .inr (.inl ⟨hcompletes, rfl, rfl, hsent⟩)⟩
    · rw [hf] at h
      obtain rfl := Option.some.inj h
      exact ⟨rfl, rfl, rfl, rfl, .inr (.inr ⟨htype, hnot, rfl, rfl, rfl⟩)⟩
  · cases h

theorem find?_enter_of_ne {a : SockAddr} (h : a ≠ c.sender) :
    (c.enter s.peerMap).find? a = s.peerMap.find? a := by
  rw [find?_enter, if_neg fun hand => h hand.1]

theorem keyed_enter (hinv : UdpInv s) {a : SockAddr} {peer : Peer}
    (h : (c.enter s.peerMap).find? a = some peer) : peer.addr = a := by
  rw [find?_enter] at h
  split at h
  · next hand =>
    obtain rfl := Option.some.inj h
    exact hand.1.symm
  · exact hinv.keyed a peer h

theorem udpInv_step (hinv : UdpInv s) (h : udpStep dump s c = some s') : UdpInv s' := by
  obtain ⟨-, -, -, hexamined, hdone, hcases⟩ := udpStep_cases h
  refine ⟨fun a peer hfind => ?_, fun a => ?_⟩
  · rcases hcases with ⟨-, -, hmap⟩ | ⟨-, -, hmap, -⟩ | ⟨-, -, -, hmap, -⟩
    · exact hinv.keyed a peer (hmap ▸ hfind)
    · obtain ⟨sender, hsender⟩ := @find?_enter_sender c s.peerMap
      rw [hmap, find?_finish hsender, Option.filter_eq_some_iff] at hfind
      obtain ⟨hfind, -⟩ := hfind
      split at hfind
      · next ha =>
        obtain rfl := Option.some.inj hfind
        exact (keyed_enter hinv hsender).trans ha.symm
      · exact keyed_enter hinv hfind
    · exact keyed_enter hinv (hmap ▸ hfind)
  · rw [hexamined, hdone]
    exact c.le_done a

/-- What was active later was active before. -/
theorem activeAt_of_le {a : SockAddr} {t t' : Int} (h : s.ActiveAt a t') (hle : t ≤ t') :
    s.ActiveAt a t := by
  obtain ⟨last, hlatest, hactive⟩ := h
  exact ⟨last, hlatest, hle.trans hactive⟩

/-- The last time an address was examined was before this call. -/
theorem examined_le (hinv : UdpInv s) (hdone : s.done ≤ c.now) (a : SockAddr) :
    s.examined a ≤ c.examined a :=
  (hinv.examined_le a).trans (hdone.trans (c.now_le a))

/-- Who is active after the call. -/
theorem activeAt_iff (hlatest : s'.latest = Function.update s.latest c.sender (some c.now))
    {a : SockAddr} {t : Int} :
    s'.ActiveAt a t ↔ if a = c.sender then t ≤ c.now + 60 else s.ActiveAt a t := by
  rw [UdpRun.ActiveAt, hlatest]
  split
  · next ha =>
    subst ha
    simp
  · next ha => simp [Function.update_of_ne ha, UdpRun.ActiveAt]

/-- A call that gets to its end keeps the law exactly when it relays to the sender or to
an active peer. -/
theorem peersLaw_completes_iff (hinv : UdpInv s) (hlaw : PeersLaw s)
    (hdone : s.done ≤ c.now)
    (hlatest : s'.latest = Function.update s.latest c.sender (some c.now)) (hnow : s'.now = c.now)
    (hexamined : s'.examined = c.examined) (halive : s'.faulted = false)
    (hmap : s'.peerMap = c.finish (c.enter s.peerMap))
    (hsent : ∀ d data, .relay d data ∈ s'.sent ↔ c.Relays s.peerMap c.target ∧ data = c.relayed ∧
      ∃ peer, (c.enter s.peerMap).find? c.target = some peer ∧ d = peer.addr) :
    PeersLaw s' ↔ ∀ d, c.Relays s.peerMap d → d = c.sender ∨ s.ActiveAt d c.now := by
  obtain ⟨sender, hsender⟩ := @find?_enter_sender c s.peerMap
  have hfind (a : SockAddr) : s'.peerMap.find? a =
      (if a = c.sender then some (sender.keepAlive c.now) else s.peerMap.find? a).filter
        fun p => !p.expired (c.examined a) := by
    rw [hmap, find?_finish hsender]
    split
    · rfl
    · next ha => rw [find?_enter_of_ne ha]
  have hrelayed : (∀ d data, .relay d data ∈ s'.sent → s'.ActiveAt d s'.now) ↔
      ∀ d, c.Relays s.peerMap d → d = c.sender ∨ s.ActiveAt d c.now := by
    constructor
    · intro h d hd
      obtain rfl := hd.2.2.1
      obtain ⟨peer, hpeer⟩ := Option.isSome_iff_exists.mp hd.2.2.2
      have hactive := h _ _ ((hsent _ _).mpr ⟨hd, rfl, peer, hpeer, rfl⟩)
      rw [keyed_enter hinv hpeer, hnow, activeAt_iff hlatest] at hactive
      split at hactive
      · next heq => exact .inl heq
      · exact .inr hactive
    · intro h d data hmem
      obtain ⟨hd, -, peer, hpeer, rfl⟩ := (hsent d data).mp hmem
      rw [keyed_enter hinv hpeer, hnow, activeAt_iff hlatest]
      split
      · omega
      · next hne => exact (h _ hd).resolve_left hne
  rw [← hrelayed]
  refine ⟨fun h => h.relayed, fun h => ⟨halive, fun a => ?_, fun a peer hpeer => ?_, h⟩⟩
  · rw [hfind, hexamined, activeAt_iff hlatest]
    by_cases ha : a = c.sender
    · rw [if_pos ha, if_pos ha]
      simp [Peer.expired, Peer.keepAlive]
    · rw [if_neg ha, if_neg ha]
      cases hpeer : s.peerMap.find? a with
      | none =>
        refine iff_of_false nofun fun hactive => ?_
        have hbefore := (hlaw.listed a).mpr (activeAt_of_le hactive (examined_le hinv hdone a))
        rw [hpeer] at hbefore
        cases hbefore
      | some peer =>
        have hstamp := (hlaw.stamped a peer hpeer).2
        simp [UdpRun.ActiveAt, hstamp, Peer.expired]
  · rw [hfind, Option.filter_eq_some_iff] at hpeer
    obtain ⟨hpeer, -⟩ := hpeer
    rw [hlatest]
    split at hpeer
    · next ha =>
      obtain rfl := Option.some.inj hpeer
      rw [ha, Function.update_self]
      exact ⟨rfl, rfl⟩
    · next ha =>
      rw [Function.update_of_ne ha]
      exact hlaw.stamped a peer hpeer

/-- A call that returns early keeps the law exactly when the sender has its time
already and no peer has to go. -/
theorem peersLaw_early_iff (hinv : UdpInv s) (hlaw : PeersLaw s)
    (hdone : s.done ≤ c.now)
    (hlatest : s'.latest = Function.update s.latest c.sender (some c.now))
    (hexamined : s'.examined = c.examined) (halive : s'.faulted = false)
    (hmap : s'.peerMap = c.enter s.peerMap) (hsent : s'.sent = []) :
    PeersLaw s' ↔ s.latest c.sender = some c.now ∧
      ∀ a, (s.peerMap.find? a).isSome → s.ActiveAt a (c.examined a) := by
  constructor
  · intro h
    have hsender : ∃ peer, s.peerMap.find? c.sender = some peer := by
      rw [← Option.ne_none_iff_exists']
      intro hnone
      have hnew := (h.stamped c.sender (.new c.sender c.junk)
        (by rw [hmap, find?_enter, if_pos ⟨rfl, hnone⟩])).1
      cases hnew
    obtain ⟨peer, hpeer⟩ := hsender
    have henter (a : SockAddr) : s'.peerMap.find? a = s.peerMap.find? a := by
      rw [hmap, find?_enter, if_neg]
      rintro ⟨rfl, hnone⟩
      rw [hnone] at hpeer
      cases hpeer
    have hsame : s.latest c.sender = some c.now := by
      have hstamp := (h.stamped c.sender peer ((henter _).trans hpeer)).2
      rw [hlatest, Function.update_self] at hstamp
      exact (hlaw.stamped c.sender peer hpeer).2.trans hstamp.symm
    refine ⟨hsame, fun a ha => ?_⟩
    have hactive := (h.listed a).mp (by rwa [henter])
    rw [hexamined, activeAt_iff hlatest] at hactive
    split at hactive
    · next heq => exact ⟨c.now, heq ▸ hsame, hactive⟩
    · exact hactive
  · rintro ⟨hsame, hfresh⟩
    have hlatest' : s'.latest = s.latest := by
      rw [hlatest, ← hsame, Function.update_eq_self]
    have hactive (a : SockAddr) (t : Int) : s'.ActiveAt a t ↔ s.ActiveAt a t := by
      rw [UdpRun.ActiveAt, hlatest', UdpRun.ActiveAt]
    have hsender : (s.peerMap.find? c.sender).isSome := by
      refine (hlaw.listed c.sender).mpr ⟨c.now, hsame, ?_⟩
      have hle := (hinv.examined_le c.sender).trans hdone
      omega
    have henter : s'.peerMap = s.peerMap := by
      rw [hmap, UdpCall.enter, if_neg (by simpa using Option.isSome_iff_ne_none.mp hsender)]
    refine ⟨halive, fun a => ?_, fun a peer hpeer => ?_, fun d data hmem => ?_⟩
    · rw [henter, hexamined, hactive]
      exact ⟨hfresh a, fun h =>
        (hlaw.listed a).mpr (activeAt_of_le h (examined_le hinv hdone a))⟩
    · rw [hlatest']
      exact hlaw.stamped a peer (henter ▸ hpeer)
    · rw [hsent] at hmem
      cases hmem

/-- A call keeps the law exactly when it is harmless. -/
theorem peersLaw_step_iff (hinv : UdpInv s) (hlaw : PeersLaw s)
    (h : udpStep dump s c = some s') : PeersLaw s' ↔ Harmless s c := by
  obtain ⟨hdone, hlatest, hnow, hexamined, -, hcases⟩ := udpStep_cases h
  rcases hcases with ⟨htype, hfault, -⟩ | ⟨hcompletes, halive, hmap, hsent⟩ |
    ⟨htype, hnot, halive, hmap, hsent⟩
  · refine iff_of_false (fun h => ?_) fun h => h.typed htype
    exact absurd (hfault.symm.trans h.alive) nofun
  · rw [peersLaw_completes_iff hinv hlaw hdone hlatest hnow hexamined halive hmap hsent]
    refine ⟨fun h => ⟨?_, h, fun hnot => absurd hcompletes hnot⟩, fun h => h.relays⟩
    rcases hcompletes with h | h | h | ⟨d, h⟩
    · exact h ▸ nofun
    · exact h ▸ nofun
    · exact h ▸ nofun
    · exact h.1 ▸ nofun
  · rw [peersLaw_early_iff hinv hlaw hdone hlatest hexamined halive hmap hsent]
    refine ⟨fun h => ⟨htype, fun d hd => ?_, fun _ => h⟩, fun h => h.early hnot⟩
    exact absurd (.inr (.inr (.inr ⟨d, hd⟩))) hnot

theorem peersLaw_start (now : Int) : PeersLaw (.start now) :=
  ⟨rfl, fun _ => iff_of_false nofun fun ⟨_, h, _⟩ => (nomatch h), nofun, nofun⟩

theorem udpInv_start (now : Int) : UdpInv (.start now) := ⟨nofun, fun _ => le_refl now⟩

end UdpPeersLemmas

open UdpPeersLemmas in
/-- Along a run the table lists the active peers, with their times, and DATA messages go
to active peers only, if and only if every message is harmless when it comes. -/
theorem peersLaw_iff (now : Int) (calls : List UdpCall)
    (hrun : Runs (udpStep dump) (.start now) calls) :
    AllStates (udpStep dump) PeersLaw (.start now) calls ↔
      AllSteps (udpStep dump) Harmless (.start now) calls :=
  allStates_iff_allSteps (fun _ _ _ hinv _ hstep => udpInv_step hinv hstep)
    (fun _ _ _ hinv hlaw hstep => peersLaw_step_iff hinv hlaw hstep) (udpInv_start now)
    (peersLaw_start now) hrun

/-- A message that comes while the clock stands still. -/
def UdpCall.instant (sender : SockAddr) (bytes : List UInt8) (now : Int) : UdpCall where
  sender := sender
  buffer := .ofBytes bytes
  fits := ByteBuffer.ofBytes_fits bytes
  junk := (0, 0)
  now := now
  examined _ := now
  done := now
  now_le _ := le_refl now
  examined_mono _ _ _ := le_refl now
  le_done _ := le_refl now

/-- Two peers that say PING, the second one when the first one is gone. -/
theorem peersLaw_iff_demo : AllStates (udpStep fun _ => []) PeersLaw (.start 0)
    [.instant (.sockaddrIn [10, 0, 0, 1] [0, 9]) [0] 10,
      .instant (.sockaddrIn [10, 0, 0, 2] [0, 9]) [0] 100] := by
  refine (peersLaw_iff (fun _ => []) 0 _ ?_).mpr (allSteps_of_forall fun c hc s => ?_)
  · exact Option.isSome_iff_exists.mp (by decide +kernel)
  · have htype : c.type = some typePing := by
      simp only [List.mem_cons, List.not_mem_nil, or_false] at hc
      rcases hc with rfl | rfl <;> rfl
    refine ⟨htype ▸ nofun, fun d hd => ?_, fun hnot => absurd (.inl htype) hnot⟩
    exact absurd (htype.symm.trans hd.1) (by decide)

open UdpPeersLemmas in
/-- The first message of a peer is of a type that does not exist. -/
theorem peersLaw_unknownType : ¬ AllStates (udpStep fun _ => []) PeersLaw (.start 0)
    [.instant (.sockaddrIn [10, 0, 0, 1] [0, 9]) [9] 10] := by
  rintro ⟨hstart, hall⟩
  have hsome : (udpStep (fun _ => []) (.start 0)
      (.instant (.sockaddrIn [10, 0, 0, 1] [0, 9]) [9] 10)).isSome := by decide +kernel
  obtain ⟨s', hstep⟩ := Option.isSome_iff_exists.mp hsome
  have hharmless := (peersLaw_step_iff (udpInv_start 0) hstart hstep).mp (hall s' hstep)
  have hearly := hharmless.early fun hcompletes => by
    rcases hcompletes with h | h | h | ⟨_, h, -⟩ <;> exact absurd h (by decide)
  exact absurd hearly.1 nofun

end NetTraverse
