import NetTraverse.Bridge.Json
import NetTraverse.Bridge.UdpRelay

/-!
# The reply to an INFO message

`foward` answers an INFO message with a JSON array that has an object for each peer.
`info_tells_table` says that nothing of the table is lost on the way: who gets the
text can tell the endpoints, the times and the pings.
-/

namespace NetTraverse

open Transition

namespace Json

/-- `push_back`. What is neither an array nor `null`, and makes it throw, is left alone. -/
def pushBack (j value : Json) : Json :=
  match j with
  | .null => .array [value]
  | .array items => .array (items ++ [value])
  | j => j

theorem foldl_pushBack (values items : List Json) :
    values.foldl pushBack (.array items) = .array (items ++ values) := by
  induction values generalizing items with
  | nil => rw [List.append_nil, List.foldl_nil]
  | cons value values ih =>
    rw [List.foldl_cons, pushBack, ih, List.append_assoc, List.singleton_append]

/-- The array is `null` while nothing was pushed. -/
theorem foldl_pushBack_injective :
    Function.Injective fun values : List Json => values.foldl pushBack .null := by
  have hcons (value : Json) (values : List Json) :
      (value :: values).foldl pushBack .null = .array (value :: values) :=
    foldl_pushBack values [value]
  intro values values' h
  cases values with
  | nil =>
    cases values' with
    | nil => rfl
    | cons value values' => cases h.trans (hcons value values')
  | cons value values =>
    cases values' with
    | nil => cases h.symm.trans (hcons value values)
    | cons value' values' =>
      exact Json.array.inj ((hcons value values).symm.trans (h.trans (hcons value' values')))

end Json

/-- `"ip"`, `"last_active"`, `"ping"` and `"port"`. -/
def peerKeys : List (List UInt8) :=
  [[105, 112], [108, 97, 115, 116, 95, 97, 99, 116, 105, 118, 101], [112, 105, 110, 103],
    [112, 111, 114, 116]]

/-- The JSON value that a `std::map<std::string, std::string>` becomes. -/
def ofDict (keys values : List (List UInt8)) : Json := .object (keys.zip (values.map .string))

/-- The reply, from what `toJson` gives for the peers. -/
def dumpPeers (peers : List (List (List UInt8))) : List UInt8 :=
  ((peers.map (ofDict peerKeys)).foldl Json.pushBack .null).dump

/-- What is told of the peers. -/
def PeerMap.records (peerMap : PeerMap) : List (SockAddr × Int × Int) :=
  peerMap.entries.map fun e => (e.1, e.2.lastActive.value, e.2.ping)

namespace InfoReplyLemmas

/-! ### Numbers and endpoints as text -/

/-- A digit is a byte. -/
theorem ofNat_toNat {c : Char} (h : c.isDigit = true) :
    Char.ofNat (UInt8.ofNat c.toNat).toNat = c := by
  have hdigit : c.toNat ≤ 57 := (Char.isDigit_iff_toNat.mp h).2
  rw [UInt8.toNat_ofNat', Nat.mod_eq_of_lt (by omega), Char.ofNat_toNat]

theorem decimal_injective : Function.Injective decimal := by
  have hread (n : Nat) :
      Nat.ofDigitChars 10 ((decimal n).map fun b => Char.ofNat b.toNat) 0 = n := by
    have hchars : (decimal n).map (fun b => Char.ofNat b.toNat) = Nat.toDigits 10 n := by
      rw [decimal, List.map_map, List.map_congr_left, List.map_id]
      exact fun c hc => ofNat_toNat (Nat.isDigit_of_mem_toDigits (by decide) (by decide) hc)
    rw [hchars, Nat.ofDigitChars_ten_toDigits]
  intro m n h
  rw [← hread m, h, hread n]

/-- Digits are neither a dot nor a minus sign. -/
theorem le_of_mem_decimal {n : Nat} {b : UInt8} (h : b ∈ decimal n) : 48 ≤ b := by
  obtain ⟨c, hc, rfl⟩ := List.mem_map.mp h
  have hdigit := Char.isDigit_iff_toNat.mp
    (Nat.isDigit_of_mem_toDigits (by decide) (by decide) hc)
  have hnine : c.toNat ≤ 57 := hdigit.2
  rw [UInt8.le_iff_toNat_le, UInt8.toNat_ofNat', Nat.mod_eq_of_lt (by omega)]
  exact hdigit.1

theorem signedDecimal_injective : Function.Injective signedDecimal := by
  have hsign (m n : Nat) : 45 :: decimal m ≠ decimal n := fun heq =>
    absurd (le_of_mem_decimal (heq ▸ List.mem_cons_self)) (by decide)
  intro m n h
  unfold signedDecimal at h
  split at h
  · split at h
    · have habs := decimal_injective (List.tail_eq_of_cons_eq h)
      omega
    · exact absurd h (hsign _ _)
  · split at h
    · exact absurd h.symm (hsign _ _)
    · have habs := decimal_injective h
      omega

theorem inetNtop_injective {a b : List UInt8} (ha : a ≠ []) (hb : b ≠ [])
    (h : inetNtop a = inetNtop b) : a = b := by
  have hdots {l : List UInt8} (hl : l ≠ []) :
      (inetNtop l).splitOn 46 = l.map fun b => decimal b.toNat := by
    refine List.splitOn_intercalate 46 ?_ (by simpa using hl)
    intro octet hoctet hdot
    obtain ⟨b, -, rfl⟩ := List.mem_map.mp hoctet
    exact absurd (le_of_mem_decimal hdot) (by decide)
  have hinj : Function.Injective fun b : UInt8 => decimal b.toNat := fun _ _ heq =>
    UInt8.toNat_inj.mp (decimal_injective heq)
  exact List.map_injective_iff.mpr hinj (by rw [← hdots ha, h, hdots hb])

theorem ofDict_injective {keys values values' : List (List UInt8)}
    (h : values.length = keys.length) (h' : values'.length = keys.length)
    (heq : ofDict keys values = ofDict keys values') : values = values' := by
  have htexts := congrArg (List.map Prod.snd) (Json.object.inj heq)
  rw [List.map_snd_zip (by rw [List.length_map, h]),
    List.map_snd_zip (by rw [List.length_map, h'])] at htexts
  exact List.map_injective_iff.mpr (fun _ _ => Json.string.inj) htexts

theorem address_injective {x y : Endpoint} (hipv4 : x.ipv4 = y.ipv4)
    (hport : x.address.port = y.address.port) : x.address = y.address := by
  obtain ⟨hi, lo, hx⟩ := List.length_eq_two.mp x.length_port
  obtain ⟨hi', lo', hy⟩ := List.length_eq_two.mp y.length_port
  have hnat : hi.toNat * 256 + lo.toNat = hi'.toNat * 256 + lo'.toNat := by
    rw [← SockAddr.toNat_port (x.sinPort_address.trans hx), hport,
      SockAddr.toNat_port (y.sinPort_address.trans hy)]
  have hlo := lo.toNat_lt
  have hlo' := lo'.toNat_lt
  have hhi : hi = hi' := UInt8.toNat_inj.mp (by omega)
  have hlow : lo = lo' := UInt8.toNat_inj.mp (by omega)
  rw [Endpoint.address, Endpoint.address, hipv4, hx, hy, hhi, hlow]

theorem length_toJson (p : Peer) : p.toJson.length = peerKeys.length := by
  simp only [Peer.toJson, peerKeys, List.length_cons]

/-- The object of a peer tells its endpoint, its time and its ping. -/
theorem ofDict_toJson_iff {p p' : Peer} {x y : Endpoint} (hp : p.addr = x.address)
    (hp' : p'.addr = y.address) : ofDict peerKeys p.toJson = ofDict peerKeys p'.toJson ↔
      (p.addr, p.lastActive.value, p.ping) = (p'.addr, p'.lastActive.value, p'.ping) := by
  constructor
  · intro h
    have htexts : p.toJson = p'.toJson :=
      ofDict_injective (length_toJson p) (length_toJson p') h
    simp only [Peer.toJson, List.cons.injEq, and_true] at htexts
    obtain ⟨hip, htime, hping, hport⟩ := htexts
    rw [hp, hp', Endpoint.sinAddr_address, Endpoint.sinAddr_address] at hip
    rw [hp, hp'] at hport
    have hne (e : Endpoint) : e.ipv4 ≠ [] :=
      List.ne_nil_of_length_pos (by rw [e.length_ipv4]; decide)
    have haddr : x.address = y.address := address_injective
      (inetNtop_injective (hne x) (hne y) hip) (UInt16.toNat_inj.mp (decimal_injective hport))
    rw [hp, hp', haddr, signedDecimal_injective htime, signedDecimal_injective hping]
  · intro h
    obtain ⟨haddr, htime, hping⟩ := by simpa only [Prod.mk.injEq] using h
    rw [Peer.toJson, Peer.toJson, haddr, htime, hping]

/-! ### Tables -/

/-- The peers are stored under their addresses, which are IPv4 addresses. -/
def Ipv4Table (peerMap : PeerMap) : Prop :=
  ∀ a peer, peerMap.find? a = some peer → peer.addr = a ∧ ∃ e : Endpoint, a = e.address

theorem map_eq_map_iff {α β γ : Type} {f : α → β} {g : α → γ} {as bs : List α}
    (h : ∀ a ∈ as, ∀ b ∈ bs, f a = f b ↔ g a = g b) :
    as.map f = bs.map f ↔ as.map g = bs.map g := by
  induction as generalizing bs with
  | nil => cases bs <;> simp
  | cons a as ih =>
    cases bs with
    | nil => simp
    | cons b bs =>
      have htails := ih fun x hx y hy =>
        h x (List.mem_cons_of_mem a hx) y (List.mem_cons_of_mem b hy)
      rw [List.map_cons, List.map_cons, List.map_cons, List.map_cons, List.cons.injEq,
        List.cons.injEq, h a List.mem_cons_self b List.mem_cons_self, htails]

theorem dumpPeers_iff {m m' : PeerMap} (hm : Ipv4Table m) (hm' : Ipv4Table m') :
    dumpPeers (m.entries.map fun e => e.2.toJson) =
      dumpPeers (m'.entries.map fun e => e.2.toJson) ↔ m.records = m'.records := by
  have hentry : ∀ e ∈ m.entries, ∀ e' ∈ m'.entries,
      (ofDict peerKeys e.2.toJson = ofDict peerKeys e'.2.toJson ↔
        (e.1, e.2.lastActive.value, e.2.ping) = (e'.1, e'.2.lastActive.value, e'.2.ping)) := by
    intro e he e' he'
    obtain ⟨haddr, x, hx⟩ := hm e.1 e.2 (OrdMap.find?_eq_some.mpr he)
    obtain ⟨haddr', y, hy⟩ := hm' e'.1 e'.2 (OrdMap.find?_eq_some.mpr he')
    rw [ofDict_toJson_iff (haddr.trans hx) (haddr'.trans hy), haddr, haddr']
  have hdump (peers peers' : List (List (List UInt8))) : dumpPeers peers = dumpPeers peers' ↔
      peers.map (ofDict peerKeys) = peers'.map (ofDict peerKeys) :=
    (Json.dump_injective.comp Json.foldl_pushBack_injective).eq_iff
  rw [hdump, List.map_map, List.map_map]
  exact map_eq_map_iff hentry

open UdpBridgeLemmas UdpPeersLemmas

theorem ipv4Table_enter {c : UdpCall} {m : PeerMap} {e : Endpoint} (hm : Ipv4Table m)
    (hsender : c.sender = e.address) : Ipv4Table (c.enter m) := by
  intro a peer hfind
  rw [find?_enter] at hfind
  split at hfind
  · next hand =>
    obtain rfl := Option.some.inj hfind
    exact ⟨hand.1.symm, e, hand.1.trans hsender⟩
  · exact hm a peer hfind

theorem ipv4Table_step {dump : List (List (List UInt8)) → List UInt8} {s s' : UdpRun} {c : UdpCall}
    {e : Endpoint} (hs : Ipv4Table s.peerMap) (hsender : c.sender = e.address)
    (h : udpStep dump s c = some s') : Ipv4Table s'.peerMap := by
  have henter := ipv4Table_enter hs hsender
  obtain ⟨-, -, -, -, -, hcases⟩ := udpStep_cases h
  rcases hcases with ⟨-, -, hmap⟩ | ⟨-, -, hmap, -⟩ | ⟨-, -, -, hmap, -⟩
  · exact hmap ▸ hs
  · intro a peer hfind
    obtain ⟨sender, hfound⟩ := @find?_enter_sender c s.peerMap
    rw [hmap, find?_finish hfound, Option.filter_eq_some_iff] at hfind
    obtain ⟨hfind, -⟩ := hfind
    split at hfind
    · next ha =>
      obtain rfl := Option.some.inj hfind
      exact ⟨((henter _ _ hfound).1).trans ha.symm, e, ha.trans hsender⟩
    · exact henter a peer hfind
  · exact hmap ▸ henter

/-- An INFO message is answered with the text for the table. -/
theorem sent_info {s t : UdpRun} {c : UdpCall} (htype : c.type = some typeInfo)
    (h : udpStep dumpPeers s c = some t) : t.sent =
      [.info c.sender (dumpPeers ((c.enter s.peerMap).entries.map fun e => e.2.toJson))] := by
  unfold udpStep at h
  split at h
  · rw [UdpCall.foward, FaultLemmas.bind_ok (read_type htype), if_neg (by decide),
      if_neg (by decide), if_pos rfl] at h
    obtain rfl := Option.some.inj h
    rfl
  · cases h

end InfoReplyLemmas

/-- `t` is the state after an INFO message that came in `s` after other messages, all
from IPv4 addresses. -/
structure Asked (s : UdpRun) (c : UdpCall) (t : UdpRun) : Prop where
  run : ∃ now calls, exec (udpStep dumpPeers) (.start now) calls = some s ∧
    ∀ d ∈ calls, ∃ e : Endpoint, d.sender = e.address
  sender : ∃ e : Endpoint, c.sender = e.address
  info : c.type = some typeInfo
  step : udpStep dumpPeers s c = some t

open InfoReplyLemmas

/-- Two INFO messages, whenever they came, get the same text exactly when the tables were
the same: the same addresses, times and pings, in the same order. -/
theorem info_tells_table {s t s' t' : UdpRun} {c c' : UdpCall} (h : Asked s c t)
    (h' : Asked s' c' t') : ∃ text text',
      t.sent = [.info c.sender text] ∧ t'.sent = [.info c'.sender text'] ∧
      (text = text' ↔ (c.enter s.peerMap).records = (c'.enter s'.peerMap).records) := by
  have htable {s t : UdpRun} {c : UdpCall} (h : Asked s c t) : Ipv4Table (c.enter s.peerMap) := by
    obtain ⟨now, calls, hrun, hsenders⟩ := h.run
    obtain ⟨e, he⟩ := h.sender
    have hstates :
        AllStates (udpStep dumpPeers) (fun s => Ipv4Table s.peerMap) (.start now) calls :=
      allStates_of_allSteps (fun _ _ _ hs ⟨_, hd⟩ hstep => ipv4Table_step hs hd hstep)
        (fun a peer hfind => by simp [UdpRun.start] at hfind)
        (allSteps_of_forall fun d hd _ => hsenders d hd)
    exact ipv4Table_enter (hstates.last hrun) he
  exact ⟨_, _, sent_info h.info h.step, sent_info h'.info h'.step,
    dumpPeers_iff (htable h) (htable h')⟩

namespace UdpDemo

def ask : UdpCall := .instant asker.address [typeInfo] 20

/-- One peer has said PING. -/
def pinged : List UdpCall := [.instant answerer.address [typePing] 10]

/-- So has the peer that will ask. -/
def bothPinged : List UdpCall := pinged ++ [.instant asker.address [typePing] 15]

/-- It has asked before. -/
def askedBefore : List UdpCall := pinged ++ [.instant asker.address [typeInfo] 15]

/-- What is handed to `async_send_to` when it asks. -/
def reply (calls : List UdpCall) : Option (List Sent) :=
  (exec (udpStep dumpPeers) (.start 0) (calls ++ [ask])).map UdpRun.sent

/-- The table of which it is told. -/
def told (calls : List UdpCall) : Option (List (SockAddr × Int × Int)) :=
  (exec (udpStep dumpPeers) (.start 0) calls).map fun s => (ask.enter s.peerMap).records

theorem asked_of_reply (calls : List UdpCall) (hcalls : ∀ d ∈ calls, d.sender = asker.address ∨
    d.sender = answerer.address) (hsome : (reply calls).isSome) :
    ∃ s t, Asked s ask t ∧ reply calls = some t.sent ∧
      told calls = some (ask.enter s.peerMap).records := by
  obtain ⟨_, hreply⟩ := Option.isSome_iff_exists.mp hsome
  obtain ⟨t, ht, -⟩ := Option.map_eq_some_iff.mp hreply
  obtain ⟨s, hrun, hlast⟩ := exec_append_iff.mp ht
  obtain ⟨t', hstep, hnil⟩ := exec_cons_iff.mp hlast
  obtain rfl : t' = t := Option.some.inj hnil
  refine ⟨s, t', ⟨⟨0, calls, hrun, fun d hd => ?_⟩, ⟨asker, rfl⟩, rfl, hstep⟩, ?_, ?_⟩
  · rcases hcalls d hd with h | h
    · exact ⟨asker, h⟩
    · exact ⟨answerer, h⟩
  · rw [reply, ht]
    rfl
  · rw [told, hrun]
    rfl

end UdpDemo

open UdpDemo in
/-- The text does not tell a PING from a question, and tells both from nothing. -/
theorem info_tells_table_demo : ∃ text text₁ text₂,
    reply pinged = some [.info asker.address text] ∧
    reply bothPinged = some [.info asker.address text₁] ∧
    reply askedBefore = some [.info asker.address text₂] ∧ text ≠ text₁ ∧ text₁ = text₂ := by
  obtain ⟨s, t, h, hreply, htold⟩ :=
    asked_of_reply pinged (by decide) (by decide +kernel)
  obtain ⟨s₁, t₁, h₁, hreply₁, htold₁⟩ :=
    asked_of_reply bothPinged (by decide) (by decide +kernel)
  obtain ⟨s₂, t₂, h₂, hreply₂, htold₂⟩ :=
    asked_of_reply askedBefore (by decide) (by decide +kernel)
  have hdiffer : told pinged ≠ told bothPinged := by decide +kernel
  have hsame : told bothPinged = told askedBefore := by decide +kernel
  rw [htold, htold₁, Ne, Option.some.injEq] at hdiffer
  rw [htold₁, htold₂, Option.some.injEq] at hsame
  obtain ⟨text, text₁, hsent, hsent₁, htells⟩ := info_tells_table h h₁
  obtain ⟨_, text₂, hsent₁', hsent₂, htells'⟩ := info_tells_table h₁ h₂
  obtain rfl : text₁ = _ := by simpa [hsent₁] using hsent₁'
  exact ⟨text, text₁, text₂, hsent ▸ hreply, hsent₁ ▸ hreply₁, hsent₂ ▸ hreply₂,
    fun heq => hdiffer (htells.mp heq), htells'.mpr hsame⟩

end NetTraverse
