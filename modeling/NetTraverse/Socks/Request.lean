import NetTraverse.Socks.Handler

/-!
# What a client asks for

The greeting and the CONNECT request of a client as it encodes them, and what
`socks5_handler` does with them. `socks5Handler_connectRequest` says that it
connects to the address that was encoded and has then read the greeting and the
request and nothing else, however the stream is cut.
-/

namespace NetTraverse

/-- What a client wants to be connected to. -/
inductive Destination where
  | ipv4 (octets : List UInt8) (length_eq : octets.length = 4)
  | name (bytes : List UInt8) (length_le : bytes.length ≤ 255) (noNul : 0 ∉ bytes)

namespace Destination

/-- The address type. -/
def type : Destination → UInt8
  | ipv4 .. => 0x01
  | name .. => 0x03

def encode : Destination → List UInt8
  | ipv4 octets _ => octets
  | name bytes _ _ => .ofNat bytes.length :: bytes

/-- The text for `getaddrinfo`. -/
def host : Destination → List UInt8
  | ipv4 octets _ => inetNtop octets
  | name bytes _ _ => bytes

end Destination

structure ConnectRequest where
  version : UInt8
  methods : List UInt8
  methods_le : methods.length ≤ 255
  requestVersion : UInt8
  reserved : UInt8
  destination : Destination
  port : UInt16

namespace ConnectRequest

variable (r : ConnectRequest)

def greeting : List UInt8 := r.version :: .ofNat r.methods.length :: r.methods

def request : List UInt8 :=
  [r.requestVersion, 0x01, r.reserved, r.destination.type] ++
    (r.destination.encode ++ [(r.port >>> 8).toUInt8, r.port.toUInt8])

def encode : List UInt8 := r.greeting ++ r.request

/-- The address that the request names, after `resolve`. -/
def address (env : SocksEnv) : Address :=
  (Address.ofHostPort r.destination.host r.port).resolve
    (env.getaddrinfo r.destination.host (decimal r.port.toNat))

/-- What the handler does, each time with the bytes that it has not read. -/
def actions (env : SocksEnv) (payload : List UInt8) : List (SocksCall × List UInt8) :=
  let unbound := env.localAddress .unmade
  [(.asyncWrite [0x05, 0x00], r.request ++ payload),
    (.getaddrinfo r.destination.host (decimal r.port.toNat), payload),
    (.newSocket, payload), (.getsockname, payload), (.getsockname, payload),
    (.connect (some ⟨r.address env, true⟩), payload),
    (.asyncWrite (riply unbound.ipv4 unbound.port), payload), (.relay, payload)]

end ConnectRequest

def SocksCall.isRead : SocksCall → Bool
  | asyncRead _ => true
  | _ => false

/-- The calls of the handler on a new connection that are not reads, each with
the bytes that are not read then. -/
def SocksEnv.actions (env : SocksEnv) (stack : Stack) (s : TcpStream) :
    List (SocksCall × List UInt8) :=
  ((Prog.calls env.connection (s, .unmade) (socks5Handler stack)).filter fun c => !c.1.isRead).map
    fun c => (c.1, c.2.1.input)

namespace RequestLemmas

open HandlerLemmas

variable {env : SocksEnv} {stack : Stack} {r : ConnectRequest} {payload : List UInt8}
  {atEnd : StreamEnd} {p : Progress}

theorem portOf_bytes (port : UInt16) : portOf (port >>> 8).toUInt8 port.toUInt8 = port := by
  apply UInt16.toNat_inj.mp
  have hlt := port.toNat_lt
  rw [toNat_portOf]
  simp [Nat.shiftRight_eq_div_pow]
  omega

theorem cString_eq {bytes : List UInt8} (h : 0 ∉ bytes) : cString bytes = bytes :=
  List.takeWhile_eq_self_iff.mpr fun _ hb => decide_eq_true (ne_of_mem_of_not_mem hb h)

theorem toNat_ofNat {n : Nat} (h : n ≤ 255) : (UInt8.ofNat n).toNat = n := by
  rw [UInt8.toNat_ofNat']
  omega

/-- What is left behind the front of a stream. -/
theorem drop_front {pre rest : List UInt8} {n : Nat} (h : pre.length = n) :
    ByteStream.drop ⟨pre ++ rest, atEnd⟩ n = ⟨rest, atEnd⟩ := by
  unfold ByteStream.drop
  simp only [List.drop_left' h]

theorem le_length_front {pre rest : List UInt8} {n : Nat} (h : pre.length = n) :
    n ≤ (ByteStream.mk (pre ++ rest) atEnd).input.length := by
  dsimp only
  rw [List.length_append]
  omega

/-- The handler reads a destination and a port that are before it, and goes on with the
target that they name. -/
def ReadsTarget (env : SocksEnv) (stack : Stack) (atEnd : StreamEnd) (p : Progress)
    (payload : List UInt8) (d : Destination) (port : UInt16) : Prop :=
  ∀ f : Option (Option Target) → SocksProg Unit,
    ∃ reads : List (SocksCall × ByteStream × Progress),
      (∀ c ∈ reads, c.1.isRead = true) ∧
      (reads.map fun c => cost c.1).sum ≤ d.encode.length + 3 ∧
      Prog.calls env.stream
        (⟨d.encode ++ ([(port >>> 8).toUInt8, port.toUInt8] ++ payload), atEnd⟩, p)
        (socks5Address stack d.type >>= f) =
      reads ++ (.getaddrinfo d.host (decimal port.toNat), (⟨payload, atEnd⟩, p)) ::
        Prog.calls env.stream (⟨payload, atEnd⟩, p)
          (f (some (some (resolved env ⟨.ofHostPort d.host port, true⟩))))

theorem readsTarget_ipv4 {octets : List UInt8} (h4 : octets.length = 4) (port : UInt16) :
    ReadsTarget env stack atEnd p payload (.ipv4 octets h4) port := by
  intro f
  set portBytes := [(port >>> 8).toUInt8, port.toUInt8]
  have hport : portBytes.length = 2 := rfl
  set s : ByteStream := ⟨octets ++ (portBytes ++ payload), atEnd⟩
  have hdrop4 : s.drop 4 = ⟨portBytes ++ payload, atEnd⟩ := drop_front h4
  have hdrop6 : s.drop 6 = ⟨payload, atEnd⟩ := by
    rw [← drop_drop 4 2, hdrop4, drop_front hport]
  have htarget : ipv4Target (stored stack.ipv4 (s.input.take 4))
      (stored stack.port ((s.input.drop 4).take 2)) =
        ⟨.ofHostPort (inetNtop octets) port, true⟩ := by
    rw [← input_drop, hdrop4, List.take_left' h4, List.take_left' hport,
      ipv4Target_received stack h4 hport]
    exact congrArg (fun n => (⟨.ofHostPort _ n, true⟩ : Target)) (portOf_bytes port)
  refine ⟨[(.asyncRead 4, (s, p)), (.asyncRead 2, (s.drop 4, p))], by simp [SocksCall.isRead],
    by simp [cost, readCost, Destination.encode, h4], ?_⟩
  have haddress : socks5Address stack (Destination.ipv4 octets h4).type =
      (fun target => some (some target)) <$> socks5Ipv4 stack := if_pos rfl
  rw [haddress, bind_map_left]
  have hcalls := @calls_socks5Ipv4 env s p Unit stack (le_length_front h4)
    (hdrop4 ▸ le_length_front hport)
  refine (hcalls _).trans ?_
  rw [htarget, hdrop6]
  rfl

theorem readsTarget_name {bytes : List UInt8} (hle : bytes.length ≤ 255) (hnul : 0 ∉ bytes)
    (port : UInt16) : ReadsTarget env stack atEnd p payload (.name bytes hle hnul) port := by
  intro f
  set portBytes := [(port >>> 8).toUInt8, port.toUInt8]
  have hport : portBytes.length = 2 := rfl
  set len : UInt8 := .ofNat bytes.length
  have hlen : bytes.length = len.toNat := (toNat_ofNat hle).symm
  set s : ByteStream := ⟨[len] ++ (bytes ++ (portBytes ++ payload)), atEnd⟩
  have hdrop1 : s.drop 1 = ⟨bytes ++ (portBytes ++ payload), atEnd⟩ := drop_front rfl
  have hdrop : s.drop (1 + len.toNat) = ⟨portBytes ++ payload, atEnd⟩ := by
    rw [← drop_drop, hdrop1, drop_front hlen]
  have hdrop2 : s.drop (1 + len.toNat + 2) = ⟨payload, atEnd⟩ := by
    rw [← drop_drop, hdrop, drop_front hport]
  have htarget : nameTarget ⟨len, true⟩ (stored stack.name ((s.input.drop 1).take len.toNat))
      (stored stack.port ((s.input.drop (1 + len.toNat)).take 2)) =
        ⟨.ofHostPort bytes port, true⟩ := by
    rw [← input_drop, ← input_drop, hdrop1, hdrop, List.take_left' hlen, List.take_left' hport,
      nameTarget_received stack hlen hport, cString_eq hnul]
    exact congrArg (fun n => (⟨.ofHostPort _ n, true⟩ : Target)) (portOf_bytes port)
  refine ⟨[(.asyncRead 1, (s, p)), (.asyncRead len.toNat, (s.drop 1, p)),
    (.asyncRead 2, (s.drop (1 + len.toNat), p))], by simp [SocksCall.isRead], ?_, ?_⟩
  · simp only [List.map_cons, List.map_nil, List.sum_cons, List.sum_nil, cost, readCost,
      Destination.encode, List.length_cons]
    omega
  · have haddress : socks5Address stack (Destination.name bytes hle hnul).type =
        (fun target => some (some target)) <$> socks5Name stack := rfl
    rw [haddress, bind_map_left]
    have hcalls := @calls_socks5Name env s p Unit stack ⟨len, true⟩ (le_length_front rfl) rfl
      (hdrop1 ▸ le_length_front hlen) (hdrop ▸ le_length_front hport)
    refine (hcalls _).trans ?_
    rw [htarget, hdrop2]
    rfl

/-- Both shapes of a target. -/
theorem readsTarget (d : Destination) (port : UInt16) :
    ReadsTarget env stack atEnd p payload d port := by
  cases d with
  | ipv4 octets h4 => exact readsTarget_ipv4 h4 port
  | name bytes hle hnul => exact readsTarget_name hle hnul port

/-- What `actions` keeps of the calls on a stream. -/
def unread (calls : List (SocksCall × ByteStream × Progress)) : List (SocksCall × List UInt8) :=
  (calls.filter fun c => !c.1.isRead).map fun c => (c.1, c.2.1.input)

theorem actions_eq (s : TcpStream) : env.actions stack s = unread
    ((Prog.calls env.connection (s, .unmade) (socks5Handler stack)).map (Prod.map id whole)) := by
  rw [unread, List.filter_map, List.map_map]
  rfl

/-- The calls for the greeting and the front of the request. -/
theorem calls_greeting {version requestVersion command reserved type : UInt8}
    {methods header rest : List UInt8} {s : ByteStream} (hle : methods.length ≤ 255)
    (hheader : header = [requestVersion, command, reserved, type])
    (hs : s = ⟨version :: .ofNat methods.length :: methods ++ (header ++ rest), atEnd⟩) :
    Prog.calls env.stream (s, p) (socks5Handler stack) =
      (.asyncRead 2, (s, p)) :: (.asyncRead methods.length, (s.drop 2, p)) ::
      (.asyncWrite [0x05, 0x00], (⟨header ++ rest, atEnd⟩, p)) ::
      (.asyncRead 4, (⟨header ++ rest, atEnd.written⟩, p)) ::
        Prog.calls env.stream (⟨rest, atEnd.written⟩, p) (socks5Address stack type >>= fun
          | none => pure ()
          | some addr => socks5Command command addr) := by
  have hlen : header.length = 4 := hheader ▸ rfl
  have hfront : s = ⟨[version, .ofNat methods.length] ++ (methods ++ (header ++ rest)), atEnd⟩ := hs
  have hdrop2 : s.drop 2 = ⟨methods ++ (header ++ rest), atEnd⟩ := hfront ▸ drop_front rfl
  have hdrop : s.drop (2 + methods.length) = ⟨header ++ rest, atEnd⟩ := by
    rw [← drop_drop, hdrop2, drop_front rfl]
  have hwritten : ByteStream.written ⟨header ++ rest, atEnd⟩ =
      ⟨header ++ rest, atEnd.written⟩ := rfl
  have hreq : stored stack.req ((s.input.drop (2 + methods.length)).take 4) =
      stored stack.req [requestVersion, command, reserved, type] := by
    rw [← input_drop, hdrop, List.take_left' hlen, hheader]
  have hbuf : methods.length = (stored stack.buf (s.input.take 2) 1).value.toNat := by
    rw [hs]
    exact (toNat_ofNat hle).symm
  have hcalls := @calls_socks5Handler env s p stack methods.length (hfront ▸ le_length_front rfl)
    hbuf (hdrop2 ▸ le_length_front rfl) (hdrop ▸ le_length_front hlen)
  simp only [hreq, hdrop, hwritten, drop_front hlen] at hcalls
  exact hcalls

/-- The handler with a whole request before it. -/
theorem calls_request (r : ConnectRequest) : ∃ calls,
    Prog.calls env.stream (⟨r.encode ++ payload, atEnd⟩, .unmade) (socks5Handler stack) = calls ∧
      unread calls = r.actions env payload ∧
      (calls.map fun c => cost c.1).sum ≤ r.encode.length + 2 := by
  obtain ⟨reads, hreads, hcost, hdest⟩ := @readsTarget env stack payload atEnd.written .unmade
    r.destination r.port fun
      | none => pure ()
      | some addr => socks5Command 0x01 addr
  have hgreeting := @calls_greeting env stack atEnd .unmade r.version r.requestVersion 0x01
    r.reserved r.destination.type r.methods _
    (r.destination.encode ++ ([(r.port >>> 8).toUInt8, r.port.toUInt8] ++ payload))
    ⟨r.encode ++ payload, atEnd⟩ r.methods_le rfl
    (by simp [ConnectRequest.encode, ConnectRequest.greeting, ConnectRequest.request])
  have hfilter : (reads.filter fun c => !c.1.isRead) = [] :=
    List.filter_eq_nil_iff.mpr fun c hc => by simp [hreads c hc]
  have hconnect (target : Target) : Prog.calls env.stream (⟨payload, atEnd.written⟩, .unmade)
      (socks5Command 0x01 (some target)) =
        connectCalls env ⟨payload, atEnd.written⟩ .unmade (some target) := calls_socks5Connect _
  rw [hdest, hconnect] at hgreeting
  refine ⟨_, hgreeting, ?_, ?_⟩
  · simp only [unread, List.filter_cons, List.filter_append, hfilter]
    simp [connectCalls, ConnectRequest.actions, ConnectRequest.request]
    rfl
  · simp only [connectCalls, List.map_cons, List.map_append, List.sum_cons, List.sum_append]
    generalize (reads.map fun c => cost c.1).sum = total at hcost ⊢
    simp [cost, readCost, ConnectRequest.encode, ConnectRequest.greeting,
      ConnectRequest.request]
    omega

end RequestLemmas

open HandlerLemmas RequestLemmas in
/-- A request is decoded to the address that was encoded, and nothing behind it is
read: what the handler does is what the request says, as far as there is something
to read, and all of it when there is often enough. -/
theorem socks5Handler_connectRequest (env : SocksEnv) (stack : Stack) (r : ConnectRequest)
    (payload : List UInt8) (schedule : List Arrival) (atEnd : StreamEnd) :
    let actions := env.actions stack ⟨⟨r.encode ++ payload, atEnd⟩, schedule⟩
    actions <+: r.actions env payload ∧
      (r.encode.length + 2 ≤ parts schedule → actions = r.actions env payload) := by
  obtain ⟨calls, hcalls, hunread, hcost⟩ := @calls_request env stack payload atEnd r
  intro actions
  have hactions : actions = _ := actions_eq _
  constructor
  · have hfront := @calls_connection_front env Unit
      (⟨⟨r.encode ++ payload, atEnd⟩, schedule⟩, .unmade) (socks5Handler stack)
    rw [hactions, ← hunread, ← hcalls]
    exact (hfront.filter _).map _
  · intro hparts
    have hall := @calls_connection_eq env Unit
      (⟨⟨r.encode ++ payload, atEnd⟩, schedule⟩, .unmade) (socks5Handler stack)
      (by rw [whole, hcalls]; exact hcost.trans hparts)
    rw [hactions, hall, ← hunread, ← hcalls]
    rfl

/-- Two methods and the host name `ab`, byte by byte. -/
theorem socks5Handler_connectRequest_demo :
    let env := SocksEnv.plain none .success
    let r : ConnectRequest :=
      ⟨5, [0, 2], by decide, 5, 0, .name [97, 98] (by decide) (by decide), 80⟩
    env.actions Stack.zero
        ⟨⟨r.encode ++ [42], .silent⟩, .again :: List.replicate 20 (.part 0)⟩ =
      r.actions env [42] :=
  (socks5Handler_connectRequest _ Stack.zero _ [42] _ .silent).2 (by decide)

end NetTraverse
