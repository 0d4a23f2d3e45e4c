import NetTraverse.Lib.Effect
import NetTraverse.Network.Address
import NetTraverse.Network.TcpStream

/-!
# `socks5_handler`

The handler as a program that calls its environment: the connection to the client,
the resolver, and the socket that it connects to the target. The results of
`async_read` are ignored, so an array that a read did not fill keeps bytes that
were on the stack before. A `Cell` says which ones were received.

The two relay loops at the end are one call here; they are in `Socks.Relay`.
-/

namespace NetTraverse

/-- A byte of a local array, and whether it was received. -/
structure Cell where
  value : UInt8
  received : Bool
deriving DecidableEq, Repr

/-- `*addr`, and whether all bytes that it was built from were received. -/
structure Target where
  addr : Address
  received : Bool
deriving DecidableEq, Repr

inductive SocksCall where
  /-- `sock->async_read` and `sock->async_write` -/
  | asyncRead (count : Nat)
  | asyncWrite (data : List UInt8)
  | getaddrinfo (host port : List UInt8)
  /-- The constructor of `rsock`. -/
  | newSocket
  /-- `getsockname` on `rsock` -/
  | getsockname
  /-- `::connect` to `*addr`; `none` is a null pointer. -/
  | connect (addr : Option Target)
  /-- `co_yield(&co_write)` -/
  | waitWrite
  | getsockopt (level optname : Nat)
  /-- The two relay loops. -/
  | relay
deriving DecidableEq, Repr

/-- What a call returns: `async_read` its value and the bytes that it stored,
`getaddrinfo` the first address that it found, `connect` its `errno` if it failed,
`getsockopt` the value stored if it did not fail. -/
abbrev SocksCall.Answer : SocksCall → Type
  | asyncRead _ => Int × List UInt8
  | getaddrinfo _ _ => Option SockAddr
  | getsockname => SockAddr
  | connect _ => Option Nat
  | getsockopt _ _ => Option Int
  | asyncWrite _ | newSocket | waitWrite | relay => Unit

abbrev SocksProg := Prog SocksCall SocksCall.Answer

abbrev SocksCall.perform (call : SocksCall) : SocksProg call.Answer := Prog.perform call

def eInProgress : Nat := 115
def solSocket : Nat := 1
def soError : Nat := 4

/-- What the local arrays hold before anything is read into them. -/
structure Stack where
  buf : Nat → UInt8
  vers : Nat → UInt8
  req : Nat → UInt8
  ipv4 : Nat → UInt8
  len : Nat → UInt8
  name : Nat → UInt8
  port : Nat → UInt8

/-- An array with some bytes stored at its front. -/
def stored (junk : Nat → UInt8) (data : List UInt8) (i : Nat) : Cell :=
  match data[i]? with
  | some b => ⟨b, true⟩
  | none => ⟨junk i, false⟩

/-- `async_read(array, count)`: the array afterwards. -/
def readArray (junk : Nat → UInt8) (count : Nat) : SocksProg (Nat → Cell) := do
  let (_, data) ← SocksCall.perform (.asyncRead count)
  pure (stored junk data)

/-- `(std::uint16_t(port[0]) << 8) | port[1]` -/
def portOf (hi lo : UInt8) : UInt16 := hi.toUInt16 <<< 8 ||| lo.toUInt16

/-- The string at the front of an array. -/
def cString (bytes : List UInt8) : List UInt8 := bytes.takeWhile (· ≠ 0)

/-- `new address(buf, sport)` from the cells of an IPv4 address and a port. -/
def ipv4Target (ipv4 port : Nat → Cell) : Target :=
  let cells := (List.range 4).map ipv4
  ⟨.ofHostPort (inetNtop (cells.map (·.value))) (portOf (port 0).value (port 1).value),
    (cells ++ [port 0, port 1]).all (·.received)⟩

/-- `new address(buf, ..)` from those of a host name of length `len`. -/
def nameTarget (len : Cell) (buf port : Nat → Cell) : Target :=
  let cells := (List.range len.value.toNat).map buf
  ⟨.ofHostPort (cString (cells.map (·.value))) (portOf (port 0).value (port 1).value),
    (len :: cells ++ [port 0, port 1]).all (·.received)⟩

/-- `addr->resolve()` -/
def resolve (target : Target) : SocksProg Target := do
  let info ← SocksCall.perform (.getaddrinfo target.addr.host target.addr.port)
  pure { target with addr := target.addr.resolve info }

/-- `case 0x01` -/
def socks5Ipv4 (stack : Stack) : SocksProg Target := do
  let ipv4 ← readArray stack.ipv4 4
  let port ← readArray stack.port 2
  resolve (ipv4Target ipv4 port)

/-- `case 0x03` -/
def socks5Name (stack : Stack) : SocksProg Target := do
  let len ← readArray stack.len 1
  let buf ← readArray stack.name (len 0).value.toNat
  let port ← readArray stack.port 2
  resolve (nameTarget (len 0) buf port)

/-- The switch on the address type: `none` when the handler returns there, and
else `addr`, which stays null for a type that is not known. -/
def socks5Address (stack : Stack) (type : UInt8) : SocksProg (Option (Option Target)) :=
  if type = 0x01 then (fun target => some (some target)) <$> socks5Ipv4 stack
  else if type = 0x03 then (fun target => some (some target)) <$> socks5Name stack
  else if type = 0x04 then pure none
  else pure (some none)

/-- `tcp_socket::connect`. Its `ret` receives the value of the comparison. -/
def tcpConnect (addr : Option Target) : SocksProg Int := do
  let errno : Option Nat ← SocksCall.perform (.connect addr)
  let ret : Int := if errno.isSome then 1 else 0
  if ret ≠ 0 then
    if ret < 0 then
      if errno = some eInProgress then
        SocksCall.perform .waitWrite
        match ← SocksCall.perform (.getsockopt soError solSocket) with
        | none => pure (-1)
        | some so_error => if so_error = 0 then pure 0 else pure (-1)
      else pure (-1)
    else pure (-1)
  else pure (-1)

/-- `riply` -/
def riply (ipv4 : UInt32) (port : UInt16) : List UInt8 :=
  [0x05, 0x00, 0x00, 0x01,
    (ipv4 >>> 24).toUInt8, (ipv4 >>> 16).toUInt8, (ipv4 >>> 8).toUInt8, ipv4.toUInt8,
    (port >>> 8).toUInt8, port.toUInt8]

/-- `case 0x01`: CONNECT. -/
def socks5Connect (addr : Option Target) : SocksProg Unit := do
  SocksCall.perform .newSocket
  let ipv4 ← SockAddr.ipv4 <$> SocksCall.perform .getsockname
  let port ← SockAddr.port <$> SocksCall.perform .getsockname
  let _ ← tcpConnect addr
  SocksCall.perform (.asyncWrite (riply ipv4 port))
  SocksCall.perform .relay

/-- The switch on the command. -/
def socks5Command (command : UInt8) (addr : Option Target) : SocksProg Unit :=
  if command = 0x01 then socks5Connect addr else pure ()

def socks5Handler (stack : Stack) : SocksProg Unit := do
  let buf ← readArray stack.buf 2
  let _ ← readArray stack.vers (buf 1).value.toNat
  SocksCall.perform (.asyncWrite [0x05, 0x00])
  let req ← readArray stack.req 4
  match ← socks5Address stack (req 3).value with
  | none => pure ()
  | some addr => socks5Command (req 1).value addr

/-! ## The environment -/

/-- What becomes of an attempt to connect. -/
inductive Attempt where
  | success
  | inProgress (soError : Int)
  | failure (errno : Nat)
deriving DecidableEq, Repr

/-- How far the attempt is. -/
inductive Progress where
  | unmade
  | pending
  | succeeded
  | failed
deriving DecidableEq, Repr

structure SocksEnv where
  getaddrinfo : List UInt8 → List UInt8 → Option SockAddr
  /-- The address that `rsock` has. -/
  localAddress : Progress → SockAddr
  attempt : Attempt

namespace SocksEnv

variable (env : SocksEnv)

/-- `::connect` on a non-blocking socket. -/
def connect : Option Nat × Progress :=
  match env.attempt with
  | .success => (none, .succeeded)
  | .inProgress _ => (some eInProgress, .pending)
  | .failure errno => (some errno, .failed)

/-- The socket has become writable. -/
def complete : Progress :=
  match env.attempt with
  | .inProgress soError => if soError = 0 then .succeeded else .failed
  | .success => .succeeded
  | .failure _ => .failed

def getsockopt (level optname : Nat) : Option Int :=
  if level = solSocket ∧ optname = soError then
    match env.attempt with
    | .inProgress soError => some soError
    | .success | .failure _ => some 0
  else none

/-- The environment around a way to read from the client and to write to it. A null
pointer is not survived. -/
def world {σ : Type} (read : σ → Nat → Option ((Int × List UInt8) × σ)) (written : σ → σ) :
    Prog.World SocksCall SocksCall.Answer (σ × Progress) := fun (s, p) call =>
  match call with
  | .asyncRead count => (read s count).map fun (r, s') => (r, (s', p))
  | .asyncWrite _ => some ((), (written s, p))
  | .getaddrinfo host port => some (env.getaddrinfo host port, (s, p))
  | .newSocket => some ((), (s, .unmade))
  | .getsockname => some (env.localAddress p, (s, p))
  | .connect none => none
  | .connect (some _) => some (env.connect.1, (s, env.connect.2))
  | .waitWrite => some ((), (s, env.complete))
  | .getsockopt level optname => some (env.getsockopt level optname, (s, p))
  | .relay => some ((), (s, p))

/-- The environment with a connection that is read piece by piece, and with one
that is read as a whole. -/
abbrev connection : Prog.World SocksCall SocksCall.Answer (TcpStream × Progress) :=
  env.world asyncRead TcpStream.written

abbrev stream : Prog.World SocksCall SocksCall.Answer (ByteStream × Progress) :=
  env.world ByteStream.read ByteStream.written

end SocksEnv

/-- Every lookup has one result, and the socket is at 10.0.0.2:4096 once it is
connected. -/
def SocksEnv.plain (found : Option SockAddr) (attempt : Attempt) : SocksEnv where
  getaddrinfo _ _ := found
  localAddress
    | .unmade => .sockaddrIn [0, 0, 0, 0] [0, 0]
    | _ => .sockaddrIn [10, 0, 0, 2] [16, 0]
  attempt := attempt

/-- A stack of zeros. -/
def Stack.zero : Stack :=
  ⟨fun _ => 0, fun _ => 0, fun _ => 0, fun _ => 0, fun _ => 0, fun _ => 0, fun _ => 0⟩

/-! ## The calls of the handler -/

namespace HandlerLemmas

variable {env : SocksEnv} {s : ByteStream} {p : Progress} {α : Type}

@[simp] theorem drop_drop (m n : Nat) : (s.drop m).drop n = s.drop (m + n) := by
  simp [ByteStream.drop, List.drop_drop]

@[simp] theorem input_drop (n : Nat) : (s.drop n).input = s.input.drop n := rfl

@[simp] theorem input_written : s.written.input = s.input := rfl

theorem calls_readArray {junk : Nat → UInt8} {count : Nat} (h : count ≤ s.input.length)
    (f : (Nat → Cell) → SocksProg α) :
    Prog.calls env.stream (s, p) (readArray junk count >>= f) =
      (.asyncRead count, (s, p)) ::
        Prog.calls env.stream (s.drop count, p) (f (stored junk (s.input.take count))) := by
  have hanswer : env.stream (s, p) (.asyncRead count) =
      some (((count : Int), s.input.take count), (s.drop count, p)) := by
    show (s.read count).map _ = _
    rw [ByteStream.read, if_pos h]
    rfl
  exact Prog.calls_call hanswer

theorem calls_asyncWrite (data : List UInt8) (f : Unit → SocksProg α) :
    Prog.calls env.stream (s, p) ((SocksCall.asyncWrite data).perform >>= f) =
      (.asyncWrite data, (s, p)) :: Prog.calls env.stream (s.written, p) (f ()) :=
  Prog.calls_call rfl

/-- What `resolve` makes of a target. -/
def resolved (env : SocksEnv) (target : Target) : Target :=
  { target with addr := target.addr.resolve (env.getaddrinfo target.addr.host target.addr.port) }

theorem calls_resolve (target : Target) (f : Target → SocksProg α) :
    Prog.calls env.stream (s, p) (resolve target >>= f) =
      (.getaddrinfo target.addr.host target.addr.port, (s, p)) ::
        Prog.calls env.stream (s, p) (f (resolved env target)) :=
  Prog.calls_call rfl

theorem calls_socks5Ipv4 (stack : Stack) (h4 : 4 ≤ s.input.length)
    (h2 : 2 ≤ (s.drop 4).input.length)
    (f : Target → SocksProg α) :
    let target := ipv4Target (stored stack.ipv4 (s.input.take 4))
      (stored stack.port ((s.input.drop 4).take 2))
    Prog.calls env.stream (s, p) (socks5Ipv4 stack >>= f) =
      (.asyncRead 4, (s, p)) :: (.asyncRead 2, (s.drop 4, p)) ::
      (.getaddrinfo target.addr.host target.addr.port, (s.drop 6, p)) ::
        Prog.calls env.stream (s.drop 6, p) (f (resolved env target)) := by
  rw [socks5Ipv4, bind_assoc, calls_readArray h4, bind_assoc, calls_readArray h2, calls_resolve,
    drop_drop, input_drop]

theorem calls_socks5Name (stack : Stack) {len : Cell} (h1 : 1 ≤ s.input.length)
    (hlen : len = stored stack.len (s.input.take 1) 0)
    (hname : len.value.toNat ≤ (s.drop 1).input.length)
    (h2 : 2 ≤ (s.drop (1 + len.value.toNat)).input.length) (f : Target → SocksProg α) :
    let target := nameTarget len
      (stored stack.name ((s.input.drop 1).take len.value.toNat))
      (stored stack.port ((s.input.drop (1 + len.value.toNat)).take 2))
    let rest := s.drop (1 + len.value.toNat + 2)
    Prog.calls env.stream (s, p) (socks5Name stack >>= f) =
      (.asyncRead 1, (s, p)) :: (.asyncRead len.value.toNat, (s.drop 1, p)) ::
      (.asyncRead 2, (s.drop (1 + len.value.toNat), p)) ::
      (.getaddrinfo target.addr.host target.addr.port, (rest, p)) ::
        Prog.calls env.stream (rest, p) (f (resolved env target)) := by
  subst hlen
  rw [← drop_drop] at h2
  rw [socks5Name, bind_assoc, calls_readArray h1, bind_assoc, calls_readArray hname, bind_assoc,
    calls_readArray h2, calls_resolve, drop_drop, drop_drop, input_drop, input_drop]

/-- Neither branch of `connect` waits, or returns 0. -/
theorem tcpConnect_eq (addr : Option Target) :
    tcpConnect addr = (SocksCall.connect addr).perform >>= fun _ => pure (-1) := by
  unfold tcpConnect
  refine bind_congr fun errno => ?_
  by_cases h : Option.isSome errno = true
  · simp [h]
  · simp [h]

/-- The calls of CONNECT. -/
def connectCalls (env : SocksEnv) (s : ByteStream) (p : Progress) (addr : Option Target) :
    List (SocksCall × ByteStream × Progress) :=
  [(.newSocket, (s, p)), (.getsockname, (s, .unmade)), (.getsockname, (s, .unmade)),
    (.connect addr, (s, .unmade))] ++
  if addr.isSome then
    [(.asyncWrite (riply (env.localAddress .unmade).ipv4 (env.localAddress .unmade).port),
      (s, env.connect.2)), (.relay, (s.written, env.connect.2))]
  else []

theorem calls_socks5Connect (addr : Option Target) :
    Prog.calls env.stream (s, p) (socks5Connect addr) = connectCalls env s p addr := by
  rw [socks5Connect, tcpConnect_eq]
  cases addr <;> rfl

theorem calls_socks5Handler (stack : Stack) {n : Nat} (h2 : 2 ≤ s.input.length)
    (hn : n = (stored stack.buf (s.input.take 2) 1).value.toNat)
    (hmethods : n ≤ (s.drop 2).input.length) (h4 : 4 ≤ (s.drop (2 + n)).input.length) :
    let req := stored stack.req ((s.input.drop (2 + n)).take 4)
    let t := (s.drop (2 + n)).written
    Prog.calls env.stream (s, p) (socks5Handler stack) =
      (.asyncRead 2, (s, p)) :: (.asyncRead n, (s.drop 2, p)) ::
      (.asyncWrite [0x05, 0x00], (s.drop (2 + n), p)) :: (.asyncRead 4, (t, p)) ::
        Prog.calls env.stream (t.drop 4, p)
          (socks5Address stack (req 3).value >>= fun
            | none => pure ()
            | some addr => socks5Command (req 1).value addr) := by
  intro req t
  subst hn
  have h4' : 4 ≤ t.input.length := h4
  rw [socks5Handler, calls_readArray h2, calls_readArray hmethods, drop_drop, calls_asyncWrite,
    calls_readArray h4']
  rfl

/-! ### What is built from received bytes -/

theorem toNat_portOf (hi lo : UInt8) : (portOf hi lo).toNat = hi.toNat * 256 + lo.toNat := by
  have hlo := lo.toNat_lt
  have hhi := hi.toNat_lt
  have hshift : (hi.toUInt16 <<< 8).toNat = 2 ^ 8 * hi.toNat := by
    simp only [UInt16.toNat_shiftLeft, UInt8.toNat_toUInt16, Nat.shiftLeft_eq]
    show hi.toNat * 2 ^ 8 % 2 ^ 16 = _
    omega
  rw [portOf, UInt16.toNat_or, hshift, UInt8.toNat_toUInt16, ← Nat.two_pow_add_eq_or_of_lt hlo]
  omega

/-- An array that was filled. -/
theorem cells_stored (junk : Nat → UInt8) {data : List UInt8} {n : Nat} (h : data.length = n) :
    (List.range n).map (stored junk data) = data.map fun b => ⟨b, true⟩ := by
  subst h
  refine List.ext_getElem (by simp) fun i _ hi => ?_
  have hi' : i < data.length := by simpa using hi
  simp [stored, hi']

theorem stored_of_lt (junk : Nat → UInt8) {data : List UInt8} {i : Nat} (h : i < data.length) :
    stored junk data i = ⟨data[i], true⟩ := by
  simp [stored, h]

theorem stored_of_le (junk : Nat → UInt8) {data : List UInt8} {i : Nat} (h : data.length ≤ i) :
    stored junk data i = ⟨junk i, false⟩ := by
  simp [stored, h]

theorem ipv4Target_received (stack : Stack) {octets port : List UInt8} (h : octets.length = 4)
    (hport : port.length = 2) :
    ipv4Target (stored stack.ipv4 octets) (stored stack.port port) =
      ⟨.ofHostPort (inetNtop octets) (portOf port[0] port[1]), true⟩ := by
  rw [ipv4Target, cells_stored stack.ipv4 h, stored_of_lt stack.port (by omega : 0 < port.length),
    stored_of_lt stack.port (by omega : 1 < port.length)]
  simp [Function.comp_def]

theorem nameTarget_received (stack : Stack) {len : UInt8} {name port : List UInt8}
    (h : name.length = len.toNat) (hport : port.length = 2) :
    nameTarget ⟨len, true⟩ (stored stack.name name) (stored stack.port port) =
      ⟨.ofHostPort (cString name) (portOf port[0] port[1]), true⟩ := by
  rw [nameTarget, cells_stored stack.name h, stored_of_lt stack.port (by omega : 0 < port.length),
    stored_of_lt stack.port (by omega : 1 < port.length)]
  simp [Function.comp_def]

/-! ### A connection that is read piece by piece -/

/-- A connection as a whole. -/
def whole (s : TcpStream × Progress) : ByteStream × Progress := (s.1.toByteStream, s.2)

/-- How often there has to be something to read for a call to end. -/
def cost : SocksCall → Nat
  | .asyncRead count => readCost count
  | _ => 0

theorem stream_of_connection (s : TcpStream × Progress) (call : SocksCall) (r : call.Answer)
    (s' : TcpStream × Progress) (h : env.connection s call = some (r, s')) :
    env.stream (whole s) call = some (r, whole s') := by
  obtain ⟨t, p⟩ := s
  cases call with
  | asyncRead count =>
    obtain ⟨⟨v, t'⟩, hread, heq⟩ := Option.map_eq_some_iff.mp h
    obtain ⟨rfl, rfl⟩ := Prod.mk.inj heq
    rcases asyncRead_cases t count with ⟨hnone, -⟩ | ⟨r, u, hsome, hstream, -⟩
    · rw [hnone] at hread
      cases hread
    · obtain ⟨rfl, rfl⟩ := Prod.mk.inj (Option.some.inj (hsome.symm.trans hread))
      exact Option.map_eq_some_iff.mpr ⟨_, hstream, rfl⟩
  | connect addr =>
    cases addr with
    | none => cases h
    | some target =>
      obtain ⟨rfl, rfl⟩ := Prod.mk.inj (Option.some.inj h)
      rfl
  | asyncWrite _ | getaddrinfo _ _ | newSocket | getsockname | waitWrite | getsockopt _ _ | relay =>
    obtain ⟨rfl, rfl⟩ := Prod.mk.inj (Option.some.inj h)
    rfl

theorem connection_of_stream (s : TcpStream × Progress) (call : SocksCall) (r : call.Answer)
    (t : ByteStream × Progress) (h : env.stream (whole s) call = some (r, t))
    (hcost : cost call ≤ parts s.1.schedule) :
    ∃ s', env.connection s call = some (r, s') ∧ whole s' = t ∧
      parts s.1.schedule ≤ parts s'.1.schedule + cost call := by
  obtain ⟨u, p⟩ := s
  cases call with
  | asyncRead count =>
    obtain ⟨⟨v, t'⟩, hread, heq⟩ := Option.map_eq_some_iff.mp h
    obtain ⟨rfl, rfl⟩ := Prod.mk.inj heq
    rcases asyncRead_cases u count with ⟨-, hnone | hshort⟩ | ⟨r, u', hsome, hstream, hparts⟩
    · exact absurd (hnone.symm.trans hread) nofun
    · exact absurd hshort (Nat.not_lt.mpr hcost)
    · obtain ⟨rfl, rfl⟩ := Prod.mk.inj (Option.some.inj (hstream.symm.trans hread))
      exact ⟨(u', p), Option.map_eq_some_iff.mpr ⟨_, hsome, rfl⟩, rfl, hparts⟩
  | connect addr =>
    cases addr with
    | none => cases h
    | some target =>
      obtain ⟨rfl, rfl⟩ := Prod.mk.inj (Option.some.inj h)
      exact ⟨_, rfl, rfl, Nat.le_refl _⟩
  | asyncWrite _ | getaddrinfo _ _ | newSocket | getsockname | waitWrite | getsockopt _ _ | relay =>
    obtain ⟨rfl, rfl⟩ := Prod.mk.inj (Option.some.inj h)
    exact ⟨_, rfl, rfl, Nat.le_refl _⟩

theorem connection_stuck (s : TcpStream × Progress) (call : SocksCall)
    (h : env.stream (whole s) call = none) : env.connection s call = none := by
  cases hcall : env.connection s call with
  | none => rfl
  | some answer =>
    obtain ⟨r, s'⟩ := answer
    exact absurd ((stream_of_connection s call r s' hcall).symm.trans h) nofun

/-- However the stream is cut, the handler makes the calls that it makes on the
whole stream, as far as it comes. -/
theorem calls_connection_front (s : TcpStream × Progress) (prog : SocksProg α) :
    (Prog.calls env.connection s prog).map (Prod.map id whole) <+:
      Prog.calls env.stream (whole s) prog :=
  Prog.calls_front stream_of_connection s prog

/-- It makes all of them when there is something to read often enough. -/
theorem calls_connection_eq (s : TcpStream × Progress) (prog : SocksProg α)
    (h : ((Prog.calls env.stream (whole s) prog).map fun c => cost c.1).sum ≤
      parts s.1.schedule) :
    (Prog.calls env.connection s prog).map (Prod.map id whole) =
      Prog.calls env.stream (whole s) prog := by
  exact Prog.calls_eq connection_of_stream connection_stuck s prog h

/-- It returns what it returns on the whole stream, and then it does return. -/
theorem run_connection_front {s t : TcpStream × Progress} {prog : SocksProg α} {a : α}
    (h : Prog.run env.connection s prog = some (a, t)) :
    Prog.run env.stream (whole s) prog = some (a, whole t) :=
  Prog.run_front stream_of_connection h

theorem run_connection_eq {s : TcpStream × Progress} {prog : SocksProg α} {a : α}
    {t : ByteStream × Progress} (hrun : Prog.run env.stream (whole s) prog = some (a, t))
    (h : ((Prog.calls env.stream (whole s) prog).map fun c => cost c.1).sum ≤
      parts s.1.schedule) :
    ∃ s', Prog.run env.connection s prog = some (a, s') ∧ whole s' = t := by
  exact Prog.run_eq connection_of_stream hrun h

end HandlerLemmas

end NetTraverse
