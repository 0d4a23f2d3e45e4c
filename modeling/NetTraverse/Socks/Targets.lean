import NetTraverse.Socks.Handler

/-!
# When the handler connects

`socks5_handler` looks neither at the results of its reads nor at that of
`resolve`, and a request with an address type that it does not know leaves `addr`
null. After the read that is told of the error it finds the end of the stream for
ever, and waits for it to go on. `connectsSafely_iff` says which streams drive it into a
connection to a target that was decoded and resolved, or let it return without one.
-/

namespace NetTraverse

/-- `*addr` exists, was built from received bytes, and is initialised. -/
def GoodTarget (addr : Option Target) : Prop :=
  ∃ target, addr = some target ∧ target.received = true ∧ target.addr.sockaddr.isSome

/-- A reply to a request, with the code for success. -/
def IsSuccess (data : List UInt8) : Prop := data.length = 10 ∧ data.take 2 = [0x05, 0x00]

instance (data : List UInt8) : Decidable (IsSuccess data) :=
  inferInstanceAs (Decidable (_ ∧ _))

/-- The handler connects to good targets only, and reports success only after it
connected to one. -/
structure SafeCalls (calls : List SocksCall) : Prop where
  connects : ∀ addr, .connect addr ∈ calls → GoodTarget addr
  replies : ∀ before data after, calls = before ++ .asyncWrite data :: after → IsSuccess data →
    ∃ addr, .connect addr ∈ before ∧ GoodTarget addr

/-- The calls of a program. -/
def callsOf {σ α : Type} (w : Prog.World SocksCall SocksCall.Answer σ) (s : σ)
    (prog : SocksProg α) : List SocksCall :=
  (Prog.calls w s prog).map Prod.fst

/-- However the stream is cut, the calls of the handler are safe, and when it does not
connect it returns, once there was something to read often enough. -/
structure ConnectsSafely (env : SocksEnv) (stack : Stack) (s : ByteStream) : Prop where
  safe : ∀ schedule, SafeCalls (callsOf env.connection (⟨s, schedule⟩, .unmade)
    (socks5Handler stack))
  returns : ∃ n, ∀ schedule, n ≤ parts schedule →
    (∀ addr, .connect addr ∉
      callsOf env.connection (⟨s, schedule⟩, .unmade) (socks5Handler stack)) →
    (Prog.run env.connection (⟨s, schedule⟩, .unmade) (socks5Handler stack)).isSome

/-! ## What the bytes say -/

def decodePort : List UInt8 → Option UInt16
  | hi :: lo :: _ => some (portOf hi lo)
  | _ => none

def decodeIpv4 : List UInt8 → Option (List UInt8 × UInt16)
  | a :: b :: c :: d :: rest => (decodePort rest).map fun port => (inetNtop [a, b, c, d], port)
  | _ => none

def decodeName : List UInt8 → Option (List UInt8 × UInt16)
  | len :: rest =>
    (decodePort (rest.drop len.toNat)).map fun port => (cString (rest.take len.toNat), port)
  | [] => none

/-- The host and the port that follow the header of a request. -/
def decodeTarget (type : UInt8) (body : List UInt8) : Option (List UInt8 × UInt16) :=
  if type = 0x01 then decodeIpv4 body
  else if type = 0x03 then decodeName body
  else none

/-- The number of methods that the handler takes a greeting to have, from the
stream or from its stack. -/
def methodCount (stack : Stack) (input : List UInt8) : Nat :=
  (stored stack.buf (input.take 2) 1).value.toNat

/-- `req[i]` -/
def header (stack : Stack) (input : List UInt8) (i : Nat) : UInt8 :=
  (stored stack.req ((input.drop (2 + methodCount stack input)).take 4) i).value

/-- What follows the header of the request. -/
def body (stack : Stack) (input : List UInt8) : List UInt8 :=
  input.drop (2 + methodCount stack input + 4)

/-- The length of the address in `body`. A name has its length in front. -/
def addressLength (type : UInt8) (body : List UInt8) : Nat :=
  if type = 0x01 then 4
  else if type = 0x03 then 1 + (body.headD 0).toNat
  else 0

/-- The length of the port. -/
def portLength (type : UInt8) : Nat := if type = 0x01 ∨ type = 0x03 then 2 else 0

/-- The read that is told of the error is the last one, or there is none. When the
method reply takes the error `early`, the reads behind it find all that they ask for. -/
structure ReadsEnd (stack : Stack) (input : List UInt8) (early : Bool) : Prop where
  greeting : 2 + methodCount stack input ≤ input.length
  request : early → 2 + methodCount stack input + 4 ≤ input.length
  address : addressLength (header stack input 3) (body stack input) ≤ (body stack input).length
  port : early → addressLength (header stack input 3) (body stack input) +
    portLength (header stack input 3) ≤ (body stack input).length

/-- A CONNECT request, other than one for IPv6, is complete, of a known address
type, and the resolver knows the host. -/
def NamesTarget (env : SocksEnv) (stack : Stack) (input : List UInt8) : Prop :=
  header stack input 1 = 0x01 → header stack input 3 ≠ 0x04 →
    ∃ host port, decodeTarget (header stack input 3) (body stack input) = some (host, port) ∧
      (env.getaddrinfo host (decimal port.toNat)).isSome

namespace TargetsLemmas

open HandlerLemmas

variable {env : SocksEnv} {stack : Stack} {input data : List UInt8} {call : SocksCall}
  {calls calls' : List SocksCall} {addr : Option Target}

/-- What the handler did safely it did safely at every moment before. -/
theorem safeCalls_of_front (h : SafeCalls calls) (hfront : calls' <+: calls) :
    SafeCalls calls' := by
  obtain ⟨rest, rfl⟩ := hfront
  refine ⟨fun addr hmem => h.connects addr (List.mem_append_left _ hmem), ?_⟩
  rintro before data after rfl hsuccess
  exact h.replies before data (after ++ rest) (by simp) hsuccess

theorem safeCalls_nil : SafeCalls [] :=
  ⟨nofun, fun before data after h => by simp at h⟩

/-- Neither a connection nor a report of success. -/
def Inert (call : SocksCall) : Prop :=
  (∀ addr, call ≠ .connect addr) ∧ ∀ data, call = .asyncWrite data → ¬ IsSuccess data

theorem inert_asyncRead (count : Nat) : Inert (.asyncRead count) := ⟨nofun, nofun⟩

theorem inert_getaddrinfo (host port : List UInt8) : Inert (.getaddrinfo host port) :=
  ⟨nofun, nofun⟩

theorem inert_methodReply : Inert (.asyncWrite [0x05, 0x00]) := by
  refine ⟨nofun, fun data heq => ?_⟩
  obtain rfl := SocksCall.asyncWrite.inj heq
  decide

theorem mem_cons_inert (h : Inert call) :
    .connect addr ∈ call :: calls ↔ .connect addr ∈ calls :=
  List.mem_cons.trans (or_iff_right (h.1 addr).symm)

theorem safeCalls_cons (h : Inert call) : SafeCalls (call :: calls) ↔ SafeCalls calls := by
  constructor
  · intro hsafe
    refine ⟨fun addr hmem => hsafe.connects addr ((mem_cons_inert h).mpr hmem), ?_⟩
    rintro before data after rfl hsuccess
    obtain ⟨addr, hmem, hgood⟩ := hsafe.replies (call :: before) data after rfl hsuccess
    exact ⟨addr, (mem_cons_inert h).mp hmem, hgood⟩
  · intro hsafe
    refine ⟨fun addr hmem => hsafe.connects addr ((mem_cons_inert h).mp hmem), ?_⟩
    rintro before data after heq hsuccess
    cases before with
    | nil => exact absurd hsuccess (h.2 data (List.cons.inj heq).1)
    | cons c before =>
      obtain ⟨rfl, hcalls⟩ := List.cons.inj heq
      obtain ⟨addr, hmem, hgood⟩ := hsafe.replies before data after hcalls hsuccess
      exact ⟨addr, List.mem_cons_of_mem _ hmem, hgood⟩

/-- After a connection to a good target. -/
theorem safeCalls_connect (hgood : GoodTarget addr)
    (hrest : ∀ addr, .connect addr ∈ calls → GoodTarget addr) :
    SafeCalls (.connect addr :: calls) := by
  refine ⟨fun addr' hmem => ?_, fun before data after heq _ => ?_⟩
  · rcases List.mem_cons.mp hmem with heq | hmem
    · exact (SocksCall.connect.inj heq) ▸ hgood
    · exact hrest addr' hmem
  · cases before with
    | nil => exact absurd (List.cons.inj heq).1 nofun
    | cons c before =>
      obtain ⟨rfl, -⟩ := List.cons.inj heq
      exact ⟨addr, List.mem_cons_self, hgood⟩

/-- The calls of CONNECT. -/
theorem safeCalls_connectCalls {s : ByteStream} {p : Progress} :
    SafeCalls ((connectCalls env s p addr).map Prod.fst) ↔ GoodTarget addr := by
  constructor
  · exact fun h => h.connects addr (by simp [connectCalls])
  · intro hgood
    have hnew : Inert .newSocket := ⟨nofun, nofun⟩
    have hname : Inert .getsockname := ⟨nofun, nofun⟩
    refine (safeCalls_cons hnew).mpr ((safeCalls_cons hname).mpr
      ((safeCalls_cons hname).mpr (safeCalls_connect hgood fun addr' hmem => ?_)))
    cases addr <;> simp at hmem

/-! ## Decoding -/

theorem decodePort_eq_none {bytes : List UInt8} (h : decodePort bytes = none) :
    bytes.length ≤ 1 := by
  match bytes, h with
  | [], _ | [_], _ => simp

theorem decodePort_eq_some {bytes : List UInt8} {port : UInt16}
    (h : decodePort bytes = some port) :
    ∃ hi lo rest, bytes = hi :: lo :: rest ∧ port = portOf hi lo := by
  match bytes, h with
  | hi :: lo :: rest, h => exact ⟨hi, lo, rest, rfl, (Option.some.inj h).symm⟩

/-- A port that is cut off has a byte that was not received. -/
theorem received_port {bytes : List UInt8} (h : decodePort bytes = none) :
    (stored stack.port (bytes.take 2) 1).received = false := by
  have hlen := decodePort_eq_none h
  rw [stored_of_le stack.port (by rw [List.length_take]; omega)]

theorem ipv4Target_of_decode {bytes host : List UInt8} {port : UInt16}
    (h : decodeIpv4 bytes = some (host, port)) :
    ipv4Target (stored stack.ipv4 (bytes.take 4)) (stored stack.port ((bytes.drop 4).take 2)) =
      ⟨.ofHostPort host port, true⟩ := by
  match bytes, h with
  | a :: b :: c :: d :: rest, h =>
    obtain ⟨port', hport, heq⟩ := Option.map_eq_some_iff.mp h
    obtain ⟨rfl, rfl⟩ := Prod.mk.inj heq
    obtain ⟨hi, lo, rest, rfl, rfl⟩ := decodePort_eq_some hport
    exact ipv4Target_received stack rfl rfl

theorem received_ipv4Target {bytes : List UInt8} (h : decodeIpv4 bytes = none) :
    (ipv4Target (stored stack.ipv4 (bytes.take 4))
      (stored stack.port ((bytes.drop 4).take 2))).received = false := by
  have hport : decodePort (bytes.drop 4) = none := by
    match bytes, h with
    | [], _ | [_], _ | [_, _], _ | [_, _, _], _ => rfl
    | a :: b :: c :: d :: rest, h => exact Option.map_eq_none_iff.mp h
  simp [ipv4Target, received_port hport]

theorem nameTarget_of_decode {bytes host : List UInt8} {port : UInt16}
    (h : decodeName bytes = some (host, port)) :
    let len := stored stack.len (bytes.take 1) 0
    nameTarget len (stored stack.name ((bytes.drop 1).take len.value.toNat))
      (stored stack.port ((bytes.drop (1 + len.value.toNat)).take 2)) =
      ⟨.ofHostPort host port, true⟩ := by
  match bytes, h with
  | len :: rest, h =>
    obtain ⟨port', hport, heq⟩ := Option.map_eq_some_iff.mp h
    obtain ⟨rfl, rfl⟩ := Prod.mk.inj heq
    obtain ⟨hi, lo, rest', hrest, rfl⟩ := decodePort_eq_some hport
    have hlen : (rest.take len.toNat).length = len.toNat := by
      have hle := congrArg List.length hrest
      rw [List.length_drop, List.length_cons] at hle
      rw [List.length_take]
      omega
    have hdrop : (len :: rest).drop (1 + len.toNat) = hi :: lo :: rest' := by
      rw [Nat.add_comm, List.drop_succ_cons, hrest]
    show nameTarget ⟨len, true⟩ (stored stack.name (rest.take len.toNat))
      (stored stack.port (((len :: rest).drop (1 + len.toNat)).take 2)) = _
    rw [hdrop]
    exact nameTarget_received stack hlen rfl

theorem received_nameTarget {bytes : List UInt8} (h : decodeName bytes = none) :
    let len := stored stack.len (bytes.take 1) 0
    (nameTarget len (stored stack.name ((bytes.drop 1).take len.value.toNat))
      (stored stack.port ((bytes.drop (1 + len.value.toNat)).take 2))).received = false := by
  intro len
  have hport : decodePort (bytes.drop (1 + len.value.toNat)) = none := by
    cases bytes with
    | nil =>
      rw [List.drop_nil]
      rfl
    | cons b rest =>
      have hlen : len.value = b := rfl
      rw [hlen, Nat.add_comm, List.drop_succ_cons]
      exact Option.map_eq_none_iff.mp h
  simp [nameTarget, received_port hport]

/-- A target that was built from what decodes. -/
theorem goodTarget_resolved {target : Target} {decoded : Option (List UInt8 × UInt16)}
    (hsome : ∀ host port, decoded = some (host, port) → target = ⟨.ofHostPort host port, true⟩)
    (hnone : decoded = none → target.received = false) :
    GoodTarget (some (resolved env target)) ↔ ∃ host port, decoded = some (host, port) ∧
      (env.getaddrinfo host (decimal port.toNat)).isSome := by
  cases decoded with
  | none =>
    constructor
    · rintro ⟨target', heq, hreceived, -⟩
      obtain rfl := Option.some.inj heq
      exact absurd ((hnone rfl).symm.trans hreceived) nofun
    · rintro ⟨host, port, h, -⟩
      cases h
  | some decoded =>
    obtain ⟨host, port⟩ := decoded
    obtain rfl := hsome host port rfl
    have hgood : GoodTarget (some (resolved env ⟨.ofHostPort host port, true⟩)) ↔
        (env.getaddrinfo host (decimal port.toNat)).isSome := by
      cases hinfo : env.getaddrinfo host (decimal port.toNat) <;>
        simp [GoodTarget, resolved, Address.ofHostPort, Address.resolve, hinfo]
    rw [hgood]
    constructor
    · exact fun h => ⟨host, port, rfl, h⟩
    · rintro ⟨host', port', heq, h⟩
      obtain ⟨rfl, rfl⟩ := Prod.mk.inj (Option.some.inj heq)
      exact h

/-! ## One run -/

section Run

variable {σ : Type} {w : Prog.World SocksCall SocksCall.Answer σ} {t t' : σ}

/-- The calls are safe, and without a connection the program returns. -/
def SafeRun (w : Prog.World SocksCall SocksCall.Answer σ) (t : σ) (prog : SocksProg Unit) : Prop :=
  SafeCalls (callsOf w t prog) ∧
    ((∀ addr, .connect addr ∉ callsOf w t prog) → (Prog.run w t prog).isSome)

theorem safeRun_ret : SafeRun w t (pure ()) := ⟨safeCalls_nil, fun _ => rfl⟩

theorem safeRun_call {r : call.Answer} {k : call.Answer → SocksProg Unit}
    (hw : w t call = some (r, t')) (h : Inert call) :
    SafeRun w t (.call call k) ↔ SafeRun w t' (k r) := by
  have hcalls : callsOf w t (.call call k) = call :: callsOf w t' (k r) :=
    congrArg (List.map Prod.fst) (Prog.calls_call hw)
  rw [SafeRun, SafeRun, hcalls, safeCalls_cons h, Prog.run_call hw]
  simp only [mem_cons_inert h]

theorem not_safeRun_stuck {k : call.Answer → SocksProg Unit} (hw : w t call = none)
    (h : Inert call) : ¬ SafeRun w t (.call call k) := by
  intro hsafe
  have hcalls : callsOf w t (.call call k) = [call] :=
    congrArg (List.map Prod.fst) (Prog.calls_stuck hw)
  have hrun := hsafe.2 fun addr hmem => by
    rw [hcalls, mem_cons_inert h] at hmem
    cases hmem
  rw [Prog.run_stuck hw] at hrun
  cases hrun

end Run

variable {s : ByteStream} {p : Progress} {junk : Nat → UInt8} {count : Nat}

/-- A read gets what it asks for, or is the one that is told of the error. -/
theorem safeRun_readArray {f : (Nat → Cell) → SocksProg Unit} :
    SafeRun env.stream (s, p) (readArray junk count >>= f) ↔
      if count ≤ s.input.length then
        SafeRun env.stream (s.drop count, p) (f (stored junk (s.input.take count)))
      else s.atEnd.breaks ∧
        SafeRun env.stream (⟨[], .closed⟩, p) (f (stored junk (s.input.take count))) := by
  have hcall : readArray junk count >>= f =
      .call (.asyncRead count) fun r => f (stored junk r.2) := rfl
  have hworld : env.stream (s, p) (.asyncRead count) =
      (s.read count).map fun (r, s') => (r, (s', p)) := rfl
  rw [hcall]
  split
  · next h =>
    have hanswer : env.stream (s, p) (.asyncRead count) =
        some (((count : Int), s.input.take count), (s.drop count, p)) := by
      rw [hworld, ByteStream.read, if_pos h]
      rfl
    exact safeRun_call hanswer (inert_asyncRead count)
  · next h =>
    rw [List.take_of_length_le (Nat.le_of_not_le h)]
    by_cases hbreaks : s.atEnd.breaks
    · have hanswer : env.stream (s, p) (.asyncRead count) =
          some ((-1, s.input), (⟨[], .closed⟩, p)) := by
        rw [hworld, ByteStream.read, if_neg h, if_pos hbreaks]
        rfl
      rw [and_iff_right hbreaks]
      exact safeRun_call hanswer (inert_asyncRead count)
    · have hanswer : env.stream (s, p) (.asyncRead count) = none := by
        rw [hworld, ByteStream.read, if_neg h, if_neg hbreaks]
        rfl
      exact iff_of_false (not_safeRun_stuck hanswer (inert_asyncRead count)) fun hsafe =>
        hbreaks hsafe.1

/-- Nothing more can be read at the end. -/
theorem not_safeRun_closed {f : (Nat → Cell) → SocksProg Unit} (h : 0 < count) :
    ¬ SafeRun env.stream (⟨[], .closed⟩, p) (readArray junk count >>= f) := by
  intro hsafe
  rw [safeRun_readArray] at hsafe
  split at hsafe
  · next hle => exact absurd hle (Nat.not_le.mpr h)
  · cases hsafe.1

/-- A read of unknown length at the end. -/
theorem not_safeRun_end {f : (Nat → Cell) → SocksProg Unit}
    (hf : ∀ cells, ¬ SafeRun env.stream (⟨[], .closed⟩, p) (f cells)) :
    ¬ SafeRun env.stream (⟨[], .closed⟩, p) (readArray junk count >>= f) := by
  rcases Nat.eq_zero_or_pos count with rfl | hpos
  · rw [safeRun_readArray, if_pos (Nat.zero_le _)]
    exact hf _
  · exact not_safeRun_closed hpos

theorem safeRun_asyncWrite {data : List UInt8} {f : Unit → SocksProg Unit}
    (h : Inert (.asyncWrite data)) :
    SafeRun env.stream (s, p) ((SocksCall.asyncWrite data).perform >>= f) ↔
      SafeRun env.stream (s.written, p) (f ()) :=
  safeRun_call rfl h

theorem safeRun_resolve {target : Target} {f : Target → SocksProg Unit} :
    SafeRun env.stream (s, p) (resolve target >>= f) ↔
      SafeRun env.stream (s, p) (f (resolved env target)) :=
  safeRun_call rfl (inert_getaddrinfo _ _)

theorem safeRun_command {command : UInt8} :
    SafeRun env.stream (s, p) (socks5Command command addr) ↔
      (command = 0x01 → GoodTarget addr) := by
  rw [socks5Command]
  split
  · next h =>
    have hcalls : callsOf env.stream (s, p) (socks5Connect addr) =
        (connectCalls env s p addr).map Prod.fst :=
      congrArg (List.map Prod.fst) (calls_socks5Connect addr)
    have hconnects : .connect addr ∈ callsOf env.stream (s, p) (socks5Connect addr) := by
      simp [hcalls, connectCalls]
    rw [SafeRun, and_iff_left fun hnone => absurd hconnects (hnone addr), hcalls,
      safeCalls_connectCalls]
    exact (imp_iff_right h).symm
  · next h => exact iff_of_true safeRun_ret fun heq => absurd heq h

/-- The read of a port, and what is done with it. -/
theorem safeRun_port {f : (Nat → Cell) → SocksProg Unit} {good : Prop}
    (hf : ∀ t, SafeRun env.stream (t, p) (f (stored junk (s.input.take 2))) ↔ good) :
    SafeRun env.stream (s, p) (readArray junk 2 >>= f) ↔
      (s.atEnd.breaks = false → 2 ≤ s.input.length) ∧ good := by
  rw [safeRun_readArray]
  split
  · next h => rw [hf, and_iff_right fun _ => h]
  · next h => rw [hf, ← Bool.not_eq_false, imp_iff_not h]

theorem safeRun_socks5Ipv4 {f : Target → SocksProg Unit} {good : Target → Prop}
    (hf : ∀ t target, SafeRun env.stream (t, p) (f target) ↔ good target) :
    SafeRun env.stream (s, p) (socks5Ipv4 stack >>= f) ↔
      (4 ≤ s.input.length ∧ (s.atEnd.breaks = false → 4 + 2 ≤ s.input.length)) ∧
      good (resolved env (ipv4Target (stored stack.ipv4 (s.input.take 4))
        (stored stack.port ((s.input.drop 4).take 2)))) := by
  rw [socks5Ipv4, bind_assoc, safeRun_readArray]
  split
  · next h =>
    have hport : 2 ≤ (s.drop 4).input.length ↔ 4 + 2 ≤ s.input.length := by
      rw [input_drop, List.length_drop]
      omega
    rw [bind_assoc, safeRun_port fun t => safeRun_resolve.trans (hf t _), hport, and_iff_right h]
    rfl
  · next h =>
    rw [bind_assoc]
    exact iff_of_false (fun hsafe => not_safeRun_closed (by decide) hsafe.2) fun hread =>
      h hread.1.1

theorem safeRun_socks5Name {len : Cell} (hcell : stored stack.len (s.input.take 1) 0 = len)
    {f : Target → SocksProg Unit} {good : Target → Prop}
    (hf : ∀ t target, SafeRun env.stream (t, p) (f target) ↔ good target) :
    SafeRun env.stream (s, p) (socks5Name stack >>= f) ↔
      ((1 + (s.input.headD 0).toNat ≤ s.input.length) ∧ (s.atEnd.breaks = false →
        1 + (s.input.headD 0).toNat + 2 ≤ s.input.length)) ∧
      good (resolved env (nameTarget len (stored stack.name ((s.input.drop 1).take len.value.toNat))
        (stored stack.port ((s.input.drop (1 + len.value.toNat)).take 2)))) := by
  rw [socks5Name, bind_assoc, safeRun_readArray, hcell]
  split
  · next h =>
    have hlen : len.value = s.input.headD 0 := by
      obtain ⟨b, rest, hinput⟩ := List.exists_cons_of_length_pos h
      simp [← hcell, hinput, stored]
    rw [← hlen, bind_assoc, safeRun_readArray]
    split
    · next hname =>
      rw [input_drop, List.length_drop] at hname
      have hlong : 1 + len.value.toNat ≤ s.input.length := by omega
      have hport : 2 ≤ ((s.drop 1).drop len.value.toNat).input.length ↔
          1 + len.value.toNat + 2 ≤ s.input.length := by
        rw [drop_drop, input_drop, List.length_drop]
        omega
      rw [bind_assoc, safeRun_port fun t => safeRun_resolve.trans (hf t _), hport,
        and_iff_right hlong, drop_drop]
      rfl
    · next hname =>
      rw [input_drop, List.length_drop] at hname
      rw [bind_assoc]
      exact iff_of_false (fun hsafe => not_safeRun_closed (by decide) hsafe.2) fun hread =>
        hname (by omega)
  · next h =>
    rw [bind_assoc]
    refine iff_of_false (fun hsafe => not_safeRun_end (fun cells => ?_) hsafe.2) fun hread =>
      h (by omega)
    rw [bind_assoc]
    exact not_safeRun_closed (by decide)

/-- What the switch on the address type leads to. -/
theorem safeRun_address {command type : UInt8} :
    SafeRun env.stream (s, p) (socks5Address stack type >>= fun
      | none => pure ()
      | some addr => socks5Command command addr) ↔
    (addressLength type s.input ≤ s.input.length ∧ (s.atEnd.breaks = false →
      addressLength type s.input + portLength type ≤ s.input.length)) ∧
    (command = 0x01 → type ≠ 0x04 → ∃ host port, decodeTarget type s.input = some (host, port) ∧
      (env.getaddrinfo host (decimal port.toNat)).isSome) := by
  rw [socks5Address, decodeTarget, addressLength, portLength]
  by_cases h1 : type = 0x01
  · subst h1
    rw [if_pos rfl, if_pos rfl, if_pos rfl, if_pos (.inl rfl), bind_map_left,
      safeRun_socks5Ipv4 fun t target => safeRun_command,
      goodTarget_resolved (fun _ _ => ipv4Target_of_decode) received_ipv4Target]
    exact and_congr_right fun _ => imp_congr_right fun _ => (imp_iff_right (by decide)).symm
  · rw [if_neg h1, if_neg h1, if_neg h1]
    by_cases h3 : type = 0x03
    · subst h3
      rw [if_pos rfl, if_pos rfl, if_pos rfl, if_pos (.inr rfl), bind_map_left,
        safeRun_socks5Name rfl fun t target => safeRun_command,
        goodTarget_resolved (fun _ _ => nameTarget_of_decode) received_nameTarget]
      exact and_congr_right fun _ => imp_congr_right fun _ => (imp_iff_right (by decide)).symm
    · rw [if_neg h3, if_neg h3, if_neg h3, if_neg (not_or.mpr ⟨h1, h3⟩),
        and_iff_right ⟨Nat.zero_le _, fun _ => Nat.zero_le _⟩]
      by_cases h4 : type = 0x04
      · rw [if_pos h4]
        exact iff_of_true safeRun_ret fun _ hne => absurd h4 hne
      · -- `addr` is null
        have hnull : ¬ GoodTarget none := fun ⟨_, h, _⟩ => nomatch h
        rw [if_neg h4, pure_bind, safeRun_command]
        simp [hnull, h4]

/-- After the read that is told of the error in the greeting, the header is waited
for. -/
theorem not_safeRun_request {data : List UInt8} {f : (Nat → Cell) → SocksProg Unit}
    (h : Inert (.asyncWrite data)) :
    ¬ SafeRun env.stream (⟨[], .closed⟩, p) ((SocksCall.asyncWrite data).perform >>= fun _ =>
      readArray junk 4 >>= f) := by
  rw [safeRun_asyncWrite h]
  exact not_safeRun_closed (by decide)

/-- Up to the method reply. -/
theorem safeRun_greeting :
    SafeRun env.stream (s, p) (socks5Handler stack) ↔
      2 + methodCount stack s.input ≤ s.input.length ∧
      SafeRun env.stream ((s.drop (2 + methodCount stack s.input)).written, p)
        (readArray stack.req 4 >>= fun req => socks5Address stack (req 3).value >>= fun
          | none => pure ()
          | some addr => socks5Command (req 1).value addr) := by
  rw [socks5Handler, safeRun_readArray]
  have hcount : (stored stack.buf (s.input.take 2) 1).value.toNat = methodCount stack s.input := rfl
  split
  · next h2 =>
    rw [hcount, safeRun_readArray, drop_drop]
    split
    · next hmethods =>
      rw [input_drop, List.length_drop] at hmethods
      have hlong : 2 + methodCount stack s.input ≤ s.input.length := by omega
      rw [safeRun_asyncWrite inert_methodReply]
      exact (and_iff_right hlong).symm
    · next hmethods =>
      rw [input_drop, List.length_drop] at hmethods
      exact iff_of_false (fun hsafe => not_safeRun_request inert_methodReply hsafe.2) fun hread =>
        hmethods (by omega)
  · next h2 =>
    exact iff_of_false (fun hsafe => not_safeRun_end
      (fun _ => not_safeRun_request inert_methodReply) hsafe.2) fun hread => h2 (by omega)

/-- A connection that breaks before an address leaves none to be read. -/
theorem portLength_eq_zero {type : UInt8} (h : addressLength type [] ≤ 0) :
    portLength type = 0 := by
  unfold addressLength at h
  unfold portLength
  split at h
  · omega
  · split at h
    · omega
    · next h1 h3 => exact if_neg (not_or.mpr ⟨h1, h3⟩)

/-- From the header on. -/
theorem safeRun_request {early : Bool} {input : List UInt8}
    (hinput : s.input = input.drop (2 + methodCount stack input))
    (hend : s.atEnd.breaks = !early) :
    SafeRun env.stream (s, p)
      (readArray stack.req 4 >>= fun req => socks5Address stack (req 3).value >>= fun
        | none => pure ()
        | some addr => socks5Command (req 1).value addr) ↔
      ((early → 2 + methodCount stack input + 4 ≤ input.length) ∧
        addressLength (header stack input 3) (body stack input) ≤ (body stack input).length ∧
        (early → addressLength (header stack input 3) (body stack input) +
          portLength (header stack input 3) ≤ (body stack input).length)) ∧
      NamesTarget env stack input := by
  rw [safeRun_readArray, hinput]
  split
  · next h =>
    rw [List.length_drop] at h
    have hlong : 2 + methodCount stack input + 4 ≤ input.length := by omega
    have hbody : (s.drop 4).input = body stack input := by
      rw [input_drop, hinput, List.drop_drop, body]
    have hend' : (s.drop 4).atEnd.breaks = !early := hend
    rw [safeRun_address, hbody, hend', Bool.not_eq_false', and_iff_right fun _ => hlong]
    rfl
  · next h =>
    rw [List.length_drop] at h
    have hbody : body stack input = [] := List.drop_eq_nil_of_le (by omega)
    rw [hend, safeRun_address, NamesTarget, hbody]
    cases early with
    | true =>
      refine iff_of_false (fun hsafe => nomatch hsafe.1) fun hreads => ?_
      have hrequest := hreads.1.1 rfl
      omega
    | false =>
      constructor
      · rintro ⟨-, ⟨haddress, -⟩, hnames⟩
        exact ⟨⟨fun h => absurd h Bool.false_ne_true, haddress,
          fun h => absurd h Bool.false_ne_true⟩, hnames⟩
      · rintro ⟨⟨-, haddress, -⟩, hnames⟩
        have hport : portLength (header stack input 3) = 0 := portLength_eq_zero haddress
        exact ⟨rfl, ⟨haddress, fun _ => (congrArg _ hport).trans_le haddress⟩, hnames⟩

/-- On the stream as a whole. -/
theorem safeRun_socks5Handler (early : Bool) (input : List UInt8) :
    SafeRun env.stream (⟨input, .broken early⟩, p) (socks5Handler stack) ↔
      ReadsEnd stack input early ∧ NamesTarget env stack input := by
  have hend : (StreamEnd.broken early).written.breaks = !early := by cases early <;> rfl
  rw [safeRun_greeting, safeRun_request rfl hend]
  constructor
  · rintro ⟨hgreeting, ⟨hrequest, haddress, hport⟩, hnames⟩
    exact ⟨⟨hgreeting, hrequest, haddress, hport⟩, hnames⟩
  · rintro ⟨⟨hgreeting, hrequest, haddress, hport⟩, hnames⟩
    exact ⟨hgreeting, ⟨hrequest, haddress, hport⟩, hnames⟩

/-- What holds of the stream as a whole holds however it is cut. -/
theorem connectsSafely_stream {s : ByteStream} :
    ConnectsSafely env stack s ↔ SafeRun env.stream (s, .unmade) (socks5Handler stack) := by
  set total := ((Prog.calls env.stream (s, .unmade) (socks5Handler stack)).map
    fun c => cost c.1).sum with htotal
  have hcalls {schedule : List Arrival} (h : total ≤ parts schedule) :
      callsOf env.connection (⟨s, schedule⟩, .unmade) (socks5Handler stack) =
        callsOf env.stream (s, .unmade) (socks5Handler stack) := by
    have heq := congrArg (List.map Prod.fst)
      (calls_connection_eq (⟨s, schedule⟩, .unmade) (socks5Handler stack) h)
    rw [List.map_map] at heq
    exact heq
  constructor
  · rintro ⟨hsafe, n, hreturns⟩
    -- a schedule that lets every read end
    set schedule := List.replicate (max total n) (Arrival.part 0)
    have hparts : parts schedule = max total n := by
      simp [schedule, parts, List.countP_replicate, Arrival.isPart]
    have hsame := hcalls (hparts ▸ le_max_left total n)
    refine ⟨hsame ▸ hsafe schedule, fun hnone => ?_⟩
    obtain ⟨⟨a, t⟩, hrun⟩ := Option.isSome_iff_exists.mp
      (hreturns schedule (hparts ▸ le_max_right total n) (hsame.symm ▸ hnone))
    exact Option.isSome_of_eq_some (run_connection_front hrun)
  · rintro ⟨hsafe, hreturns⟩
    refine ⟨fun schedule => ?_, total, fun schedule hparts hnone => ?_⟩
    · have hfront := (@calls_connection_front env Unit (⟨s, schedule⟩, .unmade)
        (socks5Handler stack)).map Prod.fst
      rw [List.map_map] at hfront
      exact safeCalls_of_front hsafe hfront
    · obtain ⟨⟨a, t⟩, hrun⟩ := Option.isSome_iff_exists.mp (hreturns (hcalls hparts ▸ hnone))
      obtain ⟨t', hrun', -⟩ :=
        @run_connection_eq env Unit (⟨s, schedule⟩, .unmade) _ a t hrun hparts
      exact Option.isSome_of_eq_some hrun'

end TargetsLemmas

open TargetsLemmas in
/-- On every schedule of a stream that breaks behind `input`, the handler connects to
good targets only and returns when it does not connect, exactly when its reads end and
`input` and the resolver name a target. -/
theorem connectsSafely_iff (env : SocksEnv) (stack : Stack) (input : List UInt8) (early : Bool) :
    ConnectsSafely env stack ⟨input, .broken early⟩ ↔
      ReadsEnd stack input early ∧ NamesTarget env stack input :=
  connectsSafely_stream.trans (safeRun_socks5Handler early input)

/-- A request of address type 2 makes the handler use a null pointer. -/
theorem connectsSafely_unknownType : ¬ ConnectsSafely (.plain none .success) Stack.zero
    ⟨[5, 1, 0, 5, 1, 0, 2, 127, 0, 0, 1, 0, 80], .broken false⟩ := by
  intro h
  obtain ⟨target, htarget, -⟩ := (h.safe (List.replicate 8 (.part 3))).connects none
    (by decide +kernel)
  cases htarget

end NetTraverse
