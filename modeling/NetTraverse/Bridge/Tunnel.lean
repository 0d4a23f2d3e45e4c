import NetTraverse.Crypto.Aes

/-!
# The encrypted tunnel

The bytes between the tap of the client and the bridge of the server, as
`read_tap` and `read_udp` of `ether_bridge_client.cpp` and the reply handler and
`read_udp` of `ether_bridge_server.cpp` handle them. An encrypted frame is longer
than the frame, and is received into a buffer for a frame.
-/

namespace NetTraverse

open FaultLemmas AesLemmas CipherBuffer

/-- `ethernet_bridge::bridge_mtu`. -/
def bridgeMtu : Nat := 1500

/-- What `recvfrom` does: it fails, or a datagram of these bytes is next. -/
inductive RecvResult where
  | error
  | datagram (bytes : List UInt8)
deriving DecidableEq, Repr

/-- `recvfrom(fd, buffer, buffer.size(), ..)`: a longer datagram is cut off. The
value is what `async_read_from` returns. -/
def recvfrom (buffer : ByteBuffer) : RecvResult → Except Fault (ByteBuffer × Int)
  | .error => .ok (buffer, -1)
  | .datagram bytes => do
    let bytes := bytes.take buffer.size
    let buffer ← buffer.write 0 bytes
    .ok (buffer, bytes.length)

section Peers

variable (evp : Evp) (junk : Nat → Nat → UInt8) (key : AesKey)

/-- `AES_encrypt`, `xor_mess` and `sendto`: the datagram. -/
def sendEncrypted (iv : AesIv) (buffer : ByteBuffer) : Except Fault (List UInt8) := do
  let encryptBuffer ← aesEncrypt evp junk key iv buffer
  let encryptBuffer ← xorMess encryptBuffer encryptBuffer.size
  encryptBuffer.read 0 encryptBuffer.size

/-- One round of the client's `read_tap`, on a frame that fits its buffer. -/
def clientReadTap (iv : AesIv) (frame : List UInt8) : Except Fault (List UInt8) := do
  let buffer := ByteBuffer.ofSize (junk 5) bridgeMtu
  let buffer ← buffer.write 0 frame
  let buffer ← buffer.resize (junk 6) (sizeT frame.length)
  sendEncrypted evp junk key iv buffer

/-- The server's reply handler. -/
def serverReply (iv : AesIv) (buffer : ByteBuffer) : Except Fault (List UInt8) :=
  sendEncrypted evp junk key iv buffer

/-- `resize`, `xor_mess` and `AES_decrypt` on a received buffer. -/
def decryptReceived (buffer : ByteBuffer) (ret : Int) : Except Fault ByteBuffer := do
  let buffer ← buffer.resize (junk 6) (sizeT ret)
  let buffer ← xorMess buffer buffer.size
  aesDecrypt evp junk key buffer

/-- One round of the server's `read_udp`, up to the call of `bridge.forward`. An
error is reported and the round goes on. -/
def serverReadUdp (outcome : RecvResult) : Except Fault ByteBuffer := do
  let buffer := ByteBuffer.ofSize (junk 5) bridgeMtu
  let (buffer, ret) ← recvfrom buffer outcome
  decryptReceived evp junk key buffer ret

/-- One round of the client's `read_udp`: what it writes to the tap. After an
error it continues with the next round. -/
def clientReadUdp (outcome : RecvResult) : Except Fault (Option (List UInt8)) := do
  let buffer := ByteBuffer.ofSize (junk 5) bridgeMtu
  let (buffer, ret) ← recvfrom buffer outcome
  if ret < 0 then .ok none
  else
    let decryptBuffer ← decryptReceived evp junk key buffer ret
    let frame ← decryptBuffer.read 0 decryptBuffer.size
    .ok (some frame)

end Peers

namespace TunnelLemmas

variable {evp : Evp} {junk : Nat → Nat → UInt8} {key : AesKey} {iv : AesIv}

/-- The datagram of a frame. -/
def datagram (evp : Evp) (key : AesKey) (iv : AesIv) (frame : List UInt8) : List UInt8 :=
  xorBytes (message iv frame.length (evp.encrypt key iv frame))

theorem length_datagram (evp : Evp) (key : AesKey) (iv : AesIv) (frame : List UInt8) :
    (datagram evp key iv frame).length = 16 * (frame.length / 16 + 1) + 20 := by
  rw [datagram, length_xorBytes, length_message, Evp.length_encrypt]
  rfl

theorem sendEncrypted_eq {buffer : ByteBuffer} (hfits : buffer.Fits)
    (hsize : buffer.size + 16 < 2 ^ 31) :
    sendEncrypted evp junk key iv buffer = .ok (datagram evp key iv buffer.content) := by
  have hlen := ByteBuffer.length_content hfits
  set bytes := message iv buffer.size (evp.encrypt key iv buffer.content) with hbytes
  have hxor := xorMess_size (ByteBuffer.ofBytes_fits bytes)
  have hread : ByteBuffer.read ⟨xorBytes bytes ++ bytes.drop bytes.length, bytes.length⟩ 0
      bytes.length = .ok (xorBytes bytes) := by
    refine (ByteBuffer.read_content ?_).trans ?_
    · simp [ByteBuffer.Fits]
    · rw [ByteBuffer.content, List.take_left' (length_xorBytes bytes)]
  rw [sendEncrypted, bind_ok (aesEncrypt_eq hfits hsize), bind_ok hxor, datagram, hlen,
    ByteBuffer.ofBytes_content]
  exact hread

/-- What a received buffer holds after `resize`. -/
theorem recvfrom_datagram (junk : Nat → Nat → UInt8) (bytes : List UInt8) :
    ∃ mem, recvfrom (ByteBuffer.ofSize (junk 5) bridgeMtu) (.datagram bytes) =
      .ok (⟨bytes.take bridgeMtu ++ mem, bridgeMtu⟩, ((bytes.take bridgeMtu).length : Nat)) := by
  have hle : (bytes.take bridgeMtu).length ≤ (newBytes (junk 5) bridgeMtu).length := by
    rw [length_newBytes, List.length_take]
    exact Nat.min_le_left _ _
  exact ⟨_, bind_ok (ByteBuffer.write_front hle) _⟩

theorem sizeT_of_lt {n : Nat} (h : n < 2 ^ 64) : sizeT n = n := by
  unfold sizeT
  omega

/-- `AES_decrypt` on de-obfuscated bytes, of any length. -/
def opened (evp : Evp) (junk : Nat → Nat → UInt8) (key : AesKey) (bytes : List UInt8) :
    Except Fault ByteBuffer :=
  if bytes.length < aesBlockSize then .error .outOfBounds
  else if bytes.length < headerSize then .error .exception
  else (checked (evp.decrypt key (ivOf bytes) (cipherOf bytes))).map (decrypted junk bytes)

theorem aesDecrypt_opened {buffer : ByteBuffer} (hfits : buffer.Fits)
    (h : buffer.size < 2 ^ 31) :
    aesDecrypt evp junk key buffer = opened evp junk key buffer.content := by
  have hlen := ByteBuffer.length_content hfits
  rw [opened, hlen]
  split
  · next hiv => exact aesDecrypt_of_lt_iv hfits hiv
  · next hiv =>
    split
    · next hhead => exact aesDecrypt_of_lt_header hfits (not_lt.mp hiv) hhead
    · next hhead => exact aesDecrypt_eq hfits (not_lt.mp hhead) (by omega)

/-- What happens to the bytes that `recvfrom` stored. -/
theorem decryptReceived_eq (bytes mem : List UInt8) (h : bytes.length ≤ bridgeMtu) :
    decryptReceived evp junk key ⟨bytes ++ mem, bridgeMtu⟩ (bytes.length : Nat) =
      opened evp junk key (xorBytes bytes) := by
  have hmtu : bridgeMtu < 2 ^ 31 := by decide
  have hresize : ByteBuffer.resize ⟨bytes ++ mem, bridgeMtu⟩ (junk 6)
      (sizeT (bytes.length : Nat)) = .ok ⟨bytes ++ mem, bytes.length⟩ := by
    rw [sizeT_of_lt (by omega)]
    exact ByteBuffer.resize_of_le h
  have hfits : ByteBuffer.Fits ⟨bytes ++ mem, bytes.length⟩ := by simp [ByteBuffer.Fits]
  have hcontent : ByteBuffer.content ⟨bytes ++ mem, bytes.length⟩ = bytes := by
    simp [ByteBuffer.content]
  have hxor := xorMess_size hfits
  rw [hcontent] at hxor
  rw [decryptReceived, bind_ok hresize, bind_ok hxor, aesDecrypt_opened]
  · rw [ByteBuffer.content, List.take_left' (length_xorBytes bytes)]
  · simp [ByteBuffer.Fits]
  · exact lt_of_le_of_lt h hmtu

theorem serverReadUdp_datagram (bytes : List UInt8) :
    serverReadUdp evp junk key (.datagram bytes) =
      opened evp junk key (xorBytes (bytes.take bridgeMtu)) := by
  obtain ⟨mem, hrecv⟩ := recvfrom_datagram junk bytes
  have hle : (bytes.take bridgeMtu).length ≤ bridgeMtu := by
    rw [List.length_take]
    exact Nat.min_le_left _ _
  rw [serverReadUdp, bind_ok hrecv]
  exact decryptReceived_eq _ mem hle

theorem clientReadUdp_datagram (bytes : List UInt8) :
    clientReadUdp evp junk key (.datagram bytes) =
      (opened evp junk key (xorBytes (bytes.take bridgeMtu))).bind fun b =>
        (b.read 0 b.size).map some := by
  obtain ⟨mem, hrecv⟩ := recvfrom_datagram junk bytes
  have hle : (bytes.take bridgeMtu).length ≤ bridgeMtu := by
    rw [List.length_take]
    exact Nat.min_le_left _ _
  rw [clientReadUdp, bind_ok hrecv]
  dsimp only
  rw [if_neg (by omega), decryptReceived_eq _ mem hle]
  rfl

/-- A datagram that fits the receive buffer opens to its frame. -/
theorem opened_datagram (evp : Evp) (junk : Nat → Nat → UInt8) (key : AesKey) (iv : AesIv)
    {frame : List UInt8} (h : frame.length < 1472) :
    ∃ b, opened evp junk key (xorBytes ((datagram evp key iv frame).take bridgeMtu)) = .ok b ∧
      b.read 0 b.size = .ok frame := by
  have hlen := length_datagram evp key iv frame
  have htake : (datagram evp key iv frame).take bridgeMtu = datagram evp key iv frame :=
    List.take_of_length_le (by rw [hlen, bridgeMtu]; omega)
  set bytes := message iv frame.length (evp.encrypt key iv frame) with hbytes
  have hb : bytes.length = 16 * (frame.length / 16 + 1) + 20 := by
    rw [← hlen, datagram, length_xorBytes]
  refine ⟨decrypted junk bytes frame, ?_, ?_⟩
  · rw [htake, datagram, xorBytes_xorBytes, ← hbytes, opened,
      if_neg (by rw [hb, aesBlockSize]; omega),
      if_neg (by rw [hb, headerSize, aesBlockSize]; omega), hbytes, ivOf_message, cipherOf_message,
      Evp.decrypt_encrypt_eq]
    rfl
  · have hsize : (decrypted junk bytes frame).size = frame.length := by
      rw [decrypted, hbytes, claimedLen_message (by omega)]
      exact Nat.min_eq_left (by rw [← hbytes, hb]; omega)
    rw [hsize, ByteBuffer.read_of_le]
    · rw [decrypted, List.drop_zero, List.take_left]
    · simp [decrypted]

/-- A longer one is cut off in the middle of a block. -/
theorem opened_cut {frame : List UInt8} (h : ¬ frame.length < 1472) :
    opened evp junk key (xorBytes ((datagram evp key iv frame).take bridgeMtu)) =
      .error .exception := by
  have hlen := length_datagram evp key iv frame
  set bytes := xorBytes ((datagram evp key iv frame).take bridgeMtu) with hbytes
  have hb : bytes.length = 1500 := by
    rw [hbytes, length_xorBytes, List.length_take, hlen, bridgeMtu]
    omega
  have hnone : evp.decrypt key (ivOf bytes) (cipherOf bytes) = none := by
    by_contra hne
    obtain ⟨plain, hplain⟩ := Option.ne_none_iff_exists'.mp hne
    -- 1480 bytes are left of the ciphertext
    have hwhole := (Evp.whole_of_decrypt hplain).1
    rw [cipherOf, List.length_drop, hb] at hwhole
    exact absurd hwhole (by decide)
  rw [opened, hb, if_neg (by decide), if_neg (by decide), hnone]
  rfl

end TunnelLemmas

open TunnelLemmas

/-- A frame from the client's tap reaches the server's bridge unchanged. -/
def ReachesServer (evp : Evp) (key : AesKey) (iv : AesIv) (sender receiver : Nat → Nat → UInt8)
    (frame : List UInt8) : Prop :=
  ∃ d b, clientReadTap evp sender key iv frame = .ok d ∧
    serverReadUdp evp receiver key (.datagram d) = .ok b ∧ b.read 0 b.size = .ok frame

/-- A frame that the server's bridge replies with reaches the client's tap
unchanged. -/
def ReachesClient (evp : Evp) (key : AesKey) (iv : AesIv) (sender receiver : Nat → Nat → UInt8)
    (frame : List UInt8) : Prop :=
  ∃ d, serverReply evp sender key iv (ByteBuffer.ofBytes frame) = .ok d ∧
    clientReadUdp evp receiver key (.datagram d) = .ok (some frame)

namespace TunnelLemmas

variable {evp : Evp} {key : AesKey} {iv : AesIv} {sender receiver : Nat → Nat → UInt8}
  {frame : List UInt8}

theorem clientReadTap_eq (h : frame.length ≤ bridgeMtu) :
    clientReadTap evp sender key iv frame = .ok (datagram evp key iv frame) := by
  have hmtu : bridgeMtu < 2 ^ 31 - 16 := by decide
  obtain ⟨mem, hwrite⟩ : ∃ mem, (ByteBuffer.ofSize (sender 5) bridgeMtu).write 0 frame =
      .ok ⟨frame ++ mem, bridgeMtu⟩ :=
    ⟨_, ByteBuffer.write_front (by rwa [length_newBytes])⟩
  have hresize : ByteBuffer.resize ⟨frame ++ mem, bridgeMtu⟩ (sender 6)
      (sizeT (frame.length : Nat)) = .ok ⟨frame ++ mem, frame.length⟩ := by
    rw [sizeT_of_lt (by omega)]
    exact ByteBuffer.resize_of_le h
  rw [clientReadTap, bind_ok hwrite, bind_ok hresize, sendEncrypted_eq]
  · simp [ByteBuffer.content]
  · simp [ByteBuffer.Fits]
  · exact (by omega : frame.length + 16 < 2 ^ 31)

theorem serverReply_eq (h : frame.length ≤ bridgeMtu) :
    serverReply evp sender key iv (ByteBuffer.ofBytes frame) = .ok (datagram evp key iv frame) := by
  have hmtu : bridgeMtu < 2 ^ 31 - 16 := by decide
  rw [serverReply, sendEncrypted_eq (ByteBuffer.ofBytes_fits frame), ByteBuffer.ofBytes_content]
  exact (by omega : frame.length + 16 < 2 ^ 31)

theorem reachesServer_iff (h : frame.length ≤ bridgeMtu) :
    ReachesServer evp key iv sender receiver frame ↔ frame.length < 1472 := by
  rw [ReachesServer, clientReadTap_eq h]
  constructor
  · rintro ⟨d, b, hd, hb, -⟩
    cases hd
    by_contra hcut
    rw [serverReadUdp_datagram, opened_cut hcut] at hb
    cases hb
  · intro hlt
    obtain ⟨b, hb, hread⟩ := opened_datagram evp receiver key iv hlt
    exact ⟨_, b, rfl, (serverReadUdp_datagram _).trans hb, hread⟩

theorem reachesClient_iff (h : frame.length ≤ bridgeMtu) :
    ReachesClient evp key iv sender receiver frame ↔ frame.length < 1472 := by
  rw [ReachesClient, serverReply_eq h]
  constructor
  · rintro ⟨d, hd, hb⟩
    cases hd
    by_contra hcut
    rw [clientReadUdp_datagram, opened_cut hcut] at hb
    cases hb
  · intro hlt
    obtain ⟨b, hb, hread⟩ := opened_datagram evp receiver key iv hlt
    refine ⟨_, rfl, ?_⟩
    rw [clientReadUdp_datagram, hb]
    show Except.map some (b.read 0 b.size) = _
    rw [hread]
    rfl

end TunnelLemmas

/-- The tunnel delivers a frame in both directions exactly when its datagram
fits into a buffer for a frame: below 1472 bytes. -/
theorem tunnel_delivers_iff (evp : Evp) (key : AesKey) (iv : AesIv)
    (sender receiver : Nat → Nat → UInt8) (frame : List UInt8)
    (h : frame.length ≤ bridgeMtu) :
    (ReachesServer evp key iv sender receiver frame ∧
      ReachesClient evp key iv sender receiver frame) ↔ frame.length < 1472 := by
  rw [reachesServer_iff h, reachesClient_iff h, and_self]

namespace Demo

/-- A key given as a string, and an IV. -/
def key : AesKey := aesKey "secret".toUTF8.toList

def iv : AesIv := ⟨List.replicate 16 0x5a, rfl⟩

/-- A frame of the largest size that a tap hands out. -/
def fullFrame : List UInt8 := List.replicate 1500 0

end Demo

theorem tunnel_delivers_iff_demo :
    (ReachesServer .openssl Demo.key Demo.iv (fun _ _ => 0) (fun _ _ => 0) [1, 2, 3] ∧
      ReachesClient .openssl Demo.key Demo.iv (fun _ _ => 0) (fun _ _ => 0) [1, 2, 3]) ↔
      [1, 2, 3].length < 1472 :=
  tunnel_delivers_iff _ _ _ _ _ [1, 2, 3] (by decide)

/-- A full frame does not arrive. -/
theorem tunnel_fullFrame :
    ¬ ∀ (evp : Evp) (key : AesKey) (iv : AesIv) (sender receiver : Nat → Nat → UInt8)
      (frame : List UInt8), frame.length ≤ bridgeMtu →
        ReachesServer evp key iv sender receiver frame ∧
          ReachesClient evp key iv sender receiver frame := by
  intro hall
  have hlen : Demo.fullFrame.length = 1500 := List.length_replicate
  have hreach := (hall .openssl Demo.key Demo.iv (fun _ _ => 0) (fun _ _ => 0) Demo.fullFrame
    (le_of_eq hlen)).1
  rw [reachesServer_iff (le_of_eq hlen), hlen] at hreach
  exact absurd hreach (by decide)

end NetTraverse
