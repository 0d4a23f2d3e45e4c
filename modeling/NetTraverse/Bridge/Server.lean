import NetTraverse.Bridge.MacTable
import NetTraverse.Bridge.Tunnel

/-!
# The server against what it receives

One round of the server's `read_udp`, for every outcome of `recvfrom`. Nothing
in the loop checks the outcome, so the round survives only what
`survives_iff` says.
-/

namespace NetTraverse

open FaultLemmas AesLemmas CipherBuffer TunnelLemmas

/-- The two reply handlers of the server, with what they refer to. `udp` refers
to `addr`, `aes` and `sock` of `read_udp`, `tap` to `event` of `read_tap`. -/
inductive ReplyHandler where
  | tap
  | udp
deriving DecidableEq, Repr

/-- What a handler passes to `write` or `sendto`. -/
def ReplyHandler.run (evp : Evp) (junk : Nat → Nat → UInt8) (key : AesKey) (iv : AesIv)
    (buffer : ByteBuffer) : ReplyHandler → Except Fault (List UInt8)
  | .tap => buffer.read 0 buffer.size
  | .udp => serverReply evp junk key iv buffer

/-- One round of `read_udp`, from `recvfrom` to the next one, with handlers that
do not suspend. `iv k` is what `RAND_bytes` draws in the handler of `k`. -/
def serverRound (evp : Evp) (junk : Nat → Nat → UInt8) (key : AesKey) (iv : EtherAddr → AesIv)
    (table : MacTable ReplyHandler) (t₁ t₂ : Int) (outcome : RecvResult) :
    Except Fault (Forwarded ReplyHandler) := do
  let decryptBuffer ← serverReadUdp evp junk key outcome
  let r := forward table t₁ t₂ decryptBuffer.content .udp
  let _ ← r.invoked.mapM fun e => e.2.run evp junk key (iv e.1) decryptBuffer
  .ok r

/-- The received bytes, de-obfuscated. -/
def receivedBytes (datagram : List UInt8) : List UInt8 := xorBytes (datagram.take bridgeMtu)

/-- The bytes carry this plaintext under the key. -/
def Carries (evp : Evp) (key : AesKey) (bytes plain : List UInt8) : Prop :=
  evp.decrypt key (ivOf bytes) (cipherOf bytes) = some plain

/-- The outcome is a datagram that decrypts to a frame with an Ethernet
header: its plaintext, up to the claimed length, is that long. -/
def DecryptsToFrame (evp : Evp) (key : AesKey) (outcome : RecvResult) : Prop :=
  ∃ datagram plain, outcome = .datagram datagram ∧
    Carries evp key (receivedBytes datagram) plain ∧
    etherHeaderSize ≤ (plain.take (claimedLen (receivedBytes datagram))).length

/-- The round reaches the next `recvfrom`, and what does not decrypt to a frame
has no effect but the expiry of old entries. -/
def Survives (evp : Evp) (junk : Nat → Nat → UInt8) (key : AesKey) (iv : EtherAddr → AesIv)
    (table : MacTable ReplyHandler) (t₁ t₂ : Int) (outcome : RecvResult) : Prop :=
  ∃ r, serverRound evp junk key iv table t₁ t₂ outcome = .ok r ∧
    (¬ DecryptsToFrame evp key outcome →
      r.learned = none ∧ r.invoked = [] ∧ r.table = table.checkTimeout t₁)

namespace ServerLemmas

variable {evp : Evp} {junk : Nat → Nat → UInt8} {key : AesKey} {bytes plain : List UInt8}

/-- After an error the buffer is resized to `SIZE_MAX`. -/
theorem serverReadUdp_error :
    serverReadUdp evp junk key .error = .error .outOfBounds := by
  set buffer := ByteBuffer.ofSize (junk 5) bridgeMtu with hbuffer
  have hfits : buffer.Fits := ByteBuffer.ofSize_fits _ _
  have hsize : buffer.size = 1500 := rfl
  set mem := buffer.content ++ newBytes (junk 6) buffer.size with hmem
  have hlen : mem.length = 3000 := by
    rw [hmem, List.length_append, ByteBuffer.length_content hfits, length_newBytes, hsize]
  have hgrow : buffer.grow (junk 6) = .ok mem := bind_ok (ByteBuffer.read_content hfits) _
  have hresize : buffer.resize (junk 6) (sizeT (-1)) = .ok ⟨mem, sizeT (-1)⟩ := by
    rw [ByteBuffer.resize, if_pos (by rw [hsize]; decide)]
    exact bind_ok hgrow _
  have hxor : xorMess ⟨mem, sizeT (-1)⟩ (sizeT (-1)) = .error .outOfBounds := by
    refine bind_error (ByteBuffer.read_of_lt ?_) _
    rw [show ByteBuffer.mem ⟨mem, sizeT (-1)⟩ = mem from rfl, hlen]
    decide
  rw [serverReadUdp, bind_ok (show recvfrom buffer .error = .ok (buffer, -1) from rfl)]
  exact (bind_ok hresize _).trans (bind_error hxor _)

/-- What carries a plaintext has a complete header and at least one block. -/
theorem length_of_carries (h : Carries evp key bytes plain) :
    36 ≤ bytes.length ∧ plain.length < bytes.length := by
  obtain ⟨hwhole, hlt⟩ := Evp.whole_of_decrypt h
  rw [cipherOf, List.length_drop, aesBlockSize] at hwhole
  rw [cipherOf, List.length_drop] at hlt
  simp only [headerSize, aesBlockSize] at hwhole hlt
  omega

theorem opened_of_carries (h : Carries evp key bytes plain) :
    opened evp junk key bytes = .ok (decrypted junk bytes plain) := by
  have hlen := (length_of_carries h).1
  have hdec : evp.decrypt key (ivOf bytes) (cipherOf bytes) = some plain := h
  rw [opened, if_neg (by rw [aesBlockSize]; omega),
    if_neg (by rw [headerSize, aesBlockSize]; omega), hdec]
  rfl

theorem carries_of_opened {b : ByteBuffer} (h : opened evp junk key bytes = .ok b) :
    ∃ plain, Carries evp key bytes plain := by
  rw [opened] at h
  split at h
  · cases h
  · split at h
    · cases h
    · cases hdec : evp.decrypt key (ivOf bytes) (cipherOf bytes) with
      | none =>
        rw [hdec] at h
        cases h
      | some plain => exact ⟨plain, hdec⟩

theorem carries_of_serverRound {table : MacTable ReplyHandler} {iv : EtherAddr → AesIv}
    {t₁ t₂ : Int} {datagram : List UInt8} {r : Forwarded ReplyHandler}
    (h : serverRound evp junk key iv table t₁ t₂ (.datagram datagram) = .ok r) :
    ∃ plain, Carries evp key (receivedBytes datagram) plain := by
  have hread : serverReadUdp evp junk key (.datagram datagram) =
      opened evp junk key (receivedBytes datagram) := serverReadUdp_datagram datagram
  cases hopen : opened evp junk key (receivedBytes datagram) with
  | error e =>
    rw [serverRound, bind_error (hread.trans hopen)] at h
    cases h
  | ok b => exact carries_of_opened hopen

theorem decrypted_fits (junk : Nat → Nat → UInt8) (h : Carries evp key bytes plain) :
    (decrypted junk bytes plain).Fits := by
  have hlen := (length_of_carries h).2
  simp only [ByteBuffer.Fits, decrypted, List.length_append, List.length_drop, length_newBytes]
  omega

theorem length_decrypted_content (junk : Nat → Nat → UInt8) (h : Carries evp key bytes plain) :
    (decrypted junk bytes plain).content.length = min (claimedLen bytes) bytes.length :=
  ByteBuffer.length_content (decrypted_fits junk h)

/-- No handler fails on a buffer that holds what it reports. -/
theorem run_ok (evp : Evp) (junk : Nat → Nat → UInt8) (key : AesKey) {buffer : ByteBuffer}
    (hfits : buffer.Fits) (hsize : buffer.size + 16 < 2 ^ 31) (iv : AesIv) (t : ReplyHandler) :
    ∃ sent, t.run evp junk key iv buffer = .ok sent := by
  cases t with
  | tap => exact ⟨_, ByteBuffer.read_content hfits⟩
  | udp => exact ⟨_, sendEncrypted_eq hfits hsize⟩

theorem mapM_ok {α β : Type} {f : α → Except Fault β} (h : ∀ a, ∃ b, f a = .ok b) (l : List α) :
    ∃ bs, l.mapM f = .ok bs := by
  induction l with
  | nil => exact ⟨[], rfl⟩
  | cons a l ih =>
    obtain ⟨b, hb⟩ := h a
    obtain ⟨bs, hbs⟩ := ih
    exact ⟨b :: bs, by rw [List.mapM_cons, hb, hbs]; rfl⟩

/-- Once the bytes carry a plaintext, the round is that of `forward`. -/
theorem serverRound_of_carries {table : MacTable ReplyHandler} {iv : EtherAddr → AesIv}
    {t₁ t₂ : Int} {datagram : List UInt8}
    (h : Carries evp key (receivedBytes datagram) plain) :
    serverRound evp junk key iv table t₁ t₂ (.datagram datagram) =
      .ok (forward table t₁ t₂ (decrypted junk (receivedBytes datagram) plain).content .udp) := by
  have hread : serverReadUdp evp junk key (.datagram datagram) =
      .ok (decrypted junk (receivedBytes datagram) plain) :=
    (serverReadUdp_datagram datagram).trans (opened_of_carries h)
  have hsize : (decrypted junk (receivedBytes datagram) plain).size + 16 < 2 ^ 31 := by
    have hle : (receivedBytes datagram).length ≤ bridgeMtu := by
      rw [receivedBytes, length_xorBytes, List.length_take]
      exact Nat.min_le_left _ _
    simp only [decrypted, bridgeMtu] at hle ⊢
    omega
  obtain ⟨sent, hsent⟩ := mapM_ok
    (fun e : EtherAddr × ReplyHandler =>
      run_ok evp junk key (decrypted_fits junk h) hsize (iv e.1) e.2)
    (forward table t₁ t₂ (decrypted junk (receivedBytes datagram) plain).content
      ReplyHandler.udp).invoked
  rw [serverRound, bind_ok hread]
  exact bind_ok hsent _

end ServerLemmas

open ServerLemmas

/-- The server survives an outcome exactly when it is a datagram that carries a
plaintext, and that is as long as an Ethernet header or is claimed to be
shorter. -/
theorem survives_iff (evp : Evp) (junk : Nat → Nat → UInt8) (key : AesKey)
    (iv : EtherAddr → AesIv) (table : MacTable ReplyHandler) (t₁ t₂ : Int)
    (outcome : RecvResult) :
    Survives evp junk key iv table t₁ t₂ outcome ↔
      ∃ datagram plain, outcome = .datagram datagram ∧
        Carries evp key (receivedBytes datagram) plain ∧
        (etherHeaderSize ≤ plain.length ∨
          claimedLen (receivedBytes datagram) < etherHeaderSize) := by
  cases outcome with
  | error =>
    refine iff_of_false ?_ (by simp)
    rintro ⟨r, hr, -⟩
    rw [serverRound, bind_error serverReadUdp_error] at hr
    cases hr
  | datagram datagram =>
    constructor
    · rintro ⟨r, hr, hquiet⟩
      obtain ⟨plain, hplain⟩ := carries_of_serverRound hr
      refine ⟨datagram, plain, rfl, hplain, ?_⟩
      by_contra hnot
      obtain ⟨hshort, hclaimed⟩ := not_or.mp hnot
      have hlen := length_of_carries hplain
      -- the frame that `forward` sees is longer than the plaintext
      have hno : ¬ DecryptsToFrame evp key (.datagram datagram) := by
        rintro ⟨datagram', plain', heq, hplain', hframe⟩
        cases heq
        obtain rfl : plain' = plain := Option.some.inj (hplain'.symm.trans hplain)
        rw [List.length_take] at hframe
        omega
      have hcontent := length_decrypted_content junk hplain
      rw [serverRound_of_carries hplain] at hr
      cases hr
      have hlearned := (hquiet hno).1
      rw [forward_learned (by rw [hcontent]; simp only [etherHeaderSize] at *; omega)] at hlearned
      cases hlearned
    · rintro ⟨datagram', plain, heq, hplain, hcond⟩
      cases heq
      refine ⟨_, serverRound_of_carries hplain, fun hno => ?_⟩
      have hclaimed : claimedLen (receivedBytes datagram) < etherHeaderSize := by
        by_contra hge
        refine hno ⟨datagram, plain, rfl, hplain, ?_⟩
        rw [List.length_take]
        have hlong := hcond.resolve_right hge
        omega
      have hcontent := length_decrypted_content junk hplain
      rw [forward_short (by rw [hcontent]; omega)]
      exact ⟨rfl, rfl, rfl⟩

/-- A failed `recvfrom` stops the server. -/
theorem survives_error :
    ¬ ∀ (evp : Evp) (junk : Nat → Nat → UInt8) (key : AesKey) (iv : EtherAddr → AesIv)
      (table : MacTable ReplyHandler) (t₁ t₂ : Int) (outcome : RecvResult),
        Survives evp junk key iv table t₁ t₂ outcome := by
  intro hall
  obtain ⟨r, hr, -⟩ :=
    hall .openssl (fun _ _ => 0) Demo.key (fun _ => Demo.iv) .empty 0 0 .error
  rw [serverRound, bind_error serverReadUdp_error] at hr
  cases hr

end NetTraverse
