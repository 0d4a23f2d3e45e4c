import NetTraverse.Lib.OrdMap

/-!
# `mac_table` and `ethernet_bridge::forward`

The learning table of the bridge and one call of `forward` with handlers that do
not suspend. What a handler is plays no role here.
-/

namespace NetTraverse

/-- `ethernet_address`. -/
@[ext]
structure EtherAddr where
  octets : List UInt8
  length_eq : octets.length = 6
deriving Repr

namespace EtherAddr

/-- The octets as numbers, in the order in which `memcmp` compares them. -/
def key (a : EtherAddr) : List Nat := a.octets.map UInt8.toNat

theorem key_injective : Function.Injective key := fun _ _ h =>
  EtherAddr.ext (List.map_injective_iff.mpr (fun _ _ => UInt8.toNat_inj.mp) h)

instance : LinearOrder EtherAddr := LinearOrder.lift' key key_injective

/-- The address at the front of some bytes. -/
def ofBytes (bytes : List UInt8) : EtherAddr := ⟨bytes.takeD 6 0, List.takeD_length 6 bytes 0⟩

/-- `broad_cast_address`. -/
def broadcast : EtherAddr := ⟨List.replicate 6 0xff, rfl⟩

end EtherAddr

/-- `sizeof(struct ether_header)`. -/
def etherHeaderSize : Nat := 14

/-- `ether_dhost` and `ether_shost` of a frame. -/
def frameDst (buffer : List UInt8) : EtherAddr := .ofBytes buffer
def frameSrc (buffer : List UInt8) : EtherAddr := .ofBytes (buffer.drop 6)

/-- `ethernet_address_record`. -/
structure Record (T : Type) where
  addr : EtherAddr
  lastActive : Int
  t : T
deriving Repr

abbrev MacTable (T : Type) := OrdMap EtherAddr (Record T)

namespace MacTable

variable {T : Type}

/-- `timeout` -/
def timeout : Int := 600

variable (table : MacTable T)

/-- `update`: the record of an address that is there is assigned to, otherwise
one is inserted. -/
def update (now : Int) (addr : EtherAddr) (t : T) : MacTable T :=
  table.insert addr ⟨addr, now, t⟩

def query (addr : EtherAddr) : Option T := (table.find? addr).map (·.t)

def expired (now : Int) (r : Record T) : Bool := now - r.lastActive > timeout

def checkTimeout (now : Int) : MacTable T := table.filter fun _ r => !expired now r

/-- The loop of `check_timeout`, which erases while it iterates. -/
theorem sweep_eq_checkTimeout (now : Int) :
    OrdMap.sweep table (fun _ r => expired now r) = table.checkTimeout now :=
  OrdMap.sweep_eq_filter table _

variable {table} {now : Int} {addr k : EtherAddr} {t : T}

theorem find?_update : (table.update now addr t).find? k =
    if k = addr then some ⟨addr, now, t⟩ else table.find? k := OrdMap.find?_insert

theorem find?_checkTimeout : (table.checkTimeout now).find? k =
    (table.find? k).filter fun r => !expired now r := OrdMap.find?_filter

end MacTable

/-! ## `forward` -/

/-- What one call of `forward` did: the table afterwards, the address that it
learned, and the handlers that it called, each with the address it was stored
for. All get the frame itself. -/
structure Forwarded (T : Type) where
  table : MacTable T
  learned : Option EtherAddr
  invoked : List (EtherAddr × T)

/-- `forward`. The clock is read once by `check_timeout` and once by
`update`. -/
def forward {T : Type} (table : MacTable T) (t₁ t₂ : Int) (buffer : List UInt8)
    (replyHandler : T) : Forwarded T :=
  let table := table.checkTimeout t₁
  if buffer.length < etherHeaderSize then ⟨table, none, []⟩
  else
    let dst := frameDst buffer
    let src := frameSrc buffer
    let table := table.update t₂ src replyHandler
    if dst ≠ .broadcast then
      ⟨table, some src, (table.query dst).toList.map fun t => (dst, t)⟩
    else
      ⟨table, some src, (table.entries.filter fun e => e.1 ≠ src).map fun e => (e.1, e.2.t)⟩

section

variable {T : Type} {table : MacTable T} {t₁ t₂ : Int} {buffer : List UInt8} {replyHandler : T}

theorem forward_short (h : buffer.length < etherHeaderSize) :
    forward table t₁ t₂ buffer replyHandler = ⟨table.checkTimeout t₁, none, []⟩ := by
  simp [forward, h]

theorem forward_unicast (h : ¬ buffer.length < etherHeaderSize)
    (hdst : frameDst buffer ≠ .broadcast) :
    forward table t₁ t₂ buffer replyHandler =
      let table := (table.checkTimeout t₁).update t₂ (frameSrc buffer) replyHandler
      ⟨table, some (frameSrc buffer),
        (table.query (frameDst buffer)).toList.map fun t => (frameDst buffer, t)⟩ := by
  rw [forward, if_neg h]
  exact if_pos hdst

theorem forward_broadcast (h : ¬ buffer.length < etherHeaderSize)
    (hdst : frameDst buffer = .broadcast) :
    forward table t₁ t₂ buffer replyHandler =
      let table := (table.checkTimeout t₁).update t₂ (frameSrc buffer) replyHandler
      ⟨table, some (frameSrc buffer),
        (table.entries.filter fun e => e.1 ≠ frameSrc buffer).map fun e => (e.1, e.2.t)⟩ := by
  rw [forward, if_neg h]
  exact if_neg (not_not.mpr hdst)

/-- A frame with a header is learned from. -/
theorem forward_learned (h : ¬ buffer.length < etherHeaderSize) :
    (forward table t₁ t₂ buffer replyHandler).learned = some (frameSrc buffer) := by
  by_cases hdst : frameDst buffer = .broadcast
  · rw [forward_broadcast h hdst]
  · rw [forward_unicast h hdst]

end

end NetTraverse
