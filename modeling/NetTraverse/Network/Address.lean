import Mathlib

/-!
# `address`

The class `address` of `socket.hpp`. What two addresses are compared by is their
`len_` and as many bytes of the socket address (`SockAddr`); an `Address` also has
the texts that `resolve` hands to `getaddrinfo`, and until that succeeds its socket
address is not initialised.
-/

namespace NetTraverse

/-- The first `len_` bytes of `addr_`. -/
@[ext]
structure SockAddr where
  bytes : List UInt8
deriving Repr

/-- `memcmp` on two areas of one length. -/
def memcmp : List UInt8 → List UInt8 → Int
  | a :: as, b :: bs => if a = b then memcmp as bs else (a.toNat : Int) - b.toNat
  | _, _ => 0

namespace SockAddr

/-- `operator<`. -/
def lessThan (a b : SockAddr) : Bool :=
  if a.bytes.length < b.bytes.length then true
  else if a.bytes.length > b.bytes.length then false
  else memcmp a.bytes b.bytes < 0

/-- The length, then the bytes as numbers. -/
def key (a : SockAddr) : Nat ×ₗ List Nat := toLex (a.bytes.length, a.bytes.map UInt8.toNat)

theorem key_injective : Function.Injective key := fun _ _ h =>
  SockAddr.ext (List.map_injective_iff.mpr (fun _ _ => UInt8.toNat_inj.mp)
    (Prod.mk.inj (toLex.injective h)).2)

instance : LinearOrder SockAddr := LinearOrder.lift' key key_injective

theorem memcmp_neg_iff {as bs : List UInt8} (h : as.length = bs.length) :
    memcmp as bs < 0 ↔ as.map UInt8.toNat < bs.map UInt8.toNat := by
  induction as generalizing bs with
  | nil =>
    cases bs with
    | nil => simp [memcmp]
    | cons b bs => cases h
  | cons a as ih =>
    cases bs with
    | nil => cases h
    | cons b bs =>
      rw [List.map_cons, List.map_cons, List.cons_lt_cons_iff, memcmp]
      split
      · next heq =>
        subst heq
        simpa using ih (Nat.succ.inj h)
      · next hne =>
        have hne' : a.toNat ≠ b.toNat := fun heq => hne (UInt8.toNat_inj.mp heq)
        simp [hne']

/-- The order of the keys of `std::map<address, ..>`. -/
theorem lt_iff_lessThan {a b : SockAddr} : a < b ↔ a.lessThan b = true := by
  have hkey : a < b ↔ a.key < b.key := Iff.rfl
  rw [hkey, key, key, Prod.Lex.toLex_lt_toLex, lessThan]
  split
  · next hlt => simp [hlt]
  · next hge =>
    split
    · next hgt => simp [hge, hgt.ne']
    · next hle =>
      have heq : a.bytes.length = b.bytes.length := by omega
      simp [heq, memcmp_neg_iff heq]

/-- A `sockaddr_in`: `sin_family`, `sin_port`, `sin_addr` and `sin_zero`, as they
are in memory. -/
def sockaddrIn (ipv4 port : List UInt8) : SockAddr :=
  ⟨[2, 0] ++ port ++ ipv4 ++ List.replicate 8 0⟩

variable (a : SockAddr)

/-- `sin_port` and `sin_addr` of the storage, which is zero past the address. -/
def sinPort : List UInt8 := (a.bytes.drop 2).takeD 2 0
def sinAddr : List UInt8 := (a.bytes.drop 4).takeD 4 0

@[simp] theorem length_sinPort : a.sinPort.length = 2 := List.takeD_length ..
@[simp] theorem length_sinAddr : a.sinAddr.length = 4 := List.takeD_length ..

/-- Load an integer on a little-endian host. -/
def load (bytes : List UInt8) : Nat := Nat.ofDigits 256 (bytes.map UInt8.toNat)

def ntohs (x : UInt16) : UInt16 := x <<< 8 ||| x >>> 8

/-- `ipv4()`: the address as it is in memory. -/
def ipv4 : UInt32 := .ofNat (load a.sinAddr)

/-- `port()`. -/
def port : UInt16 := ntohs (.ofNat (load a.sinPort))

variable {a}

/-- The first octet is the lowest byte of `ipv4()`. -/
theorem toNat_ipv4 {a₀ a₁ a₂ a₃ : UInt8} (h : a.sinAddr = [a₀, a₁, a₂, a₃]) :
    a.ipv4.toNat = a₀.toNat + 256 * (a₁.toNat + 256 * (a₂.toNat + 256 * a₃.toNat)) := by
  have h₀ := a₀.toNat_lt
  have h₁ := a₁.toNat_lt
  have h₂ := a₂.toNat_lt
  have h₃ := a₃.toNat_lt
  rw [ipv4, h, UInt32.toNat_ofNat']
  simp [load, Nat.ofDigits]
  omega

/-- The first byte is the highest one of `port()`. -/
theorem toNat_port {hi lo : UInt8} (h : a.sinPort = [hi, lo]) :
    a.port.toNat = hi.toNat * 256 + lo.toNat := by
  have hhi := hi.toNat_lt
  have hlo := lo.toNat_lt
  have hload : (UInt16.ofNat (load [hi, lo])).toNat = hi.toNat + 256 * lo.toNat := by
    rw [UInt16.toNat_ofNat']
    simp [load, Nat.ofDigits]
    omega
  have hleft : (UInt16.ofNat (load [hi, lo]) <<< 8).toNat = 2 ^ 8 * hi.toNat := by
    rw [UInt16.toNat_shiftLeft, hload, Nat.shiftLeft_eq]
    show (hi.toNat + 256 * lo.toNat) * 2 ^ 8 % 2 ^ 16 = _
    omega
  have hright : (UInt16.ofNat (load [hi, lo]) >>> 8).toNat = lo.toNat := by
    rw [UInt16.toNat_shiftRight, hload, Nat.shiftRight_eq_div_pow]
    show (hi.toNat + 256 * lo.toNat) / 2 ^ 8 = _
    omega
  rw [port, ntohs, h, UInt16.toNat_or, hleft, hright, ← Nat.two_pow_add_eq_or_of_lt hlo]
  omega

end SockAddr

/-! ## Addresses by name -/

/-- `std::to_string`. -/
def decimal (n : Nat) : List UInt8 := (Nat.toDigits 10 n).map fun c => .ofNat c.toNat

/-- `inet_ntop(AF_INET, ..)`. -/
def inetNtop (ipv4 : List UInt8) : List UInt8 :=
  List.intercalate [46] (ipv4.map fun b => decimal b.toNat)

structure Address where
  /-- `host_` and `port_` -/
  host : List UInt8
  port : List UInt8
  /-- `addr_`, once it is initialised. -/
  sockaddr : Option SockAddr
deriving DecidableEq, Repr

namespace Address

/-- `address(host, port)`. -/
def ofHostPort (host : List UInt8) (port : UInt16) : Address := ⟨host, decimal port.toNat, none⟩

/-- `resolve`, from the first result of `getaddrinfo`; on an error the address
stays as it is. -/
def resolve (a : Address) : Option SockAddr → Address
  | none => a
  | some sockaddr => { a with sockaddr := some sockaddr }

end Address

end NetTraverse
