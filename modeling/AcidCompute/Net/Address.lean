import AcidCompute.Base.ByteOrder
import Mathlib.Data.Nat.Bitwise

/-!
# Networks of an IPv4 address (`IPv4Address` in `acid/net/address.{h,cpp}`)

`create_mask` makes a mask of the bits of the host.  The mask of the network is its complement, which is what
`subnet_mask` takes but `network_address` does not (`network_iff`).  The mask is computed in `int`, so that the two
shortest prefixes are outside of what the language defines.
-/

namespace AcidCompute

/-- `endian_cast`, which is `host_to_network` and `network_to_host`. -/
def endianCast (e : Endian) {n : Nat} (v : BitVec (8 * n)) : BitVec (8 * n) :=
  match e with
  | .big => v
  | .little => byteSwap v

/-- `create_mask<uint32_t>`, or nothing if it is undefined. -/
def createMask (bit : BitVec 32) : Option (BitVec 32) :=
  -- `sizeof(T) * 8 - bit`
  let shift : BitVec 64 := 32 - bit.setWidth 64
  -- the width of an `int`
  if 32 ≤ shift.toNat then none
  else
    let shifted := (1 : BitVec 32) <<< shift.toNat
    -- the least `int` has no predecessor
    if shifted = BitVec.intMin 32 then none else some (shifted - 1)

/-- An `IPv4Address`, by the members of its `sockaddr_in` as they are stored. -/
structure SockaddrIn where
  family : BitVec (8 * 2)
  port : BitVec (8 * 2)
  addr : BitVec (8 * 4)
  deriving DecidableEq

namespace SockaddrIn

variable (e : Endian)

/-- `IPv4Address(ip, port)` -/
def create (ip : BitVec (8 * 4)) (port : BitVec (8 * 2)) : SockaddrIn where
  -- `AF_INET`
  family := 2
  port := endianCast e port
  addr := endianCast e ip

variable (a : SockaddrIn)

/-- The address as a number. -/
def ip : BitVec (8 * 4) := endianCast e a.addr

-- a null pointer is `some none`
def broadcastAddress (prefixLen : BitVec 32) : Option (Option SockaddrIn) :=
  if prefixLen > 32 then some none
  else (createMask prefixLen).map fun mask => some { a with addr := a.addr ||| endianCast e (n := 4) mask }

def networkAddress (prefixLen : BitVec 32) : Option (Option SockaddrIn) :=
  if prefixLen > 32 then some none
  else (createMask prefixLen).map fun mask => some { a with addr := a.addr &&& endianCast e (n := 4) mask }

def subnetMask (prefixLen : BitVec 32) : Option (Option SockaddrIn) :=
  if prefixLen > 32 then some none
  else (createMask prefixLen).map fun mask => some ⟨2, 0, endianCast e (n := 4) (~~~mask)⟩

/-- The addresses that a prefix of `p` bits gives are right. -/
structure Network (p : BitVec 32) (a mask network broadcast : SockaddrIn) : Prop where
  mask_bits : ∀ i < 32, (mask.ip e).getLsbD i = decide (32 - p.toNat ≤ i)
  network_eq : network.ip e = a.ip e &&& mask.ip e
  broadcast_eq : broadcast.ip e = network.ip e ||| ~~~(mask.ip e)
  lower : network.ip e ≤ a.ip e
  upper : a.ip e ≤ broadcast.ip e
  port : network.port = a.port ∧ broadcast.port = a.port
  family : network.family = a.family ∧ broadcast.family = a.family

/-! ### The mask -/

private theorem toNat_shift {p : BitVec 32} (hp : p ≤ 32) :
    ((32 : BitVec 64) - p.setWidth 64).toNat = 32 - p.toNat := by
  bv_omega

/-- For the two shortest prefixes the mask is undefined. -/
theorem createMask_eq_none {p : BitVec 32} (hp : p < 2) : createMask p = none := by
  have hcases : p = 0 ∨ p = 1 := by bv_omega
  rcases hcases with rfl | rfl <;> decide

/-- The mask has the bits behind the prefix. -/
theorem createMask_eq_some {p : BitVec 32} (hp : p ≤ 32) (htwo : 2 ≤ p) :
    ∃ mask, createMask p = some mask ∧ ∀ i < 32, mask.getLsbD i = decide (i < 32 - p.toNat) := by
  obtain ⟨n, hn, hlt⟩ : ∃ n, n = 32 - p.toNat ∧ n < 31 := by
    have hge : 2 ≤ p.toNat := htwo
    exact ⟨_, rfl, by omega⟩
  have hpow : 2 ^ n < 2 ^ 31 := Nat.pow_lt_pow_right (by decide) hlt
  have hshifted : ((1 : BitVec 32) <<< n).toNat = 2 ^ n := by
    rw [BitVec.toNat_shiftLeft, Nat.shiftLeft_eq]
    change 1 * 2 ^ n % 2 ^ 32 = 2 ^ n
    omega
  have hne : (1 : BitVec 32) <<< n ≠ BitVec.intMin 32 := by
    intro heq
    have htoNat := congrArg BitVec.toNat heq
    rw [hshifted] at htoNat
    simp at htoNat
    omega
  have hmask : ((1 : BitVec 32) <<< n - 1).toNat = 2 ^ n - 1 := by
    have hpos : 0 < 2 ^ n := Nat.two_pow_pos n
    rw [BitVec.toNat_sub_of_le, hshifted]
    · rfl
    · rw [BitVec.le_def, hshifted]
      exact hpos
  refine ⟨(1 : BitVec 32) <<< n - 1, ?_, fun i _ => ?_⟩
  · rw [createMask]
    dsimp only
    rw [toNat_shift hp, ← hn, if_neg (by omega), if_neg hne]
  · rw [← hn, BitVec.getLsbD, hmask, Nat.testBit_two_pow_sub_one]

/-! ### Networks -/

private theorem endianCast_endianCast {n : Nat} (v : BitVec (8 * n)) : endianCast e (endianCast e v) = v := by
  cases e with
  | little => exact byteSwap_byteSwap v
  | big => rfl

private theorem endianCast_and {n : Nat} (x y : BitVec (8 * n)) :
    endianCast e (x &&& y) = endianCast e x &&& endianCast e y := by
  cases e with
  | little => exact byteSwap_and x y
  | big => rfl

private theorem endianCast_or {n : Nat} (x y : BitVec (8 * n)) :
    endianCast e (x ||| y) = endianCast e x ||| endianCast e y := by
  cases e with
  | little => exact byteSwap_or x y
  | big => rfl

/-- What the three functions return. -/
private theorem addresses_eq {p mask : BitVec 32} (hp : p ≤ 32) (hmask : createMask p = some mask) :
    ∃ m network broadcast, subnetMask e p = some (some m) ∧ a.networkAddress e p = some (some network) ∧
      a.broadcastAddress e p = some (some broadcast) ∧ m.ip e = ~~~mask ∧ network.ip e = a.ip e &&& mask ∧
        broadcast.ip e = a.ip e ||| mask ∧ (network.port = a.port ∧ broadcast.port = a.port) ∧
          (network.family = a.family ∧ broadcast.family = a.family) := by
  have hle : ¬ p > 32 := BitVec.not_lt.2 hp
  refine ⟨⟨2, 0, endianCast e (n := 4) (~~~mask)⟩, { a with addr := a.addr &&& endianCast e (n := 4) mask },
    { a with addr := a.addr ||| endianCast e (n := 4) mask }, ?_, ?_, ?_, ?_, ?_, ?_, ⟨rfl, rfl⟩, rfl, rfl⟩
  · rw [subnetMask, if_neg hle, hmask]
    rfl
  · rw [networkAddress, if_neg hle, hmask]
    rfl
  · rw [broadcastAddress, if_neg hle, hmask]
    rfl
  · exact endianCast_endianCast e _
  · rw [ip, endianCast_and, endianCast_endianCast]
    rfl
  · rw [ip, endianCast_or, endianCast_endianCast]
    rfl

/-- What a mask and its complement both keep is nothing. -/
private theorem eq_zero_of_and {w : Nat} {v mask : BitVec w} (h : v &&& mask = v &&& ~~~mask) : v = 0 := by
  apply BitVec.eq_of_getLsbD_eq
  intro i hi
  have hbit := congrArg (fun x => x.getLsbD i) h
  simp only [BitVec.getLsbD_and, BitVec.getLsbD_not, hi, decide_true, Bool.true_and] at hbit
  cases hv : v.getLsbD i with
  | false => simp
  | true => cases hm : mask.getLsbD i <;> simp [hv, hm] at hbit

/-- The three addresses are defined and right just for prefixes of two bits and more of the address 0.0.0.0. -/
theorem network_iff {p : BitVec 32} (hp : p ≤ 32) :
    (∃ mask network broadcast, subnetMask e p = some (some mask) ∧ a.networkAddress e p = some (some network) ∧
      a.broadcastAddress e p = some (some broadcast) ∧ Network e p a mask network broadcast) ↔
        2 ≤ p ∧ a.ip e = 0 := by
  constructor
  · rintro ⟨m, network, broadcast, hsubnet, hnetwork, hbroadcast, hright⟩
    have htwo : 2 ≤ p := by
      by_contra hlt
      have hnone := createMask_eq_none (BitVec.not_le.1 hlt)
      rw [subnetMask, if_neg (BitVec.not_lt.2 hp), hnone] at hsubnet
      cases hsubnet
    obtain ⟨mask, hmask, -⟩ := createMask_eq_some hp htwo
    obtain ⟨m', network', broadcast', hsubnet', hnetwork', -, hm, hn, -⟩ := addresses_eq e a hp hmask
    rw [hsubnet, Option.some.injEq, Option.some.injEq] at hsubnet'
    rw [hnetwork, Option.some.injEq, Option.some.injEq] at hnetwork'
    subst hsubnet' hnetwork'
    have hkept := hright.network_eq
    rw [hm, hn] at hkept
    exact ⟨htwo, eq_zero_of_and hkept⟩
  · rintro ⟨htwo, hzero⟩
    obtain ⟨mask, hmask, hbits⟩ := createMask_eq_some hp htwo
    obtain ⟨m, network, broadcast, hsubnet, hnetwork, hbroadcast, hm, hn, hb, hport, hfamily⟩ :=
      addresses_eq e a hp hmask
    replace hzero : a.ip e = 0#32 := hzero
    rw [hzero, BitVec.zero_and] at hn
    rw [hzero, BitVec.zero_or] at hb
    refine ⟨m, network, broadcast, hsubnet, hnetwork, hbroadcast, ?_, ?_, ?_, ?_, ?_, hport, hfamily⟩
    · intro i hi
      rw [hm, BitVec.getLsbD_not, hbits i hi, decide_eq_true hi, Bool.true_and, ← decide_not]
      exact decide_eq_decide.2 Nat.not_lt
    · rw [hn, hzero, BitVec.zero_and]
    · rw [hn, hb, hm, BitVec.not_not, BitVec.zero_or]
    · rw [hn, hzero]
      exact BitVec.le_refl _
    · rw [hzero, BitVec.le_def]
      exact Nat.zero_le _

/-- 0.0.0.0/24 -/
theorem network_iff_zero : ∃ mask network broadcast, subnetMask .little 24 = some (some mask) ∧
    (create .little 0 80).networkAddress .little 24 = some (some network) ∧
      (create .little 0 80).broadcastAddress .little 24 = some (some broadcast) ∧
        Network .little 24 (create .little 0 80) mask network broadcast :=
  (network_iff .little (create .little 0 80) (by decide)).2 ⟨by decide, by decide⟩

/-- The network of 192.168.1.10/24 should not be 0.0.0.10. -/
theorem not_network_hostBits : ¬ ∀ (a : SockaddrIn) (p : BitVec 32), p ≤ 32 →
    ∃ mask network broadcast, subnetMask .little p = some (some mask) ∧
      a.networkAddress .little p = some (some network) ∧ a.broadcastAddress .little p = some (some broadcast) ∧
        Network .little p a mask network broadcast := by
  intro hall
  obtain ⟨mask, network, broadcast, hsubnet, hnetwork, -, hright⟩ :=
    hall (create .little 0xC0A8010A 80) 24 (by decide)
  have hmask : subnetMask .little 24 = some (some ⟨2, 0, 0x00FFFFFF⟩) := by decide
  have hhost : (create .little 0xC0A8010A 80).networkAddress .little 24 =
      some (some ⟨2, 0x5000, 0x0A000000⟩) := by decide
  rw [hsubnet, Option.some.injEq, Option.some.injEq] at hmask
  rw [hnetwork, Option.some.injEq, Option.some.injEq] at hhost
  have hkept := hright.network_eq
  rw [hmask, hhost] at hkept
  revert hkept
  decide

end SockaddrIn

end AcidCompute
