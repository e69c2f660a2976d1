import ElrondMint.Accounts

/-!
# Where a contract will be

`compute_address` of `contracts.py` foresees the address of a contract from who
deploys it and at which nonce: eight zeros, the virtual machine, twenty bytes of a
hash and the last two bytes of the owner, which put the contract on the owner's
shard. `dns.py` uses it for the 256 name contracts, whose deployers are made up.

The address is a key of its own (`contract_address_iff`), two deployments share
one only if the hash takes two different inputs for one (`same_contract_address`),
and each name belongs to one of 256 contracts at different addresses
(`dns_addresses`).

Keccak is a parameter, of which nothing is known but how much it answers.
-/

namespace ElrondMint

namespace Contracts

open Rollback Accounts

/-- Keccak, with digests of 256 bits. -/
structure Keccak where
  digest : Bytes → Bytes
  length_digest : ∀ bytes, (digest bytes).length = 32

/-- An account, with what is read of it here. Its address was made by `Address`. -/
structure Account where
  address : Accounts.Address
  nonce : Nat
  made : ∃ value, Address.new value = .ok address

/-- `Account(address=value)`. -/
def Account.new (value : Value) : Except Accounts.Error Account :=
  match h : Address.new value with
  | .error e => .error e
  | .ok address => .ok { address := address, nonce := 0, made := ⟨value, h⟩ }

/-- `int.to_bytes(8, "little")`. -/
def toBytesLittle (n : Nat) : Except Accounts.Error Bytes :=
  if n < 2 ^ 64 then .ok ((List.range 8).map fun i => UInt8.ofNat (n / 256 ^ i))
  else .error .overflowError

/-- `compute_address`. -/
def computeAddress (keccak : Keccak) (owner : Account) :
    Except Accounts.Error Accounts.Address := do
  let ownerBytes ← owner.address.pubkey
  let nonceBytes ← toBytesLittle owner.nonce
  let bytesToHash := ownerBytes ++ nonceBytes
  let address := keccak.digest bytesToHash
  let address := List.replicate 8 0 ++ [5, 0] ++ (address.take 30).drop 10 ++ ownerBytes.drop 30
  Address.new (.bytes address)

/-! ## `dns.py` -/

/-- `compute_dns_address_for_shard_id`. -/
def computeDnsAddressForShardId (keccak : Keccak) (shardId : Nat) :
    Except Accounts.Error Accounts.Address := do
  if shardId ≥ 256 then .error .valueError
  let deployerPubkey := List.replicate 30 1 ++ [0, UInt8.ofNat shardId]
  let deployer ← Account.new (.bytes deployerPubkey)
  computeAddress keccak deployer

/-- `compute_all_dns_addresses`. -/
def computeAllDnsAddresses (keccak : Keccak) : Except Accounts.Error (List Accounts.Address) :=
  (List.range 256).mapM (computeDnsAddressForShardId keccak)

/-- `dns_address_for_name`, with `name_hash` written out. -/
def dnsAddressForName (keccak : Keccak) (name : Text) :
    Except Accounts.Error Accounts.Address := do
  let hash := keccak.digest name.encode
  match hash[31]? with
  | none => .error .indexError
  | some shardId => computeDnsAddressForShardId keccak shardId.toNat

/-! ## The address of a contract -/

variable {keccak : Keccak} {owner owner₁ owner₂ : Account} {a a₁ a₂ : Accounts.Address}
  {k k₁ k₂ : PublicKey} {n : Nat}

theorem toBytesLittle_eq_ok {bs : Bytes} : toBytesLittle n = .ok bs ↔
    n < 2 ^ 64 ∧ bs = (List.range 8).map fun i => UInt8.ofNat (n / 256 ^ i) := by
  rw [toBytesLittle]
  split
  · next h =>
    rw [Except.ok.injEq]
    exact ⟨fun hbs => ⟨h, hbs.symm⟩, fun hbs => hbs.2.symm⟩
  · next h =>
    constructor
    · intro herror
      simp at herror
    · intro h
      obtain ⟨hlt, -⟩ := h
      exact absurd hlt h

/-- Eight bytes tell a number below `2 ^ 64`. -/
theorem toBytesLittle_injective {m n : Nat} {bs : Bytes} (hm : toBytesLittle m = .ok bs)
    (hn : toBytesLittle n = .ok bs) : m = n := by
  obtain ⟨hmlt, rfl⟩ := toBytesLittle_eq_ok.mp hm
  obtain ⟨hnlt, heq⟩ := toBytesLittle_eq_ok.mp hn
  have hbyte : ∀ i < 8, m / 256 ^ i % 256 = n / 256 ^ i % 256 := by
    intro i hi
    have hat := congrArg (fun l : Bytes => (l.map UInt8.toNat).getD i 0) heq
    simpa [List.getD_eq_getElem?_getD, hi] using hat
  have h0 := hbyte 0 (by omega)
  have h1 := hbyte 1 (by omega)
  have h2 := hbyte 2 (by omega)
  have h3 := hbyte 3 (by omega)
  have h4 := hbyte 4 (by omega)
  have h5 := hbyte 5 (by omega)
  have h6 := hbyte 6 (by omega)
  have h7 := hbyte 7 (by omega)
  omega

/-- What is hashed for an owner's next deployment. -/
def preimage (owner : Account) (k : PublicKey) : Bytes :=
  k.bytes ++ (List.range 8).map fun i => UInt8.ofNat (owner.nonce / 256 ^ i)

/-- The twenty bytes that come from the hash. -/
def hashPart (keccak : Keccak) (bytes : Bytes) : Bytes := ((keccak.digest bytes).take 30).drop 10

@[simp] theorem length_hashPart (keccak : Keccak) (bytes : Bytes) :
    (hashPart keccak bytes).length = 20 := by
  rw [hashPart, List.length_drop, List.length_take, keccak.length_digest]
  rfl

/-- The key at which a contract will be. -/
def contractKey (keccak : Keccak) (owner : Account) (k : PublicKey) : PublicKey where
  bytes := List.replicate 8 0 ++ [5, 0] ++ hashPart keccak (preimage owner k) ++ k.bytes.drop 30
  length_eq := by
    simp [k.length_eq, pubkeyLength]

theorem length_pubkey_le (owner : Account) {bs : Bytes} (h : owner.address.pubkey = .ok bs) :
    bs.length ≤ 32 := by
  obtain ⟨value, hmade⟩ := owner.made
  obtain ⟨s, hs, hdec⟩ := pubkey_eq_ok.mp h
  have hlen := length_valueHex hmade hs hdec
  have hcount := Hex.length_of_decode hdec
  unfold pubkeyStringLength pubkeyLength at hlen
  omega

theorem computeAddress_eq_ok : computeAddress keccak owner = .ok a ↔
    ∃ k : PublicKey, owner.address.pubkey = .ok k.bytes ∧ owner.nonce < 2 ^ 64 ∧
      a = (contractKey keccak owner k).address := by
  simp only [computeAddress, bind_eq_ok, toBytesLittle_eq_ok]
  constructor
  · intro h
    obtain ⟨ownerBytes, hkey, nonceBytes, ⟨hnonce, rfl⟩, hnew⟩ := h
    have hle := length_pubkey_le owner hkey
    have hpart := length_hashPart keccak
      (ownerBytes ++ (List.range 8).map fun i => UInt8.ofNat (owner.nonce / 256 ^ i))
    by_cases hlen : ownerBytes.length = pubkeyLength
    · have hcontract := new_pubkey (contractKey keccak owner ⟨ownerBytes, hlen⟩)
      exact ⟨⟨ownerBytes, hlen⟩, hkey, hnonce, Except.ok.inj (hnew.symm.trans hcontract)⟩
    · -- a short key makes a short address, which is none
      exfalso
      have hsize : (List.replicate 8 0 ++ [5, 0] ++ hashPart keccak (ownerBytes ++
          (List.range 8).map fun i => UInt8.ofNat (owner.nonce / 256 ^ i)) ++
          ownerBytes.drop 30 : Bytes).length = 30 + (ownerBytes.length - 30) := by
        simp only [List.length_append, List.length_replicate, List.length_cons, List.length_nil,
          hpart, List.length_drop]
      have hshort : ownerBytes.length - 30 < 2 := by
        unfold pubkeyLength at hlen
        omega
      have hrefused := new_bytes_refused (by rw [hsize]; omega)
        (by rw [hsize]; unfold pubkeyLength; omega)
        (by rw [hsize]; unfold pubkeyStringLength pubkeyLength; omega)
        (by rw [hsize]; unfold bech32Length; omega)
      have hcontra := hrefused.symm.trans hnew
      simp at hcontra
  · intro h
    obtain ⟨k, hkey, hnonce, rfl⟩ := h
    exact ⟨k.bytes, hkey, _, ⟨hnonce, rfl⟩, new_pubkey (contractKey keccak owner k)⟩

theorem zeros_prefix_contractKey (keccak : Keccak) (owner : Account) (k : PublicKey) :
    List.replicate 8 0 <+: (contractKey keccak owner k).bytes :=
  ⟨[5, 0] ++ hashPart keccak (preimage owner k) ++ k.bytes.drop 30, by simp [contractKey]⟩

theorem address_injective (h : k₁.address = k₂.address) : k₁.bytes = k₂.bytes :=
  Hex.encode_injective (Option.some.inj (congrArg Accounts.Address.valueHex h))

theorem contractKey_eq : (contractKey keccak owner₁ k₁).bytes = (contractKey keccak owner₂ k₂).bytes ↔
    k₁.bytes.drop 30 = k₂.bytes.drop 30 ∧
      hashPart keccak (preimage owner₁ k₁) = hashPart keccak (preimage owner₂ k₂) := by
  unfold contractKey
  constructor
  · intro h
    obtain ⟨hfront, hback⟩ := List.append_inj h (by simp)
    exact ⟨hback, List.append_cancel_left hfront⟩
  · intro h
    obtain ⟨hback, hpart⟩ := h
    simp only [hback, hpart]

/-- What is hashed tells the owner and the nonce. -/
theorem preimage_eq (hnonce₁ : owner₁.nonce < 2 ^ 64) (hnonce₂ : owner₂.nonce < 2 ^ 64) :
    preimage owner₁ k₁ = preimage owner₂ k₂ ↔
      k₁.bytes = k₂.bytes ∧ owner₁.nonce = owner₂.nonce := by
  unfold preimage
  constructor
  · intro h
    obtain ⟨hkey, hbytes⟩ := List.append_inj h (by rw [k₁.length_eq, k₂.length_eq])
    exact ⟨hkey, toBytesLittle_injective (toBytesLittle_eq_ok.mpr ⟨hnonce₁, rfl⟩)
      (toBytesLittle_eq_ok.mpr ⟨hnonce₂, hbytes⟩)⟩
  · intro h
    obtain ⟨hkey, hnonce⟩ := h
    rw [hkey, hnonce]

/-- Two deployments get one address exactly if their owners are on one shard and the
hash answers alike in twenty bytes; and what it is asked differs, unless it is the same
owner at the same nonce. -/
theorem same_contract_address (h₁ : computeAddress keccak owner₁ = .ok a₁)
    (h₂ : computeAddress keccak owner₂ = .ok a₂) :
    ∃ k₁ k₂ : PublicKey, owner₁.address.pubkey = .ok k₁.bytes ∧
      owner₂.address.pubkey = .ok k₂.bytes ∧
      (a₁ = a₂ ↔ k₁.bytes.drop 30 = k₂.bytes.drop 30 ∧
        hashPart keccak (preimage owner₁ k₁) = hashPart keccak (preimage owner₂ k₂)) ∧
      (preimage owner₁ k₁ = preimage owner₂ k₂ ↔
        k₁.bytes = k₂.bytes ∧ owner₁.nonce = owner₂.nonce) := by
  obtain ⟨k₁, hkey₁, hnonce₁, rfl⟩ := computeAddress_eq_ok.mp h₁
  obtain ⟨k₂, hkey₂, hnonce₂, rfl⟩ := computeAddress_eq_ok.mp h₂
  refine ⟨k₁, k₂, hkey₁, hkey₂, ?_, preimage_eq hnonce₁ hnonce₂⟩
  rw [← contractKey_eq]
  constructor
  · intro h
    exact address_injective h
  · intro h
    rw [PublicKey.address, PublicKey.address, h]

section Alice

/-- The key of the wallet `alice`. -/
def aliceKey : PublicKey where
  bytes :=
    [0x01, 0x39, 0x47, 0x2e, 0xff, 0x68, 0x86, 0x77, 0x1a, 0x98, 0x2f, 0x30, 0x83, 0xda, 0x5d,
     0x42, 0x1f, 0x24, 0xc2, 0x91, 0x81, 0xe6, 0x38, 0x88, 0x22, 0x8d, 0xc8, 0x1c, 0xa6, 0x0d,
     0x69, 0xe1]
  length_eq := rfl

/-- What Keccak answers for `aliceKey` at its first two nonces. -/
def aliceKeccak : Keccak where
  digest bytes :=
    if bytes = aliceKey.bytes ++ [0, 0, 0, 0, 0, 0, 0, 0] then
      [0xd5, 0xde, 0xd6, 0xfb, 0xc4, 0x21, 0xd1, 0xeb, 0xe4, 0xbd, 0xed, 0x8e, 0x25, 0xa9, 0x4e,
       0xfa, 0x83, 0x7a, 0xae, 0x0e, 0x59, 0x31, 0x12, 0xcf, 0xbb, 0x01, 0xb4, 0x48, 0x75, 0x50,
       0x00, 0x90]
    else
      [0x29, 0xc4, 0xae, 0x27, 0x76, 0xe4, 0x5e, 0x0b, 0x52, 0xc7, 0x54, 0xaa, 0xba, 0x31, 0xff,
       0xe3, 0xf0, 0xc1, 0xbb, 0xa1, 0xf9, 0x45, 0x41, 0x0c, 0xe7, 0x12, 0x71, 0x90, 0xb2, 0x50,
       0xf8, 0xb6]
  length_digest bytes := by
    split
    · rfl
    · rfl

def aliceAt (nonce : Nat) : Account where
  address := aliceKey.address
  nonce := nonce
  made := ⟨_, new_pubkey aliceKey⟩

theorem same_contract_address_alice :
    ∃ k₁ k₂ : PublicKey, (aliceAt 0).address.pubkey = .ok k₁.bytes ∧
      (aliceAt 1).address.pubkey = .ok k₂.bytes ∧
      ((contractKey aliceKeccak (aliceAt 0) aliceKey).address =
          (contractKey aliceKeccak (aliceAt 1) aliceKey).address ↔
        k₁.bytes.drop 30 = k₂.bytes.drop 30 ∧
          hashPart aliceKeccak (preimage (aliceAt 0) k₁) =
            hashPart aliceKeccak (preimage (aliceAt 1) k₂)) ∧
      (preimage (aliceAt 0) k₁ = preimage (aliceAt 1) k₂ ↔
        k₁.bytes = k₂.bytes ∧ (aliceAt 0).nonce = (aliceAt 1).nonce) :=
  same_contract_address
    (computeAddress_eq_ok.mpr ⟨aliceKey, address_pubkey aliceKey, Nat.two_pow_pos 64, rfl⟩)
    (computeAddress_eq_ok.mpr ⟨aliceKey, address_pubkey aliceKey, by decide, rfl⟩)

end Alice

/-! ## The name contracts -/

/-- The made-up deployer of a name contract. -/
def dnsDeployer (shardId : UInt8) : PublicKey where
  bytes := List.replicate 30 1 ++ [0, shardId]
  length_eq := rfl

def dnsOwner (shardId : UInt8) : Account where
  address := (dnsDeployer shardId).address
  nonce := 0
  made := ⟨_, new_pubkey (dnsDeployer shardId)⟩

theorem Account.new_eq_ok {value : Value} (h : Address.new value = .ok a) :
    Account.new value = .ok { address := a, nonce := 0, made := ⟨value, h⟩ } := by
  rw [Account.new]
  split
  · next e herror =>
    rw [h] at herror
    simp at herror
  · next address hok =>
    obtain rfl := Except.ok.inj (h.symm.trans hok)
    rfl

/-- The key of a name contract. -/
def dnsKey (keccak : Keccak) (shardId : UInt8) : PublicKey :=
  contractKey keccak (dnsOwner shardId) (dnsDeployer shardId)

theorem computeDnsAddressForShardId_eq (keccak : Keccak) (shardId : UInt8) :
    computeDnsAddressForShardId keccak shardId.toNat = .ok (dnsKey keccak shardId).address := by
  have hlt := shardId.toNat_lt
  have hcompute : computeAddress keccak (dnsOwner shardId) = .ok (dnsKey keccak shardId).address :=
    computeAddress_eq_ok.mpr ⟨dnsDeployer shardId, address_pubkey _, Nat.two_pow_pos 64, rfl⟩
  rw [computeDnsAddressForShardId, if_neg (by omega), UInt8.ofNat_toNat]
  exact bind_eq_ok.mpr ⟨dnsOwner shardId, Account.new_eq_ok (new_pubkey (dnsDeployer shardId)),
    hcompute⟩

theorem dnsAddressForName_eq {name : Text} {shardId : UInt8}
    (h : (keccak.digest name.encode)[31]? = some shardId) :
    dnsAddressForName keccak name = .ok (dnsKey keccak shardId).address := by
  rw [dnsAddressForName]
  simp only [h, computeDnsAddressForShardId_eq]

/-- The last byte of a digest. -/
theorem exists_shardId (keccak : Keccak) (bytes : Bytes) :
    ∃ shardId, (keccak.digest bytes)[31]? = some shardId := by
  have hlast : 31 < (keccak.digest bytes).length := by
    rw [keccak.length_digest]
    omega
  exact ⟨_, List.getElem?_eq_getElem hlast⟩

/-- A name contract's address ends in its number. -/
theorem dnsKey_injective {i j : UInt8} (h : (dnsKey keccak i).address = (dnsKey keccak j).address) :
    i = j := by
  have hends := (contractKey_eq.mp (address_injective h)).1
  have hend : ∀ i : UInt8, (dnsDeployer i).bytes.drop 30 = [0, i] := fun _ => rfl
  rw [hend, hend] at hends
  simpa using hends

theorem computeAllDnsAddresses_eq (keccak : Keccak) : computeAllDnsAddresses keccak =
    .ok ((List.range 256).map fun i => (dnsKey keccak (UInt8.ofNat i)).address) := by
  have hone : ∀ i ∈ List.range 256, computeDnsAddressForShardId keccak i =
      .ok (dnsKey keccak (UInt8.ofNat i)).address := by
    intro i hi
    have hlt := List.mem_range.mp hi
    have hshard := computeDnsAddressForShardId_eq keccak (UInt8.ofNat i)
    rwa [UInt8.toNat_ofNat', Nat.mod_eq_of_lt hlt] at hshard
  exact mapM_eq_ok hone

/-- There are 256 name contracts at different addresses, all of them contracts', and
each name has its own among them, at the place its hash ends in. -/
theorem dns_addresses (keccak : Keccak) :
    ∃ addresses, computeAllDnsAddresses keccak = .ok addresses ∧ addresses.length = 256 ∧
      addresses.Nodup ∧ (∀ a ∈ addresses, a.isContractAddress = .ok true) ∧
      ∀ name : Text, ∃ shardId a, (keccak.digest name.encode)[31]? = some shardId ∧
        addresses[shardId.toNat]? = some a ∧ dnsAddressForName keccak name = .ok a := by
  refine ⟨_, computeAllDnsAddresses_eq keccak, by rw [List.length_map, List.length_range], ?_, ?_, ?_⟩
  · rw [List.nodup_map_iff_inj_on List.nodup_range]
    intro i hi j hj h
    have hbyte := congrArg UInt8.toNat (dnsKey_injective h)
    rw [UInt8.toNat_ofNat', UInt8.toNat_ofNat'] at hbyte
    have hi := List.mem_range.mp hi
    have hj := List.mem_range.mp hj
    omega
  · intro a ha
    obtain ⟨i, -, rfl⟩ := List.mem_map.mp ha
    exact isContractAddress_iff.mpr (zeros_prefix_contractKey keccak _ _)
  · intro name
    obtain ⟨shardId, hshard⟩ := exists_shardId keccak name.encode
    refine ⟨shardId, (dnsKey keccak shardId).address, hshard, ?_, dnsAddressForName_eq hshard⟩
    rw [List.getElem?_map, List.getElem?_range shardId.toNat_lt, Option.map_some,
      UInt8.ofNat_toNat]

end Contracts

end ElrondMint
