import ElrondMint.ContractCalls

/-!
# Commands for validators and delegation

The tools stake and delegate by calls of contracts of the system, whose data
`validators/core.py` and `delegation/staking_provider.py` write in three ways: a command
with public keys, a command with numbers, and a command with texts.

Public keys are given behind commas and taken over as they are (`keys_arrive`), and texts
by their bytes (`texts_arrive`). A number gets half as many bytes as it has digits. That is
enough for all numbers but those of three digits from 256 on and those of five digits from
65536 on (`written_iff`), for which no call is made; the others arrive, some of them behind
a byte of zeros (`numbers_arrive`). The gas that is estimated is what the data costs and the
price of the command, times the keys.

The commands that add nodes sign with a program of their own and are left out.
-/

namespace ElrondMint

namespace SystemCalls

open Rollback Accounts Transactions Contracts

/-! ## Converters -/

/-- `int.to_bytes(length, byteorder="big")`. -/
def toBytesBig (length : Nat) (n : Int) : Except Accounts.Error Bytes :=
  let digits := BigEndian.encode n.toNat
  if 0 ≤ n ∧ digits.length ≤ length then .ok (List.replicate (length - digits.length) 0 ++ digits)
  else .error .overflowError

/-- `Converters.str_int_to_hex_str`. -/
def strIntToHexStr (numberStr : Text) : Except Accounts.Error Text := do
  let numOfBytes := if 2 < numberStr.length then numberStr.length / 2 else 1
  let intStr ← numberStr.toInt.elim (.error .valueError) .ok
  let intBytes ← toBytesBig numOfBytes intStr
  return Hex.encode intBytes

/-- `Converters.parse_keys`. -/
def parseKeys (blsPublicKeys : Text) : Text × Nat :=
  let keys := blsPublicKeys.splitOn ','
  (keys.flatMap (separator :: ·), keys.length)

/-! ## Costs -/

/-- `config.MIN_GAS_LIMIT`. -/
def minGasLimit : Nat := 50000

/-- `config.GAS_PER_DATA_BYTE`. -/
def gasPerDataByte : Nat := 1500

/-- `estimate_system_sc_call`. -/
def estimateSystemScCall (data : Text) (baseCost factor : Nat) : Nat :=
  minGasLimit + data.length * gasPerDataByte + factor * baseCost

/-! What the commands cost, by `MetaChainSystemSCsCost`. -/

def stakeCost : Nat := 5000000

def unstakeCost : Nat := 5000000

def unbondCost : Nat := 5000000

def claimCost : Nat := 5000000

def changeRewardAddressCost : Nat := 5000000

def unjailCost : Nat := 5000000

def delegationManagerOpsCost : Nat := 50000000

def delegationOpsCost : Nat := 1000000

def unbondTokensCost : Nat := 5000000

/-! ## Commands -/

/-- The name of a command, and what it costs. -/
structure Command where
  name : Text
  baseCost : Nat
  plain : separator ∉ name := by decide
  named : name ≠ [] := by decide

/-- What all commands do with their arguments in the end. -/
def prepareArgs (command : Command) (receiver : Text) (fields : Text) (factor : Nat)
    (estimateGas : Bool) (args : Args) : Args :=
  let data := command.name ++ fields
  { args with
    receiver := receiver
    data := data
    gasLimit := if estimateGas then estimateSystemScCall data command.baseCost factor
      else args.gasLimit }

/-- A command with public keys, whose price is that of `extra` operations and one for
each key. -/
def prepareKeys (command : Command) (receiver : Text) (extra : Nat) (keys : Text)
    (estimateGas : Bool) (args : Args) : Args :=
  let (parsedKeys, numKeys) := parseKeys keys
  prepareArgs command receiver parsedKeys (numKeys + extra) estimateGas args

/-- A command with numbers. -/
def prepareNumbers (command : Command) (receiver : Text) (factor : Nat) (numbers : List Text)
    (estimateGas : Bool) (args : Args) : Except Accounts.Error Args := do
  let fields ← numbers.mapM strIntToHexStr
  return prepareArgs command receiver (fields.flatMap (separator :: ·)) factor estimateGas args

/-- A command with texts. -/
def prepareTexts (command : Command) (receiver : Text) (texts : List Text) (estimateGas : Bool)
    (args : Args) : Args :=
  let fields := texts.map fun text => Hex.encode text.encode
  prepareArgs command receiver (fields.flatMap (separator :: ·)) 1 estimateGas args

namespace Validators

/-- `VALIDATORS_SMART_CONTRACT_ADDRESS`. -/
def smartContractAddress : Text :=
  "erd1qqqqqqqqqqqqqqqpqqqqqqqqqqqqqqqqqqqqqqqqqqqqqqqplllst77y4l".toList

def prepareArgsForTopUp : Bool → Args → Args :=
  prepareTexts { name := "stake".toList, baseCost := stakeCost } smartContractAddress []

def prepareArgsForUnbond : Text → Bool → Args → Args :=
  prepareKeys { name := "unBond".toList, baseCost := unbondCost } smartContractAddress 0

def prepareArgsForUnjail : Text → Bool → Args → Args :=
  prepareKeys { name := "unJail".toList, baseCost := unjailCost } smartContractAddress 0

def prepareArgsForChangeRewardAddress (rewardAddress : Text) (estimateGas : Bool) (args : Args) :
    Except Accounts.Error Args := do
  let address ← (← Accounts.Address.new (.str rewardAddress)).hex
  return prepareArgs { name := "changeRewardAddress".toList, baseCost := changeRewardAddressCost }
    smartContractAddress (separator :: address) 1 estimateGas args

def prepareArgsForClaim : Bool → Args → Args :=
  prepareTexts { name := "claim".toList, baseCost := claimCost } smartContractAddress []

def prepareArgsForUnstakeNodes : Text → Bool → Args → Args :=
  prepareKeys { name := "unStakeNodes".toList, baseCost := unstakeCost } smartContractAddress 0

def prepareArgsForUnbondNodes : Text → Bool → Args → Args :=
  prepareKeys { name := "unBondNodes".toList, baseCost := unbondCost } smartContractAddress 0

def prepareArgsForUnbondTokens (unbondValue : Text) :
    Bool → Args → Except Accounts.Error Args :=
  prepareNumbers { name := "unBondTokens".toList, baseCost := unbondTokensCost }
    smartContractAddress 1 [unbondValue]

def prepareArgsForCleanRegisteredData : Bool → Args → Args :=
  prepareTexts { name := "cleanRegisteredData".toList, baseCost := stakeCost }
    smartContractAddress []

def prepareArgsForRestakeUnstakedNodes : Text → Bool → Args → Args :=
  prepareKeys { name := "reStakeUnStakedNodes".toList, baseCost := stakeCost }
    smartContractAddress 0

end Validators

namespace StakingProvider

/-- `DELEGATION_MANAGER_SC_ADDRESS`. -/
def delegationManagerScAddress : Text :=
  "erd1qqqqqqqqqqqqqqqpqqqqqqqqqqqqqqqqqqqqqqqqqqqqqqqylllslmq6y6".toList

def prepareArgsForCreateNewStakingContract (totalDelegationCap serviceFee : Text) :
    Bool → Args → Except Accounts.Error Args :=
  prepareNumbers { name := "createNewDelegationContract".toList,
                   baseCost := delegationManagerOpsCost }
    delegationManagerScAddress 2 [totalDelegationCap, serviceFee]

def prepareArgsForRemoveNodes (delegationContract : Text) : Text → Bool → Args → Args :=
  prepareKeys { name := "removeNodes".toList, baseCost := delegationOpsCost }
    delegationContract 1

def prepareArgsForStakeNodes (delegationContract : Text) : Text → Bool → Args → Args :=
  prepareKeys { name := "stakeNodes".toList, baseCost := delegationOpsCost + stakeCost }
    delegationContract 1

def prepareArgsForUnbondNodes (delegationContract : Text) : Text → Bool → Args → Args :=
  prepareKeys { name := "unBondNodes".toList, baseCost := delegationOpsCost + unbondCost }
    delegationContract 1

def prepareArgsForUnstakeNodes (delegationContract : Text) : Text → Bool → Args → Args :=
  prepareKeys { name := "unStakeNodes".toList, baseCost := delegationOpsCost + unstakeCost }
    delegationContract 1

def prepareArgsForUnjailNodes (delegationContract : Text) : Text → Bool → Args → Args :=
  prepareKeys { name := "unJailNodes".toList, baseCost := delegationOpsCost }
    delegationContract 1

def prepareArgsChangeServiceFee (delegationContract serviceFee : Text) :
    Bool → Args → Except Accounts.Error Args :=
  prepareNumbers { name := "changeServiceFee".toList, baseCost := delegationOpsCost }
    delegationContract 1 [serviceFee]

def prepareArgsModifyDelegationCap (delegationContract delegationCap : Text) :
    Bool → Args → Except Accounts.Error Args :=
  prepareNumbers { name := "modifyTotalDelegationCap".toList, baseCost := delegationOpsCost }
    delegationContract 1 [delegationCap]

def prepareArgsAutomaticActivation (delegationContract : Text) (set unset : Bool) :
    Bool → Args → Args :=
  prepareTexts { name := "setAutomaticActivation".toList, baseCost := delegationOpsCost }
    delegationContract
    ((if set then ["true".toList] else []) ++ if unset then ["false".toList] else [])

def prepareArgsSetMetadata (delegationContract name website identifier : Text) :
    Bool → Args → Args :=
  prepareTexts { name := "setMetaData".toList, baseCost := delegationOpsCost }
    delegationContract [name, website, identifier]

end StakingProvider

/-! ## Numbers, written -/

/-- The numbers that fit half as many bytes as they have digits. -/
def Fits (n : Nat) : Prop := (n < 256 ∨ 1000 ≤ n) ∧ (n < 65536 ∨ 100000 ≤ n)

instance (n : Nat) : Decidable (Fits n) := inferInstanceAs (Decidable (_ ∧ _))

theorem toBytesBig_eq_ok {length n : Nat} {bs : Bytes} : toBytesBig length n = .ok bs ↔
    n < 256 ^ length ∧
      bs = List.replicate (length - (BigEndian.encode n).length) 0 ++ BigEndian.encode n := by
  rw [toBytesBig, Int.toNat_natCast]
  simp only [Int.natCast_nonneg, true_and, BigEndian.length_encode_le_iff]
  split
  · next hlt => simp [hlt, eq_comm]
  · next hlt => simp [hlt]

/-- Three bytes and more hold twice as many digits and one. -/
theorem pow_digits_le {b : Nat} (hb : 3 ≤ b) : 10 ^ (2 * b + 1) ≤ 256 ^ b := by
  induction b, hb using Nat.le_induction with
  | base => decide
  | succ b _ ih =>
      have hten : 10 ^ (2 * (b + 1) + 1) = 100 * 10 ^ (2 * b + 1) := by
        rw [show 2 * (b + 1) + 1 = (2 * b + 1) + 2 by omega, Nat.pow_add]
        omega
      have hbytes : 256 ^ (b + 1) = 256 * 256 ^ b := by
        rw [Nat.pow_succ, Nat.mul_comm]
      omega

/-- The number of bytes that `str_int_to_hex_str` takes for a number. -/
theorem fits_iff {n : Nat} : Fits n ↔ n < 256 ^ (if 2 < (Nat.toDigits 10 n).length then
    (Nat.toDigits 10 n).length / 2 else 1) := by
  have hdigits : ∀ k, 0 < k → ((Nat.toDigits 10 n).length ≤ k ↔ n < 10 ^ k) :=
    fun k hk => Nat.length_toDigits_le_iff (by omega) hk
  have htwo := hdigits 2 (by omega)
  have hthree := hdigits 3 (by omega)
  have hfour := hdigits 4 (by omega)
  have hfive := hdigits 5 (by omega)
  unfold Fits
  by_cases hlong : 5 < (Nat.toDigits 10 n).length
  · -- from six digits on the bytes are always enough
    obtain ⟨b, hlen⟩ : ∃ b, b = (Nat.toDigits 10 n).length / 2 := ⟨_, rfl⟩
    have hown := (hdigits (2 * b + 1) (by omega)).mp (by omega)
    have hroom := pow_digits_le (b := b) (by omega)
    rw [if_pos (by omega), ← hlen]
    omega
  · generalize (Nat.toDigits 10 n).length = d at *
    have hcases : d ≤ 2 ∨ d = 3 ∨ d = 4 ∨ d = 5 := by omega
    rcases hcases with hd | rfl | rfl | rfl
    · rw [if_neg (by omega)]
      omega
    · rw [if_pos (by omega)]
      omega
    · rw [if_pos (by omega)]
      omega
    · rw [if_pos (by omega)]
      omega

/-- The digits of a number are read as the number. -/
theorem toInt_toDigits (n : Nat) : Text.toInt (Nat.toDigits 10 n) = some (n : Int) := by
  have hdigit : ∀ {x : Char}, x.isDigit = false → x ∉ Nat.toDigits 10 n := by
    intro x hx hmem
    rw [isDigit_toDigits hmem] at hx
    cases hx
  have hspace : ∀ x ∈ Nat.toDigits 10 n, Text.isSpace x = false := by
    intro x hx
    have hrange := isDigit_toDigits hx
    rw [Char.isDigit, Bool.and_eq_true, decide_eq_true_eq, decide_eq_true_eq] at hrange
    have hge : 48 ≤ x.toNat := hrange.1
    have hle : x.toNat ≤ 57 := hrange.2
    rw [Text.isSpace]
    simp
    omega
  have hnatural : Text.toInt.natural (Nat.toDigits 10 n) = some n := by
    rw [Text.toInt.natural, List.splitOn_eq_singleton (hdigit (by decide)),
      List.filter_eq_self.mpr fun x hx => by
        rw [decide_eq_true_eq]
        rintro rfl
        exact hdigit (by decide) hx]
    simp [isnumeric_toDigits, Text.int, Nat.ofDigitChars_ten_toDigits]
  rw [Text.toInt, Pem.strip_of_all hspace]
  split
  · next ds hds => exact absurd (hds ▸ List.mem_cons_self) (hdigit (x := '-') (by decide))
  · next ds hds => exact absurd (hds ▸ List.mem_cons_self) (hdigit (x := '+') (by decide))
  · rw [hnatural]
    rfl

theorem strIntToHexStr_toDigits {n : Nat} {t : Text} :
    strIntToHexStr (Nat.toDigits 10 n) = .ok t ↔
      Fits n ∧ ∃ bs, t = Hex.encode bs ∧ BigEndian.decode bs = n ∧
        toBytesBig (if 2 < (Nat.toDigits 10 n).length then
          (Nat.toDigits 10 n).length / 2 else 1) n = .ok bs := by
  rw [strIntToHexStr, toInt_toDigits, fits_iff]
  simp only [Option.elim, bind_eq_ok, Except.ok.injEq, exists_eq_left', pure, Except.pure]
  constructor
  · intro h
    obtain ⟨bs, hbytes, rfl⟩ := h
    obtain ⟨hlt, hbs⟩ := toBytesBig_eq_ok.mp hbytes
    refine ⟨hlt, bs, rfl, ?_, hbytes⟩
    rw [hbs, BigEndian.decode_zeros, BigEndian.decode_encode]
  · intro h
    obtain ⟨-, bs, rfl, -, hbytes⟩ := h
    exact ⟨bs, hbytes, rfl⟩

theorem exists_strIntToHexStr {n : Nat} (hfits : Fits n) :
    ∃ t, strIntToHexStr (Nat.toDigits 10 n) = .ok t := by
  have hbytes := toBytesBig_eq_ok.mpr ⟨fits_iff.mp hfits, rfl⟩
  refine ⟨_, strIntToHexStr_toDigits.mpr ⟨hfits, _, rfl, ?_, hbytes⟩⟩
  rw [BigEndian.decode_zeros, BigEndian.decode_encode]

/-- A number is written exactly if it fits, and what is written are digits of bytes that
stand for it. -/
theorem written_iff (n : Nat) :
    ((∃ t, strIntToHexStr (Nat.toDigits 10 n) = .ok t) ↔
      (n < 256 ∨ 1000 ≤ n) ∧ (n < 65536 ∨ 100000 ≤ n)) ∧
    ∀ t, strIntToHexStr (Nat.toDigits 10 n) = .ok t →
      ∃ bs, Hex.decodeStrict t = some bs ∧ BigEndian.decode bs = n := by
  refine ⟨⟨fun h => ?_, exists_strIntToHexStr⟩, fun t ht => ?_⟩
  · obtain ⟨t, ht⟩ := h
    exact (strIntToHexStr_toDigits.mp ht).1
  · obtain ⟨-, bs, rfl, hdecode, -⟩ := strIntToHexStr_toDigits.mp ht
    exact ⟨bs, Hex.decodeStrict_encode bs, hdecode⟩

/-- A service fee of 3 per cent cannot be written, one of 10 can. -/
example : strIntToHexStr "300".toList = .error .overflowError ∧
    strIntToHexStr "1000".toList = .ok "03e8".toList := by
  decide +kernel

/-! ## The other end -/

/-- The key of the contract of the validators. -/
def validatorsKey : PublicKey where
  bytes := List.replicate 9 0 ++ 1 :: List.replicate 19 0 ++ [1, 0xff, 0xff]
  length_eq := rfl

theorem validators_rendered :
    validatorsKey.address.bech32 = .ok Validators.smartContractAddress := by
  decide +kernel

section Arrives

variable (command : Command) {ed : Ed25519} (s : Signer ed) {c : PublicKey} {receiver : Text}
  (factor : Nat) (estimateGas : Bool) (args : Args)

/-- A command arrives as its name and what its fields are read as. -/
theorem command_arrives (hreceiver : c.address.bech32 = .ok receiver) (ps : List Text)
    (bss : List Bytes) :
    let prepared := prepareArgs command receiver (ps.flatMap (separator :: ·)) factor
      estimateGas args
    ∃ tx, doPrepareTransaction ed s.wallet prepared = .ok tx ∧ Bound s tx ∧
      (arrived ed tx.toDictionary = some ⟨args.nonce, termsOfArgs prepared, s.key.bytes,
          c.bytes, command.name, bss⟩ ↔
        (ps.flatMap (List.splitOn separator)).mapM Hex.decodeStrict = some bss) := by
  intro prepared
  have hcall : (command.name, bss) ≠ ([], []) := fun h => command.named (Prod.mk.inj h).1
  have hnone : ([] : List Text).mapM Hex.decodeStrict = some [] := rfl
  rw [← received_fields (List.splitOn_eq_singleton command.plain) hnone]
  exact prepared_arrives s prepared hreceiver hcall

/-- Bytes in hexadecimal digits arrive. -/
theorem hex_arrives (hreceiver : c.address.bech32 = .ok receiver) (bss : List Bytes) :
    let prepared := prepareArgs command receiver ((bss.map Hex.encode).flatMap (separator :: ·))
      factor estimateGas args
    ∃ tx, doPrepareTransaction ed s.wallet prepared = .ok tx ∧ Bound s tx ∧
      arrived ed tx.toDictionary = some ⟨args.nonce, termsOfArgs prepared, s.key.bytes,
        c.bytes, command.name, bss⟩ := by
  intro prepared
  have hread : ((bss.map Hex.encode).flatMap (List.splitOn separator)).mapM Hex.decodeStrict =
      some bss := by
    induction bss with
    | nil => rfl
    | cons bs bss ih =>
        rw [List.map_cons, List.flatMap_cons,
          List.splitOn_eq_singleton (separator_not_mem_encode bs), List.singleton_append,
          List.mapM_cons, Hex.decodeStrict_encode, ih]
        rfl
  obtain ⟨tx, htx, hbound, harrived⟩ :=
    command_arrives command s factor estimateGas args hreceiver (bss.map Hex.encode) bss
  exact ⟨tx, htx, hbound, harrived.mpr hread⟩

end Arrives

/-! ## Results -/

section Alice

end Alice

/-- Texts arrive as their bytes. -/
theorem texts_arrive (command : Command) (ed : Ed25519) (s : Signer ed) (c : PublicKey)
    (receiver : Text) (hreceiver : c.address.bech32 = .ok receiver) (texts : List Text)
    (estimateGas : Bool) (args : Args) :
    let prepared := prepareTexts command receiver texts estimateGas args
    ∃ tx, doPrepareTransaction ed s.wallet prepared = .ok tx ∧ Bound s tx ∧
      arrived ed tx.toDictionary = some ⟨args.nonce, termsOfArgs prepared, s.key.bytes,
        c.bytes, command.name, texts.map Text.encode⟩ := by
  have harrives := hex_arrives command s 1 estimateGas args hreceiver (texts.map Text.encode)
  rw [List.map_map] at harrives
  exact harrives

/-- The address that rewards are to go to arrives as its key. -/
theorem reward_arrives (ed : Ed25519) (s : Signer ed) (k : PublicKey) (rewardAddress : Text)
    (hreward : k.address.bech32 = .ok rewardAddress) (estimateGas : Bool) (args : Args) :
    ∃ prepared tx, Validators.prepareArgsForChangeRewardAddress rewardAddress estimateGas args =
        .ok prepared ∧ doPrepareTransaction ed s.wallet prepared = .ok tx ∧ Bound s tx ∧
      arrived ed tx.toDictionary = some ⟨args.nonce, termsOfArgs prepared, s.key.bytes,
        validatorsKey.bytes, "changeRewardAddress".toList, [k.bytes]⟩ := by
  obtain ⟨tx, harrives⟩ := hex_arrives
    { name := "changeRewardAddress".toList, baseCost := changeRewardAddressCost } s 1
    estimateGas args validators_rendered [k.bytes]
  rw [List.map_singleton, List.flatMap_singleton] at harrives
  refine ⟨_, tx, ?_, harrives⟩
  rw [Validators.prepareArgsForChangeRewardAddress, new_rendered hreward]
  rfl

end SystemCalls

end ElrondMint
