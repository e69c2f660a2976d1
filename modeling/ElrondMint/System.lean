import ElrondMint.Contract

/-!
# Transactions and runs

A transaction is a caller, a payment and a call; the framework checks the
payment against the endpoint's annotation, the host credits it, and the
endpoint runs. The only other thing that happens is that a parcel sent by an
asynchronous transfer settles. `exec` performs either; a run is any sequence
of them from a successful deployment (`Lib/Rollback.lean`), so it interleaves
the calls of all parties in any order.

What the properties talk about is read off the records of the history:
`signed` and `performed` for the validators' calls, `inserted` and `reads`
for the event log.
-/

namespace ElrondMint

open Custody Rollback

/-- The endpoints with their arguments. -/
inductive Call where
  | eventRead (id : Nat)
  | freezeSend (chainNonce : UInt64) (recipient : String)
  | freezeSendNft (chainNonce : UInt64) (recipient : String)
  | withdrawNft (recipient : String)
  | withdraw (recipient : String)
  | deposit
  | proposeAddValidator (uuid : Nat) (boardMemberAddress : Address)
  | proposeRemoveUser (uuid : Nat) (userAddress : Address)
  | proposeChangeMinValid (uuid : Nat) (newQuorum : Nat)
  | validateUnfreeze (uuid : Nat) (recipient : Address) (amount : Nat)
  | validateUnfreezeNft (uuid : Nat) (recipient : Address)
      (token : TokenIdentifier) (nonce : UInt64)
  | validateSendWrapped (uuid : Nat) (chainNonce : UInt64)
      (recipient : Address) (amount : Nat) (optData : Option Bytes)
  | validateSendNft (uuid : Nat) (chainNonce : UInt64) (recipient : Address)
      (id : Bytes)
  deriving DecidableEq, Repr

/-- `#[payable]`. -/
def Call.payable : Call → Payable
  | .freezeSend .. => .egld
  | .freezeSendNft .. | .withdrawNft .. | .withdraw .. | .deposit => .any
  | _ => .no

/-- The uuid and the action a validator's call stands for. -/
def Call.signs : Call → Option (Nat × Action)
  | .proposeAddValidator uuid addr => some (uuid, .addValidator addr)
  | .proposeRemoveUser uuid addr => some (uuid, .removeUser addr)
  | .proposeChangeMinValid uuid newQuorum => some (uuid, .changeMinValid newQuorum)
  | .validateUnfreeze uuid recipient amount =>
      some (uuid, .unfreeze recipient amount)
  | .validateUnfreezeNft uuid recipient token nonce =>
      some (uuid, .unfreezeNft recipient token nonce)
  | .validateSendWrapped uuid chainNonce recipient amount optData =>
      some (uuid, .sendWrapped chainNonce recipient amount (optData.getD []))
  | .validateSendNft uuid chainNonce recipient id =>
      some (uuid, .sendNft chainNonce recipient id)
  | _ => none

structure Tx where
  caller : Address
  payment : Payment
  hostOk : Bool
  call : Call
  deriving DecidableEq, Repr

/-- What a call answers. -/
inductive Ret where
  | unit
  | ident (id : Nat)
  | info (info : EventInfo)
  | flow (flow : Flow PerformActionResult)
  deriving DecidableEq, Repr

/-- The end of a validator's call. -/
def conclude (hostOk : Bool) :
    Flow PerformActionResult × World → Except Failure (Ret × World)
  | (.exited call, w) => .ok (.flow (.exited call), w)
  | (.returned res, w) => do
      let w ← res.finish w hostOk
      .ok (.flow (.returned res), w)

/-- Runs the endpoint a transaction calls. -/
def invoke (w : World) (tx : Tx) : Except Failure (Ret × World) :=
  let p := tx.payment
  match tx.call with
  | .eventRead id => do
      let (info, s) ← eventRead w.toStorage tx.caller id
      .ok (.info info, { w with toStorage := s })
  | .freezeSend chainNonce recipient => do
      let (ident, w) ← freezeSend w p.value chainNonce recipient
      .ok (.ident ident, w)
  | .freezeSendNft chainNonce recipient => do
      let (ident, w) ← freezeSendNft w p.token p.value p.nonce chainNonce recipient
      .ok (.ident ident, w)
  | .withdrawNft recipient => do
      let (ident, w) ← withdrawNft w tx.hostOk p.token p.nonce recipient
      .ok (.ident ident, w)
  | .withdraw recipient => do
      let (ident, w) ← withdraw w tx.hostOk p.value p.token p.nonce recipient
      .ok (.ident ident, w)
  | .deposit => .ok (.unit, deposit w)
  | .proposeAddValidator uuid addr =>
      proposeAddValidator w tx.caller tx.hostOk uuid addr >>= conclude tx.hostOk
  | .proposeRemoveUser uuid addr =>
      proposeRemoveUser w tx.caller tx.hostOk uuid addr >>= conclude tx.hostOk
  | .proposeChangeMinValid uuid newQuorum =>
      proposeChangeMinValid w tx.caller tx.hostOk uuid newQuorum >>=
        conclude tx.hostOk
  | .validateUnfreeze uuid recipient amount =>
      validateUnfreeze w tx.caller tx.hostOk uuid recipient amount >>=
        conclude tx.hostOk
  | .validateUnfreezeNft uuid recipient token nonce =>
      validateUnfreezeNft w tx.caller tx.hostOk uuid recipient token nonce >>=
        conclude tx.hostOk
  | .validateSendWrapped uuid chainNonce recipient amount optData =>
      validateSendWrapped w tx.caller tx.hostOk uuid chainNonce recipient amount
        optData >>= conclude tx.hostOk
  | .validateSendNft uuid chainNonce recipient id =>
      validateSendNft w tx.caller tx.hostOk uuid chainNonce recipient id >>=
        conclude tx.hostOk

/-- What can happen: a transaction, or the `i`-th parcel in flight settling. -/
inductive Act where
  | tx (tx : Tx)
  | settle (i : Nat) (accepted : Bool)
  deriving DecidableEq, Repr

def exec (w : World) : Act → Except Failure (Ret × World)
  | .tx tx => do
      tx.call.payable.check tx.payment
      let chain ← w.chain.receive tx.payment
      invoke { w with chain := chain } tx
  | .settle i accepted =>
      .ok (.unit, { w with chain := w.chain.settle i accepted })

/-- A deployment: `init` on empty storage, with the account the contract
finds itself with. -/
def deploy (chain : Ledger) (token nftToken : TokenIdentifier) (minValid : Nat)
    (validators : List Address) : Except Failure World := do
  let s ← init .empty token nftToken minValid validators
  .ok { s with chain := chain }

/-- The world a deployment ends in, where it succeeds. -/
def deployed (chain : Ledger) (token nftToken : TokenIdentifier) (minValid : Nat)
    (validators : List Address) : World :=
  match deploy chain token nftToken minValid validators with
  | .ok w => w
  | .error _ => { Storage.empty with chain := chain }

theorem deploy_eq {chain : Ledger} {token nftToken : TokenIdentifier}
    {minValid : Nat} {validators : List Address}
    (h : (deploy chain token nftToken minValid validators).isOk = true) :
    deploy chain token nftToken minValid validators =
      .ok (deployed chain token nftToken minValid validators) := by
  unfold deployed
  split
  · next w hw => exact hw
  · next e he =>
      rw [he] at h
      cases h

abbrev Rec := Record World Act Failure Ret

/-! ## The parties of the scenario tests

Concrete runs, where a file shows one, are played by these: four users, a
wrapper collection and an NFT collection, and an account that holds nothing
when the contract is deployed. -/

def alice : Address := 1
def bob : Address := 2
def charlie : Address := 3
def dan : Address := 4

def xpdt : TokenIdentifier := [0x58, 0x50, 0x44, 0x54]
def xpnft : TokenIdentifier := [0x58, 0x50, 0x4e, 0x46, 0x54]

def Ledger.fresh : Ledger where
  egld := 0
  esdt := ⟨fun _ => 0, fun _ => 0, []⟩
  lastNonce _ := 0
  tokenData _ _ := .default

/-- A deployment on a fresh account. -/
def freshWorld (minValid : Nat) (validators : List Address) : World :=
  deployed .fresh xpdt xpnft minValid validators

/-- The board most scenarios start from: three validators, two to agree. -/
theorem three_isOk : (deploy .fresh xpdt xpnft 2 [alice, bob, charlie]).isOk = true := by
  decide +kernel

theorem deploy_three : deploy .fresh xpdt xpnft 2 [alice, bob, charlie] =
    .ok (freshWorld 2 [alice, bob, charlie]) :=
  deploy_eq three_isOk

/-- A transaction without payment that the host does not interfere with. -/
def send (caller : Address) (call : Call) : Act :=
  .tx ⟨caller, .egld 0, true, call⟩

/-- A vote for sending dan an NFT under uuid 1. -/
def nftVote : Call := .validateSendNft 1 9 dan [7]

/-! ## What a record shows -/

/-- The caller, the uuid and the action of a validator's call. -/
def Act.signs : Act → Option (Address × Nat × Action)
  | .tx t => t.call.signs.map fun ua => (t.caller, ua)
  | .settle .. => none

/-- A `propose*` or `validate*` call that succeeded. -/
def signed (r : Rec) : Option (Address × Nat × Action) :=
  match r.ret with
  | .ok _ => r.act.signs
  | .error _ => none

/-- The uuid and the action of a call that executed its action. -/
def performed (r : Rec) : Option (Nat × Action) :=
  match r.ret with
  | .ok (.flow (.returned .pending)) => none
  | .ok (.flow _) => r.act.signs.map Prod.snd
  | _ => none

/-- The uuid of a call whose execution ended in an asynchronous transfer. -/
def exitedId (r : Rec) : Option Nat :=
  match r.ret with
  | .ok (.flow (.exited _)) => r.act.signs.map fun s => s.2.1
  | _ => none

/-- The id and the payload of the event a call inserted. -/
def inserted (r : Rec) : Option (Nat × Event) :=
  match r.ret with
  | .ok (.ident k) => (r.post.eventMapper.get k).map fun info => (k, info.event)
  | _ => none

/-- The caller, the event id and the answer of an `eventRead` that
succeeded. -/
def reads (r : Rec) : Option (Address × Nat × EventInfo) :=
  match r.act, r.ret with
  | .tx ⟨caller, _, _, .eventRead k⟩, .ok (.info info) => some (caller, k, info)
  | _, _ => none

/-- `userRole` of an address, as `validate_action` and `event_read` look it
up. -/
def Board.IsValidator (b : Board) (a : Address) : Prop :=
  b.userRole (b.userMapper.getUserId a) = .validator

instance (b : Board) (a : Address) : Decidable (b.IsValidator a) :=
  inferInstanceAs (Decidable (_ = _))

end ElrondMint
