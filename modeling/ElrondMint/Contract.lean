import ElrondMint.Host

/-!
# The contract

`lib.rs`, function by function. The storage is split by subject into the
board (`user_mapper`, `min_valid`, `user_role`, `num_validators`), the
wrapped tokens (`token`, `nft_token`, `sft_nonce`), the event log (`events`,
`event_ident`) and the pending actions (`action_data`); a function takes the
part it reads and writes.

A call answers `.ok` with the new state or fails, and a failed call leaves
nothing behind. `performAction` has a third way to end: three of its arms
finish in `transferEsdtViaAsyncCall`, which does not return to
`validateAction`. `Flow` tells the two successful endings apart.
-/

namespace ElrondMint

open Custody Rollback

structure Board where
  userMapper : UserMapper
  minValid : Nat
  /-- `user_role`: `get_user_id_to_role` and `set_user_id_to_role`. -/
  userRole : Nat → UserRole
  numValidators : Nat

structure Wrapper where
  token : TokenIdentifier
  nftToken : TokenIdentifier
  sftNonce : UInt64

structure EventLog where
  eventMapper : SafeMapMapper EventInfo
  eventIdent : Nat

structure Storage extends Board, Wrapper, EventLog where
  actionMapper : SafeMapMapper ActionInfo

/-- What unset storage reads as. -/
def Storage.empty : Storage where
  userMapper := .empty
  minValid := 0
  userRole _ := .none
  numValidators := 0
  token := []
  nftToken := []
  sftNonce := 0
  eventMapper := ∅
  eventIdent := 0
  actionMapper := ∅

/-- The contract's storage and its account. -/
structure World extends Storage where
  chain : Ledger

/-- How an execution ended, if it did not fail: it returned, or an
asynchronous call ended it on the spot. -/
inductive Flow (α : Type) where
  | returned (a : α)
  | exited (call : EsdtTransfer)
  deriving DecidableEq, Repr

/-! ## Deployment -/

/-- `init`, on the storage the contract has when it runs. -/
def init (s : Storage) (token nftToken : TokenIdentifier) (minValid : Nat)
    (validators : List Address) : Except Failure Storage := do
  require (validators ≠ [])
    "validators cannot be empty on init, no-one would be able to propose"
  require (validators.length ≤ validators.length)
    "quorum cannot exceed board size"
  let s := { s with minValid := minValid }
  let (userMapper, duplicates, userRole) ←
    UserMapper.getOrCreateUsers
      (fun userId newUser (duplicates, userRole) =>
        (if !newUser then true else duplicates,
          Function.update userRole userId .validator))
      s.userMapper validators (false, s.userRole)
  require (duplicates = false) "duplicate board member"
  .ok { s with
    userMapper := userMapper
    userRole := userRole
    numValidators := validators.length
    token := token
    nftToken := nftToken
    eventIdent := 0
    sftNonce := 0 }

/-! ## The event log -/

namespace EventLog

/-- `event_ident_inc`. -/
def eventIdentInc (s : EventLog) : Nat × EventLog :=
  let event := s.eventIdent + 1
  (event, { s with eventIdent := event })

def insertEvent (s : EventLog) (event : EventInfo) : Nat × EventLog :=
  let (ident, s) := s.eventIdentInc
  (ident, { s with eventMapper := (s.eventMapper.insert ident event).2 })

end EventLog

/-- `eventRead`. -/
def eventRead (s : Storage) (caller : Address) (id : Nat) :
    Except Failure (EventInfo × Storage) := do
  let callerId := s.userMapper.getUserId caller
  let callerRole := s.userRole callerId
  require (callerRole.canSign = true) "only validators can check events"
  match s.eventMapper.get id with
  | none => .error (.error "Invalid ID!")
  | some info =>
      let info := { info with readCnt := usizeInc info.readCnt }
      if info.readCnt = s.numValidators then
        let (removed, eventMapper) := s.eventMapper.remove id
        let _ ← unwrap removed
        .ok (info, { s with eventMapper := eventMapper })
      else
        let (replaced, eventMapper) := s.eventMapper.insert id info
        let _ ← unwrap replaced
        .ok (info, { s with eventMapper := eventMapper })

/-! ## The payable endpoints

The payment has been credited to the account before they run. -/

/-- `freezeSend`. -/
def freezeSend (w : World) (value : Nat) (chainNonce : UInt64)
    (recipient : String) : Except Failure (Nat × World) := do
  require (value > 0) "Value must be > 0"
  let (ident, log) :=
    w.toEventLog.insertEvent (.new (.transfer chainNonce recipient value))
  .ok (ident, { w with toEventLog := log })

/-- `freezeSendNft`. -/
def freezeSendNft (w : World) (token : TokenIdentifier) (value : Nat)
    (nonce : UInt64) (chainNonce : UInt64) (recipient : String) :
    Except Failure (Nat × World) := do
  require (nonce > 0) "Not an NFT!"
  require (value = 1) "SFTs not supported!"
  let (ident, log) := w.toEventLog.insertEvent
    (.new (.transferNft chainNonce recipient token nonce))
  .ok (ident, { w with toEventLog := log })

/-- `withdrawNft`. -/
def withdrawNft (w : World) (hostOk : Bool) (token : TokenIdentifier)
    (nonce : UInt64) (recipient : String) : Except Failure (Nat × World) := do
  require (token = w.nftToken) "Invalid token!"
  require (nonce > 0) "Not an NFT!"
  let dat := w.chain.getEsdtTokenData token nonce
  let id ← unwrap dat.uris.head?
  let chainNonce ← unwrap (topDecodeU64 dat.attributes)
  let chain ← w.chain.esdtLocalBurn hostOk token nonce 1
  let (ident, log) := w.toEventLog.insertEvent
    (.new (.unfreezeNft chainNonce recipient id))
  .ok (ident, { w with toEventLog := log, chain := chain })

/-- `withdraw`. -/
def withdraw (w : World) (hostOk : Bool) (value : Nat) (token : TokenIdentifier)
    (chainNonce : UInt64) (recipient : String) : Except Failure (Nat × World) := do
  require (value > 0) "Value must be > 0"
  require (token = w.token) "Invalid token!"
  let chain ← w.chain.esdtLocalBurn hostOk token chainNonce value
  let (ident, log) := w.toEventLog.insertEvent
    (.new (.unfreeze chainNonce recipient value))
  .ok (ident, { w with toEventLog := log, chain := chain })

/-- `deposit`. -/
def deposit (w : World) : World := w

/-- `user_role`, the view: a user without an id has no role, whatever is stored
at 0. -/
def Board.viewUserRole (b : Board) (user : Address) : UserRole :=
  let userId := b.userMapper.getUserId user
  if userId = 0 then .none else b.userRole userId

/-! ## Actions -/

namespace Board

/-- `change_user_role`. -/
def changeUserRole (b : Board) (userAddress : Address) (newRole : UserRole) :
    Except Failure Board := do
  let (userId, userMapper) ← b.userMapper.getOrCreateUser userAddress
  let oldRole := if userId = 0 then UserRole.none else b.userRole userId
  let b := { b with
    userMapper := userMapper
    userRole := Function.update b.userRole userId newRole }
  if oldRole = .validator then
    if newRole ≠ .validator then
      .ok { b with numValidators := usizeDec b.numValidators }
    else .ok b
  else
    if newRole = .validator then
      .ok { b with numValidators := usizeInc b.numValidators }
    else .ok b

end Board

/-- The `while` loop of `SendWrapped`: creates the missing nonces of the
wrapper collection, two units each, which are meant never to be burnt. -/
def sendWrappedLoop (hostOk : Bool) (token : TokenIdentifier)
    (chainNonce nonce : UInt64) (w : World) : Except Failure World :=
  if _h : nonce < chainNonce then do
    let (_, chain) ← w.chain.esdtNftCreate hostOk token 2
      { name := [], royalties := 0, hash := [], attributes := [], uris := [[]] }
    sendWrappedLoop hostOk token chainNonce (nonce + 1)
      { w with chain := chain, sftNonce := nonce + 1 }
  else .ok w
termination_by chainNonce.toNat - nonce.toNat
decreasing_by
  have hc := chainNonce.toNat_lt
  rw [UInt64.lt_iff_toNat_lt] at _h
  rw [UInt64.toNat_add, UInt64.toNat_one]
  omega

/-- `perform_action`: the logic for executing an action. -/
def performAction (w : World) (hostOk : Bool) :
    Action → Except Failure (Flow PerformActionResult × World)
  | .nothing => .ok (.returned .done, w)
  | .addValidator addr => do
      let board ← w.toBoard.changeUserRole addr .validator
      .ok (.returned .done, { w with toBoard := board })
  | .removeUser userAddress => do
      let board ← w.toBoard.changeUserRole userAddress .none
      let numBoardMembers := board.numValidators
      require (numBoardMembers > 0)
        "cannot remove all board members and proposers"
      require (board.minValid ≤ numBoardMembers)
        "quorum cannot exceed board size"
      .ok (.returned .done, { w with toBoard := board })
  | .changeMinValid newQuorum => do
      require (newQuorum ≤ w.numValidators) "quorum cannot exceed board size"
      .ok (.returned .done, { w with minValid := newQuorum })
  | .sendWrapped chainNonce recipient amount data => do
      let token := w.token
      let w ← sendWrappedLoop hostOk token chainNonce w.sftNonce w
      let chain ← w.chain.esdtLocalMint hostOk token chainNonce amount
      let call : EsdtTransfer := ⟨recipient, token, chainNonce, amount, data⟩
      let chain ← chain.transferEsdtViaAsyncCall hostOk call
      .ok (.exited call, { w with chain := chain })
  | .sendNft chainNonce recipient id => do
      let ident := w.nftToken
      let (nonce, chain) ← w.chain.esdtNftCreate hostOk ident 1
        { name := [], royalties := 0, hash := []
          attributes := topEncodeU64 chainNonce, uris := [id] }
      let call : EsdtTransfer := ⟨recipient, ident, nonce, 1, []⟩
      let chain ← chain.transferEsdtViaAsyncCall hostOk call
      .ok (.exited call, { w with chain := chain })
  | .unfreeze recipient amount =>
      .ok (.returned (.unfreeze ⟨recipient, amount, []⟩), w)
  | .unfreezeNft recipient token nonce => do
      let call : EsdtTransfer := ⟨recipient, token, nonce, 1, []⟩
      let chain ← w.chain.transferEsdtViaAsyncCall hostOk call
      .ok (.exited call, { w with chain := chain })

/-- `validate_action`: informs that the given action is valid. -/
def validateAction (w : World) (caller : Address) (hostOk : Bool) (id : Nat)
    (action : Action) : Except Failure (Flow PerformActionResult × World) := do
  let callerId := w.userMapper.getUserId caller
  let callerRole := w.userRole callerId
  require (callerRole.canSign = true)
    "only board members and proposers can propose"
  let info := (w.actionMapper.get id).getD ⟨action, [], 0⟩
  if callerId ∈ info.signers then
    .ok (.returned .pending,
      { w with actionMapper := (w.actionMapper.insert id info).2 })
  else
    let info := { info with signers := info.signers ++ [callerId] }
    let validSignersCount := info.signers.length
    let w := { w with actionMapper := (w.actionMapper.insert id info).2 }
    if validSignersCount = w.minValid then
      let (flow, w) ← performAction w hostOk action
      match flow with
      -- the execution is over: the entry stays, with its signers
      | .exited call => .ok (.exited call, w)
      | .returned res =>
          let (removed, actionMapper) := w.actionMapper.remove id
          let _ ← unwrap removed
          .ok (.returned res, { w with actionMapper := actionMapper })
    else .ok (.returned .pending, w)

/-- `PerformActionResult::finish`: what the end of the call pays out. -/
def PerformActionResult.finish (w : World) (hostOk : Bool) :
    PerformActionResult → Except Failure World
  | .done => .ok w
  | .pending => .ok w
  | .asyncCall call => do
      let chain ← w.chain.directEgld hostOk call.egldPayment
      .ok { w with chain := chain }
  | .unfreeze send => do
      let chain ← w.chain.directEgld hostOk send.amount
      .ok { w with chain := chain }

/-! ## The endpoints of the validators -/

section Endpoints

variable (w : World) (caller : Address) (hostOk : Bool) (uuid : Nat)

def proposeAddValidator (boardMemberAddress : Address) :=
  validateAction w caller hostOk uuid (.addValidator boardMemberAddress)

def proposeRemoveUser (userAddress : Address) :=
  validateAction w caller hostOk uuid (.removeUser userAddress)

def proposeChangeMinValid (newQuorum : Nat) :=
  validateAction w caller hostOk uuid (.changeMinValid newQuorum)

def validateUnfreeze (recipient : Address) (amount : Nat) :=
  validateAction w caller hostOk uuid (.unfreeze recipient amount)

def validateUnfreezeNft (recipient : Address) (token : TokenIdentifier)
    (nonce : UInt64) :=
  validateAction w caller hostOk uuid (.unfreezeNft recipient token nonce)

def validateSendWrapped (chainNonce : UInt64) (recipient : Address)
    (amount : Nat) (optData : Option Bytes) :=
  let data := match optData with
    | some data => data
    | none => []
  validateAction w caller hostOk uuid
    (.sendWrapped chainNonce recipient amount data)

def validateSendNft (chainNonce : UInt64) (recipient : Address) (id : Bytes) :=
  validateAction w caller hostOk uuid (.sendNft chainNonce recipient id)

end Endpoints

end ElrondMint
