import ElrondMint.System

/-!
# What one act can do

Each function of the contract is read back here once. `PerformEffect` lists
the arms of `performAction`, `SignEffect` the four ways a validator's call
can succeed, and `PlainEffect` everything else an act can be; `exec_sign` and
`exec_plain` say that nothing else happens. Later files argue from these
statements and never unfold `exec`.
-/

namespace ElrondMint

open Custody Rollback

/-! ## Signatures on an entry -/

/-- The signer ids of a uuid, none if it has no entry. -/
def Storage.signersOf (s : Storage) (id : Nat) : List Nat :=
  match s.actionMapper.get id with
  | some info => info.signers
  | none => []

/-- The entry of a uuid once `signer` has signed. -/
def Storage.signedInfo (s : Storage) (id : Nat) (action : Action)
    (signer : Nat) : ActionInfo :=
  let info := (s.actionMapper.get id).getD ⟨action, [], 0⟩
  { info with signers := info.signers ++ [signer] }

/-- The state `validateAction` reaches by recording a signature. -/
def World.sign (w : World) (id : Nat) (action : Action) (signer : Nat) : World :=
  { w with actionMapper :=
      (w.actionMapper.insert id (w.signedInfo id action signer)).2 }

/-- The entry of a uuid is taken out. -/
def World.dropEntry (w : World) (id : Nat) : World :=
  { w with actionMapper := (w.actionMapper.remove id).2 }

/-- The test on which `validateAction` calls `performAction`. -/
def Storage.CallsPerformAction (s : Storage) (caller : Address) (id : Nat) : Prop :=
  s.IsValidator caller ∧ s.userMapper.getUserId caller ∉ s.signersOf id ∧
    (s.signersOf id).length + 1 = s.minValid

instance (s : Storage) (caller : Address) (id : Nat) :
    Decidable (s.CallsPerformAction caller id) :=
  inferInstanceAs (Decidable (_ ∧ _))

variable {w w' : World} {s : Storage} {caller : Address} {hostOk : Bool}
  {id signer : Nat} {a : Action} {ret : Ret} {act : Act}

theorem signersOf_some {info : ActionInfo} (h : s.actionMapper.get id = some info) :
    s.signersOf id = info.signers := by
  rw [Storage.signersOf, h]

theorem signersOf_none (h : s.actionMapper.get id = none) : s.signersOf id = [] := by
  rw [Storage.signersOf, h]

theorem signersOf_congr {s s' : Storage} (h : s.actionMapper = s'.actionMapper) :
    s.signersOf id = s'.signersOf id := by
  rw [Storage.signersOf, Storage.signersOf, h]

theorem getD_signers :
    ((s.actionMapper.get id).getD ⟨a, [], 0⟩).signers = s.signersOf id := by
  rw [Storage.signersOf]
  cases s.actionMapper.get id <;> rfl

@[simp] theorem signedInfo_signers :
    (s.signedInfo id a signer).signers = s.signersOf id ++ [signer] := by
  rw [Storage.signedInfo, ← getD_signers (a := a)]

theorem sign_get (j : Nat) : (w.sign id a signer).actionMapper.get j =
    if j = id then some (w.signedInfo id a signer) else w.actionMapper.get j :=
  SafeMapMapper.get_insert _ _ _ _

theorem dropEntry_get (j : Nat) : (w.dropEntry id).actionMapper.get j =
    if j = id then none else w.actionMapper.get j :=
  SafeMapMapper.get_remove _ _ _

theorem sign_signersOf (j : Nat) : (w.sign id a signer).signersOf j =
    if j = id then w.signersOf id ++ [signer] else w.signersOf j := by
  by_cases hj : j = id
  · rw [if_pos hj, signersOf_some (by rw [sign_get, if_pos hj]), signedInfo_signers]
  · rw [if_neg hj, Storage.signersOf, Storage.signersOf, sign_get, if_neg hj]

theorem dropEntry_signersOf (j : Nat) : (w.dropEntry id).signersOf j =
    if j = id then [] else w.signersOf j := by
  by_cases hj : j = id
  · rw [if_pos hj, signersOf_none (by rw [dropEntry_get, if_pos hj])]
  · rw [if_neg hj, Storage.signersOf, Storage.signersOf, dropEntry_get, if_neg hj]

/-! ## `performAction` -/

/-- The actions whose execution ends in an asynchronous transfer. -/
def Action.exits : Action → Bool
  | .sendWrapped .. | .sendNft .. | .unfreezeNft .. => true
  | _ => false

/-- The actions that change the board. -/
def Action.isGovernance : Action → Bool
  | .addValidator _ | .removeUser _ | .changeMinValid _ => true
  | _ => false

/-- What executing one of the three governance actions does to the board. -/
inductive GovernEffect (b : Board) : Action → Board → Prop
  | addValidator {addr : Address} {b' : Board}
      (hrole : b.changeUserRole addr .validator = .ok b') :
      GovernEffect b (.addValidator addr) b'
  | removeUser {addr : Address} {b' : Board}
      (hrole : b.changeUserRole addr .none = .ok b')
      (hpos : 0 < b'.numValidators) (hquorum : b'.minValid ≤ b'.numValidators) :
      GovernEffect b (.removeUser addr) b'
  | changeMinValid {newQuorum : Nat} (hquorum : newQuorum ≤ b.numValidators) :
      GovernEffect b (.changeMinValid newQuorum) { b with minValid := newQuorum }

theorem GovernEffect.isGovernance {b b' : Board} {a : Action}
    (h : GovernEffect b a b') : a.isGovernance = true := by
  cases h <;> rfl

/-- What executing an action does, arm by arm. -/
inductive PerformEffect (w : World) (hostOk : Bool) :
    Action → Flow PerformActionResult → World → Prop
  | nothing : PerformEffect w hostOk .nothing (.returned .done) w
  | govern {a : Action} {b : Board} (hgov : GovernEffect w.toBoard a b) :
      PerformEffect w hostOk a (.returned .done) { w with toBoard := b }
  | sendWrapped {c : UInt64} {recipient : Address} {amount : Nat} {data : Bytes}
      {w₁ : World} {chain₁ chain₂ : Ledger}
      (hloop : sendWrappedLoop hostOk w.token c w.sftNonce w = .ok w₁)
      (hmint : w₁.chain.esdtLocalMint hostOk w.token c amount = .ok chain₁)
      (hsend : chain₁.transferEsdtViaAsyncCall hostOk
        ⟨recipient, w.token, c, amount, data⟩ = .ok chain₂) :
      PerformEffect w hostOk (.sendWrapped c recipient amount data)
        (.exited ⟨recipient, w.token, c, amount, data⟩) { w₁ with chain := chain₂ }
  | sendNft {c nonce : UInt64} {recipient : Address} {id : Bytes}
      {chain₁ chain₂ : Ledger}
      (hcreate : w.chain.esdtNftCreate hostOk w.nftToken 1
        ⟨[], 0, [], topEncodeU64 c, [id]⟩ = .ok (nonce, chain₁))
      (hsend : chain₁.transferEsdtViaAsyncCall hostOk
        ⟨recipient, w.nftToken, nonce, 1, []⟩ = .ok chain₂) :
      PerformEffect w hostOk (.sendNft c recipient id)
        (.exited ⟨recipient, w.nftToken, nonce, 1, []⟩) { w with chain := chain₂ }
  | unfreeze {recipient : Address} {amount : Nat} :
      PerformEffect w hostOk (.unfreeze recipient amount)
        (.returned (.unfreeze ⟨recipient, amount, []⟩)) w
  | unfreezeNft {recipient : Address} {token : TokenIdentifier} {nonce : UInt64}
      {chain : Ledger}
      (hsend : w.chain.transferEsdtViaAsyncCall hostOk
        ⟨recipient, token, nonce, 1, []⟩ = .ok chain) :
      PerformEffect w hostOk (.unfreezeNft recipient token nonce)
        (.exited ⟨recipient, token, nonce, 1, []⟩) { w with chain := chain }

theorem performAction_effect {flow : Flow PerformActionResult}
    (h : performAction w hostOk a = .ok (flow, w')) :
    PerformEffect w hostOk a flow w' := by
  cases a with
  | nothing => cases h; exact .nothing
  | addValidator addr =>
      obtain ⟨b, hrole, h⟩ := bind_eq_ok.mp h
      cases h
      exact .govern (.addValidator hrole)
  | removeUser addr =>
      obtain ⟨b, hrole, h⟩ := bind_eq_ok.mp h
      obtain ⟨_, hpos, h⟩ := bind_eq_ok.mp h
      obtain ⟨_, hquorum, h⟩ := bind_eq_ok.mp h
      cases h
      exact .govern (.removeUser hrole (require_eq_ok.mp hpos)
        (require_eq_ok.mp hquorum))
  | changeMinValid newQuorum =>
      obtain ⟨_, hquorum, h⟩ := bind_eq_ok.mp h
      cases h
      exact .govern (.changeMinValid (require_eq_ok.mp hquorum))
  | sendWrapped c recipient amount data =>
      obtain ⟨w₁, hloop, h⟩ := bind_eq_ok.mp h
      obtain ⟨chain₁, hmint, h⟩ := bind_eq_ok.mp h
      obtain ⟨chain₂, hsend, h⟩ := bind_eq_ok.mp h
      cases h
      exact .sendWrapped hloop hmint hsend
  | sendNft c recipient id =>
      obtain ⟨⟨nonce, chain₁⟩, hcreate, h⟩ := bind_eq_ok.mp h
      obtain ⟨chain₂, hsend, h⟩ := bind_eq_ok.mp h
      cases h
      exact .sendNft hcreate hsend
  | unfreeze recipient amount => cases h; exact .unfreeze
  | unfreezeNft recipient token nonce =>
      obtain ⟨chain, hsend, h⟩ := bind_eq_ok.mp h
      cases h
      exact .unfreezeNft hsend

/-- The rounds of the loop of `SendWrapped`, from `w` with the counter at `n` to
the state it ends in. -/
inductive LoopRounds (hostOk : Bool) (token : TokenIdentifier) (c : UInt64) :
    UInt64 → World → World → Prop
  | done {n : UInt64} {w : World} (hle : ¬ n < c) : LoopRounds hostOk token c n w w
  | round {n m : UInt64} {w w' : World} {chain : Ledger} (hlt : n < c)
      (hcreate : w.chain.esdtNftCreate hostOk token 2 ⟨[], 0, [], [], [[]]⟩ =
        .ok (m, chain))
      (hrest : LoopRounds hostOk token c (n + 1)
        { w with chain := chain, sftNonce := n + 1 } w') :
      LoopRounds hostOk token c n w w'

theorem sendWrappedLoop_rounds {token : TokenIdentifier} {c n : UInt64} {w w' : World}
    (h : sendWrappedLoop hostOk token c n w = .ok w') :
    LoopRounds hostOk token c n w w' := by
  induction n, w using sendWrappedLoop.induct c with
  | case1 n w hlt ih =>
      rw [sendWrappedLoop, dif_pos hlt] at h
      obtain ⟨⟨m, chain⟩, hcreate, h⟩ := bind_eq_ok.mp h
      exact .round hlt hcreate (ih chain h)
  | case2 n w hlt =>
      rw [sendWrappedLoop, dif_neg hlt] at h
      cases h
      exact .done hlt

/-- The loop only creates nonces and moves the counter. -/
theorem sendWrappedLoop_frame {token : TokenIdentifier} {c n : UInt64} {w w' : World}
    (h : sendWrappedLoop hostOk token c n w = .ok w') :
    ∃ chain m, w' = { w with chain := chain, sftNonce := m } := by
  replace h := sendWrappedLoop_rounds h
  induction h with
  | done => exact ⟨_, _, rfl⟩
  | round _ _ _ ih =>
      obtain ⟨chain, m, rfl⟩ := ih
      exact ⟨chain, m, rfl⟩

section PerformEffect

variable {flow : Flow PerformActionResult}

/-- Executing an action touches neither the pending actions nor the log. -/
theorem PerformEffect.frame (h : PerformEffect w hostOk a flow w') :
    w'.actionMapper = w.actionMapper ∧ w'.toEventLog = w.toEventLog := by
  cases h with
  | sendWrapped hloop _ _ =>
      obtain ⟨chain, m, rfl⟩ := sendWrappedLoop_frame hloop
      exact ⟨rfl, rfl⟩
  | nothing | govern | sendNft | unfreeze | unfreezeNft => exact ⟨rfl, rfl⟩

/-- The arms that end in an asynchronous transfer never return, the others
always do, and none of them says that the action is pending. -/
theorem PerformEffect.exits (h : PerformEffect w hostOk a flow w') :
    match flow with
    | .exited _ => a.exits = true
    | .returned res => a.exits = false ∧ res ≠ .pending := by
  cases h with
  | nothing | unfreeze => exact ⟨rfl, nofun⟩
  | govern hg => cases hg <;> exact ⟨rfl, nofun⟩
  | sendWrapped | sendNft | unfreezeNft => rfl

/-- The board changes in the governance arms only. -/
theorem PerformEffect.toBoard_cases (h : PerformEffect w hostOk a flow w') :
    (a.isGovernance = false ∧ w'.toBoard = w.toBoard) ∨
      (flow = .returned .done ∧ GovernEffect w.toBoard a w'.toBoard) := by
  cases h with
  | govern hg => exact .inr ⟨rfl, hg⟩
  | sendWrapped hloop _ _ =>
      obtain ⟨chain, m, rfl⟩ := sendWrappedLoop_frame hloop
      exact .inl ⟨rfl, rfl⟩
  | nothing | sendNft | unfreeze | unfreezeNft => exact .inl ⟨rfl, rfl⟩

end PerformEffect

/-- Paying out at the end of a call only moves EGLD. -/
theorem finish_frame {res : PerformActionResult} (h : res.finish w hostOk = .ok w') :
    ∃ egld, w' = { w with chain := { w.chain with egld := egld } } := by
  cases res with
  | done | pending =>
      simp only [PerformActionResult.finish, Except.ok.injEq] at h
      exact ⟨w.chain.egld, h.symm⟩
  | asyncCall | unfreeze =>
      obtain ⟨chain, hpay, h⟩ := bind_eq_ok.mp h
      cases h
      rw [(Ledger.directEgld_spec hpay).2]
      exact ⟨_, rfl⟩

/-! ## A validator's call -/

/-- The ways a `propose*` or `validate*` call can succeed: the caller had
signed already, its signature is recorded, or its signature completes the
quorum and the action runs, to an asynchronous transfer or to the end. -/
inductive SignEffect (w : World) (caller : Address) (hostOk : Bool) (id : Nat)
    (a : Action) : Ret → World → Prop
  | known (hval : w.IsValidator caller)
      (hold : w.userMapper.getUserId caller ∈ w.signersOf id) :
      SignEffect w caller hostOk id a (.flow (.returned .pending)) w
  | counted (hval : w.IsValidator caller)
      (hnew : w.userMapper.getUserId caller ∉ w.signersOf id)
      (hcount : (w.signersOf id).length + 1 ≠ w.minValid) :
      SignEffect w caller hostOk id a (.flow (.returned .pending))
        (w.sign id a (w.userMapper.getUserId caller))
  | exited {call : EsdtTransfer} {w₁ : World}
      (hcall : w.CallsPerformAction caller id)
      (hperf : performAction (w.sign id a (w.userMapper.getUserId caller)) hostOk a =
        .ok (.exited call, w₁)) :
      SignEffect w caller hostOk id a (.flow (.exited call)) w₁
  | returned {res : PerformActionResult} {w₁ w₂ : World}
      (hcall : w.CallsPerformAction caller id)
      (hperf : performAction (w.sign id a (w.userMapper.getUserId caller)) hostOk a =
        .ok (.returned res, w₁))
      (hfin : res.finish (w₁.dropEntry id) hostOk = .ok w₂) :
      SignEffect w caller hostOk id a (.flow (.returned res)) w₂

theorem SignEffect.isValidator (h : SignEffect w caller hostOk id a ret w') :
    w.IsValidator caller := by
  cases h with
  | known hval _ => exact hval
  | counted hval _ _ => exact hval
  | exited hcall _ => exact hcall.1
  | returned hcall _ _ => exact hcall.1

theorem insert_known (hold : signer ∈ s.signersOf id) :
    (s.actionMapper.insert id ((s.actionMapper.get id).getD ⟨a, [], 0⟩)).2 =
      s.actionMapper := by
  cases hget : s.actionMapper.get id with
  | none => rw [signersOf_none hget] at hold; cases hold
  | some info => exact SafeMapMapper.insert_same hget

theorem validateAction_effect
    (h : (validateAction w caller hostOk id a >>= conclude hostOk) = .ok (ret, w')) :
    SignEffect w caller hostOk id a ret w' := by
  obtain ⟨⟨flow, w₁⟩, hval, hcon⟩ := bind_eq_ok.mp h
  obtain ⟨_, hrole, hval⟩ := bind_eq_ok.mp hval
  rw [require_eq_ok, UserRole.canSign_iff] at hrole
  simp only [] at hval
  split at hval
  · next hold =>
      rw [getD_signers] at hold
      rw [insert_known hold] at hval
      cases hval
      cases hcon
      exact .known hrole hold
  · next hnew =>
      rw [getD_signers] at hnew
      split at hval
      · next hcount =>
          rw [getD_signers, List.length_append] at hcount
          have hcall : w.CallsPerformAction caller id := ⟨hrole, hnew, hcount⟩
          obtain ⟨⟨flow₁, w₂⟩, hperf, hval⟩ := bind_eq_ok.mp hval
          cases flow₁ with
          | exited call =>
              cases hval
              cases hcon
              exact .exited hcall hperf
          | returned res =>
              obtain ⟨_, -, hval⟩ := bind_eq_ok.mp hval
              cases hval
              obtain ⟨w₃, hfin, hcon⟩ := bind_eq_ok.mp hcon
              cases hcon
              exact .returned hcall hperf hfin
      · next hcount =>
          rw [getD_signers, List.length_append] at hcount
          cases hval
          cases hcon
          exact .counted hrole hnew hcount

/-! ## Acts -/

theorem receive_nothing (l : Ledger) : l.receive (.egld 0) = .ok l := rfl

theorem check_no {p : Payment} {u : Unit} (h : Payable.no.check p = .ok u) :
    p = .egld 0 := by
  cases p with
  | egld value =>
      cases value with
      | zero => rfl
      | succ n => cases h
  | esdt token nonce value => cases h

/-- Every endpoint of the validators is one call of `validateAction`. -/
theorem invoke_signs {tx : Tx} (hs : tx.call.signs = some (id, a)) :
    invoke w tx = (validateAction w tx.caller tx.hostOk id a >>= conclude tx.hostOk) ∧
      tx.call.payable = .no := by
  obtain ⟨caller, payment, hostOk, call⟩ := tx
  cases call with
  | eventRead | freezeSend | freezeSendNft | withdrawNft | withdraw | deposit => cases hs
  | proposeAddValidator | proposeRemoveUser | proposeChangeMinValid
  | validateUnfreeze | validateUnfreezeNft | validateSendNft =>
      cases hs
      exact ⟨rfl, rfl⟩
  | validateSendWrapped uuid chainNonce recipient amount optData =>
      cases hs
      cases optData <;> exact ⟨rfl, rfl⟩

theorem exec_sign (hs : act.signs = some (caller, id, a))
    (h : exec w act = .ok (ret, w')) :
    ∃ hostOk, SignEffect w caller hostOk id a ret w' := by
  cases act with
  | settle => cases hs
  | tx tx =>
      obtain ⟨⟨uuid, action⟩, hcall, heq⟩ := Option.map_eq_some_iff.mp hs
      cases heq
      obtain ⟨_, hcheck, h⟩ := bind_eq_ok.mp h
      obtain ⟨chain, hrec, h⟩ := bind_eq_ok.mp h
      obtain ⟨hinv, hpay⟩ := invoke_signs (w := { w with chain := chain }) hcall
      rw [hpay] at hcheck
      rw [check_no hcheck, receive_nothing] at hrec
      cases hrec
      rw [hinv] at h
      exact ⟨tx.hostOk, validateAction_effect h⟩

/-- The state after inserting an event. -/
def World.emit (w : World) (event : Event) : World :=
  { w with toEventLog := (w.toEventLog.insertEvent (.new event)).2 }

/-- What an `eventRead` stores and answers. -/
def EventInfo.bump (info : EventInfo) : EventInfo :=
  { info with readCnt := usizeInc info.readCnt }

/-- The other things that can happen, each with what it does: a parcel
settles, a deposit, a read that leaves the event for the next reader or takes
it out, and the four calls that insert an event. -/
inductive PlainEffect (w : World) : Act → Ret → World → Prop
  | settle {i : Nat} {accepted : Bool} :
      PlainEffect w (.settle i accepted) .unit
        { w with chain := w.chain.settle i accepted }
  | deposit {caller : Address} {p : Payment} {hostOk : Bool} {chain : Ledger}
      (hrec : w.chain.receive p = .ok chain) :
      PlainEffect w (.tx ⟨caller, p, hostOk, .deposit⟩) .unit
        { w with chain := chain }
  | readOn {caller : Address} {hostOk : Bool} {k : Nat} {info : EventInfo}
      (hval : w.IsValidator caller) (hget : w.eventMapper.get k = some info)
      (hcnt : usizeInc info.readCnt ≠ w.numValidators) :
      PlainEffect w (.tx ⟨caller, .egld 0, hostOk, .eventRead k⟩)
        (.info info.bump)
        { w with eventMapper := (w.eventMapper.insert k info.bump).2 }
  | readOut {caller : Address} {hostOk : Bool} {k : Nat} {info : EventInfo}
      (hval : w.IsValidator caller) (hget : w.eventMapper.get k = some info)
      (hcnt : usizeInc info.readCnt = w.numValidators) :
      PlainEffect w (.tx ⟨caller, .egld 0, hostOk, .eventRead k⟩)
        (.info info.bump)
        { w with eventMapper := (w.eventMapper.remove k).2 }
  | freezeSend {caller : Address} {hostOk : Bool} {value : Nat} {c : UInt64}
      {recipient : String} {chain : Ledger} (hpos : 0 < value)
      (hrec : w.chain.receive (.egld value) = .ok chain) :
      PlainEffect w (.tx ⟨caller, .egld value, hostOk, .freezeSend c recipient⟩)
        (.ident (w.eventIdent + 1))
        { w.emit (.transfer c recipient value) with chain := chain }
  | freezeSendNft {caller : Address} {p : Payment} {hostOk : Bool} {c : UInt64}
      {recipient : String} {chain : Ledger} (hnonce : p.nonce > 0)
      (hone : p.value = 1) (hrec : w.chain.receive p = .ok chain) :
      PlainEffect w (.tx ⟨caller, p, hostOk, .freezeSendNft c recipient⟩)
        (.ident (w.eventIdent + 1))
        { w.emit (.transferNft c recipient p.token p.nonce) with chain := chain }
  | withdrawNft {caller : Address} {p : Payment} {hostOk : Bool} {c : UInt64}
      {id : Bytes} {recipient : String} {chain₁ chain₂ : Ledger}
      (htoken : p.token = w.nftToken) (hnonce : p.nonce > 0)
      (hrec : w.chain.receive p = .ok chain₁)
      (huri : (chain₁.getEsdtTokenData p.token p.nonce).uris.head? = some id)
      (hattr : topDecodeU64 (chain₁.getEsdtTokenData p.token p.nonce).attributes =
        some c)
      (hburn : chain₁.esdtLocalBurn hostOk p.token p.nonce 1 = .ok chain₂) :
      PlainEffect w (.tx ⟨caller, p, hostOk, .withdrawNft recipient⟩)
        (.ident (w.eventIdent + 1))
        { w.emit (.unfreezeNft c recipient id) with chain := chain₂ }
  | withdraw {caller : Address} {p : Payment} {hostOk : Bool}
      {recipient : String} {chain₁ chain₂ : Ledger} (hpos : 0 < p.value)
      (htoken : p.token = w.token) (hrec : w.chain.receive p = .ok chain₁)
      (hburn : chain₁.esdtLocalBurn hostOk p.token p.nonce p.value = .ok chain₂) :
      PlainEffect w (.tx ⟨caller, p, hostOk, .withdraw recipient⟩)
        (.ident (w.eventIdent + 1))
        { w.emit (.unfreeze p.nonce recipient p.value) with chain := chain₂ }

theorem eventRead_effect {k : Nat} {info : EventInfo} {s' : Storage}
    (h : eventRead s caller k = .ok (info, s')) :
    s.IsValidator caller ∧ ∃ old, s.eventMapper.get k = some old ∧
      info = old.bump ∧
      ((usizeInc old.readCnt ≠ s.numValidators ∧
          s' = { s with eventMapper := (s.eventMapper.insert k old.bump).2 }) ∨
        (usizeInc old.readCnt = s.numValidators ∧
          s' = { s with eventMapper := (s.eventMapper.remove k).2 })) := by
  obtain ⟨_, hrole, h⟩ := bind_eq_ok.mp h
  rw [require_eq_ok, UserRole.canSign_iff] at hrole
  refine ⟨hrole, ?_⟩
  split at h
  · simp at h
  · next old hget =>
      refine ⟨old, hget, ?_⟩
      simp only [] at h
      split at h
      · next hcnt =>
          obtain ⟨_, -, h⟩ := bind_eq_ok.mp h
          cases h
          exact ⟨rfl, .inr ⟨hcnt, rfl⟩⟩
      · next hcnt =>
          obtain ⟨_, -, h⟩ := bind_eq_ok.mp h
          cases h
          exact ⟨rfl, .inl ⟨hcnt, rfl⟩⟩

theorem exec_plain (hs : act.signs = none) (h : exec w act = .ok (ret, w')) :
    PlainEffect w act ret w' := by
  cases act with
  | settle =>
      cases h
      exact .settle
  | tx tx =>
      obtain ⟨_, hcheck, h⟩ := bind_eq_ok.mp h
      obtain ⟨chain, hrec, h⟩ := bind_eq_ok.mp h
      rw [Act.signs, Option.map_eq_none_iff] at hs
      obtain ⟨caller, p, hostOk, call⟩ := tx
      cases call with
      | eventRead k =>
          cases check_no hcheck
          cases hrec
          obtain ⟨⟨info, s⟩, hread, h⟩ := bind_eq_ok.mp h
          cases h
          obtain ⟨hval, old, hget, rfl, ⟨hcnt, rfl⟩ | ⟨hcnt, rfl⟩⟩ :=
            eventRead_effect hread
          · exact .readOn hval hget hcnt
          · exact .readOut hval hget hcnt
      | freezeSend c recipient =>
          cases p with
          | esdt => cases hcheck
          | egld value =>
              obtain ⟨⟨ident, w₁⟩, hcall, h⟩ := bind_eq_ok.mp h
              obtain ⟨_, hpos, hcall⟩ := bind_eq_ok.mp hcall
              cases hcall
              cases h
              exact .freezeSend (require_eq_ok.mp hpos) hrec
      | freezeSendNft c recipient =>
          obtain ⟨⟨ident, w₁⟩, hcall, h⟩ := bind_eq_ok.mp h
          obtain ⟨_, hnonce, hcall⟩ := bind_eq_ok.mp hcall
          obtain ⟨_, hone, hcall⟩ := bind_eq_ok.mp hcall
          cases hcall
          cases h
          exact .freezeSendNft (require_eq_ok.mp hnonce) (require_eq_ok.mp hone) hrec
      | withdrawNft recipient =>
          obtain ⟨⟨ident, w₁⟩, hcall, h⟩ := bind_eq_ok.mp h
          obtain ⟨_, htoken, hcall⟩ := bind_eq_ok.mp hcall
          obtain ⟨_, hnonce, hcall⟩ := bind_eq_ok.mp hcall
          obtain ⟨id, huri, hcall⟩ := bind_eq_ok.mp hcall
          obtain ⟨c, hattr, hcall⟩ := bind_eq_ok.mp hcall
          obtain ⟨chain₂, hburn, hcall⟩ := bind_eq_ok.mp hcall
          cases hcall
          cases h
          exact .withdrawNft (require_eq_ok.mp htoken) (require_eq_ok.mp hnonce) hrec
            (unwrap_eq_ok.mp huri) (unwrap_eq_ok.mp hattr) hburn
      | withdraw recipient =>
          obtain ⟨⟨ident, w₁⟩, hcall, h⟩ := bind_eq_ok.mp h
          obtain ⟨_, hpos, hcall⟩ := bind_eq_ok.mp hcall
          obtain ⟨_, htoken, hcall⟩ := bind_eq_ok.mp hcall
          obtain ⟨chain₂, hburn, hcall⟩ := bind_eq_ok.mp hcall
          cases hcall
          cases h
          exact .withdraw (require_eq_ok.mp hpos) (require_eq_ok.mp htoken) hrec hburn
      | deposit =>
          cases h
          exact .deposit hrec
      | proposeAddValidator | proposeRemoveUser | proposeChangeMinValid
      | validateUnfreeze | validateUnfreezeNft | validateSendWrapped
      | validateSendNft => cases hs

/-- A record is a failure, a plain act, or a validator's call. -/
theorem record_cases {P : Rec → Prop} (w : World) (act : Act)
    (herr : ∀ e, exec w act = .error e → P ⟨w, act, .error e, w⟩)
    (hplain : ∀ ret w', act.signs = none → PlainEffect w act ret w' →
      P ⟨w, act, .ok ret, w'⟩)
    (hsign : ∀ caller hostOk id a ret w', act.signs = some (caller, id, a) →
      SignEffect w caller hostOk id a ret w' → P ⟨w, act, .ok ret, w'⟩) :
    P (record exec w act) := by
  cases hex : exec w act with
  | error e =>
      rw [record_error hex]
      exact herr e hex
  | ok out =>
      obtain ⟨ret, w'⟩ := out
      rw [record_ok hex]
      cases hs : act.signs with
      | none => exact hplain ret w' hs (exec_plain hs hex)
      | some s =>
          obtain ⟨caller, id, a⟩ := s
          obtain ⟨hostOk, heff⟩ := exec_sign hs hex
          exact hsign caller hostOk id a ret w' hs heff

/-- The endpoints that are not the validators', and the settling of parcels,
leave the board, the wrapped tokens' settings and the pending actions alone. -/
theorem PlainEffect.frame (h : PlainEffect w act ret w') :
    w'.toBoard = w.toBoard ∧ w'.toWrapper = w.toWrapper ∧
      w'.actionMapper = w.actionMapper ∧ ∀ flow, ret ≠ .flow flow := by
  cases h <;> exact ⟨rfl, rfl, rfl, nofun⟩

/-- The uuid and the action performed are those of the call. -/
theorem performed_signs {r : Rec} {id : Nat} (h : performed r = some (id, a)) :
    ∃ caller, r.act.signs = some (caller, id, a) := by
  have hmap : r.act.signs.map Prod.snd = some (id, a) := by
    unfold performed at h
    split at h
    · simp at h
    · exact h
    · simp at h
  obtain ⟨⟨caller, s⟩, hs, rfl⟩ := Option.map_eq_some_iff.mp hmap
  exact ⟨caller, hs⟩

theorem performed_none {r : Rec} (hs : r.act.signs = none) : performed r = none := by
  cases hperf : performed r with
  | none => rfl
  | some s =>
      obtain ⟨caller, hs'⟩ := performed_signs hperf
      rw [hs] at hs'
      simp at hs'

/-- A validator's call that performs nothing changes nothing or adds a signature. -/
theorem SignEffect.unperformed (heff : SignEffect w caller hostOk id a ret w')
    (hs : act.signs = some (caller, id, a))
    (hno : performed ⟨w, act, .ok ret, w'⟩ = none) :
    w' = w ∨ w' = w.sign id a (w.userMapper.getUserId caller) := by
  have hown : act.signs.map Prod.snd = some (id, a) := by rw [hs]; rfl
  cases heff with
  | known => exact .inl rfl
  | counted => exact .inr rfl
  | exited => cases hown.symm.trans hno
  | @returned res _ _ _ hperf _ =>
      obtain ⟨-, hres⟩ := (performAction_effect hperf).exits
      cases res with
      | pending => exact absurd rfl hres
      | done | asyncCall | unfreeze => cases hown.symm.trans hno

/-- The board changes only when a governance action is executed. -/
inductive BoardEffect (r : Rec) : Prop
  | kept (hperf : ∀ s, performed r = some s → s.2.isGovernance = false)
      (hboard : r.post.toBoard = r.pre.toBoard)
  | govern (id : Nat) (a : Action) (hperf : performed r = some (id, a))
      (hgov : GovernEffect r.pre.toBoard a r.post.toBoard)

theorem exec_board (h : exec w act = .ok (ret, w')) :
    BoardEffect ⟨w, act, .ok ret, w'⟩ := by
  cases hs : act.signs with
  | none =>
      refine .kept (fun s hperf => ?_) (exec_plain hs h).frame.1
      rw [performed_none hs] at hperf
      simp at hperf
  | some s =>
      obtain ⟨caller, id, a⟩ := s
      obtain ⟨hostOk, heff⟩ := exec_sign hs h
      have hown : ∀ s, performed ⟨w, act, .ok ret, w'⟩ = some s → s.2 = a := by
        intro s hperf
        obtain ⟨_, hcall⟩ := performed_signs hperf
        rw [hs] at hcall
        cases hcall
        rfl
      cases heff with
      | known | counted => exact .kept nofun rfl
      | exited hcall hperf =>
          rcases (performAction_effect hperf).toBoard_cases with ⟨ha, hb⟩ | ⟨hflow, _⟩
          · exact .kept (fun s hs => hown s hs ▸ ha) hb
          · simp at hflow
      | returned hcall hperf hfin =>
          obtain ⟨egld, rfl⟩ := finish_frame hfin
          rcases (performAction_effect hperf).toBoard_cases with ⟨ha, hb⟩ | ⟨hflow, hg⟩
          · exact .kept (fun s hs => hown s hs ▸ ha) hb
          · cases hflow
            exact .govern id a (congrArg (Option.map Prod.snd) hs) hg

theorem record_board (w : World) (act : Act) : BoardEffect (record exec w act) := by
  cases hex : exec w act with
  | error e =>
      rw [record_error hex]
      exact .kept nofun rfl
  | ok out =>
      obtain ⟨ret, w'⟩ := out
      rw [record_ok hex]
      exact exec_board hex

end ElrondMint
