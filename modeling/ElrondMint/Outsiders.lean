import ElrondMint.Evaluation
import ElrondMint.Transfers
import ElrondMint.Signing
import ElrondMint.Lib.Unwinding

/-!
# Outsiders have no say

Anybody may freeze, withdraw and deposit, and anybody may call the endpoints of
the validators. Erase from a run every transaction of somebody who was no
validator when he sent it, and the validators do not notice: their calls answer
the same, the same actions are performed in the same order, and the contract
ends with the same board, the same entries and the same counter of nonces.

What outsiders do move is the account, and that can decide whether a payment
goes through. `SameGovernance` leaves the holdings out, and the payments that
the host refuses are the excuse the two runs may have; every other step agrees
without one. The relation is an unwinding (`Lib/Unwinding.lean`).
-/

namespace ElrondMint

open Rollback

variable {w w' w₀ t t' : World} {l : Ledger} {token nftToken : TokenIdentifier}
  {minValid : Nat} {validators : List Address} {h : List Rec} {r r' : Rec} {act : Act}
  {ret : Ret} {hostOk : Bool} {id : Nat} {caller : Address} {a : Action}

/-- What the validators govern, and the nonces their actions create. -/
structure SameGovernance (w t : World) : Prop where
  board : w.toBoard = t.toBoard
  wrapper : w.toWrapper = t.toWrapper
  entries : w.actionMapper = t.actionMapper
  nonces : w.chain.lastNonce = t.chain.lastNonce

namespace SameGovernance

theorem refl (w : World) : SameGovernance w w := ⟨rfl, rfl, rfl, rfl⟩

theorem symm (h : SameGovernance w t) : SameGovernance t w :=
  ⟨h.board.symm, h.wrapper.symm, h.entries.symm, h.nonces.symm⟩

theorem trans (h : SameGovernance w t) (h' : SameGovernance t t') : SameGovernance w t' :=
  ⟨h.board.trans h'.board, h.wrapper.trans h'.wrapper, h.entries.trans h'.entries,
    h.nonces.trans h'.nonces⟩

theorem getUserId (h : SameGovernance w t) (x : Address) :
    w.userMapper.getUserId x = t.userMapper.getUserId x := by
  rw [h.board]

theorem isValidator (h : SameGovernance w t) :
    w.IsValidator caller ↔ t.IsValidator caller := by
  rw [h.board]

theorem signersOf (h : SameGovernance w t) : w.signersOf id = t.signersOf id :=
  signersOf_congr h.entries

theorem callsPerformAction (h : SameGovernance w t) :
    w.CallsPerformAction caller id ↔ t.CallsPerformAction caller id := by
  rw [Storage.CallsPerformAction, Storage.CallsPerformAction, h.signersOf, h.board]

theorem sign (h : SameGovernance w t) (signer : Nat) :
    SameGovernance (w.sign id a signer) (t.sign id a signer) := by
  refine ⟨h.board, h.wrapper, ?_, h.nonces⟩
  show (w.actionMapper.insert id (w.signedInfo id a signer)).2 =
    (t.actionMapper.insert id (t.signedInfo id a signer)).2
  rw [Storage.signedInfo, Storage.signedInfo, h.entries]

theorem dropEntry (h : SameGovernance w t) :
    SameGovernance (w.dropEntry id) (t.dropEntry id) := by
  refine ⟨h.board, h.wrapper, ?_, h.nonces⟩
  show (w.actionMapper.remove id).2 = (t.actionMapper.remove id).2
  rw [h.entries]

end SameGovernance

/-! ## Executing an action in two states -/

/-- The loop creates the same nonces from the same counters. -/
theorem sendWrappedLoop_agrees {token : TokenIdentifier} {c n : UInt64}
    (hsame : SameGovernance w t) (hsft : w.sftNonce = n)
    (hw : sendWrappedLoop hostOk token c n w = .ok w')
    (ht : sendWrappedLoop hostOk token c n t = .ok t') : SameGovernance w' t' := by
  have hsft' : t.sftNonce = n := by
    rw [← hsft]
    exact congrArg Wrapper.sftNonce hsame.wrapper.symm
  have hcounter := sendWrappedLoop_sftNonce hw hsft
  have hcounter' := sendWrappedLoop_sftNonce ht hsft'
  have hlast := (sendWrappedLoop_creates hw).1
  have hlast' := (sendWrappedLoop_creates ht).1
  have hother := fun x (hx : x ≠ token) => (sendWrappedLoop_other hw hx).1
  have hother' := fun x (hx : x ≠ token) => (sendWrappedLoop_other ht hx).1
  obtain ⟨chain, m, rfl⟩ := sendWrappedLoop_frame hw
  obtain ⟨chain', m', rfl⟩ := sendWrappedLoop_frame ht
  have hm : m = m' := by
    rw [← UInt64.toNat_inj]
    exact hcounter.trans hcounter'.symm
  refine ⟨hsame.board, ?_, hsame.entries, funext fun x => ?_⟩
  · show (⟨w.token, w.nftToken, m⟩ : Wrapper) = ⟨t.token, t.nftToken, m'⟩
    rw [hm, hsame.wrapper]
  · show chain.lastNonce x = chain'.lastNonce x
    by_cases hx : x = token
    · rw [hx, ← UInt64.toNat_inj, hlast, hlast', hsame.nonces]
    · rw [hother x hx, hother' x hx, hsame.nonces]

theorem GovernEffect.agrees {b b₁ b₂ : Board} (h : GovernEffect b a b₁)
    (h' : GovernEffect b a b₂) : b₁ = b₂ := by
  cases h with
  | addValidator hrole =>
      cases h' with
      | addValidator hrole' => exact Except.ok.inj (hrole.symm.trans hrole')
  | removeUser hrole =>
      cases h' with
      | removeUser hrole' => exact Except.ok.inj (hrole.symm.trans hrole')
  | changeMinValid =>
      cases h' with
      | changeMinValid => rfl

/-- Executed in two states with the same governance, an action ends the same
way. -/
theorem PerformEffect.agrees {flow flow' : Flow PerformActionResult}
    (hsame : SameGovernance w t) (h : PerformEffect w hostOk a flow w')
    (h' : PerformEffect t hostOk a flow' t') : flow = flow' ∧ SameGovernance w' t' := by
  cases h with
  | nothing =>
      cases h' with
      | nothing => exact ⟨rfl, hsame⟩
      | govern hgov => cases hgov
  | unfreeze =>
      cases h' with
      | unfreeze => exact ⟨rfl, hsame⟩
      | govern hgov => cases hgov
  | govern hgov =>
      cases h' with
      | govern hgov' =>
          rw [← hsame.board] at hgov'
          rw [hgov.agrees hgov']
          exact ⟨rfl, rfl, hsame.wrapper, hsame.entries, hsame.nonces⟩
      | nothing | sendWrapped | sendNft | unfreeze | unfreezeNft => cases hgov
  | sendWrapped hloop hmint hsend =>
      cases h' with
      | sendWrapped hloop' hmint' hsend' =>
          have htoken : t.token = w.token := congrArg Wrapper.token hsame.wrapper.symm
          have hsft : t.sftNonce = w.sftNonce :=
            congrArg Wrapper.sftNonce hsame.wrapper.symm
          rw [htoken, hsft] at hloop'
          have hloops := sendWrappedLoop_agrees hsame rfl hloop hloop'
          obtain ⟨-, hlast, -⟩ := Ledger.esdtLocalMint_spec hmint
          obtain ⟨-, hlast', -⟩ := Ledger.esdtLocalMint_spec hmint'
          obtain ⟨-, hlast₂, -⟩ := Ledger.transferEsdtViaAsyncCall_spec hsend
          obtain ⟨-, hlast₂', -⟩ := Ledger.transferEsdtViaAsyncCall_spec hsend'
          rw [htoken]
          refine ⟨rfl, hloops.board, hloops.wrapper, hloops.entries, ?_⟩
          rw [hlast₂, hlast₂', hlast, hlast', hloops.nonces]
      | govern hgov => cases hgov
  | sendNft hcreate hsend =>
      cases h' with
      | sendNft hcreate' hsend' =>
          have htoken : t.nftToken = w.nftToken :=
            congrArg Wrapper.nftToken hsame.wrapper.symm
          obtain ⟨rfl, -, -, hlast, -⟩ := Ledger.esdtNftCreate_spec hcreate
          obtain ⟨rfl, -, -, hlast', -⟩ := Ledger.esdtNftCreate_spec hcreate'
          obtain ⟨-, hlast₂, -⟩ := Ledger.transferEsdtViaAsyncCall_spec hsend
          obtain ⟨-, hlast₂', -⟩ := Ledger.transferEsdtViaAsyncCall_spec hsend'
          rw [htoken, hsame.nonces]
          refine ⟨rfl, hsame.board, hsame.wrapper, hsame.entries, ?_⟩
          rw [hlast₂, hlast₂', hlast, hlast', htoken, hsame.nonces]
      | govern hgov => cases hgov
  | unfreezeNft hsend =>
      cases h' with
      | unfreezeNft hsend' =>
          obtain ⟨-, hlast, -⟩ := Ledger.transferEsdtViaAsyncCall_spec hsend
          obtain ⟨-, hlast', -⟩ := Ledger.transferEsdtViaAsyncCall_spec hsend'
          refine ⟨rfl, hsame.board, hsame.wrapper, hsame.entries, ?_⟩
          rw [hlast, hlast', hsame.nonces]
      | govern hgov => cases hgov

/-- Only a payment has an excuse, the refusal of the host. -/
theorem performAction_agrees (hsame : SameGovernance w t) (hostOk : Bool) (a : Action) :
    Agree (fun e => a.isPayment = true ∧ e = .host)
      (fun p q => p.1 = q.1 ∧ SameGovernance p.2 q.2 ∧
        (a.isPayment = false → p.1 = .returned .done))
      (performAction w hostOk a) (performAction t hostOk a) := by
  cases hpay : a.isPayment with
  | true =>
      refine .of_excused (fun e he => ⟨rfl, payment_error hpay he⟩)
        (fun e he => ⟨rfl, payment_error hpay he⟩) fun p q hw ht => ?_
      obtain ⟨flow, w'⟩ := p
      obtain ⟨flow', t'⟩ := q
      obtain ⟨hflow, hsame'⟩ :=
        (performAction_effect hw).agrees hsame (performAction_effect ht)
      exact ⟨hflow, hsame', nofun⟩
  | false =>
      cases a with
      | sendWrapped | sendNft | unfreeze | unfreezeNft => cases hpay
      | nothing => exact .ok ⟨rfl, hsame, fun _ => rfl⟩
      | addValidator addr =>
          show Agree _ _ (w.toBoard.changeUserRole addr .validator >>= _)
            (t.toBoard.changeUserRole addr .validator >>= _)
          rw [hsame.board]
          refine .bind (.refl _) fun b b' heq => ?_
          subst heq
          exact .ok ⟨rfl, ⟨rfl, hsame.wrapper, hsame.entries, hsame.nonces⟩, fun _ => rfl⟩
      | removeUser addr =>
          show Agree _ _ (w.toBoard.changeUserRole addr .none >>= _)
            (t.toBoard.changeUserRole addr .none >>= _)
          rw [hsame.board]
          refine .bind (.refl _) fun b b' heq => ?_
          subst heq
          refine .bind (.refl _) fun _ _ _ => .bind (.refl _) fun _ _ _ => ?_
          exact .ok ⟨rfl, ⟨rfl, hsame.wrapper, hsame.entries, hsame.nonces⟩, fun _ => rfl⟩
      | changeMinValid newQuorum =>
          show Agree _ _ (require (newQuorum ≤ w.toBoard.numValidators) _ >>= _)
            (require (newQuorum ≤ t.toBoard.numValidators) _ >>= _)
          rw [hsame.board]
          refine .bind (.refl _) fun _ _ _ => ?_
          exact .ok ⟨rfl, ⟨rfl, hsame.wrapper, hsame.entries, hsame.nonces⟩, fun _ => rfl⟩

/-- What is left of the call after its action. -/
theorem complete_agrees (hsame : SameGovernance w t) (hostOk : Bool) (id : Nat)
    (flow : Flow PerformActionResult) :
    Agree (fun e => flow ≠ .returned .done ∧ e = .host)
      (fun p q => p.1 = q.1 ∧ SameGovernance p.2 q.2)
      (complete hostOk id (flow, w)) (complete hostOk id (flow, t)) := by
  cases flow with
  | exited call => exact .ok ⟨rfl, hsame⟩
  | returned res =>
      cases res with
      | done | pending => exact .ok ⟨rfl, hsame.dropEntry⟩
      | asyncCall | unfreeze =>
          refine .of_excused (fun e he => ⟨nofun, complete_error he⟩)
            (fun e he => ⟨nofun, complete_error he⟩) fun p q hp hq => ?_
          obtain ⟨w', hfin, hp⟩ := bind_eq_ok.mp hp
          obtain ⟨t', hfin', hq⟩ := bind_eq_ok.mp hq
          obtain ⟨egld, rfl⟩ := finish_frame hfin
          obtain ⟨egld', rfl⟩ := finish_frame hfin'
          cases hp
          cases hq
          have hdrop := @SameGovernance.dropEntry _ _ id hsame
          exact ⟨rfl, hdrop.board, hdrop.wrapper, hdrop.entries, hdrop.nonces⟩

/-! ## A validator's call in two states -/

/-- The same call in two states with the same governance. A payment that the
host refuses when it is performed is the only excuse. -/
theorem exec_agrees (hsame : SameGovernance w t)
    (hs : act.validates = some (caller, id, a)) :
    Agree (fun e => w.CallsPerformAction caller id ∧ a.isPayment = true ∧ e = .host)
      (fun p q => p.1 = q.1 ∧ SameGovernance p.2 q.2) (exec w act) (exec t act) := by
  by_cases hval : w.IsValidator caller
  · have hval' := hsame.isValidator.mp hval
    have hid := hsame.getUserId caller
    by_cases hold : w.userMapper.getUserId caller ∈ w.signersOf id
    · have hold' : t.userMapper.getUserId caller ∈ t.signersOf id := by
        rw [← hid, ← hsame.signersOf]
        exact hold
      rw [exec_known hs hval hold, exec_known hs hval' hold']
      exact .ok ⟨rfl, hsame⟩
    · have hnew' : t.userMapper.getUserId caller ∉ t.signersOf id := by
        rw [← hid, ← hsame.signersOf]
        exact hold
      have hsign := @SameGovernance.sign _ _ id a hsame (w.userMapper.getUserId caller)
      by_cases hcall : w.CallsPerformAction caller id
      · rw [exec_performs hs hcall,
          exec_performs hs (hsame.callsPerformAction.mp hcall), ← hid]
        have hperf := (performAction_agrees hsign act.hostOk a).weaken
          fun e he => And.intro hcall he
        refine hperf.bind fun p q hpq => ?_
        obtain ⟨flow, w'⟩ := p
        obtain ⟨flow', t'⟩ := q
        obtain ⟨rfl, hsame', hdone⟩ := hpq
        refine (complete_agrees hsame' act.hostOk id flow).weaken fun e he => ?_
        refine ⟨hcall, ?_, he.2⟩
        cases hpay : a.isPayment with
        | true => rfl
        | false => exact absurd (hdone hpay) he.1
      · have hcount : (w.signersOf id).length + 1 ≠ w.minValid :=
          fun heq => hcall ⟨hval, hold, heq⟩
        have hcount' : (t.signersOf id).length + 1 ≠ t.minValid :=
          fun heq => hcall (hsame.callsPerformAction.mpr ⟨hval', hnew', heq⟩)
        rw [exec_counted hs hval hold hcount, exec_counted hs hval' hnew' hcount',
          ← hid]
        exact .ok ⟨rfl, hsign⟩
  · have hval' : ¬ t.IsValidator caller :=
      fun hv => hval (hsame.isValidator.mpr hv)
    rw [exec_outsider hs hval, exec_outsider hs hval']
    exact .error _

/-! ## Records -/

/-- No payment that a record performs is refused by the host. -/
def PaymentGoesThrough (r : Rec) : Prop :=
  ∀ caller id a, r.act.validates = some (caller, id, a) →
    r.pre.CallsPerformAction caller id → a.isPayment = true → r.ret ≠ .error .host

instance (r : Rec) : Decidable (PaymentGoesThrough r) :=
  inferInstanceAs (Decidable (∀ caller id a, r.act.validates = some (caller, id, a) →
    r.pre.CallsPerformAction caller id → a.isPayment = true → r.ret ≠ .error .host))

/-- Whether a validator sent the transaction. A parcel that settles is nobody's
transaction. -/
def FromInside (r : Rec) : Prop :=
  match r.act with
  | .tx tx => r.pre.viewUserRole tx.caller = .validator
  | .settle .. => True

instance : DecidablePred FromInside := fun r =>
  match h : r.act with
  | .tx tx => decidable_of_iff (r.pre.viewUserRole tx.caller = .validator)
      (by rw [FromInside, h])
  | .settle .. => isTrue (by rw [FromInside, h]; trivial)

/-- A call of `propose*` or `validate*` and its answer. -/
def answered (r : Rec) : Option (Act × Except Failure Ret) :=
  r.act.signs.map fun _ => (r.act, r.ret)

/-- The endpoints that only validators may call. -/
def Call.restricted : Call → Bool
  | .eventRead _ => true
  | call => call.signs.isSome

theorem PlainEffect.lastNonce (h : PlainEffect w act ret w') :
    w'.chain.lastNonce = w.chain.lastNonce := by
  cases h with
  | settle | readOn | readOut => rfl
  | deposit hrec | freezeSend _ hrec | freezeSendNft _ _ hrec =>
      obtain ⟨-, -, -, hlast, -⟩ := Ledger.receive_spec hrec
      exact hlast
  | withdrawNft _ _ hrec _ _ hburn | withdraw _ _ hrec hburn =>
      obtain ⟨-, -, -, hlast, -⟩ := Ledger.receive_spec hrec
      obtain ⟨-, -, hlast', -⟩ := Ledger.esdtLocalBurn_spec hburn
      exact hlast'.trans hlast

/-- What is no call of the validators leaves the governance alone. -/
theorem plain_governance (hs : act.signs = none) :
    SameGovernance (record exec w act).post w := by
  cases hex : exec w act with
  | error e =>
      rw [record_error hex]
      exact .refl w
  | ok out =>
      obtain ⟨ret, w'⟩ := out
      rw [record_ok hex]
      have heff := exec_plain hs hex
      obtain ⟨hboard, hwrapper, hentries, -⟩ := heff.frame
      exact ⟨hboard, hwrapper, hentries, heff.lastNonce⟩

theorem check_refuses {p : Payment} (hp : p ≠ .egld 0) :
    Payable.no.check p = .error .host := by
  cases p with
  | egld value =>
      cases value with
      | zero => exact absurd rfl hp
      | succ n => rfl
  | esdt token nonce value => rfl

/-- A validator's call with a payment is refused before it runs. -/
theorem exec_paid (hs : act.signs.isSome) (hv : act.validates = none) :
    exec w act = .error .host := by
  cases act with
  | settle => cases hs
  | tx tx =>
      obtain ⟨s, hs⟩ := Option.isSome_iff_exists.mp hs
      obtain ⟨ua, hcall, -⟩ := Option.map_eq_some_iff.mp hs
      have hpay : tx.payment ≠ .egld 0 := by
        intro hpay
        rw [Act.validates, if_pos hpay, hs] at hv
        simp at hv
      show (tx.call.payable.check tx.payment >>= _) = _
      rw [(invoke_signs (w := w) hcall).2, check_refuses hpay]
      rfl

/-- The same act in two states with the same governance. -/
theorem record_agrees (hsame : SameGovernance w t)
    (hw : PaymentGoesThrough (record exec w act))
    (ht : PaymentGoesThrough (record exec t act)) :
    SameGovernance (record exec w act).post (record exec t act).post ∧
      (act.signs.isSome → (record exec w act).ret = (record exec t act).ret) := by
  cases hs : act.signs with
  | none =>
      refine ⟨?_, nofun⟩
      exact (plain_governance hs).trans (hsame.trans (plain_governance hs).symm)
  | some s =>
      have hsome : act.signs.isSome := by
        rw [hs]
        rfl
      cases hv : act.validates with
      | none =>
          rw [record_error (exec_paid hsome hv), record_error (exec_paid hsome hv)]
          exact ⟨hsame, fun _ => rfl⟩
      | some s =>
          obtain ⟨caller, id, a⟩ := s
          rw [PaymentGoesThrough, record_pre, record_act] at hw ht
          have hboth := (exec_agrees hsame hv).record hsame ?_ ?_
          · exact ⟨hboth.1, fun _ => hboth.2⟩
          · intro e hret hexcuse
            obtain ⟨hcall, hpay, rfl⟩ := hexcuse
            exact hw caller id a hv hcall hpay hret
          · intro e hret hexcuse
            obtain ⟨hcall, hpay, rfl⟩ := hexcuse
            exact ht caller id a hv (hsame.callsPerformAction.mp hcall) hpay hret

/-! ## Outsiders -/

/-- The view and the lookup of `validate_action` agree, since nothing is stored
at the id of the unknown. -/
theorem Board.RolesInside.viewUserRole_iff {b : Board} (hin : b.RolesInside)
    (x : Address) :
    b.viewUserRole x = .validator ↔ b.IsValidator x := by
  unfold Board.viewUserRole Board.IsValidator
  by_cases h0 : b.userMapper.getUserId x = 0
  · simp [h0, hin 0 (.inl rfl)]
  · simp [h0]

theorem signs_caller (hs : act.signs = some (caller, id, a)) :
    ∃ tx, act = .tx tx ∧ tx.caller = caller := by
  cases act with
  | settle => cases hs
  | tx tx =>
      obtain ⟨ua, -, heq⟩ := Option.map_eq_some_iff.mp hs
      exact ⟨tx, rfl, congrArg Prod.fst heq⟩

/-- Whoever is no validator is refused by the endpoints of the validators. -/
theorem outsider_fails (hin : w.toBoard.RolesInside) {tx : Tx}
    (hout : w.viewUserRole tx.caller ≠ .validator) (hcall : tx.call.restricted = true) :
    ∃ e, exec w (.tx tx) = .error e := by
  rw [ne_eq, hin.viewUserRole_iff] at hout
  cases hex : exec w (.tx tx) with
  | error e => exact ⟨e, rfl⟩
  | ok out =>
      exfalso
      obtain ⟨ret, w'⟩ := out
      cases hs : (Act.tx tx).signs with
      | some s =>
          obtain ⟨caller, id, a⟩ := s
          obtain ⟨hostOk, heff⟩ := exec_sign hs hex
          obtain ⟨tx', htx, hcaller⟩ := signs_caller hs
          cases htx
          rw [hcaller] at hout
          exact hout heff.isValidator
      | none =>
          cases exec_plain hs hex with
          | readOn hval | readOut hval => exact hout hval
          | deposit | freezeSend | freezeSendNft | withdrawNft | withdraw => cases hcall

/-- An outsider's transaction governs nothing and performs nothing. -/
theorem outsider_record (hin : w.toBoard.RolesInside)
    (hout : ¬ FromInside (record exec w act)) :
    SameGovernance (record exec w act).post w ∧ performed (record exec w act) = none := by
  rw [FromInside, record_act, record_pre] at hout
  cases act with
  | settle => exact absurd trivial hout
  | tx tx =>
      cases hs : (Act.tx tx).signs with
      | none =>
          refine ⟨plain_governance hs, performed_none ?_⟩
          rw [record_act]
          exact hs
      | some s =>
          have hcall : tx.call.restricted = true := by
            obtain ⟨ua, hcall, -⟩ := Option.map_eq_some_iff.mp hs
            rw [Call.restricted, hcall]
            · rfl
            · intro k hk
              rw [hk] at hcall
              cases hcall
          obtain ⟨e, hex⟩ := outsider_fails hin hout hcall
          rw [record_error hex]
          exact ⟨.refl w, rfl⟩

/-- What the validators see of a run, and what they govern at its end, are those
of another. -/
structure Unsteered (h : List Rec) (w : World) (h' : List Rec) (w' : World) :
    Prop where
  answers : (h.filter fun r => decide (FromInside r)).filterMap answered =
    h'.filterMap answered
  actions : h.filterMap performed = h'.filterMap performed
  board : w.toBoard = w'.toBoard
  entries : w.actionMapper = w'.actionMapper
  counter : w.sftNonce = w'.sftNonce

theorem unwinding (hinit : deploy l token nftToken minValid validators = .ok w₀) :
    Unwinding exec w₀ FromInside PaymentGoesThrough SameGovernance fun r r' =>
      r.act = r'.act ∧ (r.act.signs.isSome → r.ret = r'.ret) where
  start := .refl w₀
  frame _ _ _ _ hrun hsame hout :=
    (outsider_record (run_sound hinit hrun).inside hout).1.trans hsame
  step _ _ _ _ _ hsame _ hw ht := by
    obtain ⟨hpost, hret⟩ := record_agrees hsame hw ht
    rw [record_act, record_act]
    exact ⟨hpost, rfl, hret⟩

theorem answered_agrees {r r' : Rec}
    (h : r.act = r'.act ∧ (r.act.signs.isSome → r.ret = r'.ret)) :
    answered r = answered r' ∧ performed r = performed r' := by
  obtain ⟨hact, hret⟩ := h
  cases hs : r.act.signs with
  | none =>
      have hs' : r'.act.signs = none := by
        rw [← hact]
        exact hs
      rw [answered, answered, hs, hs', performed_none hs, performed_none hs']
      exact ⟨rfl, rfl⟩
  | some s =>
      have hret := hret (by rw [hs]; rfl)
      rw [answered, answered, performed, performed, hact, hret]
      exact ⟨rfl, rfl⟩

/-- Outsiders have no say: the endpoints of the validators refuse them in every
state a run reaches, and erasing all their transactions from the run changes
nothing about the calls that are left, the actions they perform or what they
govern, as long as the host refuses no payment in either run. -/
theorem outsiders_have_no_say
    (hinit : deploy l token nftToken minValid validators = .ok w₀)
    (hrun : Run exec w₀ h w) :
    (∀ tx : Tx, w.viewUserRole tx.caller ≠ .validator → tx.call.restricted = true →
      ∃ e, exec w (.tx tx) = .error e) ∧
    let purged := play exec w₀ (kept FromInside h)
    (∀ r ∈ h, PaymentGoesThrough r) → (∀ r ∈ purged.1, PaymentGoesThrough r) →
      Unsteered h w purged.1 purged.2 := by
  have hin := (run_sound hinit hrun).inside
  refine ⟨fun tx hout hcall => outsider_fails hin hout hcall, ?_⟩
  intro purged hfine hfine'
  obtain ⟨hsame, hrecords⟩ := (unwinding hinit).run hrun hfine hfine'
  have hquiet : ∀ r ∈ h, ¬ FromInside r → performed r = none :=
    along_forall.mp (hrun.along fun _ _ _ hrun hout =>
      (outsider_record (run_sound hinit hrun).inside hout).2)
  have hperformed : h.filterMap performed =
      (h.filter fun r => decide (FromInside r)).filterMap performed := by
    rw [List.filterMap_filter]
    refine List.filterMap_congr fun r hr => ?_
    by_cases hin : FromInside r
    · simp [hin]
    · simp [hin, hquiet r hr hin]
  refine ⟨observed (fun _ _ hq => (answered_agrees hq).1) hrecords, ?_, hsame.board,
    hsame.entries, congrArg Wrapper.sftNonce hsame.wrapper⟩
  rw [hperformed]
  exact observed (fun _ _ hq => (answered_agrees hq).2) hrecords

/-- Alice and bob send an NFT while dan freezes and tries to sign. -/
theorem outsiders_have_no_say_dan :
    let run := play exec (freshWorld 2 [alice, bob, charlie])
      [send bob nftVote, send dan nftVote,
        .tx ⟨dan, .egld 10, true, .freezeSend 9 "dan"⟩, send alice nftVote]
    let purged := play exec (freshWorld 2 [alice, bob, charlie])
      [send bob nftVote, send alice nftVote]
    Unsteered run.1 run.2 purged.1 purged.2 := by
  intro run purged
  have hkept : kept FromInside run.1 = [send bob nftVote, send alice nftVote] := by
    decide +kernel
  have hrun : Run exec (freshWorld 2 [alice, bob, charlie]) run.1 run.2 := run_play _ _ _
  have hsay := (outsiders_have_no_say deploy_three hrun).2
  rw [hkept] at hsay
  exact hsay (by decide +kernel) (by decide +kernel)

end ElrondMint
