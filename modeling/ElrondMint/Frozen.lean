import ElrondMint.Wrapped
import ElrondMint.Evaluation

/-!
# What is frozen

EGLD and the tokens of other collections come to the contract to be frozen:
`freezeSend` and `freezeSendNft` announce them to the other chain, `deposit`
brings more, and the validators release them by `Unfreeze` and
`UnfreezeNft`. Nothing else moves them, so the contract holds what was frozen
and deposited and has not been released.

A frozen NFT is meant to be announced once until it is released. What
`freezeSendNft` checks is that one unit is paid, which does not make a token
non-fungible: of a token with more units the next one is announced under the
same name. What the announcements have over the releases is held by the
contract, so it is never more than the units there are, and never more than
one if no freeze finds a unit held already.
-/

namespace ElrondMint

open Custody Rollback

/-! ## The amounts -/

/-- The value of a `Transfer` event that a record inserts. -/
def frozenValue (r : Rec) : Nat :=
  match insertedEvent r with
  | some (.transfer _ _ value) => value
  | _ => 0

/-- The `TransferNft` events of an asset that a record inserts. -/
def frozenUnits (k : Asset) (r : Rec) : Nat :=
  match insertedEvent r with
  | some (.transferNft _ _ token n) => if k = (token, n) then 1 else 0
  | _ => 0

/-- The payment of a successful `deposit`. -/
def deposited (r : Rec) : Option Payment :=
  match r.act with
  | .tx ⟨_, _, _, .deposit⟩ => takenIn r
  | _ => none

/-- The EGLD that a payment brings. -/
def Payment.inEgld : Payment → Nat
  | .egld value => value
  | .esdt .. => 0

def depositedEgld (r : Rec) : Nat :=
  match deposited r with
  | some p => p.inEgld
  | none => 0

def depositedUnits (k : Asset) (r : Rec) : Nat :=
  match deposited r with
  | some p => p.units k
  | none => 0

/-- What an action pays in EGLD. -/
def Action.pays : Action → Nat
  | .unfreeze _ amount => amount
  | _ => 0

/-- The amount of a performed `Unfreeze`. -/
def paidOut (r : Rec) : Nat :=
  match performedAction r with
  | some a => a.pays
  | none => 0

/-- The endpoints that freeze, deposit or release, and the return of a
parcel. -/
def Act.movesCustody : Act → Bool
  | .settle _ accepted => !accepted
  | .tx t =>
      match t.call with
      | .freezeSend .. | .freezeSendNft .. | .deposit | .validateUnfreeze ..
      | .validateUnfreezeNft .. => true
      | _ => false

/-- The account owns nothing yet. -/
structure Ledger.HoldsNothing (l : Ledger) : Prop where
  egld : l.egld = 0
  holding : ∀ k, l.esdt.holding k = 0

/-- An asset of neither of the contract's own collections. -/
def Wrapper.Foreign (s : Wrapper) (k : Asset) : Prop := k.1 ≠ s.token ∧ k.1 ≠ s.nftToken

variable {w w' w₀ : World} {l : Ledger} {token nftToken : TokenIdentifier}
  {minValid : Nat} {validators : List Address} {h past : List Rec} {r : Rec}
  {act : Act} {ret : Ret} {hostOk : Bool} {a : Action} {k : Asset}

/-! ## EGLD -/

theorem receive_egld {l l' : Ledger} {p : Payment} (h : l.receive p = .ok l') :
    l'.egld = l.egld + p.inEgld := by
  cases p with
  | egld value =>
      simp only [Ledger.receive, Except.ok.injEq] at h
      subst h
      rfl
  | esdt token nonce value =>
      simp only [Ledger.receive] at h
      split at h
      · simp at h
      · split at h
        · simp only [Except.ok.injEq] at h
          subst h
          rfl
        · simp at h

theorem inEgld_of_token {p : Payment} (htoken : p.token ≠ .egld) : p.inEgld = 0 := by
  cases p with
  | egld value => exact absurd rfl htoken
  | esdt token nonce value => rfl

theorem sendWrappedLoop_egld {t : TokenIdentifier} {c n : UInt64}
    (h : sendWrappedLoop hostOk t c n w = .ok w') : w'.chain.egld = w.chain.egld := by
  replace h := sendWrappedLoop_rounds h
  induction h with
  | done => rfl
  | round _ hcreate _ ih =>
      rw [ih]
      exact (Ledger.esdtNftCreate_spec hcreate).2.2.1

/-- No action pays EGLD itself: the end of the call does. -/
theorem PerformEffect.egld {flow : Flow PerformActionResult}
    (h : PerformEffect w hostOk a flow w') : w'.chain.egld = w.chain.egld := by
  cases h with
  | nothing | govern | unfreeze => rfl
  | sendWrapped hloop hmint hsend =>
      rw [(Ledger.transferEsdtViaAsyncCall_spec hsend).1,
        (Ledger.esdtLocalMint_spec hmint).1]
      exact sendWrappedLoop_egld hloop
  | sendNft hcreate hsend =>
      rw [(Ledger.transferEsdtViaAsyncCall_spec hsend).1]
      exact (Ledger.esdtNftCreate_spec hcreate).2.2.1
  | unfreezeNft hsend => exact (Ledger.transferEsdtViaAsyncCall_spec hsend).1

/-- What the end of a call pays is what the action says. -/
theorem PerformEffect.finish_egld {res : PerformActionResult} {w₁ w₂ : World}
    (h : PerformEffect w hostOk a (.returned res) w')
    (hfin : res.finish w₁ hostOk = .ok w₂) (hegld : w₁.chain.egld = w.chain.egld) :
    w₂.chain.egld + a.pays = w.chain.egld := by
  cases h with
  | nothing =>
      cases hfin
      exact hegld
  | govern hgov =>
      cases hfin
      cases hgov <;> exact hegld
  | unfreeze =>
      obtain ⟨chain, hpay, hfin⟩ := bind_eq_ok.mp hfin
      cases hfin
      obtain ⟨hle, rfl⟩ := Ledger.directEgld_spec hpay
      simp only [Action.pays] at hle ⊢
      omega

/-! ## One record -/

theorem deposited_none (h : takenIn r = none) : deposited r = none := by
  unfold deposited
  split
  · exact h
  · rfl

theorem nothing_deposited (h : takenIn r = none) :
    depositedEgld r = 0 ∧ ∀ k, depositedUnits k r = 0 := by
  refine ⟨?_, fun k => ?_⟩
  · rw [depositedEgld, deposited_none h]
  · rw [depositedUnits, deposited_none h]

/-- What a record does to the EGLD of the contract. -/
def EgldStep (r : Rec) : Prop :=
  r.post.chain.egld + paidOut r = r.pre.chain.egld + frozenValue r + depositedEgld r

theorem record_egld (w : World) (act : Act) : EgldStep (record exec w act) := by
  refine record_cases w act (fun e hex => ?_) (fun ret w' hs heff => ?_)
    (fun caller hostOk id a ret w' hs heff => ?_)
  · show w.chain.egld + 0 = w.chain.egld + 0 + _
    rw [(nothing_deposited (takenIn_error _ _ _ _)).1]
  · cases heff with
    | settle | readOn | readOut => rfl
    | deposit hrec => exact receive_egld hrec
    | @freezeSend caller hostOk value c recipient chain hpos hrec =>
        rw [EgldStep, frozenValue, insertedEvent, inserted_emit]
        exact receive_egld hrec
    | @freezeSendNft caller p hostOk c recipient chain hnonce hone hrec =>
        rw [EgldStep, frozenValue, insertedEvent, inserted_emit]
        have hegld := receive_egld hrec
        cases p with
        | egld value => simp [Payment.nonce] at hnonce
        | esdt token nonce value => exact hegld
    | withdrawNft htoken hnonce hrec huri hattr hburn =>
        obtain ⟨hne, hegld, -⟩ := Ledger.esdtLocalBurn_spec hburn
        rw [receive_egld hrec, inEgld_of_token hne] at hegld
        rw [EgldStep, frozenValue, insertedEvent, inserted_emit]
        exact hegld
    | withdraw hpos htoken hrec hburn =>
        obtain ⟨hne, hegld, -⟩ := Ledger.esdtLocalBurn_spec hburn
        rw [receive_egld hrec, inEgld_of_token hne] at hegld
        rw [EgldStep, frozenValue, insertedEvent, inserted_emit]
        exact hegld
  · have hnone : ∀ flow, depositedEgld ⟨w, act, .ok (.flow flow), w'⟩ = 0 :=
      fun flow => (nothing_deposited (takenIn_flow w w' flow hs)).1
    cases heff with
    | known | counted =>
        rw [EgldStep, hnone]
        rfl
    | exited hcall hperf =>
        have heff := performAction_effect hperf
        rw [EgldStep, hnone, paidOut, performedAction_exited _ _ _ hs]
        have hpays : a.pays = 0 := by
          have hexits := heff.exits
          cases a with
          | unfreeze => simp [Action.exits] at hexits
          | _ => rfl
        show w'.chain.egld + a.pays = w.chain.egld
        rw [hpays]
        exact heff.egld
    | returned hcall hperf hfin =>
        have heff := performAction_effect hperf
        rw [EgldStep, hnone, paidOut,
          performedAction_returned _ _ hs heff.exits.2]
        exact heff.finish_egld hfin heff.egld

/-- What comes in is frozen or deposited, and a freeze brings what it
announces. -/
structure TakenStep (k : Asset) (r : Rec) : Prop where
  taken : takenUnits k r = frozenUnits k r + depositedUnits k r
  frozen : frozenUnits k r ≠ 0 → takenUnits k r = 1 ∧ frozenUnits k r = 1

theorem TakenStep.nothing (htaken : takenIn r = none) (hfrozen : frozenUnits k r = 0) :
    TakenStep k r := by
  refine ⟨?_, fun hno => absurd hfrozen hno⟩
  rw [takenUnits, htaken, hfrozen, (nothing_deposited htaken).2]

theorem record_taken (w : World) (act : Act) (k : Asset) :
    TakenStep k (record exec w act) := by
  refine record_cases w act (fun e hex => ?_) (fun ret w' hs heff => ?_)
    (fun caller hostOk id a ret w' hs heff => ?_)
  · exact .nothing (takenIn_error _ _ _ _) rfl
  · cases heff with
    | settle | readOn | readOut => exact .nothing rfl rfl
    | deposit hrec => exact ⟨(Nat.zero_add _).symm, nofun⟩
    | freezeSend hpos hrec =>
        refine .nothing rfl ?_
        rw [frozenUnits, insertedEvent, inserted_emit]
        rfl
    | @freezeSendNft caller p hostOk c recipient chain hnonce hone hrec =>
        have hfrozen : frozenUnits k ⟨w, .tx ⟨caller, p, hostOk, .freezeSendNft c recipient⟩,
            .ok (.ident (w.eventIdent + 1)),
            { w.emit (.transferNft c recipient p.token p.nonce) with chain := chain }⟩ =
            p.units k := by
          rw [frozenUnits, insertedEvent, inserted_emit]
          cases p with
          | egld value => simp [Payment.nonce] at hnonce
          | esdt token nonce value =>
              simp only [Payment.value] at hone
              simp only [Option.map_some, Payment.units, Payment.token, Payment.nonce, hone]
        refine ⟨?_, fun hne => ?_⟩
        · rw [hfrozen]
          rfl
        · have hunits : p.units k = 1 := by
            rw [hfrozen] at hne
            cases p with
            | egld value => exact absurd rfl hne
            | esdt token nonce value =>
                simp only [Payment.value] at hone
                simp only [Payment.units, hone] at hne ⊢
                split at hne
                · next hk => rw [if_pos hk]
                · simp at hne
          exact ⟨hunits, hfrozen.trans hunits⟩
    | withdrawNft | withdraw =>
        refine .nothing rfl ?_
        rw [frozenUnits, insertedEvent, inserted_emit]
        rfl
  · cases heff with
    | known | counted | exited | returned => exact .nothing (takenIn_flow _ _ _ hs) rfl

/-- Where nothing is frozen, deposited or released, the record shows it. -/
theorem unmoved_amounts (hno : r.act.movesCustody = false) :
    deposited r = none ∧ paidOut r = 0 ∧ ∀ k, releasedUnits k r = 0 := by
  obtain ⟨pre, act, ret, post⟩ := r
  have hperf : ∀ a, performedAction ⟨pre, act, ret, post⟩ = some a →
      (∀ recipient amount, a ≠ .unfreeze recipient amount) ∧
        ∀ recipient token n, a ≠ .unfreezeNft recipient token n := by
    intro a ha
    obtain ⟨⟨i, b⟩, hs, rfl⟩ := Option.map_eq_some_iff.mp ha
    obtain ⟨caller, hs⟩ := performed_signs hs
    cases act with
    | settle => cases hs
    | tx tx =>
        obtain ⟨x, p, hostOk, call⟩ := tx
        cases call with
        | freezeSend | freezeSendNft | deposit | validateUnfreeze | validateUnfreezeNft =>
            simp [Act.movesCustody] at hno
        | eventRead | withdrawNft | withdraw => cases hs
        | proposeAddValidator | proposeRemoveUser | proposeChangeMinValid
        | validateSendWrapped | validateSendNft =>
            cases hs
            exact ⟨nofun, nofun⟩
  refine ⟨?_, ?_, fun k => ?_⟩
  · unfold deposited
    split
    · next hact =>
        simp only at hact
        subst hact
        simp [Act.movesCustody] at hno
    · rfl
  · unfold paidOut
    split
    · next a ha =>
        cases a with
        | unfreeze recipient amount => exact absurd rfl ((hperf _ ha).1 recipient amount)
        | _ => rfl
    · rfl
  · unfold releasedUnits
    split
    · next recipient token n ha => exact absurd rfl ((hperf _ ha).2 recipient token n)
    · rfl

theorem record_unmoved (w : World) (act : Act) (hno : act.movesCustody = false) :
    frozenValue (record exec w act) = 0 ∧ ∀ k, frozenUnits k (record exec w act) = 0 := by
  refine record_cases (P := fun r => frozenValue r = 0 ∧ ∀ k, frozenUnits k r = 0) w act
    (fun e hex => ⟨rfl, fun _ => rfl⟩) (fun ret w' hs heff => ?_)
    (fun caller hostOk id a ret w' hs heff => ?_)
  · cases heff with
    | settle | deposit | readOn | readOut => exact ⟨rfl, fun _ => rfl⟩
    | freezeSend | freezeSendNft => simp [Act.movesCustody] at hno
    | withdrawNft | withdraw =>
        refine ⟨?_, fun k => ?_⟩
        · rw [frozenValue, insertedEvent, inserted_emit]
          rfl
        · rw [frozenUnits, insertedEvent, inserted_emit]
          rfl
  · cases heff <;> exact ⟨rfl, fun _ => rfl⟩

/-- What a record does to an asset of another collection. -/
structure ForeignStep (k : Asset) (r : Rec) : Prop where
  units : r.post.chain.esdt.units k = r.pre.chain.esdt.units k
  holding : r.act.bounces = false →
    r.post.chain.esdt.holding k + releasedUnits k r =
      r.pre.chain.esdt.holding k + takenUnits k r

theorem LedgerEffect.foreignStep (heff : LedgerEffect r) (hk : r.pre.Foreign k) :
    ForeignStep k r := by
  have hown : ∀ m, k ≠ (r.pre.token, m) := fun m heq => hk.1 (congrArg Prod.fst heq)
  have hnft : ∀ m, k ≠ (r.pre.nftToken, m) := fun m heq => hk.2 (congrArg Prod.fst heq)
  cases heff with
  | still hperf hevent hin hback hsft hesdt hlast hdata =>
      refine ⟨by rw [hesdt], fun _ => ?_⟩
      rw [(no_amounts (n := 0) hperf).2, takenUnits, hin, hesdt]
  | settle i accepted hact hret hpost =>
      obtain ⟨hperf, hevent⟩ := settled_shows_nothing hret
      refine ⟨?_, fun haccept => ?_⟩
      · rw [hpost]
        exact Account.settle_units _ _ _ _
      · have htrue : accepted = true := by
          rw [hact] at haccept
          simpa [Act.bounces] using haccept
        rw [releasedUnits, hperf, takenUnits, takenIn, hact, hpost, htrue]
        show (r.pre.chain.esdt.settle i true).holding k + 0 = r.pre.chain.esdt.holding k + 0
        rw [Account.settle_accepted_holding]
  | takeIn p hperf hevent hin hback hsft hhold hunits hlast hdata =>
      refine ⟨hunits k, fun _ => ?_⟩
      rw [releasedUnits, hperf, takenUnits, hin, hhold]
      rfl
  | withdraw n recipient value hperf hevent hin hback hsft hhold hunits hlast hdata =>
      have hburnt := hunits k
      rw [if_neg (hown n)] at hburnt
      refine ⟨hburnt, fun _ => ?_⟩
      rw [releasedUnits, hperf, takenUnits, hin, hhold]
  | withdrawNft n c recipient id value hperf hevent hin hback hsft hpays hpaid huri hhold
      hunits hlast hdata =>
      have hheld := hhold k
      have hburnt := hunits k
      rw [if_neg (hnft n), if_neg (hnft n)] at hheld
      rw [if_neg (hnft n)] at hburnt
      refine ⟨hburnt, fun _ => ?_⟩
      rw [releasedUnits, hperf, takenUnits, hin]
      exact hheld
  | sendWrapped c recipient amount data hperf hevent hin hback hnext hother =>
      obtain ⟨hheld, hminted, -⟩ := (hother k.1 hk.1).2 k.2
      refine ⟨hminted, fun _ => ?_⟩
      rw [releasedUnits, hperf, takenUnits, hin]
      exact congrArg (· + 0) hheld
  | sendNft n c recipient id hperf hminted hevent hin hback hsft hnext hne hhold hunits
      hlast hdata =>
      refine ⟨?_, fun _ => ?_⟩
      · rw [hunits, if_neg (hnft n)]
        rfl
      · rw [releasedUnits, hperf, takenUnits, hin, hhold]
  | unfreezeNft recipient token n hperf hevent hin hback hsft hhold hunits hlast hdata =>
      refine ⟨hunits k, fun _ => ?_⟩
      rw [releasedUnits, hperf, takenUnits, hin]
      exact hhold k

/-! ## Runs -/

theorem run_egld (hinit : deploy l token nftToken minValid validators = .ok w₀)
    (hnothing : l.HoldsNothing) (hrun : Run exec w₀ h w) :
    w.chain.egld + total paidOut h = total frozenValue h + total depositedEgld h := by
  induction hrun with
  | start =>
      rw [(deploy_init hinit).2, hnothing.egld]
      rfl
  | @step h w act hrun ih =>
      have hstep := record_egld w act
      rw [EgldStep, record_pre] at hstep
      rw [total_cons, total_cons, total_cons]
      omega

theorem run_foreign (hinit : deploy l token nftToken minValid validators = .ok w₀)
    (hnothing : l.HoldsNothing) (htoken : k.1 ≠ token) (hnft : k.1 ≠ nftToken)
    (hrun : Run exec w₀ h w) (haccept : AllAccepted h) :
    w.chain.esdt.holding k + total (releasedUnits k) h =
      total (frozenUnits k) h + total (depositedUnits k) h := by
  induction hrun with
  | start =>
      rw [(deploy_init hinit).2, hnothing.holding]
      rfl
  | @step h w act hrun ih =>
      have ih := ih fun r hr => haccept r (List.mem_cons_of_mem _ hr)
      obtain ⟨ht, hn⟩ := run_collections hinit hrun
      have hk : w.Foreign k := ⟨ht ▸ htoken, hn ▸ hnft⟩
      rw [← record_pre exec w act] at hk ih
      have hheld := ((record_ledgerEffect w act).foreignStep hk).holding
        (haccept _ List.mem_cons_self)
      have htaken := (record_taken w act k).taken
      rw [total_cons, total_cons, total_cons]
      omega

/-- What moves nothing in custody leaves it where it is. -/
theorem record_still (w : World) (act : Act) (hno : act.movesCustody = false) :
    (record exec w act).post.chain.egld = w.chain.egld ∧
      ∀ k, w.Foreign k →
        (record exec w act).post.chain.esdt.holding k = w.chain.esdt.holding k := by
  have hno' : (record exec w act).act.movesCustody = false := by
    rw [record_act]
    exact hno
  obtain ⟨hin, hpaid, hreleased⟩ := unmoved_amounts hno'
  refine ⟨?_, fun k hk => ?_⟩
  · have hstep := record_egld w act
    rw [EgldStep, record_pre, (record_unmoved w act hno).1, hpaid, depositedEgld,
      hin] at hstep
    exact hstep
  · have hown : (record exec w act).pre.Foreign k := by
      rw [record_pre]
      exact hk
    have hbounces : (record exec w act).act.bounces = false := by
      rw [record_act]
      cases act with
      | settle i accepted => exact hno
      | tx tx => rfl
    have hheld := ((record_ledgerEffect w act).foreignStep hown).holding hbounces
    have htaken := (record_taken w act k).taken
    rw [depositedUnits, hin, (record_unmoved w act hno).2] at htaken
    rw [hreleased, htaken, record_pre] at hheld
    exact hheld

/-- A payment in EGLD that fails takes the whole call back. -/
theorem unfreeze_fails {caller recipient : Address} {id amount : Nat}
    (hs : act.validates = some (caller, id, .unfreeze recipient amount))
    (hcall : w.CallsPerformAction caller id) {e : Failure}
    (hpay : w.chain.directEgld act.hostOk amount = .error e) :
    record exec w act = ⟨w, act, .error e, w⟩ := by
  refine record_error ?_
  rw [exec_performs hs hcall]
  show ((w.chain.directEgld act.hostOk amount >>= _) >>= _) = _
  rw [hpay]
  rfl

/-- The contract holds what was frozen and deposited and has not been
released: all EGLD, and every asset of another collection if no receiver
returns one. No endpoint and no action but the freezes, the deposit and the
two releases moves them, nothing mints or burns them, and a release in EGLD
that cannot be paid leaves the state, its entry included, as it was. -/
theorem custody_of_frozen (hinit : deploy l token nftToken minValid validators = .ok w₀)
    (hnothing : l.HoldsNothing) (hrun : Run exec w₀ h w) :
    (w.chain.egld : Int) =
        total frozenValue h + total depositedEgld h - total paidOut h ∧
      (AllAccepted h → ∀ k : Asset, k.1 ≠ token → k.1 ≠ nftToken →
        (w.chain.esdt.holding k : Int) = total (frozenUnits k) h +
          total (depositedUnits k) h - total (releasedUnits k) h) ∧
      (∀ r ∈ h, (r.act.movesCustody = false → r.post.chain.egld = r.pre.chain.egld) ∧
        ∀ k : Asset, k.1 ≠ token → k.1 ≠ nftToken →
          r.post.chain.esdt.units k = r.pre.chain.esdt.units k ∧
            (r.act.movesCustody = false →
              r.post.chain.esdt.holding k = r.pre.chain.esdt.holding k)) ∧
      ∀ act caller id recipient amount e,
        act.validates = some (caller, id, .unfreeze recipient amount) →
        w.CallsPerformAction caller id →
        w.chain.directEgld act.hostOk amount = .error e →
        record exec w act = ⟨w, act, .error e, w⟩ := by
  refine ⟨?_, fun haccept k htoken hnft => ?_, ?_, fun _ _ _ _ _ _ hs hcall hpay =>
    unfreeze_fails hs hcall hpay⟩
  · have hegld := run_egld hinit hnothing hrun
    omega
  · have hheld := run_foreign hinit hnothing htoken hnft hrun haccept
    omega
  · refine along_forall.mp (hrun.along fun h w act hrun => ?_)
    obtain ⟨ht, hn⟩ := run_collections hinit hrun
    rw [record_act, record_pre]
    refine ⟨fun hno => (record_still w act hno).1, fun k htoken hnft => ?_⟩
    have hk : w.Foreign k := ⟨ht ▸ htoken, hn ▸ hnft⟩
    refine ⟨?_, fun hno => (record_still w act hno).2 k hk⟩
    have hunits := ((record_ledgerEffect w act).foreignStep (k := k)
      (by rw [record_pre]; exact hk)).units
    rw [record_pre] at hunits
    exact hunits

/-- A token of another collection, of which dan has the one unit there is. -/
def artwork : Asset := ([0x41, 0x52, 0x54], 1)

def Ledger.withArtwork : Ledger :=
  { Ledger.fresh with esdt := ⟨fun _ => 0, fun k => if k = artwork then 1 else 0, []⟩ }

/-- Dan freezes the artwork and ten in EGLD and deposits three more; alice and
bob release five, and alice signs for a hundred. -/
def custodyActs : List Act :=
  [send alice (.validateUnfreeze 2 dan 100), send bob (.validateUnfreeze 1 dan 5),
    send alice (.validateUnfreeze 1 dan 5), .tx ⟨dan, .egld 3, true, .deposit⟩,
    .tx ⟨dan, .esdt artwork.1 artwork.2 1, true, .freezeSendNft 9 "dan"⟩,
    .tx ⟨dan, .egld 10, true, .freezeSend 9 "dan"⟩]

/-- Eight are left with the artwork, and bob's signature for a hundred is taken
back. -/
theorem custody_of_frozen_artwork :
    let run := play exec (deployed .withArtwork xpdt xpnft 2 [alice, bob, charlie]) custodyActs
    (run.2.chain.egld : Int) =
        total frozenValue run.1 + total depositedEgld run.1 - total paidOut run.1 ∧
      (run.2.chain.esdt.holding artwork : Int) = total (frozenUnits artwork) run.1 +
        total (depositedUnits artwork) run.1 - total (releasedUnits artwork) run.1 ∧
      record exec run.2 (send bob (.validateUnfreeze 2 dan 100)) =
        ⟨run.2, send bob (.validateUnfreeze 2 dan 100), .error .host, run.2⟩ := by
  intro run
  have hinit : deploy .withArtwork xpdt xpnft 2 [alice, bob, charlie] =
      .ok (deployed .withArtwork xpdt xpnft 2 [alice, bob, charlie]) :=
    deploy_eq (by decide +kernel)
  have hrun : Run exec (deployed .withArtwork xpdt xpnft 2 [alice, bob, charlie])
      run.1 run.2 := run_play _ _ _
  obtain ⟨hegld, hheld, -, hfails⟩ := custody_of_frozen hinit ⟨rfl, fun _ => rfl⟩ hrun
  refine ⟨hegld, hheld (by decide +kernel) artwork (by decide) (by decide), ?_⟩
  have hpay : run.2.chain.directEgld true 100 = .error .host := by
    have hless : ¬ 100 ≤ run.2.chain.egld := by decide +kernel
    rw [Ledger.directEgld, if_neg hless]
    rfl
  exact hfails (send bob (.validateUnfreeze 2 dan 100)) bob 2 dan 100 .host rfl
    (by decide +kernel) hpay

/-! ## Frozen once -/

/-- One unit of an asset that exists is paid to `freezeSendNft`. -/
def Freezes (k : Asset) (w : World) (act : Act) : Prop :=
  (∃ caller hostOk c recipient,
    act = .tx ⟨caller, .esdt k.1 k.2 1, hostOk, .freezeSendNft c recipient⟩) ∧
    k.1 ≠ .egld ∧ 0 < k.2 ∧ 1 ≤ w.chain.esdt.outside k

/-- A payment to `withdrawNft` names the asset and brings none of it. -/
def Act.burnsUnpaid (k : Asset) : Act → Bool
  | .tx ⟨_, p, _, .withdrawNft _⟩ => decide ((p.token, p.nonce) = k ∧ p.value = 0)
  | _ => false

/-- An asset has been announced at most once more often than released. -/
def FrozenOnce (k : Asset) (past : List Rec) (r : Rec) : Prop :=
  total (frozenUnits k) (r :: past) ≤ total (releasedUnits k) (r :: past) + 1

instance (k : Asset) (past : List Rec) (r : Rec) : Decidable (FrozenOnce k past r) :=
  inferInstanceAs (Decidable (_ ≤ _))

/-- A freeze finds no unit of the asset in the contract, and `withdrawNft` burns
no unit of it that is not paid in. -/
structure NoneHeld (k : Asset) (_past : List Rec) (r : Rec) : Prop where
  freeze : Freezes k r.pre r.act → r.pre.chain.esdt.holding k = 0
  burn : r.act.burnsUnpaid k = false

/-- A freeze that can be paid for is announced, and nothing else is. -/
theorem frozenUnits_iff (w : World) (act : Act) (k : Asset) :
    frozenUnits k (record exec w act) ≠ 0 ↔ Freezes k w act := by
  refine ⟨?_, ?_⟩
  · refine record_cases (P := fun r => frozenUnits k r ≠ 0 → Freezes k w act) w act
      (fun e hex hne => absurd rfl hne) (fun ret w' hs heff hne => ?_)
      (fun caller hostOk id a ret w' hs heff hne => ?_)
    · cases heff with
      | settle | deposit | readOn | readOut => exact absurd rfl hne
      | freezeSend | withdrawNft | withdraw =>
          rw [frozenUnits, insertedEvent, inserted_emit] at hne
          exact absurd rfl hne
      | @freezeSendNft caller p hostOk c recipient chain hnonce hone hrec =>
          rw [frozenUnits, insertedEvent, inserted_emit] at hne
          cases p with
          | egld value => simp [Payment.nonce] at hnonce
          | esdt token nonce value =>
              obtain ⟨htoken, hle⟩ := Ledger.receive_esdt.mp ⟨_, hrec⟩
              simp only [Payment.value] at hone
              subst hone
              have hk : k = (token, nonce) := by
                by_contra hno
                exact hne (if_neg hno)
              subst hk
              exact ⟨⟨caller, hostOk, c, recipient, rfl⟩, htoken, hnonce, hle⟩
    · cases heff <;> exact absurd rfl hne
  · intro h
    obtain ⟨⟨caller, hostOk, c, recipient, rfl⟩, htoken, hnonce, hle⟩ := h
    obtain ⟨chain, hrec⟩ := Ledger.receive_esdt.mpr ⟨htoken, hle⟩
    have hcall : freezeSendNft { w with chain := chain } k.1 1 k.2 c recipient =
        .ok (w.eventIdent + 1,
          { w.emit (.transferNft c recipient k.1 k.2) with chain := chain }) := by
      refine bind_eq_ok.mpr ⟨(), require_eq_ok.mpr hnonce, ?_⟩
      exact bind_eq_ok.mpr ⟨(), require_eq_ok.mpr rfl, rfl⟩
    have hex : exec w (.tx ⟨caller, .esdt k.1 k.2 1, hostOk, .freezeSendNft c recipient⟩) =
        .ok (.ident (w.eventIdent + 1),
          { w.emit (.transferNft c recipient k.1 k.2) with chain := chain }) := by
      refine bind_eq_ok.mpr ⟨(), rfl, bind_eq_ok.mpr ⟨chain, hrec, ?_⟩⟩
      exact bind_eq_ok.mpr ⟨_, hcall, rfl⟩
    rw [record_ok hex, frozenUnits, insertedEvent, inserted_emit]
    simp

instance (k : Asset) (w : World) (act : Act) : Decidable (Freezes k w act) :=
  decidable_of_iff _ (frozenUnits_iff w act k)

instance (k : Asset) (past : List Rec) (r : Rec) : Decidable (NoneHeld k past r) :=
  decidable_of_iff ((Freezes k r.pre r.act → r.pre.chain.esdt.holding k = 0) ∧
      r.act.burnsUnpaid k = false)
    ⟨fun h => ⟨h.1, h.2⟩, fun h => ⟨h.freeze, h.burn⟩⟩

/-- Executing an action takes out of the holding what it releases, no more. -/
theorem PerformEffect.holding_le {call : EsdtTransfer}
    (heff : PerformEffect w hostOk a (.exited call) w') {s : Address × Nat × Action}
    (hs : act.signs = some s) (ha : s.2.2 = a) :
    w.chain.esdt.holding k ≤ w'.chain.esdt.holding k +
      releasedUnits k ⟨w, act, .ok (.flow (.exited call)), w'⟩ := by
  rw [releasedUnits, performedAction_exited _ _ _ hs, ha]
  cases heff with
  | sendWrapped hloop hmint hsend =>
      -- what is minted is sent, on top of what the loop creates
      have hcreated := (sendWrappedLoop_creates hloop).2.1 k
      have hminted := (Ledger.esdtLocalMint_spec hmint).2.2.2.1 k
      have hsent := (Ledger.transferEsdtViaAsyncCall_spec hsend).2.2.2.1 k
      simp only [] at hsent ⊢
      omega
  | sendNft hcreate hsend =>
      have hcreated := (Ledger.esdtNftCreate_spec hcreate).2.2.2.2.1 k
      have hsent := (Ledger.transferEsdtViaAsyncCall_spec hsend).2.2.2.1 k
      simp only [] at hsent ⊢
      omega
  | unfreezeNft hsend =>
      have hsent := (Ledger.transferEsdtViaAsyncCall_spec hsend).2.2.2.1 k
      simp only [] at hsent ⊢
      omega

/-- What is paid in stays, and only a release takes units out, unless
`withdrawNft` burns what it was not paid. -/
theorem record_holding_le (w : World) (act : Act) (k : Asset)
    (hpaid : k.1 = w.nftToken → act.burnsUnpaid k = false) :
    w.chain.esdt.holding k + takenUnits k (record exec w act) ≤
      (record exec w act).post.chain.esdt.holding k +
        releasedUnits k (record exec w act) := by
  refine record_cases (P := fun r => w.chain.esdt.holding k + takenUnits k r ≤
      r.post.chain.esdt.holding k + releasedUnits k r) w act
    (fun e hex => ?_) (fun ret w' hs heff => ?_)
    (fun caller hostOk id a ret w' hs heff => ?_)
  · rw [takenUnits, takenIn_error]
    exact Nat.le_refl _
  · rw [releasedUnits, performedAction, performed_none hs]
    cases heff with
    | settle => exact Account.holding_le_settle _ _ _ _
    | readOn | readOut => exact Nat.le_refl _
    | freezeSend hpos hrec =>
        cases hrec
        exact Nat.le_refl _
    | deposit hrec | freezeSendNft _ _ hrec =>
        exact Nat.le_of_eq ((Ledger.receive_spec hrec).2.1 k).symm
    | @withdrawNft caller p hostOk c id recipient chain₁ chain₂ htoken hnonce hrec huri
        hattr hburn =>
        have hheld := (Ledger.receive_spec hrec).2.1 k
        have hburnt := (Ledger.esdtLocalBurn_spec hburn).2.2.2.2.1 k
        rw [Payment.units_of_token (Ledger.esdtLocalBurn_spec hburn).1] at hheld
        show w.chain.esdt.holding k + 0 ≤ chain₂.esdt.holding k + 0
        by_cases hk : k = (p.token, p.nonce)
        · have hvalue : p.value ≠ 0 := by
            intro hzero
            have hno := hpaid (by rw [hk]; exact htoken)
            rw [Act.burnsUnpaid, decide_eq_false_iff_not] at hno
            exact hno ⟨hk.symm, hzero⟩
          rw [if_pos hk] at hheld hburnt
          omega
        · rw [if_neg hk] at hheld hburnt
          omega
    | @withdraw caller p hostOk recipient chain₁ chain₂ hpos htoken hrec hburn =>
        have hheld := (Ledger.receive_spec hrec).2.1 k
        have hburnt := (Ledger.esdtLocalBurn_spec hburn).2.2.2.2.1 k
        rw [Payment.units_of_token (Ledger.esdtLocalBurn_spec hburn).1] at hheld
        show w.chain.esdt.holding k + 0 ≤ chain₂.esdt.holding k + 0
        omega
  · have hnone : ∀ flow, takenUnits k ⟨w, act, .ok (.flow flow), w'⟩ = 0 := by
      intro flow
      rw [takenUnits, takenIn_flow w w' flow hs]
    cases heff with
    | known | counted =>
        rw [hnone]
        exact Nat.le_add_right _ _
    | exited hcall hperf =>
        rw [hnone]
        exact (performAction_effect hperf).holding_le hs rfl
    | @returned res w₁ _ hcall hperf hfin =>
        obtain ⟨egld, rfl⟩ := finish_frame hfin
        have hsame : w₁.chain = w.chain := (performAction_effect hperf).returned_chain.1
        rw [hnone]
        show w.chain.esdt.holding k + 0 ≤ w₁.chain.esdt.holding k + _
        rw [hsame]
        exact Nat.add_le_add_left (Nat.zero_le _) _

/-- What the announcements of an asset have over its releases is held. -/
theorem run_frozen_held (hrun : Run exec w₀ h w)
    (hpaid : ∀ r ∈ h, k.1 = r.pre.nftToken → r.act.burnsUnpaid k = false) :
    total (frozenUnits k) h ≤ total (releasedUnits k) h + w.chain.esdt.holding k := by
  induction hrun with
  | start => exact Nat.zero_le _
  | @step h w act hrun ih =>
      have ih := ih fun r hr => hpaid r (List.mem_cons_of_mem _ hr)
      have hstep := record_holding_le w act k fun hown => by
        have hno := hpaid _ List.mem_cons_self
        rw [record_pre, record_act] at hno
        exact hno hown
      have htaken := (record_taken w act k).taken
      rw [total_cons, total_cons]
      omega

theorem frozen_le (honce : Along (FrozenOnce k) h) :
    total (frozenUnits k) h ≤ total (releasedUnits k) h + 1 := by
  cases h with
  | nil => exact Nat.zero_le _
  | cons r past => exact honce.1

/-- An asset is announced at most once more often than it is released,
throughout a run whose freezes of it find no unit of it in the contract. -/
theorem frozen_nft_once (hrun : Run exec w₀ h w) (k : Asset) (hnone : Along (NoneHeld k) h) :
    Along (FrozenOnce k) h := by
  refine hrun.along_of (fun past w act hrun hnone honce hcond => ?_) hnone
  have hheld := run_frozen_held hrun fun r hr _ => (hnone.of_mem hr).choose_spec.2.burn
  have hle := frozen_le honce
  have hone := (record_taken w act k).frozen
  have hfreeze := hcond.freeze
  rw [record_pre, record_act, ← frozenUnits_iff] at hfreeze
  rw [FrozenOnce, total_cons, total_cons]
  omega

/-- The artwork is frozen, released to dan and frozen again. -/
theorem frozen_nft_once_artwork :
    Along (FrozenOnce artwork)
      (play exec (deployed .withArtwork xpdt xpnft 2 [alice, bob, charlie])
        [.tx ⟨dan, .esdt artwork.1 artwork.2 1, true, .freezeSendNft 9 "dan"⟩, .settle 0 true,
          send bob (.validateUnfreezeNft 1 dan artwork.1 artwork.2),
          send alice (.validateUnfreezeNft 1 dan artwork.1 artwork.2),
          .tx ⟨dan, .esdt artwork.1 artwork.2 1, true, .freezeSendNft 9 "dan"⟩]).1 :=
  frozen_nft_once (run_play _ _ _) artwork (by decide +kernel)

/-- Dan freezes two units of a wrapped token, one at a time: the same token and
nonce are announced twice. -/
theorem sft_frozen_twice :
    let run := play exec (freshWorld 2 [alice, bob, charlie])
      [.tx ⟨dan, .esdt xpdt 1 1, true, .freezeSendNft 9 "dan"⟩,
        .tx ⟨dan, .esdt xpdt 1 1, true, .freezeSendNft 9 "dan"⟩, .settle 0 true,
        send bob (.validateSendWrapped 1 1 dan 2 none),
        send alice (.validateSendWrapped 1 1 dan 2 none)]
    (deploy .fresh xpdt xpnft 2 [alice, bob, charlie]).isOk = true ∧
      run.1.map (frozenUnits (xpdt, 1)) = [1, 1, 0, 0, 0] ∧
      ¬ Along (FrozenOnce (xpdt, 1)) run.1 :=
  ⟨three_isOk, by decide +kernel, by decide +kernel⟩

theorem run_units_foreign (hinit : deploy l token nftToken minValid validators = .ok w₀)
    (htoken : k.1 ≠ token) (hnft : k.1 ≠ nftToken) (hrun : Run exec w₀ h w) :
    w.chain.esdt.units k = l.esdt.units k := by
  induction hrun with
  | start => rw [(deploy_init hinit).2]
  | @step h w act hrun ih =>
      obtain ⟨ht, hn⟩ := run_collections hinit hrun
      have hk : w.Foreign k := ⟨ht ▸ htoken, hn ▸ hnft⟩
      rw [← record_pre exec w act] at hk ih
      rw [((record_ledgerEffect w act).foreignStep hk).units, ih]

/-- Of an asset of another collection no more is ever announced beyond the
releases than there are units of it, so an NFT is announced once at a time
whatever else happens. -/
theorem frozen_within_supply
    (hinit : deploy l token nftToken minValid validators = .ok w₀)
    (htoken : k.1 ≠ token) (hnft : k.1 ≠ nftToken) (hrun : Run exec w₀ h w) :
    total (frozenUnits k) h ≤ total (releasedUnits k) h + l.esdt.units k := by
  have hown : ∀ r ∈ h, r.pre.nftToken = nftToken :=
    along_forall.mp (hrun.along fun h w act hrun => by
      rw [record_pre]
      exact (run_collections hinit hrun).2)
  have hheld := run_frozen_held (k := k) hrun fun r hr hsame =>
    absurd (hsame.trans (hown r hr)) hnft
  have hle := Account.holding_le_units w.chain.esdt k
  rw [run_units_foreign hinit htoken hnft hrun] at hle
  omega

/-- The artwork, of which there is one, is announced once. -/
theorem frozen_within_supply_artwork :
    let run := play exec (deployed .withArtwork xpdt xpnft 2 [alice, bob, charlie]) custodyActs
    total (frozenUnits artwork) run.1 ≤ total (releasedUnits artwork) run.1 +
      Ledger.withArtwork.esdt.units artwork :=
  frozen_within_supply (deploy_eq (by decide +kernel)) (by decide) (by decide) (run_play _ _ _)

end ElrondMint
