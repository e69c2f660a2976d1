import ElrondMint.Evaluation
import ElrondMint.Transfers

/-!
# Transfers that leave, and come back

Three actions end in an asynchronous transfer. `Departs` says, of the state and
the action, when the ledger lets the transfer go, and `exits_iff` that a record
ends in one exactly when a quorum completes an action that departs.

What such an action creates is `minted`, whatever the nonces the collections
have. A parcel that the receiver turns down comes back to the holding in an act
of its own. Nothing in the contract answers it: there is no callback, so the
units stay with the contract and what was minted for the transfer stays minted.
-/

namespace ElrondMint

open Custody Rollback

variable {w w' w₁ w₂ : World} {h : List Rec} {act : Act} {hostOk : Bool} {id : Nat}
  {caller : Address} {a : Action} {call : EsdtTransfer} {i : Nat}

/-! ## Departure -/

/-- The ledger has what the transfer at the end of an action takes: nonces that
are left, units that are held, a token that is one. -/
def Action.Departs (w : World) : Action → Prop
  | .sendWrapped c _ _ _ => w.token ≠ .egld ∧
      (w.chain.lastNonce w.token).toNat + (c.toNat - w.sftNonce.toNat) < 2 ^ 64
  | .sendNft .. => w.nftToken ≠ .egld ∧ w.chain.lastNonce w.nftToken + 1 ≠ 0
  | .unfreezeNft _ token nonce => token ≠ .egld ∧ 0 < w.chain.esdt.holding (token, nonce)
  | _ => False

/-- An action that ends in a transfer is performed exactly when the host lets it
and the transfer departs. -/
theorem performAction_departs (hexit : a.exits = true) :
    (∃ out, performAction w hostOk a = .ok out) ↔ hostOk = true ∧ a.Departs w := by
  refine ⟨?_, ?_⟩
  · intro h
    obtain ⟨⟨flow, w'⟩, hperf⟩ := h
    cases performAction_effect hperf with
    | nothing | unfreeze => cases hexit
    | govern hgov => cases hgov <;> cases hexit
    | sendWrapped hloop hmint =>
        obtain ⟨hhost, htoken⟩ := Ledger.esdtLocalMint_iff.mp ⟨_, hmint⟩
        refine ⟨hhost, htoken, ?_⟩
        rw [← (sendWrappedLoop_creates hloop).1]
        exact UInt64.toNat_lt _
    | sendNft hcreate => exact Ledger.esdtNftCreate_iff.mp ⟨_, hcreate⟩
    | unfreezeNft hsend => exact Ledger.transferEsdtViaAsyncCall_iff.mp ⟨_, hsend⟩
  · intro h
    obtain ⟨rfl, hdep⟩ := h
    cases a with
    | nothing | addValidator | removeUser | changeMinValid | unfreeze => cases hexit
    | sendWrapped c recipient amount data =>
        obtain ⟨htoken, hroom⟩ := hdep
        obtain ⟨w₁, hloop⟩ := sendWrappedLoop_ok htoken hroom
        obtain ⟨chain₁, hmint⟩ :=
          Ledger.esdtLocalMint_iff.mpr ⟨rfl, htoken⟩
        obtain ⟨-, -, -, hhold, -⟩ := Ledger.esdtLocalMint_spec hmint
        have hheld : amount ≤ chain₁.esdt.holding (w.token, c) := by
          rw [hhold, if_pos rfl]
          exact Nat.le_add_left ..
        obtain ⟨chain₂, hsend⟩ := Ledger.transferEsdtViaAsyncCall_iff
          (t := ⟨recipient, w.token, c, amount, data⟩) |>.mpr ⟨rfl, htoken, hheld⟩
        exact ⟨_, bind_eq_ok.mpr ⟨w₁, hloop, bind_eq_ok.mpr ⟨chain₁, hmint,
          bind_eq_ok.mpr ⟨chain₂, hsend, rfl⟩⟩⟩⟩
    | sendNft c recipient id =>
        obtain ⟨htoken, hne⟩ := hdep
        obtain ⟨⟨n, chain₁⟩, hcreate⟩ := Ledger.esdtNftCreate_iff.mpr ⟨rfl, htoken, hne⟩
        obtain ⟨-, -, -, -, hhold, -⟩ := Ledger.esdtNftCreate_spec hcreate
        have hheld : 1 ≤ chain₁.esdt.holding (w.nftToken, n) := by
          rw [hhold, if_pos rfl]
          exact Nat.le_add_left ..
        obtain ⟨chain₂, hsend⟩ := Ledger.transferEsdtViaAsyncCall_iff
          (t := ⟨recipient, w.nftToken, n, 1, []⟩) |>.mpr ⟨rfl, htoken, hheld⟩
        exact ⟨_, bind_eq_ok.mpr ⟨⟨n, chain₁⟩, hcreate,
          bind_eq_ok.mpr ⟨chain₂, hsend, rfl⟩⟩⟩
    | unfreezeNft recipient token nonce =>
        obtain ⟨chain, hsend⟩ := Ledger.transferEsdtViaAsyncCall_iff
          (t := ⟨recipient, token, nonce, 1, []⟩) |>.mpr ⟨rfl, hdep⟩
        exact ⟨_, bind_eq_ok.mpr ⟨chain, hsend, rfl⟩⟩

theorem Action.Departs.exits (hdep : a.Departs w) : a.exits = true := by
  cases a with
  | nothing | addValidator | removeUser | changeMinValid | unfreeze => cases hdep
  | sendWrapped | sendNft | unfreezeNft => rfl

/-- A signature leaves the ledger alone. -/
theorem departs_sign {signer : Nat} {b : Action} :
    a.Departs (w.sign id b signer) ↔ a.Departs w := by
  cases a <;> exact Iff.rfl

/-- A call that completes the quorum of an action that departs. -/
def Act.SendsOff (w : World) (act : Act) (id : Nat) : Prop :=
  ∃ caller a, act.validates = some (caller, id, a) ∧ w.CallsPerformAction caller id ∧
    act.hostOk = true ∧ a.Departs w

/-- The executions that end in an asynchronous transfer. -/
theorem exits_iff (w : World) (act : Act) (id : Nat) :
    exitedId (record exec w act) = some id ↔ act.SendsOff w id := by
  refine ⟨?_, ?_⟩
  · intro hexit
    obtain ⟨caller, a, hsigned, -, hact, hcall, -⟩ :=
      (record_signingEffect w act).of_exitedId hexit
    have hs := record_validates hsigned
    rw [record_act] at hs
    rw [record_pre] at hcall
    cases hex : exec w act with
    | error e =>
        rw [record_error hex] at hexit
        cases hexit
    | ok out =>
        rw [exec_performs hs hcall] at hex
        obtain ⟨out', hperf, -⟩ := bind_eq_ok.mp hex
        obtain ⟨hhost, hdep⟩ := (performAction_departs hact).mp ⟨out', hperf⟩
        exact ⟨caller, a, hs, hcall, hhost, departs_sign.mp hdep⟩
  · intro hoff
    obtain ⟨caller, a, hs, hcall, hhost, hdep⟩ := hoff
    obtain ⟨⟨flow, w'⟩, hperf⟩ :=
      (performAction_departs hdep.exits).mpr ⟨hhost, departs_sign.mpr hdep⟩
    have hflow := (performAction_effect hperf).exits
    have hex := exec_performs hs hcall
    rw [hperf] at hex
    cases flow with
    | returned res =>
        have hno : a.exits = false := hflow.1
        rw [hdep.exits] at hno
        simp at hno
    | exited call =>
        rw [record_ok hex]
        show act.signs.map _ = some id
        rw [validates_signs hs]
        rfl

/-! ## Return -/

/-- The units that executing an action brings into existence, whether or not its
transfer is accepted: two of each nonce created and the amount of a
`SendWrapped`, the one of a `SendNft`. -/
def Action.minted (w : World) : Action → Asset → Nat
  | .sendWrapped c _ amount _, k =>
      (if k.1 = w.token ∧ (w.chain.lastNonce w.token).toNat < k.2.toNat ∧
          k.2.toNat ≤ (w.chain.lastNonce w.token).toNat + (c.toNat - w.sftNonce.toNat)
        then 2 else 0) +
      if k = (w.token, c) then amount else 0
  | .sendNft .., k => if k = (w.nftToken, w.chain.lastNonce w.nftToken + 1) then 1 else 0
  | _, _ => 0

/-- What an execution that ends in a transfer does to the account. -/
structure Dispatched (w : World) (a : Action) (call : EsdtTransfer) (w₁ : World) :
    Prop where
  onItsWay : ((call.token, call.nonce), call.amount) ∈ w₁.chain.esdt.inFlight
  holding : ∀ k, w₁.chain.esdt.holding k +
    (if k = (call.token, call.nonce) then call.amount else 0) =
      w.chain.esdt.holding k + a.minted w k
  units : ∀ k, w₁.chain.esdt.units k = w.chain.esdt.units k + a.minted w k
  counter : w₁.sftNonce.toNat = max w.sftNonce.toNat a.wrapsTo

theorem performAction_dispatched
    (hperf : performAction w hostOk a = .ok (.exited call, w₁)) :
    Dispatched w a call w₁ := by
  cases performAction_effect hperf with
  | @sendWrapped c recipient amount data w' chain₁ chain₂ hloop hmint hsend =>
      obtain ⟨hlast, hhold, hunits⟩ := sendWrappedLoop_creates hloop
      obtain ⟨-, -, -, hhold₁, hunits₁⟩ := Ledger.esdtLocalMint_spec hmint
      obtain ⟨-, -, -, hhold₂, hunits₂⟩ := Ledger.transferEsdtViaAsyncCall_spec hsend
      have hminted : ∀ k, Action.minted w (.sendWrapped c recipient amount data) k =
          created w.token (w.chain.lastNonce w.token) (w'.chain.lastNonce w.token) k +
            if k = (w.token, c) then amount else 0 := by
        intro k
        simp only [Action.minted, created, UInt64.lt_iff_toNat_lt, UInt64.le_iff_toNat_le,
          hlast]
      have hcounter := sendWrappedLoop_sftNonce hloop rfl
      refine ⟨Ledger.transferEsdtViaAsyncCall_inFlight hsend, fun k => ?_, fun k => ?_,
        hcounter⟩
      · show chain₂.esdt.holding k + _ = _
        rw [hhold₂, hhold₁, hhold, hminted, Nat.add_assoc]
      · show chain₂.esdt.units k = _
        rw [hunits₂, hunits₁, hunits, hminted, Nat.add_assoc]
  | @sendNft c n recipient id chain₁ chain₂ hcreate hsend =>
      obtain ⟨rfl, -, -, -, hhold₁, hunits₁, -⟩ := Ledger.esdtNftCreate_spec hcreate
      obtain ⟨-, -, -, hhold₂, hunits₂⟩ := Ledger.transferEsdtViaAsyncCall_spec hsend
      refine ⟨Ledger.transferEsdtViaAsyncCall_inFlight hsend, fun k => ?_, fun k => ?_, ?_⟩
      · show chain₂.esdt.holding k + _ = _
        rw [hhold₂, hhold₁]
        rfl
      · show chain₂.esdt.units k = _
        rw [hunits₂, hunits₁]
        rfl
      · exact (Nat.max_zero _).symm
  | unfreezeNft hsend =>
      obtain ⟨-, -, -, hhold, hunits⟩ := Ledger.transferEsdtViaAsyncCall_spec hsend
      exact ⟨Ledger.transferEsdtViaAsyncCall_inFlight hsend, hhold, hunits,
        (Nat.max_zero _).symm⟩

theorem minted_sign {signer : Nat} {b : Action} (k : Asset) :
    a.minted (w.sign id b signer) k = a.minted w k := by
  cases a <;> rfl

theorem exec_dispatched (hs : act.signs = some (caller, id, a))
    (hex : exec w act = .ok (.flow (.exited call), w₁)) : Dispatched w a call w₁ := by
  obtain ⟨hostOk, heff⟩ := exec_sign hs hex
  cases heff with
  | exited hcall hperf =>
      have hsent := performAction_dispatched hperf
      refine ⟨hsent.onItsWay, fun k => ?_, fun k => ?_, hsent.counter⟩
      · rw [← minted_sign k]
        exact hsent.holding k
      · rw [← minted_sign k]
        exact hsent.units k

theorem sftNonce_le (hrun : Run exec w h w') : w.sftNonce.toNat ≤ w'.sftNonce.toNat := by
  induction hrun with
  | start => exact Nat.le_refl _
  | step act _ ih =>
      rw [record_sftNonce]
      exact ih.trans (Nat.le_max_left ..)

/-- The two steps of a transfer that is turned down, the execution from `w` to
`w₁` and the return from `w₂` to `w₃`. The return touches the holding of what
was sent and nothing else, and the two together leave behind what the action
minted. -/
structure ComesBack (w w₁ w₂ w₃ : World) (a : Action) (call : EsdtTransfer) : Prop where
  storage : w₃.toStorage = w₂.toStorage
  returned : ∀ k, w₃.chain.esdt.holding k = w₂.chain.esdt.holding k +
    if k = (call.token, call.nonce) then call.amount else 0
  supply : ∀ k, w₃.chain.esdt.units k = w₂.chain.esdt.units k
  netHolding : ∀ k, w₁.chain.esdt.holding k + w₃.chain.esdt.holding k =
    w.chain.esdt.holding k + w₂.chain.esdt.holding k + a.minted w k
  netSupply : ∀ k, w₁.chain.esdt.units k + w₃.chain.esdt.units k =
    w.chain.esdt.units k + w₂.chain.esdt.units k + a.minted w k
  counter : max w.sftNonce.toNat a.wrapsTo ≤ w₃.sftNonce.toNat

/-- What a rejected transfer leaves behind, however much happens between the
execution and the return. -/
theorem rejected_transfer (hs : act.signs = some (caller, id, a))
    (hex : exec w act = .ok (.flow (.exited call), w₁)) (hrun : Run exec w₁ h w₂)
    (hparcel : w₂.chain.esdt.inFlight[i]? =
      some ((call.token, call.nonce), call.amount)) :
    ComesBack w w₁ w₂ (record exec w₂ (.settle i false)).post a call := by
  have hsent := exec_dispatched hs hex
  have hback := Account.settle_rejected_holding hparcel
  have hsupply := Account.settle_units w₂.chain.esdt i false
  have hpost : (record exec w₂ (.settle i false)).post =
      { w₂ with chain := w₂.chain.settle i false } := rfl
  rw [hpost]
  refine ⟨rfl, hback, hsupply, fun k => ?_, fun k => ?_, ?_⟩
  · have hout := hsent.holding k
    have hin := hback k
    show w₁.chain.esdt.holding k + (w₂.chain.esdt.settle i false).holding k = _
    omega
  · have hmade := hsent.units k
    have hsame := hsupply k
    show w₁.chain.esdt.units k + (w₂.chain.esdt.settle i false).units k = _
    omega
  · have hcounter := sftNonce_le hrun
    rw [← hsent.counter]
    exact hcounter

/-- Bob's signature mints the NFT, dan turns it down, and a deposit comes in
between. -/
theorem rejected_transfer_nft :
    let w := (play exec (freshWorld 2 [alice, bob, charlie]) [send alice nftVote]).2
    let w₁ := (record exec w (send bob nftVote)).post
    let w₂ := (play exec w₁ [.tx ⟨dan, .egld 10, true, .deposit⟩]).2
    ComesBack w w₁ w₂ (record exec w₂ (.settle 0 false)).post (.sendNft 9 dan [7])
      ⟨dan, xpnft, 1, 1, []⟩ := by
  intro w w₁ w₂
  have hret : (record exec w (send bob nftVote)).ret =
      .ok (.flow (.exited ⟨dan, xpnft, 1, 1, []⟩)) := by decide +kernel
  have hex := record_ret hret
  exact rejected_transfer rfl hex (run_play _ _ _) (by decide +kernel)

/-- After the rejection the contract keeps an NFT that did not exist before, and
charlie's signature on the action it was made for is one too many. -/
theorem rejected_nft_stays :
    let before := play exec (freshWorld 2 [alice, bob, charlie]) [send alice nftVote]
    let after := play exec before.2 [.settle 0 false, send bob nftVote]
    (deploy .fresh xpdt xpnft 2 [alice, bob, charlie]).isOk = true ∧
      performed (record exec before.2 (send bob nftVote)) =
        some (1, .sendNft 9 dan [7]) ∧
      before.2.chain.esdt.units (xpnft, 1) = 0 ∧
      after.2.chain.esdt.units (xpnft, 1) = 1 ∧
      (record exec after.2 (send charlie nftVote)).ret =
        .ok (.flow (.returned .pending)) :=
  ⟨three_isOk, by decide +kernel, by decide +kernel, by decide +kernel,
    by decide +kernel⟩

end ElrondMint
