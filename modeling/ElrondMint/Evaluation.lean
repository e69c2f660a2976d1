import ElrondMint.Rounds

/-!
# A validator's call, computed

`SignEffect` reads a call back from its success. Here the call is computed
forward, from the state it meets: who is no validator is refused, who has
signed already changes nothing, a signature short of the quorum is recorded,
and the one that meets it runs the action and then `complete`. With both
directions a call that fails can be explained too: it was refused at the
door, or its action was.
-/

namespace ElrondMint

open Rollback

/-- The actions that pay somebody. -/
def Action.isPayment : Action → Bool
  | .sendWrapped .. | .sendNft .. | .unfreeze .. | .unfreezeNft .. => true
  | _ => false

theorem Action.isGovernance_of_isPayment {a : Action} (hpay : a.isPayment = true) :
    a.isGovernance = false := by
  cases a with
  | nothing | addValidator | removeUser | changeMinValid => cases hpay
  | sendWrapped | sendNft | unfreeze | unfreezeNft => rfl

/-- Whether the host lets the calls of a transaction pass. -/
def Act.hostOk : Act → Bool
  | .tx t => t.hostOk
  | .settle .. => true

/-- The end of a call that has performed its action: after a return the entry
is taken out and the payment made. -/
def complete (hostOk : Bool) (id : Nat) :
    Flow PerformActionResult × World → Except Failure (Ret × World)
  | (.exited call, w) => .ok (.flow (.exited call), w)
  | (.returned res, w) => do
      let w' ← res.finish (w.dropEntry id) hostOk
      .ok (.flow (.returned res), w')

variable {w w' : World} {act : Act} {hostOk : Bool} {id signer : Nat}
  {caller : Address} {a : Action} {e : Failure}

theorem validates_tx {s : Address × Nat × Action} (hs : act.validates = some s) :
    ∃ tx, act = .tx tx ∧ tx.payment = .egld 0 ∧ act.signs = some s := by
  cases act with
  | settle => cases hs
  | tx tx =>
      have hs : (if tx.payment = .egld 0 then (Act.tx tx).signs else none) = some s := hs
      split at hs
      · next hpay => exact ⟨tx, rfl, hpay, hs⟩
      · simp at hs

theorem validates_signs {s : Address × Nat × Action} (hs : act.validates = some s) :
    act.signs = some s := by
  obtain ⟨-, -, -, hsigns⟩ := validates_tx hs
  exact hsigns

/-- A call of `validate_action` is nothing but that call. -/
theorem exec_validates (hs : act.validates = some (caller, id, a)) :
    exec w act = (validateAction w caller act.hostOk id a >>= conclude act.hostOk) := by
  obtain ⟨tx, rfl, hpay, hsigns⟩ := validates_tx hs
  obtain ⟨⟨uuid, action⟩, hcall, heq⟩ := Option.map_eq_some_iff.mp hsigns
  cases heq
  obtain ⟨hinv, hno⟩ := invoke_signs (w := w) hcall
  show ((tx.call.payable.check tx.payment) >>= fun _ =>
    (w.chain.receive tx.payment) >>= fun chain =>
      invoke { w with chain := chain } tx) = _
  rw [hno, hpay, receive_nothing]
  exact hinv

/-! ## The four ways -/

theorem exec_outsider (hs : act.validates = some (caller, id, a))
    (hno : ¬ w.IsValidator caller) :
    exec w act = .error (.error "only board members and proposers can propose") := by
  have hrole : ¬ (w.userRole (w.userMapper.getUserId caller)).canSign = true := by
    rw [UserRole.canSign_iff]
    exact hno
  rw [exec_validates hs, validateAction, require, if_neg hrole]
  rfl

theorem exec_known (hs : act.validates = some (caller, id, a))
    (hval : w.IsValidator caller)
    (hold : w.userMapper.getUserId caller ∈ w.signersOf id) :
    exec w act = .ok (.flow (.returned .pending), w) := by
  have hrole : (w.userRole (w.userMapper.getUserId caller)).canSign = true :=
    UserRole.canSign_iff.mpr hval
  have hsigned : w.userMapper.getUserId caller ∈
      ((w.actionMapper.get id).getD ⟨a, [], 0⟩).signers := by
    rw [getD_signers]
    exact hold
  rw [exec_validates hs, validateAction, require, if_pos hrole]
  show ((if _ then _ else _) >>= _) = _
  rw [if_pos hsigned, insert_known hold]
  rfl

/-- A new signature is recorded before it is counted. -/
theorem validateAction_new (hval : w.IsValidator caller)
    (hnew : w.userMapper.getUserId caller ∉ w.signersOf id) :
    validateAction w caller hostOk id a =
      if (w.signersOf id).length + 1 = w.minValid then do
        let (flow, w') ← performAction (w.sign id a (w.userMapper.getUserId caller)) hostOk a
        match flow with
        | .exited call => .ok (.exited call, w')
        | .returned res =>
            let (removed, actionMapper) := w'.actionMapper.remove id
            let _ ← unwrap removed
            .ok (.returned res, { w' with actionMapper := actionMapper })
      else .ok (.returned .pending, w.sign id a (w.userMapper.getUserId caller)) := by
  have hrole : (w.userRole (w.userMapper.getUserId caller)).canSign = true :=
    UserRole.canSign_iff.mpr hval
  have hsigned : w.userMapper.getUserId caller ∉
      ((w.actionMapper.get id).getD ⟨a, [], 0⟩).signers := by
    rw [getD_signers]
    exact hnew
  have hlen : (((w.actionMapper.get id).getD ⟨a, [], 0⟩).signers ++
      [w.userMapper.getUserId caller]).length = (w.signersOf id).length + 1 := by
    rw [getD_signers, List.length_append]
    rfl
  rw [validateAction, require, if_pos hrole]
  show (if _ then _ else _) = _
  rw [if_neg hsigned]
  show (if List.length _ = _ then _ else _) = _
  rw [hlen]
  rfl

theorem exec_counted (hs : act.validates = some (caller, id, a))
    (hval : w.IsValidator caller)
    (hnew : w.userMapper.getUserId caller ∉ w.signersOf id)
    (hcount : (w.signersOf id).length + 1 ≠ w.minValid) :
    exec w act = .ok (.flow (.returned .pending),
      w.sign id a (w.userMapper.getUserId caller)) := by
  rw [exec_validates hs, validateAction_new hval hnew, if_neg hcount]
  rfl

/-- The entry a signature was just recorded in is there to be taken out. -/
theorem PerformEffect.entry {flow : Flow PerformActionResult}
    (h : PerformEffect (w.sign id a signer) hostOk a flow w') :
    w'.actionMapper.get id = some (w.signedInfo id a signer) := by
  rw [h.frame.1, sign_get, if_pos rfl]

theorem exec_performs (hs : act.validates = some (caller, id, a))
    (hcall : w.CallsPerformAction caller id) :
    exec w act = (performAction (w.sign id a (w.userMapper.getUserId caller)) act.hostOk a >>=
      complete act.hostOk id) := by
  obtain ⟨hval, hnew, hcount⟩ := hcall
  rw [exec_validates hs, validateAction_new hval hnew, if_pos hcount]
  cases hperf : performAction (w.sign id a (w.userMapper.getUserId caller)) act.hostOk a with
  | error e => rfl
  | ok out =>
      obtain ⟨flow, w'⟩ := out
      cases flow with
      | exited call => rfl
      | returned res =>
          have hentry := (performAction_effect hperf).entry
          show ((unwrap (w'.actionMapper.get id) >>= _) >>= _) = _
          rw [hentry]
          rfl

/-! ## Failures -/

/-- A call by a validator fails in performing its action or in paying for it,
and in nothing else. -/
theorem exec_error_performs (hs : act.validates = some (caller, id, a))
    (hval : w.IsValidator caller) (herr : exec w act = .error e) :
    w.CallsPerformAction caller id ∧
      (performAction (w.sign id a (w.userMapper.getUserId caller)) act.hostOk a >>=
        complete act.hostOk id) = .error e := by
  by_cases hold : w.userMapper.getUserId caller ∈ w.signersOf id
  · rw [exec_known hs hval hold] at herr
    simp at herr
  · by_cases hcount : (w.signersOf id).length + 1 = w.minValid
    · have hcall : w.CallsPerformAction caller id := ⟨hval, hold, hcount⟩
      rw [exec_performs hs hcall] at herr
      exact ⟨hcall, herr⟩
    · rw [exec_counted hs hval hold hcount] at herr
      simp at herr

theorem sendWrappedLoop_error {token : TokenIdentifier} {c n : UInt64}
    (herr : sendWrappedLoop hostOk token c n w = .error e) : e = .host := by
  induction n, w using sendWrappedLoop.induct c with
  | case1 n w hlt ih =>
      rw [sendWrappedLoop, dif_pos hlt] at herr
      rcases bind_eq_error.mp herr with herr | ⟨⟨m, chain⟩, -, herr⟩
      · exact hostCall_error herr
      · exact ih chain herr
  | case2 n w hlt =>
      rw [sendWrappedLoop, dif_neg hlt] at herr
      simp at herr

/-- Once an action is performed, only the host can still stop the call. -/
theorem complete_error {out : Flow PerformActionResult × World}
    (herr : complete hostOk id out = .error e) : e = .host := by
  obtain ⟨flow, w⟩ := out
  cases flow with
  | exited call => simp [complete] at herr
  | returned res =>
      rcases bind_eq_error.mp herr with herr | ⟨w₁, -, herr⟩
      · cases res with
        | done | pending => simp [PerformActionResult.finish] at herr
        | asyncCall | unfreeze =>
            rcases bind_eq_error.mp herr with herr | ⟨chain, -, herr⟩
            · exact hostCall_error herr
            · simp at herr
      · simp at herr

/-- A payment fails by the host's refusal alone. -/
theorem payment_error (hpay : a.isPayment = true)
    (herr : performAction w hostOk a = .error e) : e = .host := by
  cases a with
  | nothing | addValidator | removeUser | changeMinValid => cases hpay
  | sendWrapped =>
      rcases bind_eq_error.mp herr with herr | ⟨w₁, -, herr⟩
      · exact sendWrappedLoop_error herr
      · rcases bind_eq_error.mp herr with herr | ⟨chain₁, -, herr⟩
        · exact hostCall_error herr
        · rcases bind_eq_error.mp herr with herr | ⟨chain₂, -, herr⟩
          · exact hostCall_error herr
          · simp at herr
  | sendNft =>
      rcases bind_eq_error.mp herr with herr | ⟨⟨nonce, chain₁⟩, -, herr⟩
      · exact hostCall_error herr
      · rcases bind_eq_error.mp herr with herr | ⟨chain₂, -, herr⟩
        · exact hostCall_error herr
        · simp at herr
  | unfreeze => simp [performAction] at herr
  | unfreezeNft =>
      rcases bind_eq_error.mp herr with herr | ⟨chain, -, herr⟩
      · exact hostCall_error herr
      · simp at herr

end ElrondMint
