import ElrondMint.Departure

/-!
# The entries that executed actions leave

`validateAction` takes the entry of a uuid out after it has performed the
action. Where that call does not return, because the action ends in an
asynchronous transfer, the line is never reached and the entry stays with all
its signers.

`Keys` is what the keys of the table should be: the uuids with a signature
recorded since they were last performed. It is kept by every record but those
that send a transfer off, and broken by each of these.
-/

namespace ElrondMint

open Rollback

variable {w w₀ : World} {l : Ledger} {token nftToken : TokenIdentifier}
  {minValid : Nat} {validators : List Address} {h past : List Rec} {r : Rec}
  {id j : Nat} {caller : Address} {a : Action}

/-- A call that recorded a signature on uuid `id`: it succeeded, and its caller
was not yet on the entry. -/
def recordsOn (id : Nat) (r : Rec) : Bool :=
  (signatureOn id r).any fun s =>
    decide (r.pre.userMapper.getUserId s.1 ∉ r.pre.signersOf id)

/-- The uuids with an entry are those with a signature recorded since they were
last performed. -/
def Keys (h : List Rec) (w : World) : Prop :=
  ∀ id, (w.actionMapper.get id).isSome ↔ ∃ r ∈ since id h, recordsOn id r = true

/-- No entry is left behind by an executed action. -/
structure EntriesLeft (past : List Rec) (r : Rec) : Prop where
  keys : Keys (r :: past) r.post
  removed : ∀ id, performsId id r = true → r.post.actionMapper.get id = none

/-! ## One record, seen from one uuid -/

theorem since_performed (hperf : performsId id r = true) : since id (r :: past) = [] := by
  rw [since, List.takeWhile_cons_of_neg]
  rw [hperf]
  simp

theorem since_cons (hperf : performsId id r = false) :
    since id (r :: past) = r :: since id past := by
  rw [since, List.takeWhile_cons_of_pos (by rw [hperf]; rfl)]
  rfl

theorem performsId_ne (hperf : performed r = some (id, a)) (hj : j ≠ id) :
    performsId j r = false := by
  rw [performsId, hperf, Option.any_some]
  exact beq_eq_false_iff_ne.mpr (Ne.symm hj)

theorem recordsOn_none (hsig : signatureOn id r = none) : recordsOn id r = false := by
  rw [recordsOn, hsig]
  rfl

theorem recordsOn_known (hsig : signatureOn id r = some (caller, a))
    (hold : r.pre.userMapper.getUserId caller ∈ r.pre.signersOf id) :
    recordsOn id r = false := by
  rw [recordsOn, hsig]
  exact decide_eq_false (not_not.mpr hold)

theorem recordsOn_new (hsig : signatureOn id r = some (caller, a))
    (hnew : r.pre.userMapper.getUserId caller ∉ r.pre.signersOf id) :
    recordsOn id r = true := by
  rw [recordsOn, hsig]
  exact decide_eq_true hnew

/-- A record that neither performs a uuid nor signs it leaves it as it was. -/
theorem recorded_skip (hperf : performsId id r = false) (hrec : recordsOn id r = false) :
    (∃ r' ∈ since id (r :: past), recordsOn id r' = true) ↔
      ∃ r' ∈ since id past, recordsOn id r' = true := by
  rw [since_cons hperf]
  simp [hrec]

theorem recorded_now (hperf : performsId id r = false) (hrec : recordsOn id r = true) :
    ∃ r' ∈ since id (r :: past), recordsOn id r' = true := by
  rw [since_cons hperf]
  exact ⟨r, List.mem_cons_self, hrec⟩

/-! ## Along a run -/

/-- Nothing is recorded since a uuid was performed just now. -/
theorem Keys.removed (hkeys : Keys (r :: past) w) (hperf : performsId id r = true) :
    w.actionMapper.get id = none := by
  cases hget : w.actionMapper.get id with
  | none => rfl
  | some info =>
      obtain ⟨r', hr', -⟩ := (hkeys id).mp (by rw [hget]; rfl)
      rw [since_performed hperf] at hr'
      simp at hr'

/-- A record that sends no transfer off keeps the table right. -/
theorem Keys.step (hkeys : Keys past r.pre) (heff : SigningEffect r)
    (hexit : exitedId r = none) : Keys (r :: past) r.post := by
  intro id
  cases heff with
  | idle hsigned hperf _ hsame =>
      have hno : recordsOn id r = false := by
        refine recordsOn_none ?_
        rw [signatureOn, hsigned]
      rw [recorded_skip (performsId_none hperf id) hno, hsame]
      exact hkeys id
  | known caller j a hsigned hperf _ _ hold hsame =>
      have hno : recordsOn id r = false := by
        by_cases hid : id = j
        · rw [hid]
          exact recordsOn_known (signatureOn_self hsigned) hold
        · exact recordsOn_none (signatureOn_ne hsigned hid)
      rw [recorded_skip (performsId_none hperf id) hno, hsame]
      exact hkeys id
  | counted caller j a hsigned hperf _ _ hnew _ hpost =>
      rw [hpost, sign_get]
      by_cases hid : id = j
      · rw [if_pos hid, hid]
        refine iff_of_true rfl ?_
        exact recorded_now (performsId_none hperf j)
          (recordsOn_new (signatureOn_self hsigned) hnew)
      · rw [if_neg hid, recorded_skip (performsId_none hperf id)
          (recordsOn_none (signatureOn_ne hsigned hid))]
        exact hkeys id
  | exited _ _ _ _ _ hsome =>
      rw [hexit] at hsome
      simp at hsome
  | returned caller j a hsigned hperf _ _ _ hpost =>
      rw [hpost, dropEntry_get]
      by_cases hid : id = j
      · rw [if_pos hid, hid, since_performed (performsId_self hperf)]
        simp
      · rw [if_neg hid, sign_get, if_neg hid, recorded_skip (performsId_ne hperf hid)
          (recordsOn_none (signatureOn_ne hsigned hid))]
        exact hkeys id

/-- A record that sends a transfer off performs its uuid and keeps the entry. -/
theorem SigningEffect.entry_stays (heff : SigningEffect r)
    (hexit : exitedId r = some id) :
    performsId id r = true ∧ (r.post.actionMapper.get id).isSome := by
  obtain ⟨caller, a, -, hperf, -, -, hpost⟩ := heff.of_exitedId hexit
  refine ⟨performsId_self hperf, ?_⟩
  rw [hpost, sign_get, if_pos rfl]
  rfl

theorem run_keys (hinit : deploy l token nftToken minValid validators = .ok w₀)
    (hrun : Run exec w₀ h w) (hexits : ∀ r ∈ h, exitedId r = none) :
    Keys h w ∧ Along EntriesLeft h := by
  induction hrun with
  | start =>
      refine ⟨fun id => ?_, trivial⟩
      rw [(init_fields (deploy_init hinit).1).1, SafeMapMapper.get_empty]
      simp [since]
  | @step h w act hrun ih =>
      obtain ⟨hlast, hpast⟩ := List.forall_mem_cons.mp hexits
      obtain ⟨hkeys, hleft⟩ := ih hpast
      rw [← record_pre exec w act] at hkeys
      have hstep := hkeys.step (record_signingEffect w act) hlast
      exact ⟨hstep, ⟨hstep, fun id => hstep.removed⟩, hleft⟩

/-- Along a run no executed action leaves its entry behind exactly when no call
completes the quorum of an action whose transfer departs. -/
theorem entries_left_iff (hinit : deploy l token nftToken minValid validators = .ok w₀)
    (hrun : Run exec w₀ h w) :
    Along EntriesLeft h ↔ ∀ r ∈ h, ∀ id, ¬ r.act.SendsOff r.pre id := by
  have hsends : ∀ r ∈ h, ∀ id, exitedId r = some id ↔ r.act.SendsOff r.pre id := by
    intro r hr id
    rw [hrun.records r hr, record_pre, record_act]
    exact exits_iff _ _ id
  refine ⟨?_, ?_⟩
  · intro hleft r hr id hoff
    have hexit := (hsends r hr id).mpr hoff
    have heff : SigningEffect r := hrun.records r hr ▸ record_signingEffect _ _
    obtain ⟨hperf, hstays⟩ := heff.entry_stays hexit
    obtain ⟨past, -, hleft⟩ := hleft.of_mem hr
    rw [hleft.removed id hperf] at hstays
    simp at hstays
  · intro hnone
    refine (run_keys hinit hrun fun r hr => ?_).2
    cases hexit : exitedId r with
    | none => rfl
    | some id => exact absurd ((hsends r hr id).mp hexit) (hnone r hr id)

/-- Alice and bob pay dan in EGLD: the payment returns. -/
theorem entries_left_egld :
    let run := play exec (freshWorld 2 [alice, bob, charlie])
      [send bob (.validateUnfreeze 1 dan 5), send alice (.validateUnfreeze 1 dan 5),
        .tx ⟨dan, .egld 10, true, .deposit⟩]
    Along EntriesLeft run.1 ↔ ∀ r ∈ run.1, ∀ id, ¬ r.act.SendsOff r.pre id :=
  entries_left_iff deploy_three (run_play _ _ _)

/-- Alice and bob send dan an NFT: the entry of the executed action stays, with
both of them on it. -/
theorem sent_nft_leaves_entry :
    let run := play exec (freshWorld 2 [alice, bob, charlie])
      [send bob nftVote, send alice nftVote]
    (deploy .fresh xpdt xpnft 2 [alice, bob, charlie]).isOk = true ∧
      run.1.map performed = [some (1, .sendNft 9 dan [7]), none] ∧
      run.2.signersOf 1 = [1, 2] ∧ ¬ Along EntriesLeft run.1 := by
  intro run
  refine ⟨three_isOk, by decide +kernel, by decide +kernel, fun hleft => ?_⟩
  have hgone := hleft.1.removed 1 (by decide +kernel)
  have hstays : (run.2.actionMapper.get 1).isSome := by decide +kernel
  rw [show run.2.actionMapper.get 1 = none from hgone] at hstays
  simp at hstays

end ElrondMint
