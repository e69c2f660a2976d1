import ElrondMint.Evaluation
import Mathlib.Data.Finset.Card

/-!
# The quorum as a test

An execution fires when the number of signers equals the quorum. The number
grows by one with each signer and is never looked at otherwise, so the test
is met once on the way up, if the quorum stays where it is. It can be
passed over in two ways.

A quorum lowered to or below the signers that an entry already has is never
met by that entry: the validators still to sign only move away from it. And
a quorum of zero is met by no entry at all, since the first signer is number
one; `ChangeMinValid` accepts it, and nothing can be performed afterwards, the
way back included.
-/

namespace ElrondMint

open Rollback

variable {w w' w₀ : World} {l : Ledger} {token nftToken : TokenIdentifier}
  {minValid : Nat} {validators : List Address} {h past : List Rec} {r : Rec}
  {act : Act} {hostOk : Bool} {id : Nat} {caller : Address} {a : Action}

/-! ## Lowered below the signers -/

/-- A call by a validator for a uuid that was never performed, with the action
its entry stores, if there is one. -/
def SignsPending (past : List Rec) (r : Rec) (caller : Address) (id : Nat)
    (a : Action) : Prop :=
  r.act.validates = some (caller, id, a) ∧ r.pre.IsValidator caller ∧
    (∀ r' ∈ past, performsId id r' = false) ∧
    (∀ info ∈ r.pre.actionMapper.get id, info.action = a) ∧ 1 ≤ r.pre.minValid

/-- A call that fails because its action, or paying for it, does. -/
def ActionRejected (r : Rec) (caller : Address) (id : Nat) (a : Action) : Prop :=
  ∃ e, r.ret = .error e ∧
    (performAction (r.pre.sign id a (r.pre.userMapper.getUserId caller)) r.act.hostOk a >>=
      complete r.act.hostOk id) = .error e

/-- A call after which the distinct signers of the uuid, the caller included,
are as many as the quorum performs the action, unless the action is rejected. -/
def NeverStuck (past : List Rec) (r : Rec) : Prop :=
  ∀ caller id a, SignsPending past r caller id a →
    r.pre.minValid ≤
      (insert (r.pre.userMapper.getUserId caller) (r.pre.signersOf id).toFinset).card →
    performed r = some (id, a) ∨ ActionRejected r caller id a

/-- A call finds fewer signers on record than the quorum. -/
def BelowQuorum (past : List Rec) (r : Rec) : Prop :=
  ∀ caller id a, SignsPending past r caller id a →
    (r.pre.signersOf id).length < r.pre.minValid

/-- A call that reaches `performAction` performs the action or fails with it. -/
theorem record_performs (hs : act.validates = some (caller, id, a))
    (hcall : w.CallsPerformAction caller id) :
    performed (record exec w act) = some (id, a) ∨
      ActionRejected (record exec w act) caller id a := by
  cases hex : exec w act with
  | error e =>
      have herr := hex
      rw [exec_performs hs hcall] at herr
      rw [record_error hex]
      exact .inr ⟨e, rfl, herr⟩
  | ok out =>
      obtain ⟨ret, w'⟩ := out
      have hsigns := validates_signs hs
      obtain ⟨hostOk, heff⟩ := exec_sign hsigns hex
      have hown : act.signs.map Prod.snd = some (id, a) := by rw [hsigns]; rfl
      rw [record_ok hex]
      cases heff with
      | known _ hold => exact absurd hold hcall.2.1
      | counted _ _ hcount => exact absurd hcall.2.2 hcount
      | exited _ hperf => exact .inl hown
      | @returned res _ _ _ hperf hfin =>
          obtain ⟨-, hres⟩ := (performAction_effect hperf).exits
          cases res with
          | pending => exact absurd rfl hres
          | done | asyncCall | unfreeze => exact .inl hown

/-- And only a call that reaches it does. -/
theorem not_performs (hs : act.validates = some (caller, id, a))
    (hval : w.IsValidator caller) (hcall : ¬ w.CallsPerformAction caller id) :
    performed (record exec w act) ≠ some (id, a) ∧
      ¬ ActionRejected (record exec w act) caller id a := by
  have hpending : ∃ w', record exec w act = ⟨w, act, .ok (.flow (.returned .pending)), w'⟩ := by
    by_cases hold : w.userMapper.getUserId caller ∈ w.signersOf id
    · exact ⟨_, record_ok (exec_known hs hval hold)⟩
    · exact ⟨_, record_ok (exec_counted hs hval hold fun hcount =>
        hcall ⟨hval, hold, hcount⟩)⟩
  obtain ⟨w', hrec⟩ := hpending
  rw [hrec]
  refine ⟨nofun, ?_⟩
  rintro ⟨e, hret, -⟩
  simp at hret

theorem neverStuck_iff (hnodup : ∀ id, (w.signersOf id).Nodup) :
    NeverStuck past (record exec w act) ↔ BelowQuorum past (record exec w act) := by
  unfold NeverStuck BelowQuorum
  refine forall₃_congr fun caller id a => imp_congr_right fun hpending => ?_
  obtain ⟨hs, hval, -, -, hpos⟩ := hpending
  rw [record_act] at hs
  rw [record_pre] at hval hpos ⊢
  have hcard := List.toFinset_card_of_nodup (hnodup id)
  have hle := Finset.card_le_card
    (Finset.subset_insert (w.userMapper.getUserId caller) (w.signersOf id).toFinset)
  refine ⟨?_, ?_⟩
  · intro hstuck
    by_contra hbelow
    have hcall : ¬ w.CallsPerformAction caller id := fun hcall => by
      have hcount := hcall.2.2
      omega
    obtain ⟨hno, hno'⟩ := not_performs hs hval hcall
    rcases hstuck (by omega) with hperf | hrej
    · exact hno hperf
    · exact hno' hrej
  · intro hbelow hquorum
    have hnew : w.userMapper.getUserId caller ∉ w.signersOf id := by
      intro hold
      rw [Finset.insert_eq_of_mem (List.mem_toFinset.mpr hold)] at hquorum
      omega
    have hnew' : w.userMapper.getUserId caller ∉ (w.signersOf id).toFinset := by
      rw [List.mem_toFinset]
      exact hnew
    rw [Finset.card_insert_of_notMem hnew'] at hquorum
    exact record_performs hs ⟨hval, hnew, by omega⟩

/-- No signature completes a pending action without performing it, throughout
a run, exactly when no validator's call for it finds as many signers as the
quorum there already. -/
theorem pending_never_stuck
    (hinit : deploy l token nftToken minValid validators = .ok w₀)
    (hrun : Run exec w₀ h w) : Along NeverStuck h ↔ Along BelowQuorum h :=
  hrun.along_iff fun _ _ _ hrun _ => neverStuck_iff (run_nodup_signersOf hinit hrun)

/-- Alice and bob pay dan with a quorum of two. -/
theorem pending_never_stuck_two :
    let run := play exec (freshWorld 2 [alice, bob, charlie])
      [send bob (.validateUnfreeze 1 dan 5), send alice (.validateUnfreeze 1 dan 5),
        .tx ⟨dan, .egld 10, true, .deposit⟩]
    Along NeverStuck run.1 ↔ Along BelowQuorum run.1 :=
  pending_never_stuck deploy_three (run_play _ _ _)

/-- Alice and bob have signed when the quorum is lowered from three to two:
charlie's signature, the third of three validators asked for two, is pending. -/
theorem lowered_quorum_sticks :
    let run := play exec (freshWorld 3 [alice, bob, charlie])
      [send charlie (.validateUnfreeze 1 dan 5), send charlie (.proposeChangeMinValid 2 2),
        send bob (.proposeChangeMinValid 2 2), send alice (.proposeChangeMinValid 2 2),
        send bob (.validateUnfreeze 1 dan 5), send alice (.validateUnfreeze 1 dan 5),
        .tx ⟨dan, .egld 10, true, .deposit⟩]
    (deploy .fresh xpdt xpnft 3 [alice, bob, charlie]).isOk = true ∧
      run.2.minValid = 2 ∧ run.2.signersOf 1 = [1, 2, 3] ∧ ¬ Along NeverStuck run.1 := by
  intro run
  refine ⟨by decide +kernel, by decide +kernel, by decide +kernel, fun h => ?_⟩
  rcases h.1 charlie 1 (.unfreeze dan 5)
    ⟨by decide +kernel, by decide +kernel, by decide +kernel, by decide +kernel,
      by decide +kernel⟩ (by decide +kernel) with hperf | ⟨e, hret, -⟩
  · exact absurd hperf (by decide +kernel)
  · have hok : (run.1.head (by decide +kernel)).ret =
        .ok (.flow (.returned .pending)) := by
      decide +kernel
    cases hok.symm.trans hret

/-! ## Lowered to zero -/

/-- The pending actions replaced. -/
def World.withActions (w : World) (m : SafeMapMapper ActionInfo) : World :=
  { w with actionMapper := m }

theorem sendWrappedLoop_withActions (m : SafeMapMapper ActionInfo)
    {t : TokenIdentifier} {c n : UInt64} (w : World) :
    sendWrappedLoop hostOk t c n (w.withActions m) =
      (sendWrappedLoop hostOk t c n w).map fun w' => w'.withActions m := by
  induction n, w using sendWrappedLoop.induct c with
  | case1 n w hlt ih =>
      rw [sendWrappedLoop, dif_pos hlt, sendWrappedLoop, dif_pos hlt]
      exact bind_eq_map fun out => ih out.2
  | case2 n w hlt =>
      rw [sendWrappedLoop, dif_neg hlt, sendWrappedLoop, dif_neg hlt]
      rfl

/-- No arm of `performAction` looks at the pending actions. -/
theorem performAction_withActions (m : SafeMapMapper ActionInfo) (w : World) (a : Action) :
    performAction (w.withActions m) hostOk a =
      (performAction w hostOk a).map fun out => (out.1, out.2.withActions m) := by
  cases a with
  | nothing | unfreeze => rfl
  | addValidator addr => exact bind_eq_map fun _ => rfl
  | removeUser addr =>
      exact bind_eq_map fun _ => bind_eq_map fun _ => bind_eq_map fun _ => rfl
  | changeMinValid q => exact bind_eq_map fun _ => rfl
  | sendWrapped c recipient amount data =>
      show (sendWrappedLoop hostOk w.token c w.sftNonce (w.withActions m) >>= _) = _
      rw [sendWrappedLoop_withActions]
      show _ = Except.map _ (sendWrappedLoop hostOk w.token c w.sftNonce w >>= _)
      cases sendWrappedLoop hostOk w.token c w.sftNonce w with
      | error e => rfl
      | ok w₁ =>
          show (w₁.chain.esdtLocalMint hostOk w.token c amount >>= _) =
            Except.map _ (w₁.chain.esdtLocalMint hostOk w.token c amount >>= _)
          exact bind_eq_map fun _ => bind_eq_map fun _ => rfl
  | sendNft c recipient id => exact bind_eq_map fun _ => bind_eq_map fun _ => rfl
  | unfreezeNft recipient t n => exact bind_eq_map fun _ => rfl

/-- A call accepts an action: it is performed and what it pays is paid. -/
def Accepts (w : World) (hostOk : Bool) (id : Nat) (a : Action) : Prop :=
  ∃ out, (performAction w hostOk a >>= complete hostOk id) = .ok out

theorem Accepts.withActions (h : Accepts w hostOk id a) (m : SafeMapMapper ActionInfo) :
    Accepts (w.withActions m) hostOk id a := by
  obtain ⟨out, h⟩ := h
  obtain ⟨⟨flow, w₁⟩, hperf, hcomp⟩ := bind_eq_ok.mp h
  rw [Accepts, performAction_withActions, hperf]
  show ∃ out, complete hostOk id (flow, w₁.withActions m) = .ok out
  cases flow with
  | exited call => exact ⟨_, rfl⟩
  | returned res =>
      cases res with
      | done | pending => exact ⟨_, rfl⟩
      | asyncCall call =>
          obtain ⟨w₂, hfin, -⟩ := bind_eq_ok.mp hcomp
          obtain ⟨chain, hpay, -⟩ := bind_eq_ok.mp hfin
          exact ⟨_, bind_eq_ok.mpr ⟨_, bind_eq_ok.mpr ⟨chain, hpay, rfl⟩, rfl⟩⟩
      | unfreeze payment =>
          obtain ⟨w₂, hfin, -⟩ := bind_eq_ok.mp hcomp
          obtain ⟨chain, hpay, -⟩ := bind_eq_ok.mp hfin
          exact ⟨_, bind_eq_ok.mpr ⟨_, bind_eq_ok.mpr ⟨chain, hpay, rfl⟩, rfl⟩⟩

/-- Calls of distinct validators for one uuid and action. -/
structure VotesFor (w : World) (id : Nat) (a : Action) (calls : List Act) : Prop where
  valid : ∀ act ∈ calls, ∃ s ∈ act.validates, s.2 = (id, a) ∧ w.IsValidator s.1
  distinct : (calls.map fun act => act.validates.map Prod.fst).Nodup

/-- A quorum within reach: it is positive, and so many validators in a row
perform an action that is accepted, under a uuid without an entry, with the
last of their calls; and something can always be performed. -/
structure QuorumLives (w : World) : Prop where
  positive : 1 ≤ w.minValid
  performs : ∀ (id : Nat) (a : Action) (last : Act) (earlier : List Act),
    w.actionMapper.get id = none → VotesFor w id a (last :: earlier) →
    (last :: earlier).length = w.minValid → Accepts w last.hostOk id a →
    performed (record exec (play exec w earlier).2 last) = some (id, a) ∧
      ∀ r ∈ (play exec w earlier).1, performed r = none
  alive : ∃ calls : List Act, ∃ r ∈ (play exec w calls).1, (performed r).isSome

theorem VotesFor.tail {calls : List Act} (hvotes : VotesFor w id a (act :: calls)) :
    VotesFor w id a calls where
  valid act' hact' := hvotes.valid act' (List.mem_cons_of_mem _ hact')
  distinct := (List.nodup_cons.mp hvotes.distinct).2

/-- The first vote is somebody's whose id the others do not have. -/
theorem VotesFor.head {calls : List Act} (hs : w.toBoard.Sound)
    (hvotes : VotesFor w id a (act :: calls)) :
    ∃ caller, act.validates = some (caller, id, a) ∧ w.IsValidator caller ∧
      ∀ act' ∈ calls, ∀ s ∈ act'.validates,
        w.userMapper.getUserId s.1 ≠ w.userMapper.getUserId caller := by
  obtain ⟨⟨caller, ua⟩, hown, heq, hval⟩ := hvotes.valid act List.mem_cons_self
  cases heq
  refine ⟨caller, hown, hval, fun act' hact' s hs' hid => ?_⟩
  have haddr : caller = s.1 := w.userMapper.getUserId_inj (hs.id_ne_zero hval) hid.symm
  refine (List.nodup_cons.mp hvotes.distinct).1 (List.mem_map.mpr ⟨act', hact', ?_⟩)
  show act'.validates.map Prod.fst = act.validates.map Prod.fst
  rw [Option.mem_def.mp hs', Option.mem_def.mp hown, Option.map_some, Option.map_some, haddr]

/-- Votes short of the quorum are recorded, and nothing else happens. -/
theorem play_votes (hs : w.toBoard.Sound) (hfree : w.actionMapper.get id = none)
    {calls : List Act} (hvotes : VotesFor w id a calls) (hlt : calls.length < w.minValid) :
    ∃ m, (play exec w calls).2 = w.withActions m ∧
      ((w.withActions m).signersOf id).length = calls.length ∧
      (∀ i ∈ (w.withActions m).signersOf id, ∃ act ∈ calls, ∃ s ∈ act.validates,
        w.userMapper.getUserId s.1 = i) ∧
      ∀ r ∈ (play exec w calls).1, performed r = none := by
  induction calls with
  | nil =>
      have hempty : (w.withActions w.actionMapper).signersOf id = [] := signersOf_none hfree
      refine ⟨w.actionMapper, rfl, ?_, ?_, fun r hr => absurd hr List.not_mem_nil⟩
      · rw [hempty]
        rfl
      · intro i hi
        rw [hempty] at hi
        simp at hi
  | cons act calls ih =>
      rw [List.length_cons] at hlt
      obtain ⟨m, hplay, hlen, hsigners, hnone⟩ := ih hvotes.tail (by omega)
      obtain ⟨caller, hown, hval, hother⟩ := hvotes.head hs
      have hnew : w.userMapper.getUserId caller ∉ (w.withActions m).signersOf id := by
        intro hold
        obtain ⟨act', hact', s, hs', hid⟩ := hsigners _ hold
        exact hother act' hact' s hs' hid
      have hcount : ((w.withActions m).signersOf id).length + 1 ≠ w.minValid := by omega
      have hex : exec (w.withActions m) act = .ok (.flow (.returned .pending),
          (w.withActions m).sign id a (w.userMapper.getUserId caller)) :=
        exec_counted hown hval hnew hcount
      have hrec := record_ok hex
      have hsigned : ((w.withActions m).sign id a
          (w.userMapper.getUserId caller)).signersOf id =
            (w.withActions m).signersOf id ++ [w.userMapper.getUserId caller] :=
        (sign_signersOf id).trans (if_pos rfl)
      refine ⟨((w.withActions m).sign id a (w.userMapper.getUserId caller)).actionMapper,
        ?_, ?_, ?_, ?_⟩
      · show (record exec (play exec w calls).2 act).post = _
        rw [hplay, hrec]
        rfl
      · show (((w.withActions m).sign id a _).signersOf id).length = _
        rw [hsigned, List.length_append, hlen]
        rfl
      · intro i hi
        have hi : i ∈ ((w.withActions m).sign id a _).signersOf id := hi
        rw [hsigned, List.mem_append, List.mem_singleton] at hi
        rcases hi with hi | rfl
        · obtain ⟨act', hact', hs'⟩ := hsigners i hi
          exact ⟨act', List.mem_cons_of_mem _ hact', hs'⟩
        · exact ⟨act, List.mem_cons_self, _, hown, rfl⟩
      · show ∀ r ∈ record exec (play exec w calls).2 act :: (play exec w calls).1, _
        rw [hplay, hrec]
        exact List.forall_mem_cons.mpr ⟨rfl, hnone⟩

/-- The call that meets the quorum performs what is accepted. -/
theorem votes_perform (hs : w.toBoard.Sound) (hfree : w.actionMapper.get id = none)
    {last : Act} {earlier : List Act} (hvotes : VotesFor w id a (last :: earlier))
    (hlen : (last :: earlier).length = w.minValid) (haccept : Accepts w last.hostOk id a) :
    performed (record exec (play exec w earlier).2 last) = some (id, a) ∧
      ∀ r ∈ (play exec w earlier).1, performed r = none := by
  rw [List.length_cons] at hlen
  obtain ⟨m, hplay, hcount, hsigners, hnone⟩ := play_votes hs hfree hvotes.tail (by omega)
  obtain ⟨caller, hown, hval, hother⟩ := hvotes.head hs
  refine ⟨?_, hnone⟩
  have hcall : (w.withActions m).CallsPerformAction caller id := by
    refine ⟨hval, fun hold => ?_, ?_⟩
    · obtain ⟨act', hact', s, hs', hid⟩ := hsigners _ hold
      exact hother act' hact' s hs' hid
    · show ((w.withActions m).signersOf id).length + 1 = w.minValid
      omega
  rw [hplay]
  rcases record_performs hown hcall with hperf | ⟨e, -, hrej⟩
  · exact hperf
  · rw [record_pre, record_act] at hrej
    obtain ⟨out, hok⟩ := haccept.withActions
      ((w.withActions m).sign id a (w.userMapper.getUserId caller)).actionMapper
    exact absurd (hok.symm.trans hrej) (by simp)

/-- There is always a uuid without an entry. -/
theorem exists_free (m : SafeMapMapper ActionInfo) : ∃ id, m.get id = none := by
  obtain ⟨id, hid⟩ := Infinite.exists_notMem_finset m.keys
  refine ⟨id, Finmap.lookup_eq_none.mpr fun hmem => hid ?_⟩
  exact Finmap.mem_keys.mpr hmem

/-- A quorum of validators can be found on the board. -/
theorem exists_quorum (hi : w.toBoard.Invariant) :
    ∃ voters : List Address, voters.length = w.minValid ∧ voters.Nodup ∧
      ∀ v ∈ voters, w.IsValidator v := by
  have hle : w.minValid ≤ w.validators.card := by
    rw [hi.toSound.card_validators]
    exact hi.quorum
  obtain ⟨t, ht, hcard⟩ := Finset.exists_subset_card_eq hle
  refine ⟨t.toList, ?_, t.nodup_toList, fun v hv => ?_⟩
  · rw [Finset.length_toList, hcard]
  · exact hi.toSound.mem_validators.mp (ht (Finset.mem_toList.mp hv))

/-- The quorum set to what it is can be performed by any quorum. -/
theorem quorum_alive (hi : w.toBoard.Invariant) (hpos : 1 ≤ w.minValid) :
    ∃ calls : List Act, ∃ r ∈ (play exec w calls).1, (performed r).isSome := by
  obtain ⟨id, hfree⟩ := exists_free w.actionMapper
  obtain ⟨voters, hlen, hnodup, hval⟩ := exists_quorum hi
  cases voters with
  | nil =>
      rw [List.length_nil] at hlen
      omega
  | cons v voters =>
      have hvotes : VotesFor w id (.changeMinValid w.minValid)
          ((v :: voters).map fun v => send v (.proposeChangeMinValid id w.minValid)) := by
        refine ⟨fun act hact => ?_, ?_⟩
        · obtain ⟨u, hu, rfl⟩ := List.mem_map.mp hact
          exact ⟨(u, id, .changeMinValid w.minValid), rfl, rfl, hval u hu⟩
        · rw [List.map_map]
          exact hnodup.map fun u u' heq => Option.some.inj heq
      have haccept : Accepts w true id (.changeMinValid w.minValid) :=
        ⟨_, bind_eq_ok.mpr ⟨_, bind_eq_ok.mpr ⟨(), require_eq_ok.mpr hi.quorum, rfl⟩, rfl⟩⟩
      have hquorum : ((v :: voters).map fun v =>
          send v (.proposeChangeMinValid id w.minValid)).length = w.minValid := by
        rw [List.length_map, hlen]
      have hperf := (votes_perform hi.toSound hfree hvotes hquorum haccept).1
      refine ⟨(v :: voters).map fun v => send v (.proposeChangeMinValid id w.minValid), _,
        List.mem_cons_self, ?_⟩
      rw [hperf]
      rfl

/-- A call that completes the quorum of a quorum of zero. -/
def Act.ZeroesQuorum (w : World) (act : Act) : Prop :=
  ∃ caller id, act.validates = some (caller, id, .changeMinValid 0) ∧
    w.CallsPerformAction caller id

/-- Zero is below the size of any board, so the call that completes its quorum
performs it. -/
theorem zeroesQuorum_iff (w : World) (act : Act) :
    act.ZeroesQuorum w ↔
      ∃ id, performed (record exec w act) = some (id, .changeMinValid 0) := by
  refine ⟨?_, ?_⟩
  · intro hzero
    obtain ⟨caller, id, hs, hcall⟩ := hzero
    rcases record_performs hs hcall with hperf | ⟨e, -, hrej⟩
    · exact ⟨id, hperf⟩
    · rw [record_pre, record_act] at hrej
      have haccept : performAction (w.sign id (.changeMinValid 0)
          (w.userMapper.getUserId caller)) act.hostOk (.changeMinValid 0) = .ok (_, _) :=
        bind_eq_ok.mpr ⟨(), require_eq_ok.mpr (Nat.zero_le _), rfl⟩
      rw [haccept] at hrej
      exact absurd hrej nofun
  · intro hzero
    obtain ⟨id, hperf⟩ := hzero
    obtain ⟨caller, hsigned, hcall⟩ := (record_signingEffect w act).of_performed hperf
    have hs := record_validates hsigned
    rw [record_act] at hs
    rw [record_pre] at hcall
    exact ⟨caller, id, hs, hcall⟩

theorem GovernEffect.minValid_pos {b b' : Board} (hg : GovernEffect b a b') (hs : b.Sound)
    (hpos : 1 ≤ b.minValid) : 1 ≤ b'.minValid ↔ a ≠ .changeMinValid 0 := by
  cases hg with
  | addValidator hrole | removeUser hrole =>
      rw [(Board.changeUserRole_spec hs hrole).2.1]
      exact iff_of_true hpos nofun
  | @changeMinValid q =>
      show 1 ≤ q ↔ _
      rw [ne_eq, Action.changeMinValid.injEq]
      omega

/-- A record leaves a positive quorum if it finds one, unless it sets it to
zero. -/
theorem record_minValid_pos (hs : w.toBoard.Sound) :
    1 ≤ (record exec w act).post.minValid ↔ 1 ≤ w.minValid ∧ ¬ act.ZeroesQuorum w := by
  rw [zeroesQuorum_iff]
  rw [← record_pre exec w act] at hs
  cases record_board w act with
  | kept hno hboard =>
      rw [hboard, record_pre]
      refine ⟨fun hle => ⟨hle, fun hzero => ?_⟩, And.left⟩
      obtain ⟨id, hperf⟩ := hzero
      have hgov := hno _ hperf
      simp [Action.isGovernance] at hgov
  | govern id a hperf hgov =>
      obtain ⟨caller, -, hcall⟩ := (record_signingEffect w act).of_performed hperf
      have hpre : 1 ≤ (record exec w act).pre.minValid := by
        have hcount := hcall.2.2
        omega
      rw [hgov.minValid_pos hs hpre]
      rw [record_pre] at hpre
      refine ⟨fun hne => ⟨hpre, fun hzero => ?_⟩, fun hno hzero => hno.2 ⟨id, ?_⟩⟩
      · obtain ⟨j, hperf'⟩ := hzero
        rw [hperf] at hperf'
        exact hne (congrArg Prod.snd (Option.some.inj hperf'))
      · rw [← hzero]
        exact hperf

/-- The quorum is positive until it is set to zero, and zero for ever after. -/
theorem run_minValid_pos (hinit : deploy l token nftToken minValid validators = .ok w₀)
    (hpos : 1 ≤ minValid) (hrun : Run exec w₀ h w) :
    1 ≤ w.minValid ↔ ∀ r ∈ h, ¬ r.act.ZeroesQuorum r.pre := by
  induction hrun with
  | start =>
      rw [(init_sound (deploy_init hinit).1).2.2.1]
      exact iff_of_true hpos fun r hr => absurd hr List.not_mem_nil
  | @step h w act hrun ih =>
      rw [record_minValid_pos (run_sound hinit hrun), List.forall_mem_cons, ← ih,
        record_act, record_pre]
      exact And.comm

/-- From a deployment whose quorum is positive and within the board, the
quorum stays one that can be reached, in every state of a run, exactly when no
call of the run has completed the quorum of setting it to zero. -/
theorem quorum_stays_alive (hinit : deploy l token nftToken minValid validators = .ok w₀)
    (hpos : 1 ≤ minValid) (hquorum : minValid ≤ validators.length)
    (hrun : Run exec w₀ h w) :
    QuorumLives w ↔ ∀ r ∈ h, ¬ r.act.ZeroesQuorum r.pre := by
  rw [← run_minValid_pos hinit hpos hrun]
  refine ⟨QuorumLives.positive, fun hpos => ⟨hpos, ?_, ?_⟩⟩
  · intro id a last earlier hfree hvotes hlen haccept
    exact votes_perform (run_sound hinit hrun) hfree hvotes hlen haccept
  · exact quorum_alive (run_invariant hinit hquorum hrun) hpos

/-- Alice and bob lower the quorum of a board of three from two to one. -/
theorem quorum_stays_alive_one :
    let run := play exec (freshWorld 2 [alice, bob, charlie])
      [send bob (.proposeChangeMinValid 1 1), send alice (.proposeChangeMinValid 1 1)]
    QuorumLives run.2 ↔ ∀ r ∈ run.1, ¬ r.act.ZeroesQuorum r.pre :=
  quorum_stays_alive deploy_three (by decide) (by decide)
    (run_play _ _ _)

/-- Alice and bob set the quorum to zero. -/
theorem quorum_of_zero :
    let run := play exec (freshWorld 2 [alice, bob, charlie])
      [send bob (.proposeChangeMinValid 1 0), send alice (.proposeChangeMinValid 1 0)]
    (deploy .fresh xpdt xpnft 2 [alice, bob, charlie]).isOk = true ∧
      run.2.minValid = 0 ∧ ¬ QuorumLives run.2 := by
  intro run
  have hzero : run.2.minValid = 0 := by decide +kernel
  refine ⟨three_isOk, hzero, fun h => ?_⟩
  have hpos := h.positive
  omega

end ElrondMint
