import ElrondMint.Deployment
import ElrondMint.Rounds

/-!
# What survives upgrades

A contract may be upgraded at any moment and any number of times, each time with
a board, a quorum and tokens of the owner's choosing. `init` then runs on the
storage it finds: it registers the new validators behind the old ones, whom it
neither counts nor removes.

The user table survives that, and so do the entries: ids stay with their
addresses, and nobody is listed twice. The count of the validators does not. It
is off by those who were on the board at the last upgrade, neither more nor less
however the board changes later (`upgrades_survived`): each change of a role
moves the count and the board by the same one.
-/

namespace ElrondMint

open Rollback

variable {w w' w₀ : World} {l : Ledger} {token nftToken : TokenIdentifier}
  {minValid : Nat} {validators : List Address} {act : Act} {ret : Ret} {b b' : Board}
  {x : Address} {role : UserRole} {a : Action} {d : Nat}

/-- What can happen to a contract that its owner may upgrade. -/
inductive Move where
  | act (act : Act)
  | upgrade (token nftToken : TokenIdentifier) (minValid : Nat) (validators : List Address)
  deriving DecidableEq, Repr

def move (w : World) : Move → Except Failure (Ret × World)
  | .act act => exec w act
  | .upgrade token nftToken minValid validators => do
      let w ← upgrade w token nftToken minValid validators
      .ok (.unit, w)

abbrev MoveRec := Record World Move Failure Ret

/-- Whether a record is an upgrade that went through. -/
def upgraded (r : MoveRec) : Bool :=
  match r.act, r.ret with
  | .upgrade .., .ok _ => true
  | _, _ => false

/-- The validators that were on the board when the contract was last upgraded. -/
def drift : List MoveRec → Nat
  | [] => 0
  | r :: past => if upgraded r then r.pre.validatorIds.card else drift past

variable {h : List MoveRec}

/-! ## One change of a role -/

/-- A board with another count. -/
def Board.withCount (b : Board) (n : Nat) : Board := { b with numValidators := n }

/-- The board with the right count. -/
theorem Board.RolesInside.recount (hin : b.RolesInside) :
    (b.withCount b.validatorIds.card).Sound := ⟨hin, rfl⟩

/-- What a change of a role does to the count, it does to any count. -/
theorem changeUserRole_withCount (h : b.changeUserRole x role = .ok b') (c : Nat) :
    ∃ c', (b.withCount c).changeUserRole x role = .ok (b'.withCount c') ∧
      (b'.numValidators = usizeInc b.numValidators ∧ c' = usizeInc c ∨
        b'.numValidators = usizeDec b.numValidators ∧ c' = usizeDec c ∨
        b'.numValidators = b.numValidators ∧ c' = c) := by
  obtain ⟨⟨i, m⟩, hid, h⟩ := bind_eq_ok.mp h
  obtain ⟨hid0, -⟩ := UserMapper.getOrCreateUser_spec hid
  simp only [if_neg hid0] at h
  unfold Board.changeUserRole
  simp only [bind_eq_ok]
  split at h
  · next hold =>
      split at h
      · next hnew =>
          cases h
          refine ⟨usizeDec c, ⟨(i, m), hid, ?_⟩, .inr (.inl ⟨rfl, rfl⟩)⟩
          simp only [if_neg hid0]
          exact (if_pos hold).trans (if_pos hnew)
      · next hnew =>
          cases h
          refine ⟨c, ⟨(i, m), hid, ?_⟩, .inr (.inr ⟨rfl, rfl⟩)⟩
          simp only [if_neg hid0]
          exact (if_pos hold).trans (if_neg hnew)
  · next hold =>
      split at h
      · next hnew =>
          cases h
          refine ⟨usizeInc c, ⟨(i, m), hid, ?_⟩, .inl ⟨rfl, rfl⟩⟩
          simp only [if_neg hid0]
          exact (if_neg hold).trans (if_pos hnew)
      · next hnew =>
          cases h
          refine ⟨c, ⟨(i, m), hid, ?_⟩, .inr (.inr ⟨rfl, rfl⟩)⟩
          simp only [if_neg hid0]
          exact (if_neg hold).trans (if_neg hnew)

/-- A board whose count lacks `d` validators. -/
structure Board.Drifts (d : Nat) (b : Board) : Prop where
  inside : b.RolesInside
  counted : b.validatorIds.card = b.numValidators + d
  nonempty : 0 < b.numValidators

/-- What a change of a role leaves of a board that has drifted. -/
theorem Board.Drifts.changeUserRole (hd : b.Drifts d)
    (h : b.changeUserRole x role = .ok b') :
    b'.RolesInside ∧ b'.validatorIds.card = b'.numValidators + d ∧
      b.userMapper.Grows b'.userMapper ∧
      (role = .validator → 0 < b'.numValidators) := by
  obtain ⟨c', hrecount, hmoves⟩ := changeUserRole_withCount h b.validatorIds.card
  obtain ⟨hs', -, hgrow, -, -, hcount⟩ := Board.changeUserRole_spec hd.inside.recount hrecount
  have hcard : c' = b'.validatorIds.card := hs'.count
  have hlt' : c' < usizeBound := hs'.card_lt
  have hlt : b.validatorIds.card < usizeBound := hd.inside.recount.card_lt
  have hcounted := hd.counted
  have hpos := hd.nonempty
  have hcount' : c' + (if (b.withCount b.validatorIds.card).IsValidator x then 1 else 0) =
      b.validatorIds.card + (if role = .validator then 1 else 0) := hcount
  refine ⟨hs'.inside, ?_, hgrow, ?_⟩
  · rw [← hcard]
    rcases hmoves with ⟨hnum, hc⟩ | ⟨hnum, hc⟩ | ⟨hnum, hc⟩
    · -- no validator was there before, so there is room for one more
      unfold usizeInc usizeBound at *
      split at hcount' <;> split at hcount' <;> omega
    · rw [usizeDec_of_pos hpos (by omega)] at hnum
      rw [usizeDec_of_pos (by omega) hlt] at hc
      omega
    · omega
  · intro hrole
    rw [if_pos hrole] at hcount'
    rcases hmoves with ⟨hnum, hc⟩ | ⟨hnum, hc⟩ | ⟨hnum, hc⟩
    · unfold usizeInc usizeBound at *
      split at hcount' <;> omega
    · rw [usizeDec_of_pos (by omega) hlt] at hc
      split at hcount' <;> omega
    · omega

theorem GovernEffect.drifts (hg : GovernEffect b a b') (hd : b.Drifts d) :
    b'.Drifts d ∧ b.userMapper.Grows b'.userMapper := by
  cases hg with
  | addValidator hrole =>
      obtain ⟨hin, hcounted, hgrow, hpos⟩ := hd.changeUserRole hrole
      exact ⟨⟨hin, hcounted, hpos rfl⟩, hgrow⟩
  | removeUser hrole hpos _ =>
      obtain ⟨hin, hcounted, hgrow, -⟩ := hd.changeUserRole hrole
      exact ⟨⟨hin, hcounted, hpos⟩, hgrow⟩
  | changeMinValid => exact ⟨⟨hd.inside, hd.counted, hd.nonempty⟩, .refl _⟩

theorem exec_drifts (hex : exec w act = .ok (ret, w')) (hd : w.toBoard.Drifts d) :
    w'.toBoard.Drifts d ∧ w.userMapper.Grows w'.userMapper := by
  cases exec_board hex with
  | kept _ hb =>
      simp only [] at hb
      rw [hb]
      exact ⟨hd, .refl _⟩
  | govern _ _ _ hg => exact hg.drifts hd

/-- An upgrade starts a new count beside the validators there are. -/
theorem upgrade_drifts (hd : w.toBoard.Drifts d)
    (hup : upgrade w token nftToken minValid validators = .ok w') :
    w'.toBoard.Drifts w.validatorIds.card ∧ w.userMapper.Grows w'.userMapper ∧
      w'.actionMapper = w.actionMapper := by
  obtain ⟨s, hinit, hup⟩ := bind_eq_ok.mp hup
  cases hup
  have hinit' : init { w.toStorage with numValidators := w.validatorIds.card } token nftToken
      minValid validators = .ok s := hinit
  have hspec := init_spec hinit'
  obtain ⟨hne, hadmits⟩ := init_admits hinit
  obtain ⟨m, role, husers, hgrow, -⟩ := @registerAll validators w.userMapper w.userRole hadmits
  obtain ⟨-, m', role', husers', hs⟩ := init_effect hinit
  have hsame := husers.symm.trans husers'
  cases hsame
  have hin : s.RolesInside := by
    rw [hs]
    exact (initCallback_sound hd.inside.recount husers).inside
  have hcount := hspec.counted hd.inside.recount
  refine ⟨⟨hin, ?_, ?_⟩, ?_, hspec.actionMapper⟩
  · show s.validatorIds.card = s.numValidators + w.validatorIds.card
    rw [hcount, hspec.numValidators]
    exact Nat.add_comm _ _
  · show 0 < s.numValidators
    rw [hspec.numValidators]
    exact List.length_pos_iff.mpr hne
  · show w.userMapper.Grows s.userMapper
    rw [hs]
    exact hgrow

/-! ## The entries -/

/-- Nobody is on an entry twice, and everybody on it has an id. -/
structure EntriesInOrder (w : World) : Prop where
  nodup : ∀ id, (w.signersOf id).Nodup
  known : ∀ id, ∀ i ∈ w.signersOf id, ∃ x, w.userMapper.getUserId x = i ∧ i ≠ 0

/-- Entries that are the same, under a table that has grown. -/
theorem EntriesInOrder.grow (he : EntriesInOrder w)
    (hgrow : w.userMapper.Grows w'.userMapper) (hsame : w'.actionMapper = w.actionMapper) :
    EntriesInOrder w' := by
  constructor
  · intro id
    rw [signersOf_congr hsame]
    exact he.nodup id
  · intro id i hi
    rw [signersOf_congr hsame] at hi
    obtain ⟨x, rfl, hne⟩ := he.known id i hi
    exact ⟨x, hgrow x hne, hne⟩

/-- A signature on an entry, of somebody who is not on it. -/
theorem EntriesInOrder.sign (he : EntriesInOrder w) {id : Nat}
    (hreg : w.userMapper.getUserId x ≠ 0)
    (hnew : w.userMapper.getUserId x ∉ w.signersOf id) :
    EntriesInOrder (w.sign id a (w.userMapper.getUserId x)) := by
  constructor
  · intro j
    rw [sign_signersOf]
    split
    · rw [List.nodup_append']
      refine ⟨he.nodup id, List.nodup_singleton _, fun i hi hi' => ?_⟩
      rw [List.mem_singleton.mp hi'] at hi
      exact hnew hi
    · exact he.nodup j
  · intro j i hi
    rw [sign_signersOf] at hi
    split at hi
    · rcases List.mem_append.mp hi with hi | hi
      · exact he.known id i hi
      · rw [List.mem_singleton.mp hi]
        exact ⟨x, rfl, hreg⟩
    · exact he.known j i hi

theorem EntriesInOrder.drop (he : EntriesInOrder w) (id : Nat) :
    EntriesInOrder (w.dropEntry id) := by
  constructor
  · intro j
    rw [dropEntry_signersOf]
    split
    · exact List.nodup_nil
    · exact he.nodup j
  · intro j i hi
    rw [dropEntry_signersOf] at hi
    split at hi
    · exact absurd hi List.not_mem_nil
    · exact he.known j i hi

theorem record_entries (he : EntriesInOrder w) (hd : w.toBoard.Drifts d)
    (hgrow : w.userMapper.Grows (record exec w act).post.userMapper) :
    EntriesInOrder (record exec w act).post := by
  have hpre := record_pre exec w act
  have hreg : ∀ {x}, w.IsValidator x → w.userMapper.getUserId x ≠ 0 :=
    fun hv => hd.inside.recount.id_ne_zero hv
  cases record_signingEffect w act with
  | idle _ _ _ hsame | known _ _ _ _ _ _ _ _ hsame =>
      rw [hpre] at hsame
      exact he.grow hgrow hsame
  | counted caller id a _ _ _ hval hnew _ hpost =>
      rw [hpre] at hval hnew hpost
      exact (he.sign (hreg hval) hnew).grow hgrow hpost
  | exited caller id a _ _ _ _ hcall hpost =>
      rw [hpre] at hcall hpost
      exact (he.sign (hreg hcall.1) hcall.2.1).grow hgrow hpost
  | returned caller id a _ _ _ _ hcall hpost =>
      rw [hpre] at hcall hpost
      exact ((he.sign (hreg hcall.1) hcall.2.1).drop id).grow hgrow hpost

/-! ## Runs -/

/-- What a run with upgrades keeps, and what it says of the count. -/
structure SurvivesUpgrades (h : List MoveRec) (w : World) : Prop where
  drifts : w.toBoard.Drifts (drift h)
  entries : EntriesInOrder w
  ids_kept : ∀ r ∈ h, r.pre.userMapper.Grows w.userMapper
  counted_iff : w.numValidators = w.validatorIds.card ↔ ∀ r ∈ h, upgraded r = false

/-- A successful move, whichever it is. -/
theorem move_drifts {m : Move} (hd : w.toBoard.Drifts (drift h)) (he : EntriesInOrder w)
    (hex : move w m = .ok (ret, w')) :
    w'.toBoard.Drifts (drift (⟨w, m, .ok ret, w'⟩ :: h)) ∧ EntriesInOrder w' ∧
      w.userMapper.Grows w'.userMapper := by
  cases m with
  | act act =>
      have hact : exec w act = .ok (ret, w') := hex
      obtain ⟨hd', hgrow⟩ := exec_drifts hact hd
      have hentries : EntriesInOrder (record exec w act).post :=
        record_entries he hd (by rw [record_ok hact]; exact hgrow)
      rw [record_ok hact] at hentries
      exact ⟨hd', hentries, hgrow⟩
  | upgrade token nftToken minValid validators =>
      obtain ⟨w₁, hup, hex⟩ := bind_eq_ok.mp hex
      cases hex
      obtain ⟨hd', hgrow, hsame⟩ := upgrade_drifts hd hup
      exact ⟨hd', he.grow hgrow hsame, hgrow⟩

theorem start_survives (hinit : deploy l token nftToken minValid validators = .ok w₀) :
    SurvivesUpgrades [] w₀ := by
  have hs := deploy_sound hinit
  have hempty := (init_fields (deploy_init hinit).1).1
  have hnone : ∀ id, w₀.signersOf id = [] :=
    fun id => signersOf_none (by rw [hempty, SafeMapMapper.get_empty])
  have hpast : ∀ {P : MoveRec → Prop}, ∀ r ∈ [], P r :=
    fun r hr => absurd hr List.not_mem_nil
  refine ⟨⟨hs.inside, hs.count.symm, run_nonempty hinit .start⟩, ⟨?_, ?_⟩, hpast,
    iff_of_true hs.count hpast⟩
  · intro id
    rw [hnone]
    exact List.nodup_nil
  · intro id i hi
    rw [hnone] at hi
    exact absurd hi List.not_mem_nil

/-- In every run with upgrades the ids, the roles' place and the entries are kept, and
the count lacks the validators of the last upgrade: it is right exactly as long as
there was none. -/
theorem upgrades_survived (hinit : deploy l token nftToken minValid validators = .ok w₀)
    (hrun : Run move w₀ h w) : SurvivesUpgrades h w := by
  refine hrun.induct (I := SurvivesUpgrades) (start_survives hinit) ?ok ?err
  case ok =>
    intro h w m ret w' _ ih hex
    obtain ⟨hd, he, hgrow⟩ := move_drifts ih.drifts ih.entries hex
    refine ⟨hd, he, ?_, ?_⟩
    · intro r hr
      rcases List.mem_cons.mp hr with rfl | hr
      · exact hgrow
      · exact (ih.ids_kept r hr).trans hgrow
    · have hcounted := hd.counted
      have hbefore := ih.drifts.counted
      have hpos := ih.drifts.nonempty
      rw [List.forall_mem_cons, ← ih.counted_iff]
      cases hup : upgraded ⟨w, m, .ok ret, w'⟩ with
      | true =>
          have hlast : drift (⟨w, m, .ok ret, w'⟩ :: h) = w.validatorIds.card := by
            rw [drift, hup, if_pos rfl]
          rw [hlast] at hcounted
          refine iff_of_false ?_ fun hno => ?_
          · omega
          · cases hno.1
      | false =>
          have hlast : drift (⟨w, m, .ok ret, w'⟩ :: h) = drift h := by
            rw [drift, hup, if_neg Bool.false_ne_true]
          rw [hlast] at hcounted
          simp only [true_and]
          omega
  case err =>
    intro h w m e _ ih hex
    have hno : upgraded ⟨w, m, .error e, w⟩ = false := by cases m <;> rfl
    refine ⟨?_, ih.entries, ?_, ?_⟩
    · rw [drift, hno, if_neg Bool.false_ne_true]
      exact ih.drifts
    · intro r hr
      rcases List.mem_cons.mp hr with rfl | hr
      · exact .refl _
      · exact ih.ids_kept r hr
    · rw [List.forall_mem_cons, ih.counted_iff]
      exact ⟨fun hall => ⟨hno, hall⟩, And.right⟩

/-- A board of three is upgraded with dan. He alone votes alice off the board, and
fails: the count of one would go to none. -/
theorem upgrades_survived_dan :
    let run := play move (freshWorld 2 [alice, bob, charlie])
      [.act (send dan (.proposeRemoveUser 5 alice)), .upgrade xpdt xpnft 1 [dan],
        .act (send alice nftVote)]
    SurvivesUpgrades run.1 run.2 :=
  upgrades_survived deploy_three (run_play _ _ _)

end ElrondMint
