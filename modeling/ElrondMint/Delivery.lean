import ElrondMint.Log

/-!
# Who has read an event

An entry of the log counts its reads and leaves the table when the count
meets the size of the board. The count is of reads, not of readers, and the
size is that of the board at the moment: `read_deletes_iff` puts both in
terms of sets, the distinct readers of an event and the validators.

From it come the two conditions under which the count does what it is for.
On a board that stays as it is, every validator gets every event exactly when
no validator reads an event twice. On a board that changes, where everybody
reads once, an event goes exactly when it should as long as the readers who
have left the board do not outweigh the validators still to read.
-/

namespace ElrondMint

open Rollback

/-- The caller of a successful read of event `k`. -/
def readerOf (k : Nat) (r : Rec) : Option Address :=
  match reads r with
  | some (caller, j, _) => if j = k then some caller else none
  | none => none

/-- The callers of the successful reads of event `k`, latest first. -/
def readers (k : Nat) (h : List Rec) : List Address := h.filterMap (readerOf k)

/-- The records of a history as its reader sees them: while event `k` is
stored its counter is the number of its distinct readers, and only a read
after which every validator has read it takes it out. -/
structure EachGetsIt (k : Nat) (past : List Rec) (r : Rec) : Prop where
  stored : ∀ info, r.post.eventMapper.get k = some info →
    info.readCnt = (readers k (r :: past)).toFinset.card
  deleted : Deletes r k → (readerOf k r).isSome ∧
    ∀ a, r.post.IsValidator a → a ∈ readers k (r :: past)

/-- A read deletes event `k` if and only if every validator has then read
it. -/
def DeletedWhenAllRead (k : Nat) (past : List Rec) (r : Rec) : Prop :=
  (readerOf k r).isSome →
    (r.post.eventMapper.get k = none ↔
      ∀ a, r.post.IsValidator a → a ∈ readers k (r :: past))

/-- The readers of `k`, the caller of a read included, who are off the board. -/
def readersGone (k : Nat) (past : List Rec) (r : Rec) : Finset Address :=
  (readers k (r :: past)).toFinset \ r.pre.validators

/-- The validators still to read `k`. -/
def stillToRead (k : Nat) (past : List Rec) (r : Rec) : Finset Address :=
  r.pre.validators \ (readers k (r :: past)).toFinset

/-- No reader of `k` has left the board, or some validator has still to read
it, and those who have are not as many as those who left. -/
def Balanced (k : Nat) (past : List Rec) (r : Rec) : Prop :=
  (readerOf k r).isSome →
    (readersGone k past r).card = 0 ∨
      (stillToRead k past r).card ≠ 0 ∧
        (stillToRead k past r).card ≠ (readersGone k past r).card

variable {w w' w₀ : World} {l : Ledger} {token nftToken : TokenIdentifier}
  {minValid : Nat} {validators : List Address} {h past : List Rec} {r : Rec}
  {act : Act} {k : Nat}

/-! ## Readers and reads -/

theorem readers_none (hr : readerOf k r = none) :
    readers k (r :: past) = readers k past :=
  List.filterMap_cons_none hr

theorem readers_some {a : Address} (hr : readerOf k r = some a) :
    readers k (r :: past) = a :: readers k past :=
  List.filterMap_cons_some hr

theorem readerOf_eq_some {a : Address} (hr : readerOf k r = some a) :
    ∃ info, reads r = some (a, k, info) := by
  unfold readerOf at hr
  split at hr
  · next caller j info hreads =>
      split at hr
      · next hj =>
          injection hr with hr
          rw [← hr, ← hj]
          exact ⟨info, hreads⟩
      · simp at hr
  · simp at hr

theorem readsEvent_eq_isSome : readsEvent k r = (readerOf k r).isSome := by
  unfold readsEvent readerOf
  split
  · next caller j info hreads =>
      rw [hreads, Option.any_some]
      by_cases hj : j = k <;> simp [hj]
  · next hreads => rw [hreads]; rfl

theorem length_readers (k : Nat) (h : List Rec) :
    (readers k h).length = readCount k h := by
  induction h with
  | nil => rfl
  | cons r past ih =>
      rw [readCount_cons, readsEvent_eq_isSome, ← ih]
      cases hr : readerOf k r with
      | none => rw [readers_none hr]; rfl
      | some a => rw [readers_some hr]; rfl

/-! ## One read, in terms of sets -/

theorem readerOf_effect {a : Address} (heff : LogEffect r) (hr : readerOf k r = some a) :
    r.pre.IsValidator a ∧ r.post.toBoard = r.pre.toBoard ∧
      ∃ info, r.pre.eventMapper.get k = some info ∧
        r.post.eventMapper.get k =
          if usizeInc info.readCnt = r.pre.numValidators then none
          else some info.bump := by
  obtain ⟨info, hreads⟩ := readerOf_eq_some hr
  cases heff with
  | quiet _ _ hno => rw [hno] at hreads; cases hreads
  | insert _ _ _ hno => rw [hno] at hreads; cases hreads
  | read caller j old hval hold hread _ hboard _ hget =>
      rw [hread] at hreads
      cases hreads
      refine ⟨hval, hboard, old, hold, ?_⟩
      rw [hget, if_pos rfl]

/-- Only reads take an event out. -/
theorem deletes_isSome (heff : LogEffect r) (hdel : Deletes r k) :
    (readerOf k r).isSome := by
  obtain ⟨hsome, hnone⟩ := hdel
  cases heff with
  | quiet hlog =>
      rw [congrArg EventLog.eventMapper hlog] at hnone
      rw [hnone] at hsome
      simp at hsome
  | insert event hident hins hreads hnext hget =>
      rw [hget] at hnone
      split at hnone
      · simp at hnone
      · rw [hnone] at hsome
        simp at hsome
  | read caller j info hval hold hreads hident hboard hsame hget =>
      rw [hget] at hnone
      split at hnone
      · next hk =>
          rw [readerOf, hreads, hk]
          simp
      · rw [hnone] at hsome
        simp at hsome

/-- Who reads is registered, and stays so. -/
theorem run_readers_registered
    (hinit : deploy l token nftToken minValid validators = .ok w₀)
    (hrun : Run exec w₀ h w) :
    ∀ a ∈ readers k h, w.userMapper.getUserId a ≠ 0 := by
  refine hrun.induct (I := fun h w => ∀ a ∈ readers k h, w.userMapper.getUserId a ≠ 0)
    ?start ?ok ?err
  case start => exact fun a ha => absurd ha List.not_mem_nil
  case ok =>
    intro h w act ret w' hrun ih hex a ha
    have hs := run_sound hinit hrun
    have hgrow := (exec_sound hex hs).2
    have hold : w.userMapper.getUserId a ≠ 0 := by
      cases hr : readerOf k ⟨w, act, .ok ret, w'⟩ with
      | none =>
          rw [readers_none hr] at ha
          exact ih a ha
      | some c =>
          rw [readers_some hr] at ha
          rcases List.mem_cons.mp ha with rfl | ha
          · exact hs.id_ne_zero (readerOf_effect (exec_logEffect hex) hr).1
          · exact ih a ha
    rw [hgrow a hold]
    exact hold
  case err =>
    intro h w act e hrun ih hex a ha
    rw [readers_none (by rw [readerOf, reads_error])] at ha
    exact ih a ha

theorem UserMapper.card_registered {m : UserMapper} {S : Finset Address}
    (hS : ∀ a ∈ S, m.getUserId a ≠ 0) : S.card ≤ m.userCount := by
  have hcard : S.card ≤ (Finset.Icc 1 m.userCount).card := by
    refine Finset.card_le_card_of_injOn m.getUserId (fun a ha => ?_) ?_
    · have hid := hS a ha
      have hle := m.getUserId_le a
      rw [Finset.mem_coe, Finset.mem_Icc]
      omega
    · intro a ha b _ hab
      exact m.getUserId_inj (hS a ha) hab
  rw [Nat.card_Icc] at hcard
  omega

/-- Readers without repetition are as many as the counter says. -/
theorem run_card_readers
    (hinit : deploy l token nftToken minValid validators = .ok w₀)
    (hrun : Run exec w₀ h w) (hnodup : (readers k h).Nodup) :
    (readers k h).toFinset.card = readCount k h % usizeBound := by
  have hcard := List.toFinset_card_of_nodup hnodup
  have hle := UserMapper.card_registered (m := w.userMapper)
    (S := (readers k h).toFinset)
    fun a ha => run_readers_registered hinit hrun a (List.mem_toFinset.mp ha)
  have hlt := w.userMapper.count_lt
  rw [← length_readers, ← hcard, Nat.mod_eq_of_lt (by omega)]

/-- A read takes the event out when its counter, taken with the read itself,
meets the size of the board. -/
theorem read_deletes_iff_count
    (hinit : deploy l token nftToken minValid validators = .ok w₀)
    (hrun : Run exec w₀ h w) (hr : (readerOf k (record exec w act)).isSome) :
    (record exec w act).post.eventMapper.get k = none ↔
      readCount k (record exec w act :: h) % usizeBound = w.numValidators := by
  obtain ⟨a, ha⟩ := Option.isSome_iff_exists.mp hr
  obtain ⟨-, -, info, hget, hpost⟩ := readerOf_effect (record_logEffect w act) ha
  rw [record_pre] at hget hpost
  have hcnt := ((run_logInvariant hinit hrun).stored k info hget).2.2
  rw [readCount_cons, readsEvent_eq_isSome, if_pos hr, hpost, hcnt, usizeInc,
    Nat.mod_add_mod]
  split
  · next heq => simp [heq]
  · next hne => simp [hne]

/-- Where nobody reads an event twice, a read takes it out when its readers
are as many as the validators. -/
theorem read_deletes_iff
    (hinit : deploy l token nftToken minValid validators = .ok w₀)
    (hrun : Run exec w₀ h w) (hr : (readerOf k (record exec w act)).isSome)
    (hnodup : (readers k (record exec w act :: h)).Nodup) :
    (record exec w act).post.eventMapper.get k = none ↔
      (readers k (record exec w act :: h)).toFinset.card =
        w.toBoard.validators.card := by
  rw [read_deletes_iff_count hinit hrun hr, (run_sound hinit hrun).card_validators,
    run_card_readers hinit (.step act hrun) hnodup]

/-! ## A board that stays -/

/-- On a board that stays as it is, all readers are on it. -/
theorem run_readers_validators (hrun : Run exec w₀ h w) (hsame : SameValidators h) :
    ∀ a ∈ readers k h, w.IsValidator a := by
  induction hrun with
  | start => exact fun a ha => absurd ha List.not_mem_nil
  | @step h w act hrun ih =>
      intro a ha
      have hr := hsame _ List.mem_cons_self a
      rw [record_pre] at hr
      rw [← hr]
      have ih := ih (fun r hr => hsame r (List.mem_cons_of_mem _ hr)) a
      cases hread : readerOf k (record exec w act) with
      | none =>
          rw [readers_none hread] at ha
          exact ih ha
      | some c =>
          rw [readers_some hread] at ha
          rcases List.mem_cons.mp ha with rfl | ha
          · have heff := readerOf_effect (record_logEffect w act) hread
            rw [record_pre] at heff
            exact heff.1
          · exact ih ha

/-- Without repetitions the count is one of readers. -/
theorem eachGetsIt_of_nodup
    (hinit : deploy l token nftToken minValid validators = .ok w₀)
    (hrun : Run exec w₀ h w) (hsame : SameValidators (record exec w act :: h))
    (hnodup : (readers k (record exec w act :: h)).Nodup) :
    EachGetsIt k h (record exec w act) := by
  have hstep : Run exec w₀ (record exec w act :: h) (record exec w act).post :=
    .step act hrun
  constructor
  case stored =>
    intro info hget
    rw [run_card_readers hinit hstep hnodup]
    exact ((run_logInvariant hinit hstep).stored k info hget).2.2
  case deleted =>
    intro hdel
    have hr := deletes_isSome (record_logEffect w act) hdel
    refine ⟨hr, fun a ha => ?_⟩
    have hs := run_sound hinit hrun
    have hcard := (read_deletes_iff hinit hrun hr hnodup).mp hdel.2
    have hpre := hsame _ List.mem_cons_self
    rw [record_pre] at hpre
    have hsub : (readers k (record exec w act :: h)).toFinset ⊆ w.toBoard.validators := by
      intro c hc
      rw [hs.mem_validators, hpre]
      exact run_readers_validators hstep hsame c (List.mem_toFinset.mp hc)
    have hall := Finset.eq_of_subset_of_card_le hsub hcard.ge
    rw [← List.mem_toFinset, hall, hs.mem_validators, hpre]
    exact ha

/-- A repeated read makes the count wrong, for the next reader or for good. -/
theorem notMem_of_eachGetsIt
    (hinit : deploy l token nftToken minValid validators = .ok w₀)
    (hrun : Run exec w₀ h w) (hsame : SameValidators (record exec w act :: h))
    (hnodup : (readers k h).Nodup) {a : Address}
    (hr : readerOf k (record exec w act) = some a)
    (heach : EachGetsIt k h (record exec w act)) : a ∉ readers k h := by
  intro ha
  have hstep : Run exec w₀ (record exec w act :: h) (record exec w act).post :=
    .step act hrun
  have hisSome : (readerOf k (record exec w act)).isSome := by rw [hr]; rfl
  have hset : (readers k (record exec w act :: h)).toFinset = (readers k h).toFinset := by
    rw [readers_some hr, List.toFinset_cons,
      Finset.insert_eq_of_mem (List.mem_toFinset.mpr ha)]
  have hcard := run_card_readers hinit hrun hnodup
  -- the count moves by one, modulo the bound, while the set stands still
  have hmove : readCount k (record exec w act :: h) % usizeBound ≠
      (readers k h).toFinset.card := by
    rw [readCount_cons, readsEvent_eq_isSome, if_pos hisSome, hcard]
    unfold usizeBound
    omega
  cases hget : (record exec w act).post.eventMapper.get k with
  | some info =>
      have hcnt := heach.stored info hget
      rw [((run_logInvariant hinit hstep).stored k info hget).2.2, hset] at hcnt
      exact hmove hcnt
  | none =>
      have hs := run_sound hinit hrun
      obtain ⟨-, -, info, hold, -⟩ := readerOf_effect (record_logEffect w act) hr
      have hdel : Deletes (record exec w act) k := ⟨by rw [hold]; rfl, hget⟩
      have hall := (heach.deleted hdel).2
      have hpre := hsame _ List.mem_cons_self
      rw [record_pre] at hpre
      have hvals : (readers k h).toFinset = w.toBoard.validators := by
        ext c
        rw [← hset, List.mem_toFinset, hs.mem_validators, hpre]
        exact ⟨run_readers_validators hstep hsame c, hall c⟩
      rw [hvals, hs.card_validators] at hmove
      exact hmove ((read_deletes_iff_count hinit hrun hisSome).mp hget)

/-- Every validator of a board that stays gets every event, and the counter
counts its readers, exactly when no validator reads it twice. -/
theorem every_validator_gets_every_event
    (hinit : deploy l token nftToken minValid validators = .ok w₀)
    (hrun : Run exec w₀ h w) (hsame : SameValidators h) (k : Nat) :
    Along (EachGetsIt k) h ↔ (readers k h).Nodup := by
  induction hrun with
  | start => simp [readers]
  | @step h w act hrun ih =>
      have ih := ih fun r hr => hsame r (List.mem_cons_of_mem _ hr)
      rw [along_cons, ih]
      refine ⟨?_, ?_⟩
      · intro h
        obtain ⟨heach, hnodup⟩ := h
        cases hr : readerOf k (record exec w act) with
        | none =>
            rw [readers_none hr]
            exact hnodup
        | some a =>
            rw [readers_some hr, List.nodup_cons]
            exact ⟨notMem_of_eachGetsIt hinit hrun hsame hnodup hr heach, hnodup⟩
      · intro hnodup
        refine ⟨eachGetsIt_of_nodup hinit hrun hsame hnodup, ?_⟩
        cases hr : readerOf k (record exec w act) with
        | none =>
            rw [readers_none hr] at hnodup
            exact hnodup
        | some a =>
            rw [readers_some hr, List.nodup_cons] at hnodup
            exact hnodup.2

/-- Dan freezes 5 for the other chain. -/
def danFreezes : Act := .tx ⟨dan, .egld 5, true, .freezeSend 2 ""⟩

/-- Each of three validators reads the event once. -/
theorem every_validator_gets_every_event_three :
    Along (EachGetsIt 1) (play exec (freshWorld 2 [alice, bob, charlie])
      [send charlie (.eventRead 1), send bob (.eventRead 1),
        send alice (.eventRead 1), danFreezes]).1 ↔
    (readers 1 (play exec (freshWorld 2 [alice, bob, charlie])
      [send charlie (.eventRead 1), send bob (.eventRead 1),
        send alice (.eventRead 1), danFreezes]).1).Nodup :=
  every_validator_gets_every_event deploy_three (run_play _ _ _)
    (run_sameValidators (run_play _ _ _) (by decide +kernel)) 1

/-- Alice reads the event three times: it is gone before bob has read it. -/
theorem repeated_reads_lose_an_event :
    let run := play exec (freshWorld 2 [alice, bob, charlie])
      [send alice (.eventRead 1), send alice (.eventRead 1),
        send alice (.eventRead 1), danFreezes]
    (deploy .fresh xpdt xpnft 2 [alice, bob, charlie]).isOk = true ∧
      SameValidators run.1 ∧ ¬ Along (EachGetsIt 1) run.1 := by
  intro run
  refine ⟨three_isOk,
    run_sameValidators (run_play _ _ _) (by decide +kernel), fun h => ?_⟩
  have hdel : Deletes (run.1.head (by decide +kernel)) 1 := by decide +kernel
  have hbob := (h.1.deleted hdel).2 bob (by decide +kernel)
  exact absurd hbob (by decide +kernel)

/-! ## A board that changes -/

/-- Two finite sets have as many elements as each other when what each has
over the other does. -/
theorem card_eq_iff_card_sdiff {S T : Finset Address} :
    S.card = T.card ↔ (T \ S).card = (S \ T).card := by
  have hS := Finset.card_sdiff_add_card_inter S T
  have hT := Finset.card_sdiff_add_card_inter T S
  rw [Finset.inter_comm] at hT
  omega

theorem deletedWhenAllRead_iff
    (hinit : deploy l token nftToken minValid validators = .ok w₀)
    (hrun : Run exec w₀ h w) (hnodup : (readers k (record exec w act :: h)).Nodup) :
    DeletedWhenAllRead k h (record exec w act) ↔ Balanced k h (record exec w act) := by
  unfold DeletedWhenAllRead Balanced readersGone stillToRead
  refine imp_congr_right fun hr => ?_
  obtain ⟨a, ha⟩ := Option.isSome_iff_exists.mp hr
  have hboard := (readerOf_effect (record_logEffect w act) ha).2.1
  rw [record_pre] at hboard
  have hs := run_sound hinit hrun
  have hall : (∀ a, w.IsValidator a → a ∈ readers k (record exec w act :: h)) ↔
      (w.toBoard.validators \ (readers k (record exec w act :: h)).toFinset).card = 0 := by
    rw [Finset.card_eq_zero, Finset.sdiff_eq_empty_iff_subset]
    simp only [Finset.subset_iff, hs.mem_validators, List.mem_toFinset]
  rw [record_pre, read_deletes_iff hinit hrun hr hnodup, card_eq_iff_card_sdiff, hboard,
    hall]
  omega

/-- Where everybody reads once and the board changes at any point, an event
goes with the read that leaves no validator without it, and only then,
exactly when every read is balanced. -/
theorem delivery_under_board_changes
    (hinit : deploy l token nftToken minValid validators = .ok w₀)
    (hrun : Run exec w₀ h w) (k : Nat) (hnodup : (readers k h).Nodup) :
    Along (DeletedWhenAllRead k) h ↔ Along (Balanced k) h := by
  induction hrun with
  | start => exact Iff.rfl
  | @step h w act hrun ih =>
      have hpast : (readers k h).Nodup :=
        hnodup.sublist (List.Sublist.filterMap _ (List.sublist_cons_self _ _))
      rw [along_cons, along_cons, ih hpast, deletedWhenAllRead_iff hinit hrun hnodup]

/-- Charlie leaves the board without having read the event, which goes with
bob's read. -/
theorem delivery_without_charlie :
    Along (DeletedWhenAllRead 1) (play exec (freshWorld 2 [alice, bob, charlie])
      [send bob (.eventRead 1), send bob (.proposeRemoveUser 0 charlie),
        send alice (.proposeRemoveUser 0 charlie), send alice (.eventRead 1),
        danFreezes]).1 ↔
    Along (Balanced 1) (play exec (freshWorld 2 [alice, bob, charlie])
      [send bob (.eventRead 1), send bob (.proposeRemoveUser 0 charlie),
        send alice (.proposeRemoveUser 0 charlie), send alice (.eventRead 1),
        danFreezes]).1 :=
  delivery_under_board_changes deploy_three (run_play _ _ _) 1
    (by decide +kernel)

/-- Alice reads the event and is voted off the board: bob's read is the
second of a board of two, and charlie never gets the event. -/
theorem removed_reader_loses_an_event :
    let run := play exec (freshWorld 2 [alice, bob, charlie])
      [send bob (.eventRead 1), send charlie (.proposeRemoveUser 0 alice),
        send bob (.proposeRemoveUser 0 alice), send alice (.eventRead 1),
        danFreezes]
    (deploy .fresh xpdt xpnft 2 [alice, bob, charlie]).isOk = true ∧
      (readers 1 run.1).Nodup ∧ ¬ Along (DeletedWhenAllRead 1) run.1 := by
  intro run
  refine ⟨three_isOk, by decide +kernel, fun h => ?_⟩
  have hgone := (h.1 (by decide +kernel)).mp (by decide +kernel) charlie
    (by decide +kernel)
  exact absurd hgone (by decide +kernel)

/-- No prefix of the readers repeats one either. -/
theorem nodup_readers_along (hnodup : (readers k h).Nodup) :
    Along (fun past r => (readers k (r :: past)).Nodup) h := by
  induction h with
  | nil => trivial
  | cons r past ih =>
      exact ⟨hnodup,
        ih (hnodup.sublist (List.Sublist.filterMap _ (List.sublist_cons_self _ _)))⟩

/-- So where the reads are balanced, the removal of a validator who has read an
event neither lets a later read take it out before the validators left have
read it, nor lets one leave it in when they have. -/
theorem delivery_after_removal
    (hinit : deploy l token nftToken minValid validators = .ok w₀)
    (hrun : Run exec w₀ h w) (hnodup : (readers k h).Nodup) (hbal : Along (Balanced k) h) :
    Along (fun past r => ∀ x ∈ readers k past,
      (∃ r' ∈ past, ∃ i, performed r' = some (i, .removeUser x)) → (readerOf k r).isSome →
        ((∃ a, r.post.IsValidator a ∧ a ∉ readers k (r :: past)) →
          (r.post.eventMapper.get k).isSome) ∧
        ((∀ a, r.post.IsValidator a → a ∈ readers k (r :: past)) →
          r.post.eventMapper.get k = none)) h := by
  have hboth : Along (fun past r => Balanced k past r ∧ (readers k (r :: past)).Nodup) h := by
    have honce := nodup_readers_along hnodup
    clear hrun hnodup
    induction h with
    | nil => trivial
    | cons r past ih => exact ⟨⟨hbal.1, honce.1⟩, ih hbal.2 honce.2⟩
  refine hrun.along_of (fun past w act hrun _ _ hcond x _ _ hread => ?_) hboth
  have hdel := (deletedWhenAllRead_iff hinit hrun hcond.2).mpr hcond.1 hread
  refine ⟨fun hleft => ?_, hdel.mpr⟩
  obtain ⟨a, hval, hno⟩ := hleft
  by_contra hgone
  rw [Option.not_isSome_iff_eq_none] at hgone
  exact hno (hdel.mp hgone a hval)

end ElrondMint
