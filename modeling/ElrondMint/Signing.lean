import ElrondMint.Rounds

/-!
# What a quorum stands for

The action a later signer sends is never compared with the one its entry
stores, a signer who leaves the board stays in the entries, and so do the
signatures an asynchronous transfer has used up.

Two properties of the quorum follow, each under the condition that makes it
true. A quorum agrees on what it performs if the signers of an entry send one
action and no signature completes a quorum on top of signatures already
spent. It consists of validators, none of whom has been off the board since
signing, if nobody is removed from the board while an entry holds a signature
of theirs.
-/

namespace ElrondMint

open Rollback

variable {w w' w₀ : World} {l : Ledger} {token nftToken : TokenIdentifier}
  {minValid : Nat} {validators : List Address} {h past : List Rec} {r : Rec}
  {act : Act} {ret : Ret} {id : Nat} {caller : Address} {a : Action}

/-! ## What a quorum agrees on -/

/-- A call of `validate_action` that calls `perform_action`. -/
def Performs (r : Rec) (caller : Address) (id : Nat) (a : Action) : Prop :=
  r.act.validates = some (caller, id, a) ∧ r.pre.CallsPerformAction caller id

instance (r : Rec) (caller : Address) (id : Nat) (a : Action) :
    Decidable (Performs r caller id a) :=
  inferInstanceAs (Decidable (_ ∧ _))

/-- Whatever is performed is performed by such a call. -/
theorem performs_of_performed (hperf : performed (record exec w act) = some (id, a)) :
    ∃ caller, signed (record exec w act) = some (caller, id, a) ∧
      Performs (record exec w act) caller id a := by
  obtain ⟨caller, hsigned, hcall⟩ := (record_signingEffect w act).of_performed hperf
  exact ⟨caller, hsigned, record_validates hsigned, hcall⟩

/-- When an action is about to be performed, as many addresses as the quorum
asks for have called with that uuid and that action since the uuid was last
performed, each a validator at the time, and the entry stores that action. -/
structure QuorumAgreed (past : List Rec) (r : Rec) : Prop where
  quorum : ∀ caller id a, Performs r caller id a →
    ∃ S : Finset Address, r.pre.minValid ≤ S.card ∧ ∀ x ∈ S,
      (x = caller ∧ r.pre.IsValidator x) ∨
        ∃ r' ∈ since id past, signed r' = some (x, id, a) ∧ r'.pre.IsValidator x
  stored : ∀ caller id a, Performs r caller id a →
    ∀ info, r.pre.actionMapper.get id = some info → info.action = a

/-- A validator who adds a signature to an entry sends the action stored
there, and does not complete a quorum on top of signatures that an
asynchronous transfer has left behind. -/
def OneAction (past : List Rec) (r : Rec) : Prop :=
  ∀ caller id a, r.act.validates = some (caller, id, a) →
    r.pre.IsValidator caller →
    r.pre.userMapper.getUserId caller ∉ r.pre.signersOf id →
    (∀ info, r.pre.actionMapper.get id = some info → info.action = a) ∧
      (Spent id past → (r.pre.signersOf id).length + 1 ≠ r.pre.minValid)

instance decidableForallCall (o : Option (Address × Nat × Action))
    (p : Address → Nat → Action → Prop) [∀ x id a, Decidable (p x id a)] :
    Decidable (∀ x id a, o = some (x, id, a) → p x id a) :=
  decidable_of_iff (∀ s, o = some s → p s.1 s.2.1 s.2.2)
    ⟨fun h x id a => h (x, id, a), fun h s => h s.1 s.2.1 s.2.2⟩

instance (past : List Rec) (r : Rec) : Decidable (OneAction past r) :=
  inferInstanceAs (Decidable (∀ caller id a, r.act.validates = some (caller, id, a) →
    r.pre.IsValidator caller →
    r.pre.userMapper.getUserId caller ∉ r.pre.signersOf id →
    (∀ info, r.pre.actionMapper.get id = some info → info.action = a) ∧
      (Spent id past → (r.pre.signersOf id).length + 1 ≠ r.pre.minValid)))

/-- Under the condition all signatures of a round are for one action. -/
theorem run_round_action
    (hinit : deploy l token nftToken minValid validators = .ok w₀)
    (hrun : Run exec w₀ h w) (hone : Along OneAction h) {s t : Address × Action}
    (hs : s ∈ round id h) (ht : (round id h).head? = some t) : s.2 = t.2 := by
  induction hrun with
  | start => cases hs
  | @step h w act hrun ih =>
      have hi := run_round hinit hrun
      have hsound := run_sound hinit hrun
      rcases round_cons id (record exec w act) h with hr | ⟨-, hr | ⟨u, hsig, hnew, hr⟩⟩
      · rw [hr] at hs
        simp at hs
      · rw [hr] at hs ht
        exact ih hone.2 hs ht
      · rw [hr] at hs ht
        rw [List.mem_append, List.mem_singleton] at hs
        rcases List.eq_nil_or_concat (round id h) with hnil | ⟨_, v, hcons⟩
        · rw [hnil] at hs ht
          cases ht
          rcases hs with hs | rfl
          · simp at hs
          · rfl
        · have hv : v ∈ round id h := by
            rw [hcons]
            simp
          obtain ⟨t', info, hhead, hget, hact⟩ := hi.entry hv
          have heq : t' = t := by
            rw [List.head?_append, hhead] at ht
            exact Option.some.inj ht
          subst heq
          rcases hs with hs | rfl
          · exact ih hone.2 hs hhead
          · -- the new signature is for the action stored
            have hsigned := signatureOn_some hsig
            have hval := (record_signingEffect w act).isValidator hsigned
            have hcond := hone.1 _ _ _ (record_validates hsigned) hval
            rw [record_pre] at hval hcond
            rw [hi.mem_signersOf (hsound.id_ne_zero hval)] at hcond
            rw [hact, (hcond hnew).1 info hget]

/-- The signers of a round and a new one are as many addresses as ids. -/
theorem card_round_insert (hnew : caller ∉ (round id h).map Prod.fst) :
    (insert caller ((round id h).map Prod.fst).toFinset).card =
      (round id h).length + 1 := by
  rw [Finset.card_insert_of_notMem (by rwa [List.mem_toFinset]),
    List.toFinset_card_of_nodup (nodup_round id h), List.length_map]

theorem quorumAgreed_record
    (hinit : deploy l token nftToken minValid validators = .ok w₀)
    (hrun : Run exec w₀ h w) (hone : Along OneAction h)
    (hcond : OneAction h (record exec w act)) : QuorumAgreed h (record exec w act) := by
  have hi := run_round hinit hrun
  have hsound := run_sound hinit hrun
  constructor
  case stored =>
    intro caller id a hperf
    obtain ⟨hval, hcall⟩ := hperf
    exact (hcond caller id a hval hcall.1 hcall.2.1).1
  case quorum =>
    intro caller id a hperf
    obtain ⟨hval, hcall⟩ := hperf
    obtain ⟨hstored, hspent⟩ := hcond caller id a hval hcall.1 hcall.2.1
    rw [record_pre] at hcall hstored hspent ⊢
    have hnew : caller ∉ (round id h).map Prod.fst := by
      rw [← hi.mem_signersOf (hsound.id_ne_zero hcall.1)]
      exact hcall.2.1
    refine ⟨insert caller ((round id h).map Prod.fst).toFinset, ?_, fun x hx => ?_⟩
    · rw [card_round_insert hnew, ← hi.length_signersOf, hcall.2.2]
    · rw [Finset.mem_insert, List.mem_toFinset, List.mem_map] at hx
      rcases hx with rfl | ⟨s, hs, rfl⟩
      · exact .inl ⟨rfl, hcall.1⟩
      · obtain ⟨r', hr', hsig⟩ :=
          mem_round_since (fun hsp => hspent hsp hcall.2.2) hs
        have hsigned := signatureOn_some hsig
        have hact : s.2 = a := by
          obtain ⟨t, info, hhead, hget, hact⟩ := hi.entry hs
          rw [run_round_action hinit hrun hone hs hhead, hact, hstored info hget]
        have hmem : r' ∈ h := (List.takeWhile_sublist _).subset hr'
        refine .inr ⟨r', hr', hact ▸ hsigned, ?_⟩
        exact run_signed_isValidator hrun r' hmem _ hsigned

/-- In every run whose signers send the action their entry stores, and never
complete a quorum on spent signatures, a quorum agrees on what it performs. -/
theorem quorum_agreement
    (hinit : deploy l token nftToken minValid validators = .ok w₀)
    (hrun : Run exec w₀ h w) (hone : Along OneAction h) : Along QuorumAgreed h :=
  hrun.along_of (fun _ _ _ hrun hone _ hcond => quorumAgreed_record hinit hrun hone hcond) hone

/-- Charlie and bob vote alice off a board of three. -/
theorem quorum_agreement_three :
    Along QuorumAgreed (play exec (freshWorld 2 [alice, bob, charlie])
      [send bob (.proposeRemoveUser 0 alice),
        send charlie (.proposeRemoveUser 0 alice)]).1 :=
  quorum_agreement deploy_three (run_play _ _ _)
    (by decide +kernel)

/-- So every action that has been performed had its quorum: that many calls
for the very action, under its uuid and since the uuid was last performed. -/
theorem performed_by_quorum
    (hinit : deploy l token nftToken minValid validators = .ok w₀)
    (hrun : Run exec w₀ h w) (hone : Along OneAction h) :
    Along (fun past r => ∀ id a, performed r = some (id, a) →
      (∀ info, r.pre.actionMapper.get id = some info → info.action = a) ∧
        ∃ caller, signed r = some (caller, id, a) ∧
          ∃ S : Finset Address, r.pre.minValid ≤ S.card ∧ ∀ x ∈ S,
            (x = caller ∧ r.pre.IsValidator x) ∨ ∃ r' ∈ since id past,
              signed r' = some (x, id, a) ∧ r'.pre.IsValidator x) h := by
  refine hrun.along_of (fun past w act hrun hone _ hcond id a hperf => ?_) hone
  obtain ⟨caller, hsigned, hcall⟩ := performs_of_performed hperf
  have hagreed := quorumAgreed_record hinit hrun hone hcond
  exact ⟨hagreed.stored caller id a hcall, caller, hsigned,
    hagreed.quorum caller id a hcall⟩

/-- Bob answers alice's proposal of dan with the removal of charlie, under the
same uuid: charlie goes, and only bob has asked for it. -/
theorem two_actions_under_one_uuid :
    let run := play exec (freshWorld 2 [alice, bob, charlie])
      [send bob (.proposeRemoveUser 1 charlie),
        send alice (.proposeAddValidator 1 dan)]
    (deploy .fresh xpdt xpnft 2 [alice, bob, charlie]).isOk = true ∧
      performed (run.1.head (by decide +kernel)) = some (1, .removeUser charlie) ∧
      ¬ Along QuorumAgreed run.1 := by
  intro run
  refine ⟨three_isOk, by decide +kernel, fun h => ?_⟩
  obtain ⟨S, hcard, hS⟩ := h.1.quorum bob 1 (.removeUser charlie) (by decide +kernel)
  have hbob : S ⊆ {bob} := by
    intro x hx
    rw [Finset.mem_singleton]
    rcases hS x hx with ⟨hx, -⟩ | ⟨r', hr', hsigned, -⟩
    · exact hx
    · have hnone : ∀ r' ∈ since 1 run.1.tail,
          (signed r').map Prod.snd ≠ some (1, .removeUser charlie) := by
        decide +kernel
      exact absurd (congrArg (Option.map Prod.snd) hsigned) (hnone r' hr')
  have htwo : 2 ≤ S.card := hcard
  have hone := Finset.card_le_card hbob
  rw [Finset.card_singleton] at hone
  omega

/-! ## Who the signers are when the quorum is reached -/

/-- Of the executed `AddValidator` and `RemoveUser` actions on an address, the
last one removed it. -/
def votedOff (x : Address) : List Rec → Bool
  | [] => false
  | r :: past =>
      match performed r with
      | some (_, .addValidator y) => if y = x then false else votedOff x past
      | some (_, .removeUser y) => if y = x then true else votedOff x past
      | _ => votedOff x past

/-- When an action is about to be performed, at least as many signers in its
entry, the new one included, as the quorum asks for are validators. -/
def ValidatorsCounted (_past : List Rec) (r : Rec) : Prop :=
  ∀ caller id a, Performs r caller id a →
    r.pre.minValid ≤
      (r.pre.signedInfo id a (r.pre.userMapper.getUserId caller)).signers.countP
        fun i => decide (r.pre.userRole i = .validator)

/-- When an action is about to be performed, no address that has signed its
entry has been voted off the board. -/
def NoneVotedOff (past : List Rec) (r : Rec) : Prop :=
  ∀ caller id a, Performs r caller id a →
    ∀ x, r.pre.userMapper.getUserId x ∈ r.pre.signersOf id → votedOff x past = false

theorem votedOff_kept {x : Address}
    (hperf : ∀ id a, performed r = some (id, a) →
      a ≠ .addValidator x ∧ a ≠ .removeUser x) :
    votedOff x (r :: past) = votedOff x past := by
  rw [votedOff]
  split
  · next i y hr => rw [if_neg (by rintro rfl; exact (hperf i _ hr).1 rfl)]
  · next i y hr => rw [if_neg (by rintro rfl; exact (hperf i _ hr).2 rfl)]
  · rfl

/-- One record moves an address on or off the board together with what
`votedOff` says of it, or neither. -/
theorem BoardEffect.votedOff_cases (heff : BoardEffect r) (hs : r.pre.toBoard.Sound)
    (x : Address) (past : List Rec) :
    (votedOff x (r :: past) = votedOff x past ∧
        (r.post.IsValidator x ↔ r.pre.IsValidator x)) ∨
      (votedOff x (r :: past) = false ∧ r.post.IsValidator x) ∨
      (votedOff x (r :: past) = true ∧ ¬ r.post.IsValidator x) := by
  cases heff with
  | kept hperf hboard =>
      refine .inl ⟨votedOff_kept fun id a hr => ?_, by rw [hboard]⟩
      have hgov := hperf _ hr
      constructor <;> (rintro rfl; cases hgov)
  | govern id a hperf hgov =>
      have hval := hgov.isValidator hs x
      by_cases hadd : a = .addValidator x
      · subst hadd
        refine .inr (.inl ⟨?_, hval.mpr (.inl rfl)⟩)
        rw [votedOff, hperf]
        exact if_pos rfl
      · by_cases hrem : a = .removeUser x
        · subst hrem
          refine .inr (.inr ⟨?_, fun hv => (hval.mp hv).1 rfl⟩)
          rw [votedOff, hperf]
          exact if_pos rfl
        · refine .inl ⟨votedOff_kept fun i b hr => ?_, ?_⟩
          · rw [hperf] at hr
            cases hr
            exact ⟨hadd, hrem⟩
          · cases a with
            | addValidator y =>
                have hne : x ≠ y := by rintro rfl; exact hadd rfl
                simpa [hne] using hval
            | removeUser y =>
                have hne : x ≠ y := by rintro rfl; exact hrem rfl
                simpa [hne] using hval
            | nothing | changeMinValid | sendWrapped | sendNft | unfreeze
            | unfreezeNft => exact hval

/-- The board, for an address that has been on it, is what the executed
membership actions say. -/
theorem run_votedOff (hinit : deploy l token nftToken minValid validators = .ok w₀)
    (hrun : Run exec w₀ h w) (x : Address) :
    (votedOff x h = true → ¬ w.IsValidator x) ∧
      ((∃ r ∈ h, r.pre.IsValidator x) → votedOff x h = false → w.IsValidator x) := by
  induction hrun with
  | start => exact ⟨nofun, fun ⟨r, hr, _⟩ => absurd hr List.not_mem_nil⟩
  | @step h w act hrun ih =>
      have hs := run_sound hinit hrun
      rw [← record_pre exec w act] at hs ih
      rcases (record_board w act).votedOff_cases hs x h with ⟨hoff, hval⟩ | ⟨hoff, hval⟩ |
          ⟨hoff, hval⟩
      · rw [hoff, hval]
        refine ⟨ih.1, ?_⟩
        rintro ⟨r, hr, hv⟩ hno
        rcases List.mem_cons.mp hr with rfl | hr
        · exact hv
        · exact ih.2 ⟨r, hr, hv⟩ hno
      · rw [hoff]
        exact ⟨nofun, fun _ _ => hval⟩
      · rw [hoff]
        exact ⟨fun _ => hval, fun _ => nofun⟩

theorem validatorsCounted_iff
    (hinit : deploy l token nftToken minValid validators = .ok w₀)
    (hrun : Run exec w₀ h w) :
    ValidatorsCounted h (record exec w act) ↔ NoneVotedOff h (record exec w act) := by
  have hi := run_round hinit hrun
  unfold ValidatorsCounted NoneVotedOff
  refine forall₃_congr fun caller id a => imp_congr_right fun hperf => ?_
  have hcall := hperf.2
  rw [record_pre] at hcall ⊢
  -- the quorum is the whole list, so the count asks for all of it
  have hlen : w.minValid =
      (w.signersOf id ++ [w.userMapper.getUserId caller]).length := by
    rw [List.length_append, ← hcall.2.2]
    rfl
  have hall : w.minValid ≤ (w.signersOf id ++ [w.userMapper.getUserId caller]).countP
        (fun i => decide (w.userRole i = .validator)) ↔
      ∀ i ∈ w.signersOf id, w.userRole i = .validator := by
    have hown : w.userRole (w.userMapper.getUserId caller) = .validator := hcall.1
    rw [hlen, List.countP_le_length.ge_iff_eq, List.countP_eq_length,
      List.forall_mem_append]
    simp [hown]
  rw [signedInfo_signers, hall]
  refine ⟨?_, ?_⟩
  · intro hrole x hx
    cases hoff : votedOff x h with
    | false => rfl
    | true => exact absurd (hrole _ hx) ((run_votedOff hinit hrun x).1 hoff)
  · intro hnone i hsigner
    obtain ⟨x, rfl, hval⟩ := hi.signer hrun hsigner
    exact (run_votedOff hinit hrun x).2 hval (hnone x hsigner)

/-- The quorum is made of validators, exactly when no signer of the entry has
been voted off the board. -/
theorem quorum_of_validators
    (hinit : deploy l token nftToken minValid validators = .ok w₀)
    (hrun : Run exec w₀ h w) :
    Along ValidatorsCounted h ↔ Along NoneVotedOff h :=
  hrun.along_iff fun _ _ _ hrun _ => validatorsCounted_iff hinit hrun

/-! ## Signatures from before a removal -/

/-- The address that an executed `RemoveUser` takes off the board. -/
def removedUser (r : Rec) : Option Address :=
  match performed r with
  | some (_, .removeUser x) => some x
  | _ => none

/-- The signers of the entry of uuid `id` that an executed `RemoveUser` has
removed since they signed it. -/
def removedSigners (id : Nat) : List Rec → List Address
  | [] => []
  | r :: past =>
      if dropsEntry id r then []
      else ((removedUser r).toList.filter fun x => (round id past).any fun s => s.1 == x) ++
        removedSigners id past

/-- When an action is about to be performed, the quorum is made of validators,
and no signature is counted that was given before an executed `RemoveUser` of
the signer. -/
structure OnlyValidatorsAuthorise (past : List Rec) (r : Rec) : Prop where
  current : ValidatorsCounted past r
  lapsed : ∀ caller id a, Performs r caller id a → ∀ x ∈ removedSigners id past,
    r.pre.userMapper.getUserId x ∉
      (r.pre.signedInfo id a (r.pre.userMapper.getUserId caller)).signers

/-- Nobody is removed from the board who has signed a pending entry, other
than the entry of the removal itself. -/
def KeepsSigners (_past : List Rec) (r : Rec) : Prop :=
  ∀ i x, performed r = some (i, .removeUser x) →
    ∀ id ∈ r.pre.actionMapper.keys, id ≠ i →
      r.pre.userMapper.getUserId x ∉ r.pre.signersOf id

instance (past : List Rec) (r : Rec) : Decidable (KeepsSigners past r) :=
  match h : performed r with
  | some (i, .removeUser x) =>
      decidable_of_iff (∀ id ∈ r.pre.actionMapper.keys, id ≠ i →
          r.pre.userMapper.getUserId x ∉ r.pre.signersOf id)
        ⟨fun hkeep j y hj => by rw [h] at hj; cases hj; exact hkeep,
          fun hkeep => hkeep i x h⟩
  | none => isTrue fun i x hi => by rw [h] at hi; cases hi
  | some (_, .nothing) | some (_, .addValidator _) | some (_, .changeMinValid _)
  | some (_, .sendWrapped ..) | some (_, .sendNft ..) | some (_, .unfreeze ..)
  | some (_, .unfreezeNft ..) => isTrue fun i x hi => by rw [h] at hi; cases hi

/-- A removal that is performed takes its own entry out. -/
theorem SigningEffect.dropsEntry_removeUser {x : Address} (heff : SigningEffect r)
    (hperf : performed r = some (id, .removeUser x)) : dropsEntry id r = true := by
  cases heff with
  | idle _ hno | known _ _ _ _ hno | counted _ _ _ _ hno =>
      rw [hno] at hperf
      simp at hperf
  | exited caller j a hsigned hown hexit hact =>
      rw [hown] at hperf
      cases hperf
      cases hact
  | returned caller j a hsigned hown hexit =>
      rw [hown] at hperf
      cases hperf
      exact dropsEntry_of_returned hown hexit

/-- Under the condition a round that goes on loses none of its signers to a
removal. -/
theorem RoundInvariant.keepsSigners (hi : RoundInvariant h r.pre) (heff : SigningEffect r)
    (hkeep : KeepsSigners h r) (hdrop : dropsEntry id r = false) {i : Nat} {x : Address}
    (hperf : performed r = some (i, .removeUser x)) : x ∉ (round id h).map Prod.fst := by
  intro hx
  obtain ⟨s, hs, rfl⟩ := List.mem_map.mp hx
  have hne : id ≠ i := by
    rintro rfl
    rw [heff.dropsEntry_removeUser hperf] at hdrop
    cases hdrop
  have hsigner := (hi.mem_signersOf (hi.registered id s hs)).mpr hx
  refine hkeep i s.1 hperf id (Finmap.mem_keys.mpr ?_) hne hsigner
  by_contra hno
  rw [signersOf_none (Finmap.lookup_eq_none.mpr hno)] at hsigner
  simp at hsigner

theorem removedUser_some {x : Address} (hx : removedUser r = some x) :
    ∃ i, performed r = some (i, .removeUser x) := by
  unfold removedUser at hx
  split at hx
  · next i y hperf =>
      cases hx
      exact ⟨i, hperf⟩
  · simp at hx

theorem run_removedSigners
    (hinit : deploy l token nftToken minValid validators = .ok w₀)
    (hrun : Run exec w₀ h w) (hkeep : Along KeepsSigners h) (id : Nat) :
    removedSigners id h = [] := by
  induction hrun with
  | start => rfl
  | @step h w act hrun ih =>
      have hi := run_round hinit hrun
      rw [← record_pre exec w act] at hi
      rw [removedSigners, ih hkeep.2, List.append_nil]
      split
      · rfl
      · next hdrop =>
          rw [List.filter_eq_nil_iff]
          intro x hx hsigned
          obtain ⟨s, hs, heq⟩ := List.any_eq_true.mp hsigned
          obtain ⟨i, hperf⟩ := removedUser_some (Option.mem_toList.mp hx)
          rw [beq_iff_eq] at heq
          rw [Bool.not_eq_true] at hdrop
          exact hi.keepsSigners (record_signingEffect w act) hkeep.1 hdrop hperf
            (heq ▸ List.mem_map_of_mem hs)

theorem votedOff_cons {x : Address} (hno : ∀ i, performed r ≠ some (i, .removeUser x))
    (hoff : votedOff x past = false) : votedOff x (r :: past) = false := by
  rw [votedOff]
  split
  · split
    · rfl
    · exact hoff
  · next i y hperf =>
      rw [if_neg (by rintro rfl; exact hno i hperf)]
      exact hoff
  · exact hoff

/-- So whoever has signed an entry is still on the board. -/
theorem run_round_votedOff
    (hinit : deploy l token nftToken minValid validators = .ok w₀)
    (hrun : Run exec w₀ h w) (hkeep : Along KeepsSigners h) {x : Address}
    (hx : x ∈ (round id h).map Prod.fst) : votedOff x h = false := by
  induction hrun with
  | start => simp [round] at hx
  | @step h w act hrun ih =>
      have hi := run_round hinit hrun
      have heff := record_signingEffect w act
      rw [← record_pre exec w act] at hi
      rcases round_cons id (record exec w act) h with hr | ⟨hdrop, hr | ⟨s, hsig, hnew, hr⟩⟩
      · rw [hr] at hx
        simp at hx
      · rw [hr] at hx
        refine votedOff_cons (fun i hperf => ?_) (ih hkeep.2 hx)
        exact hi.keepsSigners heff hkeep.1 hdrop hperf hx
      · rw [hr, List.map_append, List.mem_append, List.map_singleton,
          List.mem_singleton] at hx
        rcases hx with hx | rfl
        · refine votedOff_cons (fun i hperf => ?_) (ih hkeep.2 hx)
          exact hi.keepsSigners heff hkeep.1 hdrop hperf hx
        · -- the new signer is a validator, and this call removes nobody
          have hval := heff.isValidator (signatureOn_some hsig)
          rw [record_pre] at hval
          refine votedOff_cons (fun i hperf => ?_) ?_
          · obtain ⟨caller, hown⟩ := performed_signature hperf
            have hid : id = i := by
              by_contra hne
              rw [signatureOn_ne (signatureOn_some hown) hne] at hsig
              cases hsig
            subst hid
            rw [heff.dropsEntry_removeUser hperf] at hdrop
            cases hdrop
          · by_contra hoff
            rw [Bool.not_eq_false] at hoff
            exact (run_votedOff hinit hrun s.1).1 hoff hval

theorem onlyValidatorsAuthorise_record
    (hinit : deploy l token nftToken minValid validators = .ok w₀)
    (hrun : Run exec w₀ h w) (hkeep : Along KeepsSigners h) (act : Act) :
    OnlyValidatorsAuthorise h (record exec w act) := by
  have hi := run_round hinit hrun
  constructor
  case current =>
    refine (validatorsCounted_iff hinit hrun).mpr fun caller id a hperf x hx => ?_
    rw [record_pre, hi.signers, List.mem_map] at hx
    obtain ⟨s, hs, hid⟩ := hx
    obtain rfl : s.1 = x := w.userMapper.getUserId_inj (hi.registered id s hs) hid
    exact run_round_votedOff hinit hrun hkeep (List.mem_map_of_mem hs)
  case lapsed =>
    intro caller id a hperf x hx
    rw [run_removedSigners hinit hrun hkeep] at hx
    cases hx

/-- In every run that removes nobody from the board who has signed a pending
entry, what is performed is authorised by validators, with no signature from
before a removal. -/
theorem only_current_validators_authorise
    (hinit : deploy l token nftToken minValid validators = .ok w₀)
    (hrun : Run exec w₀ h w) (hkeep : Along KeepsSigners h) :
    Along OnlyValidatorsAuthorise h :=
  hrun.along_of (fun _ _ act hrun hkeep _ _ => onlyValidatorsAuthorise_record hinit hrun hkeep act)
    hkeep

/-- Alice and bob add dan; bob and charlie vote alice off while charlie's
signature for a payment is pending, which dan then completes. -/
theorem only_current_validators_authorise_three :
    Along OnlyValidatorsAuthorise (play exec (freshWorld 2 [alice, bob, charlie])
      [send dan (.validateSendNft 3 7 dan [1]), send charlie (.proposeRemoveUser 2 alice),
        send bob (.proposeRemoveUser 2 alice), send charlie (.validateSendNft 3 7 dan [1]),
        send bob (.proposeAddValidator 1 dan), send alice (.proposeAddValidator 1 dan)]).1 :=
  only_current_validators_authorise deploy_three (run_play _ _ _) (by decide +kernel)

/-- Alice proposes dan and is voted off the board; bob's signature then makes
a quorum of two with hers. -/
theorem removed_signer_authorises :
    let run := play exec (freshWorld 2 [alice, bob, charlie])
      [send bob (.proposeAddValidator 1 dan),
        send charlie (.proposeRemoveUser 0 alice),
        send bob (.proposeRemoveUser 0 alice),
        send alice (.proposeAddValidator 1 dan)]
    (deploy .fresh xpdt xpnft 2 [alice, bob, charlie]).isOk = true ∧
      performed (run.1.head (by decide +kernel)) = some (1, .addValidator dan) ∧
      ¬ Along OnlyValidatorsAuthorise run.1 := by
  intro run
  refine ⟨three_isOk, by decide +kernel, fun h => ?_⟩
  exact absurd (h.1.current bob 1 (.addValidator dan) (by decide +kernel)) (by decide +kernel)

/-- A signer who comes back to the board before the quorum is reached is a
validator again, with a signature from before the removal. -/
example :
    let run := play exec (freshWorld 2 [alice, bob, charlie])
      [send bob (.proposeAddValidator 1 dan),
        send charlie (.proposeAddValidator 2 alice), send bob (.proposeAddValidator 2 alice),
        send charlie (.proposeRemoveUser 0 alice), send bob (.proposeRemoveUser 0 alice),
        send alice (.proposeAddValidator 1 dan)]
    performed (run.1.head (by decide +kernel)) = some (1, .addValidator dan) ∧
      run.2.IsValidator alice ∧ removedSigners 1 run.1.tail = [alice] := by
  decide +kernel

/-- So every action that has been performed under the condition had a quorum of
validators. -/
theorem performed_by_validators
    (hinit : deploy l token nftToken minValid validators = .ok w₀)
    (hrun : Run exec w₀ h w) (hkeep : Along KeepsSigners h) :
    Along (fun past r => ∀ id a, performed r = some (id, a) →
      ∃ caller, signed r = some (caller, id, a) ∧
        r.pre.minValid ≤ (r.pre.signersOf id ++ [r.pre.userMapper.getUserId caller]).countP
          (fun i => decide (r.pre.userRole i = .validator)) ∧
        ∀ x ∈ removedSigners id past, r.pre.userMapper.getUserId x ∉
          r.pre.signersOf id ++ [r.pre.userMapper.getUserId caller]) h := by
  refine hrun.along_of (fun past w act hrun hkeep _ _ id a hperf => ?_) hkeep
  obtain ⟨caller, hsigned, hcall⟩ := performs_of_performed hperf
  have hauth := onlyValidatorsAuthorise_record hinit hrun hkeep act
  have hcount := hauth.current caller id a hcall
  have hlapsed := hauth.lapsed caller id a hcall
  rw [signedInfo_signers] at hcount hlapsed
  exact ⟨caller, hsigned, hcount, hlapsed⟩

end ElrondMint
