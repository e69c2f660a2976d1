import ElrondMint.Rounds

/-!
# How often a uuid is performed

Nothing remembers that a uuid has been performed. An execution that returns
takes the entry out, so the next signature starts a new round; one that ends
in an asynchronous transfer leaves the entry with its signers, and the next
signature is compared with whatever the quorum then is.

Where every validator signs a uuid once, the history of the uuid is a list of
signatures and a list of quorums. For a payment in EGLD the signatures fill
rounds of `minValid` each, and each full round pays. For the asynchronous
actions no signature is ever taken out, and each one whose number in the list
equals the quorum of its moment executes.
-/

namespace ElrondMint

open Rollback

/-- The callers of the successful calls under uuid `id`, latest first. -/
def signatures (id : Nat) (h : List Rec) : List Address :=
  h.filterMap fun r => (signatureOn id r).map Prod.fst

/-- How often uuid `id` has been performed. -/
def performedCount (id : Nat) (h : List Rec) : Nat := h.countP (performsId id)

/-- No record of the history changes the quorum. -/
def SameQuorum (h : List Rec) : Prop :=
  ∀ r ∈ h, r.post.minValid = r.pre.minValid

/-- The successful calls under uuid `id` are all for one action. -/
def SignedFor (id : Nat) (a : Action) (h : List Rec) : Prop :=
  ∀ r ∈ h, ∀ s, signatureOn id r = some s → s.2 = a

/-- A signature under the uuid that is, counting those before it, the one the
quorum of its moment asks for. -/
def MeetsQuorum (id : Nat) (past : List Rec) (r : Rec) : Prop :=
  (signatureOn id r).isSome ∧ (signatures id past).length + 1 = r.pre.minValid

/-- At most one signature meets the quorum of its moment: none that does comes
after another. -/
def NoLateQuorum (id : Nat) (past : List Rec) (r : Rec) : Prop :=
  MeetsQuorum id past r → Along (fun past r => ¬ MeetsQuorum id past r) past

instance (h : List Rec) : Decidable (SameQuorum h) :=
  inferInstanceAs (Decidable (∀ r ∈ h, _))

instance (id : Nat) (a : Action) (h : List Rec) : Decidable (SignedFor id a h) :=
  inferInstanceAs (Decidable (∀ r ∈ h, ∀ s, signatureOn id r = some s → s.2 = a))

variable {w w' w₀ : World} {l : Ledger} {token nftToken : TokenIdentifier}
  {minValid : Nat} {validators : List Address} {h past : List Rec} {r : Rec}
  {act : Act} {id : Nat} {a : Action}

theorem signatures_none (hsig : signatureOn id r = none) :
    signatures id (r :: past) = signatures id past :=
  List.filterMap_cons_none (by rw [hsig]; rfl)

theorem signatures_some {s : Address × Action} (hsig : signatureOn id r = some s) :
    signatures id (r :: past) = s.1 :: signatures id past :=
  List.filterMap_cons_some (by rw [hsig]; rfl)

theorem performedCount_cons (id : Nat) (r : Rec) (past : List Rec) :
    performedCount id (r :: past) =
      performedCount id past + if performsId id r then 1 else 0 :=
  List.countP_cons

/-- The signers of a round have signed. -/
theorem round_subset_signatures {x : Address} (hx : x ∈ (round id h).map Prod.fst) :
    x ∈ signatures id h := by
  obtain ⟨s, hs, rfl⟩ := List.mem_map.mp hx
  obtain ⟨r, hr, hsig⟩ := mem_round hs
  rw [signatures, List.mem_filterMap]
  exact ⟨r, hr, by rw [hsig]; rfl⟩

/-- Who signs once is never found in the round already. -/
theorem not_again (honce : (signatures id (r :: past)).Nodup) {s : Address × Action}
    (hsig : signatureOn id r = some s) : s.1 ∉ (round id past).map Prod.fst := by
  intro hold
  rw [signatures_some hsig, List.nodup_cons] at honce
  exact honce.1 (round_subset_signatures hold)

theorem nodup_signatures_past (honce : (signatures id (r :: past)).Nodup) :
    (signatures id past).Nodup :=
  honce.sublist (List.Sublist.filterMap _ (List.sublist_cons_self _ _))

theorem SignedFor.tail (hone : SignedFor id a (r :: past)) : SignedFor id a past :=
  fun r' hr' => hone r' (List.mem_cons_of_mem _ hr')

theorem run_roundEffects (hinit : deploy l token nftToken minValid validators = .ok w₀)
    (hrun : Run exec w₀ h w) (id : Nat) : Along (RoundEffect id) h :=
  hrun.along fun _ _ act hrun => run_roundEffect hinit hrun act id

/-! ## Payments in EGLD -/

/-- Full rounds pay, and one round is open. -/
theorem rounds_paid {m : Nat} (hpos : 1 ≤ m) (heff : Along (RoundEffect id) h)
    (hquorum : ∀ r ∈ h, r.pre.minValid = m) (hact : a.exits = false)
    (hone : SignedFor id a h) (honce : (signatures id h).Nodup) :
    (signatures id h).length = m * performedCount id h + (round id h).length ∧
      (round id h).length < m := by
  induction h with
  | nil => exact ⟨rfl, hpos⟩
  | cons r past ih =>
      obtain ⟨hlen, hlt⟩ := ih heff.2 (fun r hr => hquorum r (List.mem_cons_of_mem _ hr))
        hone.tail (nodup_signatures_past honce)
      have hm := hquorum r List.mem_cons_self
      cases heff.1 with
      | other hsig hperf hround =>
          rw [signatures_none hsig, performedCount_cons, hperf, hround]
          exact ⟨hlen, hlt⟩
      | again s hsig hperf hold => exact absurd hold (not_again honce hsig)
      | counted s hsig hperf hcount hround =>
          rw [hm] at hcount
          rw [signatures_some hsig, performedCount_cons, hperf, hround]
          simp only [List.length_cons, List.length_append, List.length_nil]
          refine ⟨?_, ?_⟩
          · simp; omega
          · omega
      | exited s hsig hperf hexits =>
          rw [hone _ List.mem_cons_self s hsig, hact] at hexits
          simp at hexits
      | returned s hsig hperf hexits hcount hround =>
          rw [hm] at hcount
          rw [signatures_some hsig, performedCount_cons, hperf, hround]
          simp only [List.length_cons, List.length_nil, if_true, Nat.mul_add]
          omega

/-- So an EGLD payment is made once for each quorum of signatures. -/
theorem performedCount_paid {m : Nat} (hpos : 1 ≤ m) (heff : Along (RoundEffect id) h)
    (hquorum : ∀ r ∈ h, r.pre.minValid = m) (hact : a.exits = false)
    (hone : SignedFor id a h) (honce : (signatures id h).Nodup) :
    performedCount id h = (signatures id h).length / m := by
  obtain ⟨hlen, hlt⟩ := rounds_paid hpos heff hquorum hact hone honce
  rw [hlen, Nat.mul_add_div hpos, Nat.div_eq_of_lt hlt, Nat.add_zero]

/-- An EGLD payment that every validator signs once is made once for every
`minValid` signatures: at most once, exactly when fewer than two quorums of
validators sign it. -/
theorem unfreeze_executions
    (hinit : deploy l token nftToken minValid validators = .ok w₀)
    (hpos : 1 ≤ minValid) (hrun : Run exec w₀ h w) (hsame : SameQuorum h)
    {uuid : Nat} {recipient : Address} {amount : Nat}
    (hone : SignedFor uuid (.unfreeze recipient amount) h)
    (honce : (signatures uuid h).Nodup) :
    performedCount uuid h = (signatures uuid h).length / minValid ∧
      (performedCount uuid h ≤ 1 ↔ (signatures uuid h).length < 2 * minValid) := by
  have hquorum := (hrun.constant (f := fun w : World => w.minValid) hsame).2
  rw [(init_sound (deploy_init hinit).1).2.2.1] at hquorum
  have hcount := performedCount_paid hpos (run_roundEffects hinit hrun uuid) hquorum rfl
    hone honce
  refine ⟨hcount, ?_⟩
  rw [hcount, ← Nat.lt_succ_iff, Nat.div_lt_iff_lt_mul hpos]

/-- Dan deposits ten, and the payment of five to dan is signed by each of the
given validators, in their order. -/
def payDan (signers : List Address) : List Act :=
  (signers.map fun v => send v (.validateUnfreeze 1 dan 5)).reverse ++
    [.tx ⟨dan, .egld 10, true, .deposit⟩]

/-- Three validators with a quorum of two pay once. -/
theorem unfreeze_executions_three :
    let run := play exec (freshWorld 2 [alice, bob, charlie])
      (payDan [alice, bob, charlie])
    performedCount 1 run.1 = (signatures 1 run.1).length / 2 ∧
      (performedCount 1 run.1 ≤ 1 ↔ (signatures 1 run.1).length < 2 * 2) :=
  unfreeze_executions deploy_three (by decide) (run_play _ _ _)
    (by decide +kernel) (show SignedFor 1 (.unfreeze dan 5) _ by decide +kernel)
    (by decide +kernel)

/-- Four validators with a quorum of two, each signing the payment once, pay
twice: the two late signatures are a quorum of their own. -/
theorem late_signatures_pay_again :
    let run := play exec (freshWorld 2 [alice, bob, charlie, dan])
      (payDan [alice, bob, charlie, dan])
    (deploy .fresh xpdt xpnft 2 [alice, bob, charlie, dan]).isOk = true ∧
      SameQuorum run.1 ∧ SameValidators run.1 ∧
      SignedFor 1 (.unfreeze dan 5) run.1 ∧ (signatures 1 run.1).Nodup ∧
      run.2.chain.egld = 0 ∧ ¬ performedCount 1 run.1 ≤ 1 :=
  ⟨by decide +kernel, by decide +kernel,
    run_sameValidators (run_play _ _ _) (by decide +kernel), by decide +kernel,
    by decide +kernel, by decide +kernel, by decide +kernel⟩

/-! ## Asynchronous transfers -/

/-- Nothing leaves the round of an asynchronous action. -/
theorem round_full (heff : Along (RoundEffect id) h) (hact : a.exits = true)
    (hone : SignedFor id a h) (honce : (signatures id h).Nodup) :
    (round id h).length = (signatures id h).length := by
  induction h with
  | nil => rfl
  | cons r past ih =>
      have ih := ih heff.2 hone.tail (nodup_signatures_past honce)
      cases heff.1 with
      | other hsig _ hround => rw [signatures_none hsig, hround, ih]
      | again s hsig _ hold => exact absurd hold (not_again honce hsig)
      | counted s hsig _ _ hround =>
          rw [signatures_some hsig, hround, List.length_append, ih]
          rfl
      | exited s hsig _ _ _ hround =>
          rw [signatures_some hsig, hround, List.length_append, ih]
          rfl
      | returned s hsig _ hexits =>
          rw [hone _ List.mem_cons_self s hsig, hact] at hexits
          simp at hexits

/-- A signature executes an asynchronous action when it is, counting those
before it, the one the quorum asks for. -/
theorem performs_iff (heff : Along (RoundEffect id) (r :: past)) (hact : a.exits = true)
    (hone : SignedFor id a (r :: past)) (honce : (signatures id (r :: past)).Nodup) :
    performsId id r = true ↔ MeetsQuorum id past r := by
  unfold MeetsQuorum
  have hfull := round_full heff.2 hact hone.tail (nodup_signatures_past honce)
  rw [← hfull]
  cases heff.1 with
  | other hsig hperf => simp [hsig, hperf]
  | again s hsig _ hold => exact absurd hold (not_again honce hsig)
  | counted s hsig hperf hcount => simp [hsig, hperf, hcount]
  | exited s hsig hperf _ hcount => simp [hsig, hperf, hcount]
  | returned s hsig _ hexits =>
      rw [hone _ List.mem_cons_self s hsig, hact] at hexits
      simp at hexits

/-- So it is executed once if the quorum is reached, where the quorum stays. -/
theorem performedCount_async {m : Nat} (hpos : 1 ≤ m) (heff : Along (RoundEffect id) h)
    (hquorum : ∀ r ∈ h, r.pre.minValid = m) (hact : a.exits = true)
    (hone : SignedFor id a h) (honce : (signatures id h).Nodup) :
    performedCount id h = if m ≤ (signatures id h).length then 1 else 0 := by
  induction h with
  | nil =>
      show 0 = if m ≤ 0 then 1 else 0
      rw [if_neg (by omega)]
  | cons r past ih =>
      have ih := ih heff.2 (fun r hr => hquorum r (List.mem_cons_of_mem _ hr))
        hone.tail (nodup_signatures_past honce)
      have hperf := performs_iff heff hact hone honce
      rw [MeetsQuorum, hquorum r List.mem_cons_self] at hperf
      rw [performedCount_cons, ih]
      cases hsig : signatureOn id r with
      | none =>
          rw [signatures_none hsig, performsId_of_none hsig]
          simp
      | some s =>
          rw [hsig] at hperf
          simp only [Option.isSome_some, true_and] at hperf
          rw [signatures_some hsig, List.length_cons]
          simp only [hperf]
          split <;> split <;> split <;> omega

/-- It is not executed as long as no signature meets the quorum. -/
theorem performedCount_eq_zero (heff : Along (RoundEffect id) h) (hact : a.exits = true)
    (hone : SignedFor id a h) (honce : (signatures id h).Nodup) :
    performedCount id h = 0 ↔ Along (fun past r => ¬ MeetsQuorum id past r) h := by
  induction h with
  | nil => exact iff_of_true rfl trivial
  | cons r past ih =>
      have ih := ih heff.2 hone.tail (nodup_signatures_past honce)
      have hperf := performs_iff heff hact hone honce
      rw [along_cons, ← ih, ← hperf, performedCount_cons]
      cases performsId id r with
      | false => simp
      | true => simp

/-- A mint or an NFT release that every validator signs once is executed at
most once, whatever governance does meanwhile, exactly when at most one of its
signatures is the one that the quorum of its moment asks for. -/
theorem async_executed_once
    (hinit : deploy l token nftToken minValid validators = .ok w₀)
    (hrun : Run exec w₀ h w) (uuid : Nat) (a : Action) (hact : a.exits = true)
    (hone : SignedFor uuid a h) (honce : (signatures uuid h).Nodup) :
    performedCount uuid h ≤ 1 ↔ Along (NoLateQuorum uuid) h := by
  have heff := run_roundEffects hinit hrun uuid
  clear hrun
  induction h with
  | nil => exact iff_of_true (Nat.zero_le 1) trivial
  | cons r past ih =>
      have honce' := nodup_signatures_past honce
      have ih : performedCount uuid past ≤ 1 ↔ Along (NoLateQuorum uuid) past :=
        ih hone.tail honce' heff.2
      have hperf := performs_iff heff hact hone honce
      rw [along_cons, ← ih, performedCount_cons, NoLateQuorum, ← hperf,
        ← performedCount_eq_zero heff.2 hact hone.tail honce']
      cases performsId uuid r with
      | false =>
          simp only [Bool.false_eq_true, if_false, Nat.add_zero]
          exact ⟨fun hle => ⟨nofun, hle⟩, And.right⟩
      | true =>
          simp only [if_true]
          refine ⟨fun hle => ⟨fun _ => by omega, by omega⟩, ?_⟩
          intro hnone
          have hzero := hnone.1 trivial
          omega

/-- The release of an NFT signed by alice and bob, and by charlie afterwards. -/
theorem async_executed_once_three :
    let run := play exec (freshWorld 2 [alice, bob, charlie])
      [send charlie (.validateSendNft 1 7 dan [1]),
        send bob (.validateSendNft 1 7 dan [1]),
        send alice (.validateSendNft 1 7 dan [1])]
    performedCount 1 run.1 ≤ 1 ↔ Along (NoLateQuorum 1) run.1 :=
  async_executed_once deploy_three (run_play _ _ _) 1
    (.sendNft 7 dan [1]) rfl (by decide +kernel) (by decide +kernel)

/-- Alice and bob release an NFT, then raise the quorum to three: charlie's
late signature releases it again. -/
theorem raised_quorum_mints_again :
    let run := play exec (freshWorld 2 [alice, bob, charlie])
      [send charlie (.validateSendNft 1 7 dan [1]),
        send bob (.proposeChangeMinValid 2 3), send alice (.proposeChangeMinValid 2 3),
        send bob (.validateSendNft 1 7 dan [1]),
        send alice (.validateSendNft 1 7 dan [1])]
    (deploy .fresh xpdt xpnft 2 [alice, bob, charlie]).isOk = true ∧
      SignedFor 1 (.sendNft 7 dan [1]) run.1 ∧
      SignedFor 2 (.changeMinValid 3) run.1 ∧ (signatures 1 run.1).Nodup ∧
      (signatures 2 run.1).Nodup ∧ run.2.chain.lastNonce xpnft = 2 ∧
      ¬ performedCount 1 run.1 ≤ 1 :=
  ⟨three_isOk, by decide +kernel, by decide +kernel, by decide +kernel,
    by decide +kernel, by decide +kernel, by decide +kernel⟩

end ElrondMint
