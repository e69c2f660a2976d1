import ElrondMint.Transfers
import Mathlib.Algebra.BigOperators.Group.List.Basic

/-!
# The wrapped tokens

Every nonce of the wrapper collection starts with a reserve of two units that
the creation loop of `SendWrapped` leaves in the contract, so that the nonce
exists when the amount is minted. What exists of a nonce is then the reserve,
plus what was sent, minus what was withdrawn to the other chain; what the
contract holds is the reserve, plus what was paid in, minus what was released.

The reserve is meant never to be burnt, and `withdraw` never touches what the
contract holds. But a release does not look at what it takes: a unit of the
reserve handed out by `UnfreezeNft` can be withdrawn like any other. While
releases leave the reserve where it is, the withdrawals of a nonce never
exceed what was sent.
-/

namespace ElrondMint

open Custody Rollback

/-! ## The amounts -/

/-- What a record adds to the amounts of performed `SendWrapped` of a nonce. -/
def wrappedAmount (n : UInt64) (r : Rec) : Nat :=
  match performedAction r with
  | some (.sendWrapped c _ amount _) => if c = n then amount else 0
  | _ => 0

/-- What a record adds to the values of the `Unfreeze` events of a nonce. -/
def unfrozenValue (n : UInt64) (r : Rec) : Nat :=
  match insertedEvent r with
  | some (.unfreeze c _ value) => if c = n then value else 0
  | _ => 0

/-- The units of an asset that a `deposit` or `freezeSendNft` brings. -/
def takenUnits (k : Asset) (r : Rec) : Nat :=
  match takenIn r with
  | some p => p.units k
  | none => 0

/-- The units of an asset that a performed `UnfreezeNft` releases. -/
def releasedUnits (k : Asset) (r : Rec) : Nat :=
  match performedAction r with
  | some (.unfreezeNft _ token n) => if k = (token, n) then 1 else 0
  | _ => 0

/-- The sum of an amount over a history. -/
def total (f : Rec → Nat) (h : List Rec) : Nat := (h.map f).sum

/-- The reserve of a nonce. -/
def Wrapper.reserve (s : Wrapper) (n : UInt64) : Nat := if n ≤ s.sftNonce then 2 else 0

/-- A performed release of units of a nonce of the wrapper collection leaves
the reserve: it finds more than that. -/
def ReserveUntouched (_past : List Rec) (r : Rec) : Prop :=
  ∀ recipient n, performedAction r = some (.unfreezeNft recipient r.pre.token n) →
    1 ≤ n → n ≤ r.pre.sftNonce → 2 < r.pre.chain.esdt.holding (r.pre.token, n)

instance (past : List Rec) (r : Rec) : Decidable (ReserveUntouched past r) :=
  match hperf : performedAction r with
  | some (.unfreezeNft recipient token n) =>
      decidable_of_iff (token = r.pre.token → 1 ≤ n → n ≤ r.pre.sftNonce →
          2 < r.pre.chain.esdt.holding (r.pre.token, n))
        ⟨fun hmore _ m hm => by rw [hperf] at hm; cases hm; exact hmore rfl,
          fun hmore htoken => hmore recipient n (by rw [hperf, htoken])⟩
  | none | some .nothing | some (.addValidator _) | some (.removeUser _)
  | some (.changeMinValid _) | some (.sendWrapped ..) | some (.sendNft ..)
  | some (.unfreeze ..) => isTrue fun _ _ hm => by rw [hperf] at hm; cases hm

/-- A parcel that its receiver sends back. -/
def Act.bounces : Act → Bool
  | .settle _ accepted => !accepted
  | .tx _ => false

/-- The history bounces no parcel back to the contract. -/
def AllAccepted (h : List Rec) : Prop := ∀ r ∈ h, r.act.bounces = false

instance (h : List Rec) : Decidable (AllAccepted h) :=
  inferInstanceAs (Decidable (∀ r ∈ h, _))

variable {w w' w₀ : World} {l : Ledger} {token nftToken : TokenIdentifier}
  {minValid : Nat} {validators : List Address} {h past : List Rec} {r : Rec}
  {act : Act} {n : UInt64} {k : Asset}

theorem total_cons (f : Rec → Nat) (r : Rec) (past : List Rec) :
    total f (r :: past) = f r + total f past := List.sum_cons

/-- Actions that return neither send wrapped tokens nor release units. -/
theorem no_amounts (hperf : ∀ a, performedAction r = some a → a.exits = false) :
    wrappedAmount n r = 0 ∧ releasedUnits k r = 0 := by
  unfold wrappedAmount releasedUnits
  cases hr : performedAction r with
  | none => exact ⟨rfl, rfl⟩
  | some a =>
      have hexits := hperf a hr
      cases a with
      | sendWrapped | sendNft | unfreezeNft => cases hexits
      | nothing | addValidator | removeUser | changeMinValid | unfreeze => exact ⟨rfl, rfl⟩

theorem no_withdrawal (hevent : ∀ e, insertedEvent r = some e → e.isWithdrawal = false) :
    unfrozenValue n r = 0 := by
  unfold unfrozenValue
  cases hr : insertedEvent r with
  | none => rfl
  | some e =>
      have hno := hevent e hr
      cases e with
      | unfreeze | unfreezeNft => cases hno
      | transfer | transferNft => rfl

/-- The loop creates the reserves that its nonces lack. -/
theorem created_reserve (token : TokenIdentifier) (s c n : UInt64) :
    created token s c (token, n) + (if n ≤ s then 2 else 0) =
      if n ≤ max s c then 2 else 0 := by
  simp only [created, true_and, UInt64.lt_iff_toNat_lt, UInt64.le_iff_toNat_le, toNat_max]
  split <;> split <;> split <;> omega

/-! ## One record -/

/-- What a record does to one nonce of the wrapper collection. -/
structure WrappedStep (n : UInt64) (r : Rec) : Prop where
  next : r.post.chain.lastNonce r.pre.token = r.post.sftNonce
  supply : r.post.chain.esdt.units (r.pre.token, n) + unfrozenValue n r +
      r.pre.reserve n =
    r.pre.chain.esdt.units (r.pre.token, n) + wrappedAmount n r + r.post.reserve n
  holding : r.post.chain.esdt.holding (r.pre.token, n) +
      releasedUnits (r.pre.token, n) r + r.pre.reserve n =
    r.pre.chain.esdt.holding (r.pre.token, n) + takenUnits (r.pre.token, n) r +
      r.post.reserve n

theorem reserve_congr {s s' : Wrapper} (h : s'.sftNonce = s.sftNonce) :
    s'.reserve n = s.reserve n := by
  rw [Wrapper.reserve, Wrapper.reserve, h]

/-- A record that opens no nonce changes no reserve. -/
theorem WrappedStep.of_kept (hlast : r.pre.chain.lastNonce r.pre.token = r.pre.sftNonce)
    (hsft : r.post.sftNonce = r.pre.sftNonce)
    (hnonce : r.post.chain.lastNonce r.pre.token = r.pre.chain.lastNonce r.pre.token)
    (hsupply : r.post.chain.esdt.units (r.pre.token, n) + unfrozenValue n r =
      r.pre.chain.esdt.units (r.pre.token, n) + wrappedAmount n r)
    (hholding : r.post.chain.esdt.holding (r.pre.token, n) +
        releasedUnits (r.pre.token, n) r =
      r.pre.chain.esdt.holding (r.pre.token, n) + takenUnits (r.pre.token, n) r) :
    WrappedStep n r := by
  have hres : r.post.reserve n = r.pre.reserve n := reserve_congr hsft
  exact ⟨by rw [hnonce, hlast, hsft], by omega, by omega⟩

theorem LedgerEffect.wrappedStep (heff : LedgerEffect r)
    (hne : r.pre.token ≠ r.pre.nftToken) (haccept : r.act.bounces = false)
    (hlast : r.pre.chain.lastNonce r.pre.token = r.pre.sftNonce) :
    WrappedStep n r := by
  -- an asset of the NFT collection is none of the wrapper collection
  have hnft : ∀ m, (r.pre.token, n) ≠ (r.pre.nftToken, m) :=
    fun m heq => hne (congrArg Prod.fst heq)
  cases heff with
  | still hperf hevent hin hback hsft hesdt hnonce hdata =>
      obtain ⟨hwrapped, hreleased⟩ := no_amounts (n := n) (k := (r.pre.token, n)) hperf
      refine .of_kept hlast hsft (by rw [hnonce]) ?_ ?_
      · rw [no_withdrawal hevent, hwrapped, hesdt]
      · rw [hreleased, takenUnits, hin, hesdt]
  | settle i accepted hact hret hpost =>
      obtain ⟨hperf, hevent⟩ := settled_shows_nothing hret
      have hin : takenIn r = none := by rw [takenIn, hact]
      have htrue : accepted = true := by
        rw [hact] at haccept
        simpa [Act.bounces] using haccept
      subst htrue
      have hesdt : r.post.chain.esdt = r.pre.chain.esdt.settle i true := by
        rw [hpost]
        rfl
      refine .of_kept hlast (by rw [hpost]) (by rw [hpost]; rfl) ?_ ?_
      · simp only [unfrozenValue, hevent, wrappedAmount, hperf]
        rw [hesdt, Account.settle_units]
      · simp only [releasedUnits, hperf, takenUnits, hin]
        rw [hesdt, Account.settle_accepted_holding]
  | takeIn p hperf hevent hin hback hsft hhold hunits hnonce hdata =>
      refine .of_kept hlast hsft (by rw [hnonce]) ?_ ?_
      · simp only [no_withdrawal hevent, wrappedAmount, hperf, hunits]
      · simp only [releasedUnits, hperf, takenUnits, hin, hhold]
        omega
  | withdraw m recipient value hperf hevent hin hback hsft hhold hunits hnonce hdata =>
      have hburnt := hunits (r.pre.token, n)
      simp only [Prod.mk.injEq, true_and, eq_comm (a := n)] at hburnt
      refine .of_kept hlast hsft (by rw [hnonce]) ?_ ?_
      · simp only [unfrozenValue, hevent, wrappedAmount, hperf]
        omega
      · simp only [releasedUnits, hperf, takenUnits, hin, hhold]
  | withdrawNft m c recipient id value hperf hevent hin hback hsft hpays hpaid huri hhold
      hunits hnonce hdata =>
      have hheld := hhold (r.pre.token, n)
      have hburnt := hunits (r.pre.token, n)
      rw [if_neg (hnft m), if_neg (hnft m)] at hheld
      rw [if_neg (hnft m)] at hburnt
      refine .of_kept hlast hsft (by rw [hnonce]) ?_ ?_
      · simp only [unfrozenValue, hevent, wrappedAmount, hperf]
        omega
      · simp only [releasedUnits, hperf, takenUnits, hin]
        omega
  | sendWrapped c recipient amount data hperf hevent hin hback hnext hother =>
      -- the one record that opens nonces, each with its reserve
      obtain ⟨hsft, hnonce, hhold, hunits⟩ := hnext hlast
      have hres := created_reserve r.pre.token r.pre.sftNonce c n
      have hminted := hunits (r.pre.token, n)
      simp only [Prod.mk.injEq, true_and, eq_comm (a := n)] at hminted
      refine ⟨by rw [hnonce, hsft], ?_, ?_⟩
      · simp only [unfrozenValue, hevent, wrappedAmount, hperf, Wrapper.reserve, hsft]
        omega
      · simp only [releasedUnits, hperf, takenUnits, hin, hhold, Wrapper.reserve, hsft]
        omega
  | sendNft m c recipient id hperf hminted hevent hin hback hsft hnext hne' hhold
      hunits hnonce hdata =>
      refine .of_kept hlast hsft (by rw [hnonce, Function.update_of_ne hne]) ?_ ?_
      · simp only [unfrozenValue, hevent, wrappedAmount, hperf, hunits, if_neg (hnft m)]
      · simp only [releasedUnits, hperf, takenUnits, hin, hhold]
  | unfreezeNft recipient token m hperf hevent hin hback hsft hhold hunits hnonce hdata =>
      refine .of_kept hlast hsft (by rw [hnonce]) ?_ ?_
      · simp only [unfrozenValue, hevent, wrappedAmount, hperf, hunits]
      · simp only [releasedUnits, hperf, takenUnits, hin, hhold, Nat.add_zero]

/-! ## Runs -/

/-- The account of one nonce, over a history. -/
structure WrappedInvariant (n : UInt64) (h : List Rec) (w : World) : Prop where
  next : w.chain.lastNonce w.token = w.sftNonce
  supply : w.chain.esdt.units (w.token, n) + total (unfrozenValue n) h =
    w.reserve n + total (wrappedAmount n) h
  holding : w.chain.esdt.holding (w.token, n) + total (releasedUnits (w.token, n)) h =
    w.reserve n + total (takenUnits (w.token, n)) h

theorem run_wrapped (hinit : deploy l token nftToken minValid validators = .ok w₀)
    (hempty : l.EmptyOf token) (hne : token ≠ nftToken) (hn : 1 ≤ n)
    (hrun : Run exec w₀ h w) (haccept : AllAccepted h) : WrappedInvariant n h w := by
  induction hrun with
  | start =>
      obtain ⟨htoken, -, hsft, hchain⟩ := deploy_wrapper hinit
      have hres : w₀.reserve n = 0 := by
        rw [Wrapper.reserve, hsft, if_neg]
        rw [UInt64.le_iff_toNat_le] at hn ⊢
        simp at hn ⊢
        omega
      have hunits := hempty.units n
      have hhold := l.esdt.holding_le_units (token, n)
      refine ⟨by rw [hchain, htoken, hempty.lastNonce, hsft], ?_, ?_⟩
      · rw [hres, hchain, htoken, hunits]
        rfl
      · rw [hres, hchain, htoken]
        show l.esdt.holding (token, n) + 0 = 0 + 0
        omega
  | @step h w act hrun ih =>
      have ih := ih fun r hr => haccept r (List.mem_cons_of_mem _ hr)
      have hstep : Run exec w₀ _ _ := .step act hrun
      obtain ⟨ht, hnft⟩ := run_collections hinit hrun
      obtain ⟨ht', -⟩ := run_collections hinit hstep
      have heff := (record_ledgerEffect w act).wrappedStep (n := n)
        (by rw [record_pre, ht, hnft]; exact hne)
        (haccept _ List.mem_cons_self) (by rw [record_pre]; exact ih.next)
      have hnext := heff.next
      have hsupply := heff.supply
      have hholding := heff.holding
      rw [record_pre, ht] at hnext hsupply hholding
      have hs := ih.supply
      have hh := ih.holding
      rw [ht] at hs hh
      refine ⟨by rw [ht', hnext], ?_, ?_⟩
      · rw [ht', total_cons, total_cons]
        omega
      · rw [ht', total_cons, total_cons]
        omega

/-- A release is the only thing that can take the holding below the reserve. -/
theorem WrappedStep.reserve_held (hstep : WrappedStep n r) (hn : 1 ≤ n)
    (heff : LedgerEffect r) (huntouched : ReserveUntouched past r)
    (hheld : r.pre.reserve n ≤ r.pre.chain.esdt.holding (r.pre.token, n)) :
    r.post.reserve n ≤ r.post.chain.esdt.holding (r.pre.token, n) := by
  have hholding := hstep.holding
  by_cases hrel : releasedUnits (r.pre.token, n) r = 0
  · omega
  · unfold releasedUnits at hrel
    split at hrel
    · next recipient token m hperf =>
        split at hrel
        · next hk =>
            injection hk with htoken hm
            subst hm
            rw [← htoken] at hperf
            have hmore := huntouched recipient n hperf hn
            cases heff with
            | unfreezeNft recipient' token' m' hperf' _ _ _ hsft hhold =>
                rw [hperf] at hperf'
                cases hperf'
                have hown := hhold (r.pre.token, n)
                rw [if_pos rfl] at hown
                rw [reserve_congr hsft]
                unfold Wrapper.reserve
                split
                · next hle =>
                    have hgt := hmore hle
                    omega
                · omega
            | still hno =>
                have hexits := hno _ hperf
                cases hexits
            | settle i accepted hact hret =>
                rw [(settled_shows_nothing hret).1] at hperf
                simp at hperf
            | takeIn _ hno | withdraw _ _ _ hno | withdrawNft _ _ _ _ _ hno
            | sendWrapped _ _ _ _ hno | sendNft _ _ _ _ hno =>
                rw [hperf] at hno
                simp at hno
        · exact absurd rfl hrel
    · exact absurd rfl hrel

theorem run_reserve_held (hinit : deploy l token nftToken minValid validators = .ok w₀)
    (hempty : l.EmptyOf token) (hne : token ≠ nftToken) (hn : 1 ≤ n)
    (hrun : Run exec w₀ h w) (haccept : AllAccepted h)
    (huntouched : Along ReserveUntouched h) :
    w.reserve n ≤ w.chain.esdt.holding (w.token, n) := by
  induction hrun with
  | start =>
      have hi := run_wrapped hinit hempty hne hn .start haccept
      have hholding := hi.holding
      simp only [total, List.map_nil, List.sum_nil, Nat.add_zero] at hholding
      omega
  | @step h w act hrun ih =>
      have hpast : AllAccepted h := fun r hr => haccept r (List.mem_cons_of_mem _ hr)
      have ih := ih hpast huntouched.2
      have hi := run_wrapped hinit hempty hne hn hrun hpast
      obtain ⟨ht, hnft⟩ := run_collections hinit hrun
      obtain ⟨ht', -⟩ := run_collections hinit (.step act hrun)
      rw [← record_pre exec w act] at ih hi ht hnft
      have hstep := (record_ledgerEffect w act).wrappedStep (n := n)
        (by rw [ht, hnft]; exact hne) (haccept _ List.mem_cons_self) hi.next
      rw [ht', ← ht]
      exact hstep.reserve_held hn (record_ledgerEffect w act) huntouched.1 ih

/-- Conservation of the wrapped tokens, nonce by nonce: what exists and what the
contract holds are the reserve and the sums of what moved; and as long as no
release takes of the reserve, it stays in the contract and withdrawals are
covered by what was sent. -/
theorem wrapped_conservation
    (hinit : deploy l token nftToken minValid validators = .ok w₀)
    (hempty : l.EmptyOf token) (hne : token ≠ nftToken) (hrun : Run exec w₀ h w)
    (haccept : AllAccepted h) (hn : 1 ≤ n) :
    (w.chain.esdt.units (token, n) : Int) =
        w.reserve n + total (wrappedAmount n) h - total (unfrozenValue n) h ∧
      (w.chain.esdt.holding (token, n) : Int) =
        w.reserve n + total (takenUnits (token, n)) h -
          total (releasedUnits (token, n)) h ∧
      (Along ReserveUntouched h →
        w.reserve n ≤ w.chain.esdt.holding (token, n) ∧
          total (unfrozenValue n) h ≤ total (wrappedAmount n) h) := by
  have hi := run_wrapped hinit hempty hne hn hrun haccept
  have hsupply := hi.supply
  have hholding := hi.holding
  have ht := (run_collections hinit hrun).1
  rw [ht] at hsupply hholding
  refine ⟨by omega, by omega, fun huntouched => ?_⟩
  have hheld := run_reserve_held hinit hempty hne hn hrun haccept huntouched
  have hle := w.chain.esdt.holding_le_units (token, n)
  rw [ht] at hheld
  exact ⟨hheld, by omega⟩

/-- Three units of nonce 1 are sent to dan, who deposits one, gets it back by a
release that finds three, and withdraws two: the reserve is untouched. -/
theorem wrapped_conservation_two :
    let run := play exec (freshWorld 2 [alice, bob, charlie])
      [.tx ⟨dan, .esdt xpdt 1 2, true, .withdraw ""⟩, .settle 0 true,
        send bob (.validateUnfreezeNft 2 dan xpdt 1),
        send alice (.validateUnfreezeNft 2 dan xpdt 1),
        .tx ⟨dan, .esdt xpdt 1 1, true, .deposit⟩, .settle 0 true,
        send bob (.validateSendWrapped 1 1 dan 3 none),
        send alice (.validateSendWrapped 1 1 dan 3 none)]
    total (releasedUnits (xpdt, 1)) run.1 = 1 ∧
      (run.2.chain.esdt.units (xpdt, 1) : Int) =
        run.2.reserve 1 + total (wrappedAmount 1) run.1 - total (unfrozenValue 1) run.1 ∧
      (run.2.chain.esdt.holding (xpdt, 1) : Int) =
        run.2.reserve 1 + total (takenUnits (xpdt, 1)) run.1 -
          total (releasedUnits (xpdt, 1)) run.1 ∧
      run.2.reserve 1 ≤ run.2.chain.esdt.holding (xpdt, 1) ∧
      total (unfrozenValue 1) run.1 ≤ total (wrappedAmount 1) run.1 := by
  intro run
  obtain ⟨hunits, hholding, hcovered⟩ :=
    wrapped_conservation deploy_three ⟨rfl, fun _ => rfl⟩ (by decide)
      (run_play _ _ _ : Run exec _ run.1 run.2) (by decide +kernel) (show 1 ≤ 1 by decide)
  exact ⟨by decide +kernel, hunits, hholding, hcovered (by decide +kernel)⟩

/-- One unit of nonce 1 is sent to dan; alice and bob release another, which is
one of the reserve, and dan withdraws both. -/
theorem released_reserve_is_burnt :
    let run := play exec (freshWorld 2 [alice, bob, charlie])
      [.tx ⟨dan, .esdt xpdt 1 2, true, .withdraw ""⟩, .settle 0 true,
        send bob (.validateUnfreezeNft 2 dan xpdt 1),
        send alice (.validateUnfreezeNft 2 dan xpdt 1), .settle 0 true,
        send bob (.validateSendWrapped 1 1 dan 1 none),
        send alice (.validateSendWrapped 1 1 dan 1 none)]
    (deploy .fresh xpdt xpnft 2 [alice, bob, charlie]).isOk = true ∧
      Ledger.fresh.EmptyOf xpdt ∧ xpdt ≠ xpnft ∧ AllAccepted run.1 ∧
      run.2.reserve 1 = 2 ∧ run.2.chain.esdt.units (xpdt, 1) = 1 ∧
      ¬ total (unfrozenValue 1) run.1 ≤ total (wrappedAmount 1) run.1 :=
  ⟨three_isOk, ⟨rfl, fun _ => rfl⟩, by decide, by decide +kernel,
    by decide +kernel, by decide +kernel, by decide +kernel⟩

end ElrondMint
