import ElrondMint.Evaluation
import ElrondMint.Wrapped

/-!
# The nonces of the wrapper collection

`SendWrapped` for a nonce of the other chain mints under the same nonce here, so
`sft_nonce` has to be the last nonce of the collection, neither more nor less.
The loop keeps it so: it counts from the one to the other in step with the host.
`LoopPath` is the loop round by round, with the nonces the host hands out on the
way.

From the loop to the contract it is one step. Nothing but a `SendWrapped` creates
in the wrapper collection, and each starts where the last one stopped, so every
nonce is created once and is there when units are minted under it.
-/

namespace ElrondMint

open Custody Rollback

variable {w w' w₀ w₁ : World} {l : Ledger} {token nftToken : TokenIdentifier}
  {minValid : Nat} {validators : List Address} {h : List Rec} {r : Rec} {act : Act}
  {hostOk : Bool} {c n n' : UInt64} {ms : List UInt64}

/-! ## The loop, round by round -/

/-- The loop of `SendWrapped` gets from `n` and `w` to `n'` and `w'`, and the host
hands out the nonces `ms` on the way, in this order. -/
inductive LoopPath (hostOk : Bool) (token : TokenIdentifier) (c : UInt64) :
    UInt64 → World → List UInt64 → UInt64 → World → Prop
  | here {n : UInt64} {w : World} : LoopPath hostOk token c n w [] n w
  | round {n m n' : UInt64} {w w' : World} {chain : Ledger} {ms : List UInt64} (hlt : n < c)
      (hcreate : w.chain.esdtNftCreate hostOk token 2 ⟨[], 0, [], [], [[]]⟩ =
        .ok (m, chain))
      (hrest : LoopPath hostOk token c (n + 1)
        { w with chain := chain, sftNonce := n + 1 } ms n' w') :
      LoopPath hostOk token c n w (m :: ms) n' w'

theorem LoopRounds.path (h : LoopRounds hostOk token c n w w') :
    ∃ ms n', LoopPath hostOk token c n w ms n' w' ∧ ¬ n' < c := by
  induction h with
  | done hle => exact ⟨_, _, .here, hle⟩
  | round hlt hcreate _ ih =>
      obtain ⟨ms, n', hpath, hle⟩ := ih
      exact ⟨_, n', .round hlt hcreate hpath, hle⟩

/-- A round moves the variable of the loop by one. -/
theorem LoopPath.counts (h : LoopPath hostOk token c n w ms n' w') :
    n'.toNat = n.toNat + ms.length := by
  induction h with
  | here => rfl
  | round hlt _ _ ih =>
      rw [ih, toNat_succ_of_lt hlt, List.length_cons]
      omega

/-- No path goes past the end. -/
theorem LoopPath.bounded (h : LoopPath hostOk token c n w ms n' w') :
    ms.length ≤ c.toNat - n.toNat := by
  induction h with
  | here => exact Nat.zero_le _
  | round hlt _ _ ih =>
      rw [toNat_succ_of_lt hlt] at ih
      rw [UInt64.lt_iff_toNat_lt] at hlt
      rw [List.length_cons]
      omega

/-- After the rounds of a path the loop goes on from where they led. -/
theorem LoopPath.resumes (h : LoopPath hostOk token c n w ms n' w') :
    sendWrappedLoop hostOk token c n w = sendWrappedLoop hostOk token c n' w' := by
  induction h with
  | here => rfl
  | round hlt hcreate _ ih =>
      rw [sendWrappedLoop, dif_pos hlt, hcreate]
      exact ih

/-- The host hands out the next nonces of the collection, one after the other. -/
theorem LoopPath.consecutive (h : LoopPath hostOk token c n w ms n' w') :
    (w'.chain.lastNonce token).toNat = (w.chain.lastNonce token).toNat + ms.length ∧
      ms.map UInt64.toNat =
        List.range' ((w.chain.lastNonce token).toNat + 1) ms.length := by
  induction h with
  | here => exact ⟨rfl, rfl⟩
  | @round n m n' w w' chain ms _ hcreate _ ih =>
      obtain ⟨rfl, hne, -, hlast, -⟩ := Ledger.esdtNftCreate_spec hcreate
      obtain ⟨hend, hms⟩ := ih
      have hnext := toNat_succ hne
      simp only [hlast, Function.update_self, hnext] at hend hms
      rw [List.length_cons, List.map_cons, List.range'_succ, hms, hnext]
      exact ⟨by omega, rfl⟩

/-- The loop of `SendWrapped` in any state, for any two nonces. No round overflows,
and none goes past the end; it ends if the host permits it and the collection has
the nonces, and whatever stops it otherwise is the host. Where it ends, it has
created as many nonces as the chain's is above the counter, the next of the
collection, and the counter is the larger of the two. -/
structure LoopCorrect (w : World) (hostOk : Bool) (c : UInt64) : Prop where
  resumes : ∀ ms n w', LoopPath hostOk w.token c w.sftNonce w ms n w' →
    sendWrappedLoop hostOk w.token c w.sftNonce w =
      sendWrappedLoop hostOk w.token c n w'
  no_overflow : ∀ ms n w', LoopPath hostOk w.token c w.sftNonce w ms n w' → n < c →
    n.toNat + 1 < 2 ^ 64 ∧ (n + 1).toNat = n.toNat + 1
  bounded : ∀ ms n w', LoopPath hostOk w.token c w.sftNonce w ms n w' →
    ms.length ≤ c.toNat - w.sftNonce.toNat
  ends : hostOk = true → w.token ≠ .egld →
    (w.chain.lastNonce w.token).toNat + (c.toNat - w.sftNonce.toNat) < 2 ^ 64 →
      ∃ w', sendWrappedLoop hostOk w.token c w.sftNonce w = .ok w'
  refused : ∀ e, sendWrappedLoop hostOk w.token c w.sftNonce w = .error e → e = .host
  creates : ∀ w', sendWrappedLoop hostOk w.token c w.sftNonce w = .ok w' →
    ∃ ms, LoopPath hostOk w.token c w.sftNonce w ms (max w.sftNonce c) w' ∧
      ms.length = c.toNat - w.sftNonce.toNat ∧
      ms.map UInt64.toNat =
        List.range' ((w.chain.lastNonce w.token).toNat + 1)
          (c.toNat - w.sftNonce.toNat) ∧
      (w'.chain.lastNonce w.token).toNat =
        (w.chain.lastNonce w.token).toNat + (c.toNat - w.sftNonce.toNat)
  counter : ∀ w', sendWrappedLoop hostOk w.token c w.sftNonce w = .ok w' →
    w'.sftNonce = max w.sftNonce c

theorem loopCorrect (w : World) (hostOk : Bool) (c : UInt64) : LoopCorrect w hostOk c where
  resumes _ _ _ hpath := hpath.resumes
  no_overflow ms n w' hpath hlt := by
    have hc := c.toNat_lt
    have hlt' := UInt64.lt_iff_toNat_lt.mp hlt
    exact ⟨by omega, toNat_succ_of_lt hlt⟩
  bounded ms n w' hpath := hpath.bounded
  ends hhost htoken hroom := by
    subst hhost
    exact sendWrappedLoop_ok htoken hroom
  refused e herr := sendWrappedLoop_error herr
  creates w' hloop := by
    obtain ⟨ms, n', hpath, hle⟩ := (sendWrappedLoop_rounds hloop).path
    have hcounts := hpath.counts
    have hbounded := hpath.bounded
    rw [UInt64.lt_iff_toNat_lt] at hle
    have hlen : ms.length = c.toNat - w.sftNonce.toNat := by omega
    have hend : n' = max w.sftNonce c := by
      rw [← UInt64.toNat_inj, toNat_max]
      omega
    subst hend
    obtain ⟨hlast, hms⟩ := hpath.consecutive
    rw [hlen] at hlast hms
    exact ⟨ms, hpath, hlen, hms, hlast⟩
  counter w' hloop := by
    rw [← UInt64.toNat_inj, toNat_max]
    exact sendWrappedLoop_sftNonce hloop rfl

/-! ## The collection over a run -/

/-- The nonces of a collection that a record created. -/
def createdNonces (token : TokenIdentifier) (r : Rec) : List Nat :=
  List.range' ((r.pre.chain.lastNonce token).toNat + 1)
    ((r.post.chain.lastNonce token).toNat - (r.pre.chain.lastNonce token).toNat)

theorem mem_createdNonces {k : Nat} : k ∈ createdNonces token r ↔
    (r.pre.chain.lastNonce token).toNat < k ∧ k ≤ (r.post.chain.lastNonce token).toNat := by
  rw [createdNonces, List.mem_range'_1]
  omega

/-- A nonce of a collection exists once it has been created, whatever has become
of its units since. -/
def Ledger.HasNonce (l : Ledger) (token : TokenIdentifier) (n : UInt64) : Prop :=
  1 ≤ n ∧ n ≤ l.lastNonce token

/-- A performed `SendWrapped` for the chain nonce `c`: it creates the nonces that
are missing up to `c`, so that `c` exists, and mints under `c` and nowhere else. -/
structure Wraps (token : TokenIdentifier) (r : Rec) (c : UInt64) (amount : Nat) :
    Prop where
  creates : createdNonces token r =
    List.range' (r.pre.sftNonce.toNat + 1) (c.toNat - r.pre.sftNonce.toNat)
  exists_after : 1 ≤ c → r.post.chain.HasNonce token c
  mints : ∀ n, r.post.chain.esdt.units (token, n) =
    r.pre.chain.esdt.units (token, n) + created token r.pre.sftNonce c (token, n) +
      if n = c then amount else 0

/-- What a record does to the nonces of the wrapper collection. -/
inductive NonceEffect (token : TokenIdentifier) (r : Rec) : Prop
  | wraps (c : UInt64) (recipient : Address) (amount : Nat) (data : Bytes)
      (hperf : performedAction r = some (.sendWrapped c recipient amount data))
      (hsft : r.post.sftNonce = max r.pre.sftNonce c)
      (hlast : r.post.chain.lastNonce token = max r.pre.sftNonce c)
      (hunits : ∀ k, r.post.chain.esdt.units k = r.pre.chain.esdt.units k +
        created token r.pre.sftNonce c k + if k = (token, c) then amount else 0)
  | kept (hperf : ∀ c recipient amount data,
        performedAction r ≠ some (.sendWrapped c recipient amount data))
      (hsft : r.post.sftNonce = r.pre.sftNonce)
      (hlast : r.post.chain.lastNonce token = r.pre.chain.lastNonce token)

theorem LedgerEffect.nonceEffect (heff : LedgerEffect r)
    (hne : r.pre.token ≠ r.pre.nftToken)
    (hlast : r.pre.chain.lastNonce r.pre.token = r.pre.sftNonce) :
    NonceEffect r.pre.token r := by
  cases heff with
  | still hperf _ _ _ hsft _ hnonce =>
      refine .kept (fun c recipient amount data hsome => ?_) hsft (by rw [hnonce])
      have hexits := hperf _ hsome
      cases hexits
  | settle i accepted hact hret hpost =>
      have hperf := (settled_shows_nothing hret).1
      exact .kept (by rw [hperf]; nofun) (by rw [hpost]) (by rw [hpost]; rfl)
  | takeIn _ hperf _ _ _ hsft _ _ hnonce | withdraw _ _ _ hperf _ _ _ hsft _ _ hnonce
  | withdrawNft _ _ _ _ _ hperf _ _ _ hsft _ _ _ _ _ hnonce =>
      exact .kept (by rw [hperf]; nofun) hsft (by rw [hnonce])
  | sendWrapped c recipient amount data hperf _ _ _ hnext =>
      obtain ⟨hsft, hnonce, -, hunits⟩ := hnext hlast
      exact .wraps c recipient amount data hperf hsft hnonce hunits
  | sendNft _ _ _ _ hperf _ _ _ _ hsft _ _ _ _ hnonce =>
      refine .kept (by rw [hperf]; nofun) hsft ?_
      rw [hnonce, Function.update_of_ne hne]
  | unfreezeNft _ _ _ hperf _ _ _ hsft _ _ hnonce =>
      exact .kept (by rw [hperf]; nofun) hsft (by rw [hnonce])

theorem NonceEffect.next (heff : NonceEffect token r)
    (hlast : r.pre.chain.lastNonce token = r.pre.sftNonce) :
    r.post.chain.lastNonce token = r.post.sftNonce := by
  cases heff with
  | wraps _ _ _ _ _ hsft hnonce => rw [hnonce, hsft]
  | kept _ hsft hnonce => rw [hnonce, hsft, hlast]

theorem record_nonceEffect (hinit : deploy l token nftToken minValid validators = .ok w₀)
    (hne : token ≠ nftToken) (hrun : Run exec w₀ h w)
    (hlast : w.chain.lastNonce token = w.sftNonce) (act : Act) :
    NonceEffect token (record exec w act) := by
  obtain ⟨ht, hn⟩ := run_collections hinit hrun
  have heff := (record_ledgerEffect w act).nonceEffect
  rw [record_pre, ht, hn] at heff
  exact heff hne hlast

/-- The counter is the last nonce of the collection in every state of a run. -/
theorem run_lastNonce (hinit : deploy l token nftToken minValid validators = .ok w₀)
    (hempty : l.lastNonce token = 0) (hne : token ≠ nftToken) (hrun : Run exec w₀ h w) :
    w.chain.lastNonce token = w.sftNonce := by
  induction hrun with
  | start =>
      obtain ⟨-, -, hsft, hchain⟩ := deploy_wrapper hinit
      rw [hchain, hempty, hsft]
  | @step h w act hrun ih =>
      refine (record_nonceEffect hinit hne hrun ih act).next ?_
      rw [record_pre]
      exact ih

theorem run_nonceEffect (hinit : deploy l token nftToken minValid validators = .ok w₀)
    (hempty : l.lastNonce token = 0) (hne : token ≠ nftToken) (hrun : Run exec w₀ h w)
    (act : Act) :
    (record exec w act).pre.chain.lastNonce token = (record exec w act).pre.sftNonce ∧
      NonceEffect token (record exec w act) := by
  have hlast := run_lastNonce hinit hempty hne hrun
  rw [record_pre]
  exact ⟨hlast, record_nonceEffect hinit hne hrun hlast act⟩

theorem NonceEffect.grows (heff : NonceEffect token r) : r.pre.sftNonce ≤ r.post.sftNonce := by
  rw [UInt64.le_iff_toNat_le]
  cases heff with
  | wraps c _ _ _ _ hsft =>
      rw [hsft, toNat_max]
      omega
  | kept _ hsft => rw [hsft]

/-- One more record creates each nonce that is new, and no other. -/
theorem NonceEffect.once (heff : NonceEffect token r)
    (hlast : r.pre.chain.lastNonce token = r.pre.sftNonce) (k : Nat) :
    (if k ∈ createdNonces token r then 1 else 0) +
        (if 1 ≤ k ∧ k ≤ r.pre.sftNonce.toNat then 1 else 0) =
      if 1 ≤ k ∧ k ≤ r.post.sftNonce.toNat then 1 else 0 := by
  have hgrows := UInt64.le_iff_toNat_le.mp heff.grows
  have hmem : k ∈ createdNonces token r ↔
      r.pre.sftNonce.toNat < k ∧ k ≤ r.post.sftNonce.toNat := by
    rw [mem_createdNonces, heff.next hlast, hlast]
  simp only [hmem]
  split <;> split <;> split <;> omega

theorem run_createdNonces (hinit : deploy l token nftToken minValid validators = .ok w₀)
    (hempty : l.lastNonce token = 0) (hne : token ≠ nftToken) (hrun : Run exec w₀ h w)
    (k : Nat) :
    h.countP (fun r => decide (k ∈ createdNonces token r)) =
      if 1 ≤ k ∧ k ≤ w.sftNonce.toNat then 1 else 0 := by
  induction hrun with
  | start =>
      obtain ⟨-, -, hsft, -⟩ := deploy_wrapper hinit
      rw [hsft, UInt64.toNat_zero, if_neg (by omega)]
      rfl
  | @step h w act hrun ih =>
      obtain ⟨hlast, heff⟩ := run_nonceEffect hinit hempty hne hrun act
      have honce := heff.once hlast k
      rw [record_pre] at honce
      rw [List.countP_cons, ih]
      simp only [decide_eq_true_eq]
      omega

theorem NonceEffect.wraps_of (heff : NonceEffect token r)
    (hlast : r.pre.chain.lastNonce token = r.pre.sftNonce) {c : UInt64}
    {recipient : Address} {amount : Nat} {data : Bytes}
    (hperf : performedAction r = some (.sendWrapped c recipient amount data)) :
    Wraps token r c amount := by
  cases heff with
  | kept hno => exact absurd hperf (hno _ _ _ _)
  | wraps c' recipient' amount' data' hown hsft hnonce hunits =>
      rw [hown] at hperf
      cases hperf
      refine ⟨?_, fun hpos => ⟨hpos, ?_⟩, fun n => ?_⟩
      · rw [createdNonces, hnonce, hlast, toNat_max]
        congr 1
        omega
      · rw [hnonce, UInt64.le_iff_toNat_le, toNat_max]
        omega
      · rw [hunits]
        simp only [Prod.mk.injEq, true_and]

theorem NonceEffect.creates_none (heff : NonceEffect token r)
    (hno : ∀ c recipient amount data,
      performedAction r ≠ some (.sendWrapped c recipient amount data)) :
    createdNonces token r = [] := by
  cases heff with
  | wraps _ _ _ _ hperf => exact absurd hperf (hno _ _ _ _)
  | kept _ _ hnonce =>
      rw [createdNonces, hnonce, Nat.sub_self]
      rfl

/-- The nonces of the wrapper collection in a state a run reached. The counter is
the last one and has never gone back; a `SendWrapped` performed on the way
created the missing nonces and minted under its own, and nothing else created
any, so that each was created once. The loop of a further `SendWrapped` ends for
every chain nonce if the host permits it, and the mint after it finds its nonce. -/
structure NoncesAgree (token : TokenIdentifier) (h : List Rec) (w : World) : Prop where
  counter : w.sftNonce = w.chain.lastNonce token
  grows : ∀ r ∈ h, r.pre.sftNonce ≤ r.post.sftNonce
  wraps : ∀ r ∈ h, ∀ c recipient amount data,
    performedAction r = some (.sendWrapped c recipient amount data) →
      Wraps token r c amount
  others : ∀ r ∈ h, (∀ c recipient amount data,
    performedAction r ≠ some (.sendWrapped c recipient amount data)) →
      createdNonces token r = []
  once : ∀ k, h.countP (fun r => decide (k ∈ createdNonces token r)) =
    if 1 ≤ k ∧ k ≤ w.sftNonce.toNat then 1 else 0
  ends : token ≠ .egld → ∀ id a signer c, ∃ w₁,
    sendWrappedLoop true token c w.sftNonce (w.sign id a signer) = .ok w₁
  mints : ∀ id a signer hostOk c w₁, 1 ≤ c →
    sendWrappedLoop hostOk token c w.sftNonce (w.sign id a signer) = .ok w₁ →
      w₁.chain.HasNonce token c

/-- The loop of `SendWrapped` is correct for all counters and chain nonces, and
keeps the nonces of the wrapper collection those of the other chain in every
state of every run. -/
theorem wrapper_nonces_agree
    (hinit : deploy l token nftToken minValid validators = .ok w₀)
    (hempty : l.lastNonce token = 0) (hne : token ≠ nftToken) (hrun : Run exec w₀ h w) :
    (∀ (s : World) (hostOk : Bool) (c : UInt64), LoopCorrect s hostOk c) ∧
      NoncesAgree token h w := by
  have hlast := run_lastNonce hinit hempty hne hrun
  have heffs : ∀ r ∈ h, r.pre.chain.lastNonce token = r.pre.sftNonce ∧ NonceEffect token r :=
    along_forall.mp (hrun.along fun _ _ act hrun => run_nonceEffect hinit hempty hne hrun act)
  refine ⟨loopCorrect, ?_⟩
  refine
    { counter := hlast.symm
      grows := fun r hr => (heffs r hr).2.grows
      wraps := fun r hr _ _ _ _ hperf => (heffs r hr).2.wraps_of (heffs r hr).1 hperf
      others := fun r hr hno => (heffs r hr).2.creates_none hno
      once := run_createdNonces hinit hempty hne hrun
      ends := fun htoken id a signer c => ?_
      mints := fun id a signer hostOk c w₁ hpos hloop => ⟨hpos, ?_⟩ }
  · refine sendWrappedLoop_ok htoken ?_
    have hc := c.toNat_lt
    have hs := w.sftNonce.toNat_lt
    show (w.chain.lastNonce token).toNat + _ < 2 ^ 64
    rw [hlast]
    omega
  · have hend := (sendWrappedLoop_spec hloop rfl hlast).2.1
    rw [hend, UInt64.le_iff_toNat_le, toNat_max]
    omega

/-- The nonces 3 and then 1 are wrapped, with an NFT in between. -/
theorem wrapper_nonces_agree_three :
    let run := play exec (freshWorld 2 [alice, bob, charlie])
      [send bob (.validateSendWrapped 3 1 dan 5 none),
        send alice (.validateSendWrapped 3 1 dan 5 none), send bob nftVote,
        send alice nftVote, send bob (.validateSendWrapped 2 3 dan 7 none),
        send alice (.validateSendWrapped 2 3 dan 7 none)]
    (∀ (s : World) (hostOk : Bool) (c : UInt64), LoopCorrect s hostOk c) ∧
      NoncesAgree xpdt run.1 run.2 :=
  wrapper_nonces_agree deploy_three rfl (by decide) (run_play _ _ _)

/-- Of every nonce that exists the contract holds the two units it was created
with, as long as no release takes of them. -/
theorem nonce_held (hinit : deploy l token nftToken minValid validators = .ok w₀)
    (hempty : l.EmptyOf token) (hne : token ≠ nftToken) (hrun : Run exec w₀ h w)
    (haccept : AllAccepted h) (huntouched : Along ReserveUntouched h)
    (hnonce : w.chain.HasNonce token n) : 2 ≤ w.chain.esdt.holding (token, n) := by
  have hheld := run_reserve_held hinit hempty hne hnonce.1 hrun haccept huntouched
  have hlast := run_lastNonce hinit hempty.lastNonce hne hrun
  rw [(run_collections hinit hrun).1, Wrapper.reserve,
    if_pos (hlast ▸ hnonce.2 : n ≤ w.sftNonce)] at hheld
  exact hheld

end ElrondMint
