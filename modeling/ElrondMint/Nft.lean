import ElrondMint.Transfers
import Mathlib.Data.List.Perm.Subperm

/-!
# The wrapped NFTs

`SendNft` writes the chain nonce and the id of a foreign NFT into the
attributes and the uris of a fresh one, and `withdrawNft` reads them back
before it burns it. A nonce of the NFT collection is created once, with one
unit, and nothing but `withdrawNft` destroys it; freezing and releasing it
only move it about. So what exists of a nonce, plus the number of times it
has been given back, is one from the moment it is minted.

`NftEffect` is the part of `LedgerEffect` that the collection can see, and
`run_nft` the invariant. What `withdrawNft` announces is then what the minting
call was told, and it announces it at most once.
-/

namespace ElrondMint

open Custody Rollback

/-- Whether a record is a successful `withdrawNft` of nonce `k`. -/
def givesBack (k : UInt64) (r : Rec) : Bool := givenBack r == some k

/-- What `SendNft` stores with the NFT it mints. -/
def wrappedData (c : UInt64) (id : Bytes) : EsdtTokenData :=
  ⟨[], 0, [], topEncodeU64 c, [id]⟩

/-- What one record does to the NFT collection. -/
inductive NftEffect (r : Rec) : Prop
  | still (hminted : mintedNft r = none) (hback : givenBack r = none)
      (hevent : ∀ c x id, insertedEvent r ≠ some (.unfreezeNft c x id))
      (hlast : r.post.chain.lastNonce r.pre.nftToken =
        r.pre.chain.lastNonce r.pre.nftToken)
      (hunits : ∀ k, r.post.chain.esdt.units (r.pre.nftToken, k) =
        r.pre.chain.esdt.units (r.pre.nftToken, k))
      (hdata : ∀ k, r.post.chain.tokenData r.pre.nftToken k =
        r.pre.chain.tokenData r.pre.nftToken k)
  | back (n c : UInt64) (recipient : String) (id : Bytes) (value : Nat)
      (hminted : mintedNft r = none) (hback : givenBack r = some n)
      (hevent : insertedEvent r = some (.unfreezeNft c recipient id))
      (hpays : r.act.paysUnits = true → 1 ≤ value)
      (hpaid : r.pre.chain.esdt.holding (r.pre.nftToken, n) + value ≤
        r.pre.chain.esdt.units (r.pre.nftToken, n))
      (huri : 0 < r.pre.chain.esdt.holding (r.pre.nftToken, n) + value →
        (r.pre.chain.tokenData r.pre.nftToken n).uris.head? = some id ∧
          topDecodeU64 (r.pre.chain.tokenData r.pre.nftToken n).attributes = some c)
      (hlast : r.post.chain.lastNonce r.pre.nftToken =
        r.pre.chain.lastNonce r.pre.nftToken)
      (hunits : ∀ k, r.post.chain.esdt.units (r.pre.nftToken, k) +
        (if k = n then 1 else 0) = r.pre.chain.esdt.units (r.pre.nftToken, k))
      (hdata : ∀ k, r.post.chain.tokenData r.pre.nftToken k =
        r.pre.chain.tokenData r.pre.nftToken k)
  | minted (n c : UInt64) (recipient : Address) (id : Bytes)
      (hperf : performedAction r = some (.sendNft c recipient id))
      (hminted : mintedNft r = some (n, c, id)) (hback : givenBack r = none)
      (hevent : insertedEvent r = none)
      (hnext : n = r.pre.chain.lastNonce r.pre.nftToken + 1) (hne : n ≠ 0)
      (hlast : r.post.chain.lastNonce r.pre.nftToken = n)
      (hunits : ∀ k, r.post.chain.esdt.units (r.pre.nftToken, k) =
        r.pre.chain.esdt.units (r.pre.nftToken, k) + if k = n then 1 else 0)
      (hdata : ∀ k, r.post.chain.tokenData r.pre.nftToken k =
        if k = n then wrappedData c id else r.pre.chain.tokenData r.pre.nftToken k)

/-- Every payment in ESDT delivers at least one unit. -/
def PaysUnits (h : List Rec) : Prop := ∀ r ∈ h, r.act.paysUnits = true

instance (h : List Rec) : Decidable (PaysUnits h) :=
  inferInstanceAs (Decidable (∀ r ∈ h, _))

variable {w w₀ : World} {l : Ledger} {token nftToken : TokenIdentifier}
  {minValid : Nat} {validators : List Address} {h past : List Rec} {r : Rec}
  {act : Act} {k : UInt64}

theorem mintedNft_none (hperf : ∀ c x id, performedAction r ≠ some (.sendNft c x id)) :
    mintedNft r = none := by
  unfold mintedNft
  split
  · next hr _ => exact absurd hr (hperf _ _ _)
  · rfl

theorem LedgerEffect.nftEffect (heff : LedgerEffect r)
    (hne : r.pre.token ≠ r.pre.nftToken) : NftEffect r := by
  cases heff with
  | still hperf hevent hin hback hsft hesdt hlast hdata =>
      refine .still (mintedNft_none fun c x id hr => ?_) hback (fun c x id hr => ?_)
        (by rw [hlast]) (fun k => by rw [hesdt]) fun k => by rw [hdata]
      · have hexits := hperf _ hr
        simp [Action.exits] at hexits
      · have hno := hevent _ hr
        simp [Event.isWithdrawal] at hno
  | settle i accepted hact hret hpost =>
      obtain ⟨hperf, hevent⟩ := settled_shows_nothing hret
      have hback : givenBack r = none := by rw [givenBack, hact]
      refine .still (mintedNft_none (by simp [hperf])) hback (by simp [hevent])
        (by rw [hpost]; rfl) (fun k => ?_) fun k => by rw [hpost]; rfl
      rw [hpost]
      exact Account.settle_units _ _ _ _
  | takeIn p hperf hevent hin hback hsft hhold hunits hlast hdata =>
      refine .still (mintedNft_none (by simp [hperf])) hback (fun c x id hr => ?_)
        (by rw [hlast]) (fun k => hunits _) fun k => by rw [hdata]
      have hno := hevent _ hr
      simp [Event.isWithdrawal] at hno
  | withdraw n recipient value hperf hevent hin hback hsft hhold hunits hlast hdata =>
      refine .still (mintedNft_none (by simp [hperf])) hback (by simp [hevent])
        (by rw [hlast]) (fun k => ?_) fun k => by rw [hdata]
      have hown := hunits (r.pre.nftToken, k)
      rw [if_neg fun heq => hne (congrArg Prod.fst heq).symm] at hown
      exact hown
  | withdrawNft n c recipient id value hperf hevent hin hback hsft hpays hpaid huri
      hhold hunits hlast hdata =>
      refine .back n c recipient id value (mintedNft_none (by simp [hperf])) hback
        hevent hpays hpaid huri (by rw [hlast]) (fun k => ?_) fun k => by rw [hdata]
      have hown := hunits (r.pre.nftToken, k)
      simp only [Prod.mk.injEq, true_and] at hown
      exact hown
  | sendWrapped c recipient amount data hperf hevent hin hback hnext hother =>
      obtain ⟨hlast, hsame⟩ := hother _ hne.symm
      exact .still (mintedNft_none (by simp [hperf])) hback (by simp [hevent]) hlast
        (fun k => (hsame k).2.1) fun k => (hsame k).2.2
  | sendNft n c recipient id hperf hminted hevent hin hback hsft hnext hne' hhold
      hunits hlast hdata =>
      refine .minted n c recipient id hperf hminted hback hevent hnext hne'
        (by rw [hlast, Function.update_self]) (fun k => ?_) fun k => ?_
      · have hown := hunits (r.pre.nftToken, k)
        simp only [Prod.mk.injEq, true_and] at hown
        exact hown
      · rw [hdata]
        simp only [true_and]
        rfl
  | unfreezeNft recipient token n hperf hevent hin hback hsft hhold hunits hlast hdata =>
      exact .still (mintedNft_none (by simp [hperf])) hback (by simp [hevent])
        (by rw [hlast]) (fun k => hunits _) fun k => by rw [hdata]

/-! ## The invariant -/

/-- What exists of each nonce, and what the minted ones say. -/
structure NftInvariant (h : List Rec) (w : World) : Prop where
  units : ∀ k, w.chain.esdt.units (w.nftToken, k) + h.countP (givesBack k) =
    if 1 ≤ k ∧ k ≤ w.chain.lastNonce w.nftToken then 1 else 0
  origin : ∀ k, 1 ≤ k → k ≤ w.chain.lastNonce w.nftToken →
    ∃ r ∈ h, ∃ c id, mintedNft r = some (k, c, id)
  minted : ∀ r ∈ h, ∀ k c id, mintedNft r = some (k, c, id) →
    k ≤ w.chain.lastNonce w.nftToken ∧ w.chain.tokenData w.nftToken k = wrappedData c id

/-- The nonces handed out once the next one is. -/
theorem nonce_le_next {last n : UInt64} (hnext : n = last + 1) (hne : n ≠ 0) :
    last < n ∧ ∀ k, (1 ≤ k ∧ k ≤ n ↔ k = n ∨ (1 ≤ k ∧ k ≤ last)) := by
  have hsucc : n.toNat = last.toNat + 1 := by
    have hlast := last.toNat_lt
    have hpos : n.toNat ≠ 0 := fun h0 => hne (UInt64.toNat_inj.mp h0)
    rw [hnext, UInt64.toNat_add, UInt64.toNat_one] at hpos ⊢
    omega
  simp only [UInt64.lt_iff_toNat_lt, UInt64.le_iff_toNat_le, ← UInt64.toNat_inj,
    UInt64.toNat_one]
  refine ⟨by omega, fun k => by omega⟩

theorem countP_givesBack_cons (k : UInt64) (r : Rec) (past : List Rec) :
    (r :: past).countP (givesBack k) =
      past.countP (givesBack k) + if givenBack r = some k then 1 else 0 := by
  rw [List.countP_cons]
  simp only [givesBack, beq_iff_eq]

/-- A record that mints nothing leaves the minted nonces as they were. -/
theorem NftInvariant.keep (hi : NftInvariant past r.pre) (hminted : mintedNft r = none)
    (ht : r.post.nftToken = r.pre.nftToken)
    (hlast : r.post.chain.lastNonce r.pre.nftToken = r.pre.chain.lastNonce r.pre.nftToken)
    (hunits : ∀ k, r.post.chain.esdt.units (r.pre.nftToken, k) +
        (if givenBack r = some k then 1 else 0) =
      r.pre.chain.esdt.units (r.pre.nftToken, k))
    (hdata : ∀ k, r.post.chain.tokenData r.pre.nftToken k =
      r.pre.chain.tokenData r.pre.nftToken k) : NftInvariant (r :: past) r.post := by
  refine ⟨fun k => ?_, fun k h1 hk => ?_, fun r' hr' k c id hm => ?_⟩
  · have hold := hi.units k
    have hown := hunits k
    rw [ht, hlast, countP_givesBack_cons]
    omega
  · rw [ht, hlast] at hk
    obtain ⟨r', hr', horigin⟩ := hi.origin k h1 hk
    exact ⟨r', List.mem_cons_of_mem _ hr', horigin⟩
  · rw [ht, hlast, hdata]
    rcases List.mem_cons.mp hr' with rfl | hr'
    · simp [hminted] at hm
    · exact hi.minted r' hr' k c id hm

theorem NftInvariant.step (hi : NftInvariant past r.pre) (heff : NftEffect r)
    (ht : r.post.nftToken = r.pre.nftToken) : NftInvariant (r :: past) r.post := by
  cases heff with
  | still hminted hback hevent hlast hunits hdata =>
      exact hi.keep hminted ht hlast (fun k => by simp [hback, hunits]) hdata
  | back n c recipient id value hminted hback hevent hpays hpaid huri hlast hunits hdata =>
      refine hi.keep hminted ht hlast (fun k => ?_) hdata
      simp only [hback, Option.some.injEq, eq_comm (a := n)]
      exact hunits k
  | minted n c recipient id hperf hminted hback hevent hnext hne hlast hunits hdata =>
      obtain ⟨hfresh, hle⟩ := nonce_le_next hnext hne
      refine ⟨fun k => ?_, fun k h1 hk => ?_, fun r' hr' k c' id' hm => ?_⟩
      · have hk := hi.units k
        simp only [ht, hlast, hunits, countP_givesBack_cons, hback, reduceCtorEq,
          if_false, hle]
        by_cases hkn : k = n
        · subst hkn
          rw [if_neg fun hold => UInt64.not_le.mpr hfresh hold.2] at hk
          rw [if_pos rfl, if_pos (.inl rfl)]
          omega
        · simp only [hkn, false_or, if_false]
          omega
      · rw [ht, hlast] at hk
        rcases (hle k).mp ⟨h1, hk⟩ with rfl | ⟨h1, hk⟩
        · exact ⟨r, List.mem_cons_self, c, id, hminted⟩
        · obtain ⟨r', hr', horigin⟩ := hi.origin k h1 hk
          exact ⟨r', List.mem_cons_of_mem _ hr', horigin⟩
      · rw [ht, hlast, hdata]
        rcases List.mem_cons.mp hr' with rfl | hr'
        · rw [hminted] at hm
          cases hm
          exact ⟨UInt64.le_refl _, if_pos rfl⟩
        · obtain ⟨hk, hsaid⟩ := hi.minted r' hr' k c' id' hm
          have hlt : k < n := UInt64.lt_of_le_of_lt hk hfresh
          rw [if_neg (UInt64.ne_of_lt hlt)]
          exact ⟨UInt64.le_of_lt hlt, hsaid⟩

theorem run_nft (hinit : deploy l token nftToken minValid validators = .ok w₀)
    (hempty : l.EmptyOf nftToken) (hne : token ≠ nftToken) (hrun : Run exec w₀ h w) :
    NftInvariant h w := by
  induction hrun with
  | start =>
      obtain ⟨-, hnft, -, hchain⟩ := deploy_wrapper hinit
      have hnone : ∀ k, 1 ≤ k → ¬ k ≤ w₀.chain.lastNonce w₀.nftToken := by
        intro k h1 hk
        rw [hchain, hnft, hempty.lastNonce] at hk
        exact absurd (UInt64.le_trans h1 hk) (by decide)
      refine ⟨fun k => ?_, fun k h1 hk => absurd hk (hnone k h1),
        List.forall_mem_nil _⟩
      rw [if_neg fun hk => hnone k hk.1 hk.2, hchain, hnft, hempty.units]
      rfl
  | @step h w act hrun ih =>
      obtain ⟨ht, hnft⟩ := run_collections hinit hrun
      obtain ⟨-, hnft'⟩ := run_collections hinit (.step act hrun)
      rw [← record_pre exec w act] at ih ht hnft
      exact ih.step ((record_ledgerEffect w act).nftEffect (by rw [ht, hnft]; exact hne))
        (hnft'.trans hnft.symm)

/-- A unit of the collection that exists was minted, and was not given back. -/
theorem NftInvariant.exists_minted (hi : NftInvariant h w)
    (hpos : 0 < w.chain.esdt.units (w.nftToken, k)) :
    1 ≤ k ∧ (∀ r ∈ h, givenBack r ≠ some k) ∧ ∃ r ∈ h, ∃ c id,
      mintedNft r = some (k, c, id) ∧
        w.chain.tokenData w.nftToken k = wrappedData c id := by
  have hunits := hi.units k
  split at hunits
  · next hk =>
      obtain ⟨r, hr, c, id, hm⟩ := hi.origin k hk.1 hk.2
      have hzero : h.countP (givesBack k) = 0 := by omega
      refine ⟨hk.1, fun r' hr' hback => ?_, r, hr, c, id, hm, (hi.minted r hr k c id hm).2⟩
      exact List.countP_eq_zero.mp hzero r' hr' (beq_iff_eq.mpr hback)
  · omega

/-! ## `withdrawNft` -/

/-- The only panics of `withdrawNft` are its two reads of the stored data. -/
theorem withdrawNft_panics {caller : Address} {p : Payment} {hostOk : Bool}
    {recipient : String}
    (h : exec w (.tx ⟨caller, p, hostOk, .withdrawNft recipient⟩) = .error .panic) :
    ∃ chain, w.chain.receive p = .ok chain ∧ p.token = w.nftToken ∧ p.nonce > 0 ∧
      ((chain.getEsdtTokenData p.token p.nonce).uris.head? = none ∨
        topDecodeU64 (chain.getEsdtTokenData p.token p.nonce).attributes = none) := by
  rcases bind_eq_error.mp h with hcheck | ⟨_, -, h⟩
  · cases hcheck
  rcases bind_eq_error.mp h with hrec | ⟨chain, hrec, h⟩
  · cases Ledger.receive_error hrec
  refine ⟨chain, hrec, ?_⟩
  rcases bind_eq_error.mp h with h | ⟨_, -, h⟩
  swap
  · simp at h
  rcases bind_eq_error.mp h with hreq | ⟨_, htoken, h⟩
  · cases (require_eq_error.mp hreq).2
  rcases bind_eq_error.mp h with hreq | ⟨_, hnonce, h⟩
  · cases (require_eq_error.mp hreq).2
  refine ⟨require_eq_ok.mp htoken, require_eq_ok.mp hnonce, ?_⟩
  rcases bind_eq_error.mp h with huri | ⟨_, -, h⟩
  · exact .inl (unwrap_eq_error.mp huri).1
  rcases bind_eq_error.mp h with hattr | ⟨_, -, h⟩
  · exact .inr (unwrap_eq_error.mp hattr).1
  rcases bind_eq_error.mp h with hburn | ⟨_, -, h⟩
  · cases hostCall_error hburn
  · simp at h

/-- It gives back what the stored data says, if the host lets it burn. -/
theorem withdrawNft_gives {caller : Address} {p : Payment} {recipient : String}
    {chain : Ledger} {c : UInt64} {id : Bytes}
    (hrec : w.chain.receive p = .ok chain) (htoken : p.token = w.nftToken)
    (hnonce : p.nonce > 0) (hegld : p.token ≠ .egld)
    (hheld : 1 ≤ chain.esdt.holding (p.token, p.nonce))
    (hdata : chain.getEsdtTokenData p.token p.nonce = wrappedData c id) :
    ∃ chain₂, exec w (.tx ⟨caller, p, true, .withdrawNft recipient⟩) =
      .ok (.ident (w.eventIdent + 1),
        { w.emit (.unfreezeNft c recipient id) with chain := chain₂ }) := by
  obtain ⟨chain₂, hburn⟩ := Ledger.esdtLocalBurn_of_le hegld hheld
  have hcall : withdrawNft { w with chain := chain } true p.token p.nonce recipient =
      .ok (w.eventIdent + 1,
        { w.emit (.unfreezeNft c recipient id) with chain := chain₂ }) := by
    refine bind_eq_ok.mpr ⟨(), require_eq_ok.mpr htoken, ?_⟩
    refine bind_eq_ok.mpr ⟨(), require_eq_ok.mpr hnonce, ?_⟩
    simp only [hdata]
    refine bind_eq_ok.mpr ⟨id, rfl, ?_⟩
    refine bind_eq_ok.mpr ⟨c, unwrap_eq_ok.mpr (topDecode_topEncode c), ?_⟩
    exact bind_eq_ok.mpr ⟨chain₂, hburn, rfl⟩
  refine ⟨chain₂, bind_eq_ok.mpr ⟨(), rfl, bind_eq_ok.mpr ⟨chain, hrec, ?_⟩⟩⟩
  exact bind_eq_ok.mpr ⟨_, hcall, rfl⟩

/-- A payment with a nonce is one in ESDT. -/
theorem paid_in_esdt {caller : Address} {p : Payment} {hostOk : Bool} {call : Call}
    {chain : Ledger} (hpays : (Act.tx ⟨caller, p, hostOk, call⟩).paysUnits = true)
    (hrec : l.receive p = .ok chain) (hnonce : p.nonce > 0) :
    p.token ≠ .egld ∧ 1 ≤ p.value := by
  cases p with
  | egld value => cases hnonce
  | esdt token n value => exact ⟨(Ledger.receive_esdt.mp ⟨_, hrec⟩).1, of_decide_eq_true hpays⟩

/-- What a payment in the collection finds: the NFT is in, with the data it was
minted with, and was never given back. -/
theorem NftInvariant.paid {p : Payment} {chain : Ledger} (hi : NftInvariant h w)
    (hrec : w.chain.receive p = .ok chain) (htoken : p.token = w.nftToken)
    (hegld : p.token ≠ .egld) (hvalue : 1 ≤ p.value) :
    p.nonce > 0 ∧ 1 ≤ chain.esdt.holding (p.token, p.nonce) ∧
      (∀ r ∈ h, givenBack r ≠ some p.nonce) ∧
      ∃ r ∈ h, ∃ c id, mintedNft r = some (p.nonce, c, id) ∧
        chain.getEsdtTokenData p.token p.nonce = wrappedData c id := by
  obtain ⟨hout, hhold, -, -, hdata⟩ := Ledger.receive_spec hrec
  have hown := Payment.units_of_token hegld (p.token, p.nonce)
  rw [if_pos rfl] at hown
  have hout := hout (p.token, p.nonce)
  have hhold := hhold (p.token, p.nonce)
  rw [hown] at hout hhold
  have hheld : 0 < chain.esdt.holding (p.token, p.nonce) := by omega
  have hle := Account.holding_add_le_units hout
  rw [htoken] at hle
  obtain ⟨h1, hback, r, hr, c, id, hm, hsaid⟩ :=
    hi.exists_minted (k := p.nonce) (by omega)
  refine ⟨UInt64.lt_of_lt_of_le (by decide) h1, hheld, hback, r, hr, c, id, hm, ?_⟩
  rw [Ledger.getEsdtTokenData, if_pos hheld, hdata, htoken, hsaid]

/-! ## The round trip -/

/-- What one record shows of the round trip of a wrapped NFT. -/
structure NftRoundTrip (past : List Rec) (r : Rec) : Prop where
  no_panic : ∀ caller p hostOk recipient,
    r.act = .tx ⟨caller, p, hostOk, .withdrawNft recipient⟩ → r.ret ≠ .error .panic
  accepted : ∀ caller k value recipient chain,
    r.act = .tx ⟨caller, .esdt r.pre.nftToken k value, true, .withdrawNft recipient⟩ →
      r.pre.chain.receive (.esdt r.pre.nftToken k value) = .ok chain →
        givenBack r = some k
  origin : ∀ k, givenBack r = some k → ∃ r' ∈ past, ∃ c id, mintedNft r' = some (k, c, id)
  restored : ∀ k, givenBack r = some k → ∀ r' ∈ past, ∀ c id,
    mintedNft r' = some (k, c, id) →
      ∃ recipient, insertedEvent r = some (.unfreezeNft c recipient id)
  once : ∀ k, givenBack r = some k → ∀ r' ∈ past, givenBack r' ≠ some k
  only : ∀ c recipient id, insertedEvent r = some (.unfreezeNft c recipient id) →
    ∃ k, givenBack r = some k

/-- What a record gives back was minted, as announced, and not given back. -/
theorem NftInvariant.back (hi : NftInvariant past r.pre) (heff : NftEffect r)
    (hpays : r.act.paysUnits = true) (hback : givenBack r = some k) :
    (∀ r' ∈ past, givenBack r' ≠ some k) ∧
      (∃ r' ∈ past, ∃ c id, mintedNft r' = some (k, c, id)) ∧
      ∀ r' ∈ past, ∀ c id, mintedNft r' = some (k, c, id) →
        ∃ recipient, insertedEvent r = some (.unfreezeNft c recipient id) := by
  cases heff with
  | still _ hnone =>
      rw [hnone] at hback
      simp at hback
  | minted _ _ _ _ _ _ hnone =>
      rw [hnone] at hback
      simp at hback
  | back n c recipient id value hminted hn hevent hvalue hpaid huri hlast hunits hdata =>
      rw [hn] at hback
      cases hback
      have hone := hvalue hpays
      obtain ⟨huris, hattr⟩ := huri (by omega)
      obtain ⟨-, hfirst, r', hr', c', id', hm, -⟩ := hi.exists_minted (k := k) (by omega)
      refine ⟨hfirst, ⟨r', hr', c', id', hm⟩, fun r₁ hr₁ c₁ id₁ hm₁ => ⟨recipient, ?_⟩⟩
      rw [(hi.minted r₁ hr₁ k c₁ id₁ hm₁).2] at huris hattr
      have hid : id₁ = id := Option.some.inj huris
      have hc : c₁ = c := Option.some.inj ((topDecode_topEncode c₁).symm.trans hattr)
      rw [hevent, hid, hc]

theorem NftInvariant.no_panic (hi : NftInvariant h w) {caller : Address} {p : Payment}
    {hostOk : Bool} {recipient : String}
    (hact : act = .tx ⟨caller, p, hostOk, .withdrawNft recipient⟩)
    (hpays : act.paysUnits = true) : (record exec w act).ret ≠ .error .panic := by
  subst hact
  intro hret
  cases hex : exec w (.tx ⟨caller, p, hostOk, .withdrawNft recipient⟩) with
  | ok out =>
      rw [record_ok hex] at hret
      simp at hret
  | error e =>
      rw [record_error hex] at hret
      cases hret
      obtain ⟨chain, hrec, htoken, hnonce, hnone⟩ := withdrawNft_panics hex
      obtain ⟨hegld, hvalue⟩ := paid_in_esdt hpays hrec hnonce
      obtain ⟨-, -, -, r, -, c, id, -, hdata⟩ := hi.paid hrec htoken hegld hvalue
      rw [hdata] at hnone
      rcases hnone with huri | hattr
      · cases huri
      · rw [wrappedData, topDecode_topEncode] at hattr
        simp at hattr

theorem NftInvariant.accepted (hi : NftInvariant h w) {caller : Address} {value : Nat}
    {recipient : String} {chain : Ledger}
    (hact : act = .tx ⟨caller, .esdt w.nftToken k value, true, .withdrawNft recipient⟩)
    (hpays : act.paysUnits = true)
    (hrec : w.chain.receive (.esdt w.nftToken k value) = .ok chain) :
    givenBack (record exec w act) = some k := by
  subst hact
  have hegld := (Ledger.receive_esdt.mp ⟨_, hrec⟩).1
  obtain ⟨hnonce, hheld, -, r, -, c, id, -, hdata⟩ :=
    hi.paid hrec rfl hegld (of_decide_eq_true hpays)
  have hex : ∃ chain₂,
      exec w (.tx ⟨caller, .esdt w.nftToken k value, true, .withdrawNft recipient⟩) =
        .ok (.ident (w.eventIdent + 1),
          { w.emit (.unfreezeNft c recipient id) with chain := chain₂ }) :=
    withdrawNft_gives hrec rfl hnonce hegld hheld hdata
  obtain ⟨chain₂, hex⟩ := hex
  rw [record_ok hex]
  rfl

/-- An `UnfreezeNft` event stands for an NFT that was given back. -/
theorem NftEffect.only (heff : NftEffect r) {c : UInt64} {recipient : String} {id : Bytes}
    (hevent : insertedEvent r = some (.unfreezeNft c recipient id)) :
    ∃ k, givenBack r = some k := by
  cases heff with
  | still _ _ hno => exact absurd hevent (hno _ _ _)
  | back n _ _ _ _ _ hback => exact ⟨n, hback⟩
  | minted _ _ _ _ _ _ _ hno =>
      rw [hno] at hevent
      simp at hevent

theorem NftInvariant.roundTrip (hi : NftInvariant past w) (act : Act)
    (hne : w.token ≠ w.nftToken) (hpays : act.paysUnits = true) :
    NftRoundTrip past (record exec w act) := by
  have heff := (record_ledgerEffect w act).nftEffect (by rw [record_pre]; exact hne)
  have hback : ∀ k, givenBack (record exec w act) = some k → _ :=
    fun k => NftInvariant.back (by rw [record_pre]; exact hi) heff
      (by rw [record_act]; exact hpays)
  refine ⟨fun _ _ _ _ hact => ?_, fun _ _ _ _ _ hact hrec => ?_,
    fun k hk => (hback k hk).2.1, fun k hk => (hback k hk).2.2, fun k hk => (hback k hk).1,
    fun _ _ _ => heff.only⟩
  · rw [record_act] at hact
    exact hi.no_panic hact hpays
  · rw [record_act, record_pre] at hact
    rw [record_pre] at hrec
    exact hi.accepted hact hpays hrec

/-! ## Events against mints -/

/-- Whether a record inserted `UnfreezeNft` for a chain nonce and an id. -/
def unfreezesNft (c : UInt64) (id : Bytes) (r : Rec) : Bool :=
  match insertedEvent r with
  | some (.unfreezeNft c' _ id') => decide (c' = c ∧ id' = id)
  | _ => false

/-- Whether a record performed `SendNft` for a chain nonce and an id. -/
def sendsNft (c : UInt64) (id : Bytes) (r : Rec) : Bool :=
  match performedAction r with
  | some (.sendNft c' _ id') => decide (c' = c ∧ id' = id)
  | _ => false

/-- The nonces given back with an `UnfreezeNft` for a chain nonce and an id. -/
def backNonces (c : UInt64) (id : Bytes) (h : List Rec) : List UInt64 :=
  (h.filter (unfreezesNft c id)).filterMap givenBack

/-- The nonces minted for a chain nonce and an id. -/
def mintNonces (c : UInt64) (id : Bytes) (h : List Rec) : List UInt64 :=
  (h.filter (sendsNft c id)).filterMap fun r => (mintedNft r).map Prod.fst

section Counting

variable {c : UInt64} {id : Bytes}

theorem unfreezesNft_iff : unfreezesNft c id r = true ↔
    ∃ recipient, insertedEvent r = some (.unfreezeNft c recipient id) := by
  unfold unfreezesNft
  split
  · next c' recipient id' hevent =>
      rw [hevent, decide_eq_true_iff]
      refine ⟨?_, ?_⟩
      · rintro ⟨rfl, rfl⟩
        exact ⟨recipient, rfl⟩
      · rintro ⟨_, hsame⟩
        cases hsame
        exact ⟨rfl, rfl⟩
  · next hno =>
      simp only [Bool.false_eq_true, false_iff, not_exists]
      exact fun recipient hevent => hno _ _ _ hevent

theorem mem_backNonces : k ∈ backNonces c id h ↔
    ∃ r ∈ h, unfreezesNft c id r = true ∧ givenBack r = some k := by
  simp only [backNonces, List.mem_filterMap, List.mem_filter, and_assoc]

/-- The nonce of an NFT minted for a chain nonce and an id is among theirs. -/
theorem mem_mintNonces (hr : r ∈ h) (hm : mintedNft r = some (k, c, id)) :
    k ∈ mintNonces c id h := by
  have hsends : sendsNft c id r = true := by
    unfold mintedNft at hm
    split at hm
    · next hperf _ =>
        cases hm
        rw [sendsNft, hperf]
        exact decide_eq_true ⟨rfl, rfl⟩
    · simp at hm
  refine List.mem_filterMap.mpr ⟨r, List.mem_filter.mpr ⟨hr, hsends⟩, ?_⟩
  rw [hm]
  rfl

/-- An `UnfreezeNft` of a round trip adds the nonce it is paid in. -/
theorem backNonces_cons (htrip : NftRoundTrip past r) (hu : unfreezesNft c id r = true)
    (h : List Rec) :
    ∃ k, givenBack r = some k ∧ backNonces c id (r :: h) = k :: backNonces c id h := by
  obtain ⟨recipient, hevent⟩ := unfreezesNft_iff.mp hu
  obtain ⟨k, hback⟩ := htrip.only c recipient id hevent
  refine ⟨k, hback, ?_⟩
  rw [backNonces, List.filter_cons_of_pos hu, List.filterMap_cons_some hback]
  rfl

theorem backNonces_skip (hu : ¬ unfreezesNft c id r = true) (h : List Rec) :
    backNonces c id (r :: h) = backNonces c id h := by
  rw [backNonces, List.filter_cons_of_neg hu]
  rfl

theorem length_backNonces (htrip : Along NftRoundTrip h) :
    (backNonces c id h).length = h.countP (unfreezesNft c id) := by
  induction h with
  | nil => rfl
  | cons r past ih =>
      by_cases hu : unfreezesNft c id r = true
      · obtain ⟨k, -, hcons⟩ := backNonces_cons htrip.1 hu past
        rw [hcons, List.length_cons, List.countP_cons_of_pos hu, ih htrip.2]
      · rw [backNonces_skip hu, List.countP_cons_of_neg hu, ih htrip.2]

/-- No nonce is given back twice. -/
theorem nodup_backNonces (htrip : Along NftRoundTrip h) : (backNonces c id h).Nodup := by
  induction h with
  | nil => exact List.nodup_nil
  | cons r past ih =>
      by_cases hu : unfreezesNft c id r = true
      · obtain ⟨k, hback, hcons⟩ := backNonces_cons htrip.1 hu past
        rw [hcons]
        refine List.nodup_cons.mpr ⟨fun hk => ?_, ih htrip.2⟩
        obtain ⟨r', hr', -, hback'⟩ := mem_backNonces.mp hk
        exact htrip.1.once k hback r' hr' hback'
      · rw [backNonces_skip hu]
        exact ih htrip.2

/-- What is given back for a chain nonce and an id was minted for them. -/
theorem backNonces_subset (htrip : Along NftRoundTrip h) :
    backNonces c id h ⊆ mintNonces c id h := by
  intro k hk
  obtain ⟨r, hr, hu, hback⟩ := mem_backNonces.mp hk
  obtain ⟨past, hpast, htrip⟩ := htrip.of_mem hr
  obtain ⟨r', hr', c', id', hm⟩ := htrip.origin k hback
  obtain ⟨recipient, hevent⟩ := unfreezesNft_iff.mp hu
  obtain ⟨recipient', hevent'⟩ := htrip.restored k hback r' hr' c' id' hm
  rw [hevent] at hevent'
  cases hevent'
  exact mem_mintNonces (hpast hr') hm

/-- The events for a chain nonce and an id are covered by the mints for them. -/
theorem countP_unfreezesNft_le (htrip : Along NftRoundTrip h) :
    h.countP (unfreezesNft c id) ≤ h.countP (sendsNft c id) := by
  calc h.countP (unfreezesNft c id)
      = (backNonces c id h).length := (length_backNonces htrip).symm
    _ ≤ (mintNonces c id h).length :=
        ((nodup_backNonces htrip).subperm (backNonces_subset htrip)).length_le
    _ ≤ (h.filter (sendsNft c id)).length := List.length_filterMap_le _ _
    _ = h.countP (sendsNft c id) := List.countP_eq_length_filter.symm

end Counting

/-- A wrapped NFT goes back to where it came from: paid to `withdrawNft`, it is
announced with the chain nonce and the id it was minted for, without a panic
and only once, so that no pair of these is announced more often than it was
minted. -/
theorem nft_round_trip (hinit : deploy l token nftToken minValid validators = .ok w₀)
    (hempty : l.EmptyOf nftToken) (hne : token ≠ nftToken) (hrun : Run exec w₀ h w)
    (hpays : PaysUnits h) :
    Along NftRoundTrip h ∧
      ∀ c id, h.countP (unfreezesNft c id) ≤ h.countP (sendsNft c id) := by
  have htrip : Along NftRoundTrip h := by
    induction hrun with
    | start => trivial
    | @step h w act hrun ih =>
        obtain ⟨ht, hnft⟩ := run_collections hinit hrun
        have hact := hpays _ List.mem_cons_self
        rw [record_act] at hact
        exact ⟨(run_nft hinit hempty hne hrun).roundTrip act (by rw [ht, hnft]; exact hne)
          hact, ih fun r hr => hpays r (List.mem_cons_of_mem _ hr)⟩
  exact ⟨htrip, fun c id => countP_unfreezesNft_le htrip⟩

/-- An NFT of chain 7 is minted for dan, who freezes it; the validators release
it to charlie, who gives it back. -/
theorem nft_round_trip_charlie :
    let run := play exec (freshWorld 2 [alice, bob])
      [.tx ⟨charlie, .esdt xpnft 1 1, true, .withdrawNft "dan"⟩, .settle 0 true,
        send bob (.validateUnfreezeNft 2 charlie xpnft 1),
        send alice (.validateUnfreezeNft 2 charlie xpnft 1),
        .tx ⟨dan, .esdt xpnft 1 1, true, .freezeSendNft 9 "charlie"⟩, .settle 0 true,
        send bob (.validateSendNft 1 7 dan [1]), send alice (.validateSendNft 1 7 dan [1])]
    run.1.countP (unfreezesNft 7 [1]) = 1 ∧ Along NftRoundTrip run.1 ∧
      ∀ c id, run.1.countP (unfreezesNft c id) ≤ run.1.countP (sendsNft c id) :=
  ⟨by decide +kernel, nft_round_trip (deploy_eq (by decide +kernel)) ⟨rfl, fun _ => rfl⟩
    (by decide) (run_play _ _ _) (by decide +kernel)⟩

end ElrondMint
