import ElrondMint.Log

/-!
# What a record moves

The contract's account changes in few places: payments come in, `withdraw`
and `withdrawNft` burn what was paid, and the three asynchronous actions
create or hand out units. `LedgerEffect` lists them, each with what it does
to the units in existence, to the holding, to the nonces and to the stored
data of every asset, and with what the history shows of it.
-/

namespace ElrondMint

open Custody Rollback

variable {w w' w₀ : World} {l : Ledger} {h : List Rec} {r : Rec} {act : Act}
  {ret : Ret} {hostOk : Bool}

/-! ## The creation loop of `SendWrapped` -/

/-- The units the loop creates of an asset on its way from `n` to `c`. -/
def created (token : TokenIdentifier) (n c : UInt64) (k : Asset) : Nat :=
  if k.1 = token ∧ n < k.2 ∧ k.2 ≤ c then 2 else 0

theorem toNat_succ {n : UInt64} (hne : n + 1 ≠ 0) : (n + 1).toNat = n.toNat + 1 := by
  have hlt := n.toNat_lt
  rw [ne_eq, ← UInt64.toNat_inj, UInt64.toNat_zero] at hne
  rw [UInt64.toNat_add, UInt64.toNat_one] at hne ⊢
  omega

theorem toNat_succ_of_lt {n c : UInt64} (hlt : n < c) : (n + 1).toNat = n.toNat + 1 := by
  have hc := c.toNat_lt
  rw [UInt64.lt_iff_toNat_lt] at hlt
  rw [UInt64.toNat_add, UInt64.toNat_one]
  omega

theorem toNat_max (n c : UInt64) : (max n c).toNat = max n.toNat c.toNat := by
  show (if n ≤ c then c else n).toNat = _
  split
  · next hle =>
      rw [UInt64.le_iff_toNat_le] at hle
      omega
  · next hle =>
      rw [UInt64.le_iff_toNat_le] at hle
      omega

/-- One round of the loop, then the rest. -/
theorem created_succ {token : TokenIdentifier} {n c : UInt64} (hlt : n < c) (k : Asset) :
    created token n c k =
      (if k = (token, n + 1) then 2 else 0) + created token (n + 1) c k := by
  obtain ⟨t, m⟩ := k
  have hn := toNat_succ_of_lt hlt
  rw [UInt64.lt_iff_toNat_lt] at hlt
  simp only [created, Prod.mk.injEq, UInt64.lt_iff_toNat_lt, UInt64.le_iff_toNat_le,
    ← UInt64.toNat_inj, hn]
  by_cases ht : t = token
  · simp only [ht, true_and]
    split <;> split <;> split <;> omega
  · simp only [ht, false_and, if_false]

theorem created_done {token : TokenIdentifier} {n c : UInt64} (hle : ¬ n < c)
    (k : Asset) : created token n c k = 0 := by
  rw [created, if_neg]
  rintro ⟨-, h1, h2⟩
  exact hle (UInt64.lt_of_lt_of_le h1 h2)

theorem created_max (token : TokenIdentifier) (n c : UInt64) (k : Asset) :
    created token n (max n c) k = created token n c k := by
  simp only [created, UInt64.lt_iff_toNat_lt, UInt64.le_iff_toNat_le, toNat_max]
  refine if_congr (and_congr_right fun _ => ?_) rfl rfl
  omega

/-- Creating a nonce and then the nonces up to `m` is one way of getting there. -/
theorem created_next {token : TokenIdentifier} {last m : UInt64} (hne : last + 1 ≠ 0)
    (hle : (last + 1).toNat ≤ m.toNat) (k : Asset) :
    (if k = (token, last + 1) then 2 else 0) + created token (last + 1) m k =
      created token last m k := by
  refine (created_succ ?_ k).symm
  have hnext := toNat_succ hne
  rw [UInt64.lt_iff_toNat_lt]
  omega

/-- What the loop creates: as many nonces as it has rounds, on top of those the
collection has, whatever these are. -/
theorem sendWrappedLoop_creates {token : TokenIdentifier} {c n : UInt64}
    (h : sendWrappedLoop hostOk token c n w = .ok w') :
    (w'.chain.lastNonce token).toNat =
        (w.chain.lastNonce token).toNat + (c.toNat - n.toNat) ∧
      (∀ k, w'.chain.esdt.holding k = w.chain.esdt.holding k +
        created token (w.chain.lastNonce token) (w'.chain.lastNonce token) k) ∧
      (∀ k, w'.chain.esdt.units k = w.chain.esdt.units k +
        created token (w.chain.lastNonce token) (w'.chain.lastNonce token) k) := by
  replace h := sendWrappedLoop_rounds h
  induction h with
  | @done n w hle =>
      rw [UInt64.lt_iff_toNat_lt] at hle
      refine ⟨by omega, fun k => ?_, fun k => ?_⟩
      · rw [created_done (UInt64.lt_irrefl _), Nat.add_zero]
      · rw [created_done (UInt64.lt_irrefl _), Nat.add_zero]
  | @round n m w w' chain hlt hcreate _ ih =>
      obtain ⟨rfl, hne, -, hlast, hhold, hunits, -⟩ := Ledger.esdtNftCreate_spec hcreate
      obtain ⟨hlast', hhold', hunits'⟩ := ih
      simp only [hlast, Function.update_self] at hlast' hhold' hunits'
      have hstep := toNat_succ hne
      have hround := toNat_succ_of_lt hlt
      rw [UInt64.lt_iff_toNat_lt] at hlt
      have hnext := @created_next token _ (w'.chain.lastNonce token) hne (by omega)
      refine ⟨by omega, fun k => ?_, fun k => ?_⟩
      · rw [hhold', hhold, Nat.add_assoc, hnext]
      · rw [hunits', hunits, Nat.add_assoc, hnext]

/-- The counter follows the loop, whatever nonces the host has handed out. -/
theorem sendWrappedLoop_sftNonce {token : TokenIdentifier} {c n : UInt64}
    (h : sendWrappedLoop hostOk token c n w = .ok w') (hsft : w.sftNonce = n) :
    w'.sftNonce.toNat = max n.toNat c.toNat := by
  replace h := sendWrappedLoop_rounds h
  induction h with
  | done hle =>
      rw [UInt64.lt_iff_toNat_lt] at hle
      rw [hsft]
      omega
  | @round n m w w' chain hlt hcreate _ ih =>
      have hround := toNat_succ_of_lt hlt
      rw [UInt64.lt_iff_toNat_lt] at hlt
      rw [ih rfl]
      omega

/-- What the loop does, where the last nonce of the collection is the one it
starts from. -/
theorem sendWrappedLoop_spec {token : TokenIdentifier} {c n : UInt64}
    (h : sendWrappedLoop hostOk token c n w = .ok w') (hsft : w.sftNonce = n)
    (hlast : w.chain.lastNonce token = n) :
    w'.sftNonce = max n c ∧ w'.chain.lastNonce token = max n c ∧
      (∀ k, w'.chain.esdt.holding k = w.chain.esdt.holding k + created token n c k) ∧
      (∀ k, w'.chain.esdt.units k = w.chain.esdt.units k + created token n c k) := by
  obtain ⟨hlast', hhold, hunits⟩ := sendWrappedLoop_creates h
  have hsft' := sendWrappedLoop_sftNonce h hsft
  rw [hlast] at hlast' hhold hunits
  have hmax : (max n c).toNat = max n.toNat c.toNat := toNat_max n c
  have hend : w'.chain.lastNonce token = max n c := by
    rw [← UInt64.toNat_inj, hlast', hmax]
    omega
  rw [hend] at hhold hunits
  simp only [created_max] at hhold hunits
  refine ⟨?_, hend, hhold, hunits⟩
  rw [← UInt64.toNat_inj, hsft', hmax]

/-- The loop leaves every other collection alone. -/
theorem sendWrappedLoop_other {token : TokenIdentifier} {c n : UInt64}
    (h : sendWrappedLoop hostOk token c n w = .ok w') {t : TokenIdentifier}
    (ht : t ≠ token) :
    w'.chain.lastNonce t = w.chain.lastNonce t ∧
      ∀ m, w'.chain.esdt.holding (t, m) = w.chain.esdt.holding (t, m) ∧
        w'.chain.esdt.units (t, m) = w.chain.esdt.units (t, m) ∧
        w'.chain.tokenData t m = w.chain.tokenData t m := by
  replace h := sendWrappedLoop_rounds h
  induction h with
  | done => exact ⟨rfl, fun m => ⟨rfl, rfl, rfl⟩⟩
  | round _ hcreate _ ih =>
      obtain ⟨-, -, -, hlast, hhold, hunits, hdata⟩ := Ledger.esdtNftCreate_spec hcreate
      obtain ⟨hlast', hother⟩ := ih
      rw [hlast, Function.update_of_ne ht] at hlast'
      refine ⟨hlast', fun m => ?_⟩
      have hne : ∀ j, (t, m) ≠ (token, j) := fun j heq => ht (congrArg Prod.fst heq)
      obtain ⟨hhold', hunits', hdata'⟩ := hother m
      rw [hhold, if_neg (hne _), Nat.add_zero] at hhold'
      rw [hunits, if_neg (hne _), Nat.add_zero] at hunits'
      rw [hdata, if_neg (fun heq => ht heq.1)] at hdata'
      exact ⟨hhold', hunits', hdata'⟩

/-- The loop runs to its end if the collection has the nonces it needs. -/
theorem sendWrappedLoop_ok {token : TokenIdentifier} {c n : UInt64}
    (htoken : token ≠ .egld)
    (hroom : (w.chain.lastNonce token).toNat + (c.toNat - n.toNat) < 2 ^ 64) :
    ∃ w', sendWrappedLoop true token c n w = .ok w' := by
  induction n, w using sendWrappedLoop.induct c with
  | case1 n w hlt ih =>
      have hround := toNat_succ_of_lt hlt
      have hlt' : n.toNat < c.toNat := UInt64.lt_iff_toNat_lt.mp hlt
      have hne : w.chain.lastNonce token + 1 ≠ 0 := by
        rw [ne_eq, ← UInt64.toNat_inj, UInt64.toNat_add, UInt64.toNat_one,
          UInt64.toNat_zero]
        omega
      obtain ⟨⟨m, chain⟩, hcreate⟩ := Ledger.esdtNftCreate_iff.mpr ⟨rfl, htoken, hne⟩
      obtain ⟨rfl, -, -, hlast, -⟩ := Ledger.esdtNftCreate_spec hcreate
      obtain ⟨w', hrest⟩ := ih chain (by
        show (chain.lastNonce token).toNat + (c.toNat - (n + 1).toNat) < 2 ^ 64
        rw [hlast, Function.update_self, toNat_succ hne]
        omega)
      refine ⟨w', ?_⟩
      rw [sendWrappedLoop, dif_pos hlt]
      exact bind_eq_ok.mpr ⟨_, hcreate, hrest⟩
  | case2 n w hlt =>
      refine ⟨w, ?_⟩
      rw [sendWrappedLoop, dif_neg hlt]

/-! ## The two actions that create units -/

section Creation

variable {c n : UInt64} {recipient : Address} {amount : Nat} {data id : Bytes}
  {w₁ : World} {chain₁ chain₂ : Ledger}

theorem sendWrapped_own (hloop : sendWrappedLoop hostOk w.token c w.sftNonce w = .ok w₁)
    (hmint : w₁.chain.esdtLocalMint hostOk w.token c amount = .ok chain₁)
    (hsend : chain₁.transferEsdtViaAsyncCall hostOk
      ⟨recipient, w.token, c, amount, data⟩ = .ok chain₂)
    (hlast : w.chain.lastNonce w.token = w.sftNonce) :
    w₁.sftNonce = max w.sftNonce c ∧ chain₂.lastNonce w.token = max w.sftNonce c ∧
      (∀ k, chain₂.esdt.holding k = w.chain.esdt.holding k +
        created w.token w.sftNonce c k) ∧
      (∀ k, chain₂.esdt.units k = w.chain.esdt.units k +
        created w.token w.sftNonce c k + if k = (w.token, c) then amount else 0) := by
  obtain ⟨-, hlast₁, -, hhold₁, hunits₁⟩ := Ledger.esdtLocalMint_spec hmint
  obtain ⟨-, hlast₂, -, hhold₂, hunits₂⟩ := Ledger.transferEsdtViaAsyncCall_spec hsend
  obtain ⟨hsft, hlast₀, hhold, hunits⟩ := sendWrappedLoop_spec hloop rfl hlast
  refine ⟨hsft, ?_, fun k => ?_, fun k => ?_⟩
  · rw [hlast₂, hlast₁, hlast₀]
  · have h₁ := hhold₁ k
    have h₂ := hhold₂ k
    rw [← hhold k]
    simp only [] at h₂
    omega
  · rw [hunits₂, hunits₁, hunits]

theorem sendWrapped_other (hloop : sendWrappedLoop hostOk w.token c w.sftNonce w = .ok w₁)
    (hmint : w₁.chain.esdtLocalMint hostOk w.token c amount = .ok chain₁)
    (hsend : chain₁.transferEsdtViaAsyncCall hostOk
      ⟨recipient, w.token, c, amount, data⟩ = .ok chain₂)
    (t : TokenIdentifier) (ht : t ≠ w.token) :
    chain₂.lastNonce t = w.chain.lastNonce t ∧
      ∀ m, chain₂.esdt.holding (t, m) = w.chain.esdt.holding (t, m) ∧
        chain₂.esdt.units (t, m) = w.chain.esdt.units (t, m) ∧
        chain₂.tokenData t m = w.chain.tokenData t m := by
  obtain ⟨-, hlast₁, hdata₁, hhold₁, hunits₁⟩ := Ledger.esdtLocalMint_spec hmint
  obtain ⟨-, hlast₂, hdata₂, hhold₂, hunits₂⟩ := Ledger.transferEsdtViaAsyncCall_spec hsend
  obtain ⟨hlast, hother⟩ := sendWrappedLoop_other hloop ht
  refine ⟨by rw [hlast₂, hlast₁, hlast], fun m => ?_⟩
  have hne : (t, m) ≠ (w.token, c) := fun heq => ht (congrArg Prod.fst heq)
  obtain ⟨hhold, hunits, hdata⟩ := hother m
  refine ⟨?_, ?_, by rw [hdata₂, hdata₁, hdata]⟩
  · have h₂ := hhold₂ (t, m)
    rw [if_neg hne, Nat.add_zero, hhold₁, if_neg hne, Nat.add_zero] at h₂
    rw [h₂, hhold]
  · rw [hunits₂, hunits₁, if_neg hne, Nat.add_zero, hunits]

theorem sendNft_own (hcreate : w.chain.esdtNftCreate hostOk w.nftToken 1
      ⟨[], 0, [], topEncodeU64 c, [id]⟩ = .ok (n, chain₁))
    (hsend : chain₁.transferEsdtViaAsyncCall hostOk
      ⟨recipient, w.nftToken, n, 1, []⟩ = .ok chain₂) :
    n = w.chain.lastNonce w.nftToken + 1 ∧ n ≠ 0 ∧
      (∀ k, chain₂.esdt.holding k = w.chain.esdt.holding k) ∧
      (∀ k, chain₂.esdt.units k = w.chain.esdt.units k +
        if k = (w.nftToken, n) then 1 else 0) ∧
      chain₂.lastNonce = Function.update w.chain.lastNonce w.nftToken n ∧
      (∀ t m, chain₂.tokenData t m =
        if t = w.nftToken ∧ m = n then ⟨[], 0, [], topEncodeU64 c, [id]⟩
        else w.chain.tokenData t m) := by
  obtain ⟨hn, hne, -, hlast₁, hhold₁, hunits₁, hdata₁⟩ := Ledger.esdtNftCreate_spec hcreate
  obtain ⟨-, hlast₂, hdata₂, hhold₂, hunits₂⟩ := Ledger.transferEsdtViaAsyncCall_spec hsend
  refine ⟨hn, hne, fun k => ?_, fun k => ?_, hlast₂.trans hlast₁, fun t m => ?_⟩
  · have h₁ := hhold₁ k
    have h₂ := hhold₂ k
    simp only [] at h₂
    omega
  · rw [hunits₂, hunits₁]
  · rw [hdata₂, hdata₁]

end Creation

/-! ## What the history shows of a transfer -/

/-- The action a record performed. -/
def performedAction (r : Rec) : Option Action := (performed r).map Prod.snd

/-- The payload a record inserted into the event log. -/
def insertedEvent (r : Rec) : Option Event := (inserted r).map Prod.snd

/-- The payment of a successful `deposit` or `freezeSendNft`. -/
def takenIn (r : Rec) : Option Payment :=
  match r.act, r.ret with
  | .tx ⟨_, p, _, .deposit⟩, .ok _ => some p
  | .tx ⟨_, p, _, .freezeSendNft _ _⟩, .ok _ => some p
  | _, _ => none

/-- The nonce paid to a successful `withdrawNft`. -/
def givenBack (r : Rec) : Option UInt64 :=
  match r.act, r.ret with
  | .tx ⟨_, p, _, .withdrawNft _⟩, .ok _ => some p.nonce
  | _, _ => none

/-- The nonce, the chain nonce and the id of an NFT that a record minted. -/
def mintedNft (r : Rec) : Option (UInt64 × UInt64 × Bytes) :=
  match performedAction r, r.ret with
  | some (.sendNft c _ id), .ok (.flow (.exited call)) => some (call.nonce, c, id)
  | _, _ => none

/-- A payment, if there is one in ESDT, delivers at least one unit. -/
def Act.paysUnits : Act → Bool
  | .tx ⟨_, .esdt _ _ value, _, _⟩ => decide (1 ≤ value)
  | _ => true

/-- A withdrawal to the other chain. -/
def Event.isWithdrawal : Event → Bool
  | .unfreeze .. | .unfreezeNft .. => true
  | .transfer .. | .transferNft .. => false

/-- What a record does to the account. -/
inductive LedgerEffect (r : Rec) : Prop
  /-- Failures, reads, EGLD, pending signatures and the actions that return. -/
  | still (hperf : ∀ a, performedAction r = some a → a.exits = false)
      (hevent : ∀ e, insertedEvent r = some e → e.isWithdrawal = false)
      (hin : takenIn r = none) (hback : givenBack r = none)
      (hsft : r.post.sftNonce = r.pre.sftNonce)
      (hesdt : r.post.chain.esdt = r.pre.chain.esdt)
      (hlast : r.post.chain.lastNonce = r.pre.chain.lastNonce)
      (hdata : r.post.chain.tokenData = r.pre.chain.tokenData)
  | settle (i : Nat) (accepted : Bool) (hact : r.act = .settle i accepted)
      (hret : r.ret = .ok .unit)
      (hpost : r.post = { r.pre with chain := r.pre.chain.settle i accepted })
  | takeIn (p : Payment) (hperf : performedAction r = none)
      (hevent : ∀ e, insertedEvent r = some e → e.isWithdrawal = false)
      (hin : takenIn r = some p) (hback : givenBack r = none)
      (hsft : r.post.sftNonce = r.pre.sftNonce)
      (hhold : ∀ k, r.post.chain.esdt.holding k =
        r.pre.chain.esdt.holding k + p.units k)
      (hunits : ∀ k, r.post.chain.esdt.units k = r.pre.chain.esdt.units k)
      (hlast : r.post.chain.lastNonce = r.pre.chain.lastNonce)
      (hdata : r.post.chain.tokenData = r.pre.chain.tokenData)
  | withdraw (n : UInt64) (recipient : String) (value : Nat)
      (hperf : performedAction r = none)
      (hevent : insertedEvent r = some (.unfreeze n recipient value))
      (hin : takenIn r = none) (hback : givenBack r = none)
      (hsft : r.post.sftNonce = r.pre.sftNonce)
      (hhold : ∀ k, r.post.chain.esdt.holding k = r.pre.chain.esdt.holding k)
      (hunits : ∀ k, r.post.chain.esdt.units k +
        (if k = (r.pre.token, n) then value else 0) = r.pre.chain.esdt.units k)
      (hlast : r.post.chain.lastNonce = r.pre.chain.lastNonce)
      (hdata : r.post.chain.tokenData = r.pre.chain.tokenData)
  | withdrawNft (n c : UInt64) (recipient : String) (id : Bytes) (value : Nat)
      (hperf : performedAction r = none)
      (hevent : insertedEvent r = some (.unfreezeNft c recipient id))
      (hin : takenIn r = none) (hback : givenBack r = some n)
      (hsft : r.post.sftNonce = r.pre.sftNonce)
      (hpays : r.act.paysUnits = true → 1 ≤ value)
      (hpaid : r.pre.chain.esdt.holding (r.pre.nftToken, n) + value ≤
        r.pre.chain.esdt.units (r.pre.nftToken, n))
      (huri : 0 < r.pre.chain.esdt.holding (r.pre.nftToken, n) + value →
        (r.pre.chain.tokenData r.pre.nftToken n).uris.head? = some id ∧
          topDecodeU64 (r.pre.chain.tokenData r.pre.nftToken n).attributes = some c)
      (hhold : ∀ k, r.post.chain.esdt.holding k +
        (if k = (r.pre.nftToken, n) then 1 else 0) =
          r.pre.chain.esdt.holding k + if k = (r.pre.nftToken, n) then value else 0)
      (hunits : ∀ k, r.post.chain.esdt.units k +
        (if k = (r.pre.nftToken, n) then 1 else 0) = r.pre.chain.esdt.units k)
      (hlast : r.post.chain.lastNonce = r.pre.chain.lastNonce)
      (hdata : r.post.chain.tokenData = r.pre.chain.tokenData)
  | sendWrapped (c : UInt64) (recipient : Address) (amount : Nat) (data : Bytes)
      (hperf : performedAction r = some (.sendWrapped c recipient amount data))
      (hevent : insertedEvent r = none) (hin : takenIn r = none)
      (hback : givenBack r = none)
      (hnext : r.pre.chain.lastNonce r.pre.token = r.pre.sftNonce →
        r.post.sftNonce = max r.pre.sftNonce c ∧
          r.post.chain.lastNonce r.pre.token = max r.pre.sftNonce c ∧
          (∀ k, r.post.chain.esdt.holding k = r.pre.chain.esdt.holding k +
            created r.pre.token r.pre.sftNonce c k) ∧
          (∀ k, r.post.chain.esdt.units k = r.pre.chain.esdt.units k +
            created r.pre.token r.pre.sftNonce c k +
            if k = (r.pre.token, c) then amount else 0))
      (hother : ∀ t, t ≠ r.pre.token →
        r.post.chain.lastNonce t = r.pre.chain.lastNonce t ∧
          ∀ m, r.post.chain.esdt.holding (t, m) = r.pre.chain.esdt.holding (t, m) ∧
            r.post.chain.esdt.units (t, m) = r.pre.chain.esdt.units (t, m) ∧
            r.post.chain.tokenData t m = r.pre.chain.tokenData t m)
  | sendNft (n c : UInt64) (recipient : Address) (id : Bytes)
      (hperf : performedAction r = some (.sendNft c recipient id))
      (hminted : mintedNft r = some (n, c, id))
      (hevent : insertedEvent r = none) (hin : takenIn r = none)
      (hback : givenBack r = none)
      (hsft : r.post.sftNonce = r.pre.sftNonce)
      (hnext : n = r.pre.chain.lastNonce r.pre.nftToken + 1) (hne : n ≠ 0)
      (hhold : ∀ k, r.post.chain.esdt.holding k = r.pre.chain.esdt.holding k)
      (hunits : ∀ k, r.post.chain.esdt.units k = r.pre.chain.esdt.units k +
        if k = (r.pre.nftToken, n) then 1 else 0)
      (hlast : r.post.chain.lastNonce =
        Function.update r.pre.chain.lastNonce r.pre.nftToken n)
      (hdata : ∀ t m, r.post.chain.tokenData t m =
        if t = r.pre.nftToken ∧ m = n then ⟨[], 0, [], topEncodeU64 c, [id]⟩
        else r.pre.chain.tokenData t m)
  | unfreezeNft (recipient : Address) (token : TokenIdentifier) (n : UInt64)
      (hperf : performedAction r = some (.unfreezeNft recipient token n))
      (hevent : insertedEvent r = none) (hin : takenIn r = none)
      (hback : givenBack r = none)
      (hsft : r.post.sftNonce = r.pre.sftNonce)
      (hhold : ∀ k, r.post.chain.esdt.holding k +
        (if k = (token, n) then 1 else 0) = r.pre.chain.esdt.holding k)
      (hunits : ∀ k, r.post.chain.esdt.units k = r.pre.chain.esdt.units k)
      (hlast : r.post.chain.lastNonce = r.pre.chain.lastNonce)
      (hdata : r.post.chain.tokenData = r.pre.chain.tokenData)

/-- A parcel that settles performs and announces nothing. -/
theorem settled_shows_nothing (hret : r.ret = .ok .unit) :
    performedAction r = none ∧ insertedEvent r = none := by
  refine ⟨?_, ?_⟩
  · rw [performedAction, performed, hret]
    rfl
  · rw [insertedEvent, inserted, hret]
    rfl

/-- A payment under another name than EGLD's brings the units it says. -/
theorem Payment.units_of_token {p : Payment} (htoken : p.token ≠ .egld) (k : Asset) :
    p.units k = if k = (p.token, p.nonce) then p.value else 0 := by
  cases p with
  | egld value => exact absurd rfl htoken
  | esdt token nonce value => rfl

/-- The actions that return leave the account to the end of the call. -/
theorem PerformEffect.returned_chain {a : Action} {res : PerformActionResult}
    (h : PerformEffect w hostOk a (.returned res) w') :
    w'.chain = w.chain ∧ w'.sftNonce = w.sftNonce := by
  cases h with
  | nothing | govern | unfreeze => exact ⟨rfl, rfl⟩

theorem performedAction_exited (w w' : World) {s : Address × Nat × Action}
    (call : EsdtTransfer) (hs : act.signs = some s) :
    performedAction ⟨w, act, .ok (.flow (.exited call)), w'⟩ = some s.2.2 := by
  show (act.signs.map Prod.snd).map Prod.snd = some s.2.2
  rw [hs]
  rfl

theorem performedAction_returned (w w' : World) {s : Address × Nat × Action}
    {res : PerformActionResult} (hs : act.signs = some s) (hres : res ≠ .pending) :
    performedAction ⟨w, act, .ok (.flow (.returned res)), w'⟩ = some s.2.2 := by
  cases res with
  | pending => exact absurd rfl hres
  | done | asyncCall | unfreeze =>
      show (act.signs.map Prod.snd).map Prod.snd = some s.2.2
      rw [hs]
      rfl

theorem mintedNft_exited (w w' : World) {x recipient : Address} {uuid : Nat} {c : UInt64}
    {id : Bytes} (call : EsdtTransfer)
    (hs : act.signs = some (x, uuid, .sendNft c recipient id)) :
    mintedNft ⟨w, act, .ok (.flow (.exited call)), w'⟩ = some (call.nonce, c, id) := by
  rw [mintedNft, performedAction_exited _ _ _ hs]

theorem takenIn_error (w w' : World) (act : Act) (e : Failure) :
    takenIn ⟨w, act, .error e, w'⟩ = none := by
  cases act with
  | settle => rfl
  | tx tx =>
      obtain ⟨_, p, _, call⟩ := tx
      cases call <;> rfl

theorem givenBack_error (w w' : World) (act : Act) (e : Failure) :
    givenBack ⟨w, act, .error e, w'⟩ = none := by
  cases act with
  | settle => rfl
  | tx tx =>
      obtain ⟨_, p, _, call⟩ := tx
      cases call <;> rfl

theorem takenIn_flow (w w' : World) {s : Address × Nat × Action}
    (flow : Flow PerformActionResult) (hs : act.signs = some s) :
    takenIn ⟨w, act, .ok (.flow flow), w'⟩ = none := by
  cases act with
  | settle => cases hs
  | tx tx =>
      obtain ⟨_, p, _, call⟩ := tx
      cases call with
      | freezeSendNft | deposit => cases hs
      | _ => rfl

theorem givenBack_flow (w w' : World) {s : Address × Nat × Action}
    (flow : Flow PerformActionResult) (hs : act.signs = some s) :
    givenBack ⟨w, act, .ok (.flow flow), w'⟩ = none := by
  cases act with
  | settle => cases hs
  | tx tx =>
      obtain ⟨_, p, _, call⟩ := tx
      cases call with
      | withdrawNft => cases hs
      | _ => rfl

theorem exec_ledgerEffect_sign {caller : Address} {id : Nat} {a : Action}
    (hs : act.signs = some (caller, id, a)) (hex : exec w act = .ok (ret, w')) :
    LedgerEffect ⟨w, act, .ok ret, w'⟩ := by
  obtain ⟨hostOk, heff⟩ := exec_sign hs hex
  cases heff with
  | known | counted =>
      exact .still nofun nofun (takenIn_flow _ _ _ hs) (givenBack_flow _ _ _ hs)
        rfl rfl rfl rfl
  | @returned res w₁ _ hcall hperf hfin =>
      have heff := performAction_effect hperf
      obtain ⟨egld, rfl⟩ := finish_frame hfin
      obtain ⟨hchain, hsft⟩ := heff.returned_chain
      refine .still (fun b hb => ?_) nofun (takenIn_flow _ _ _ hs)
        (givenBack_flow _ _ _ hs) hsft ?_ ?_ ?_
      · rw [performedAction_returned _ _ hs heff.exits.2] at hb
        cases hb
        exact heff.exits.1
      · show w₁.chain.esdt = w.chain.esdt
        rw [hchain]
        rfl
      · show w₁.chain.lastNonce = w.chain.lastNonce
        rw [hchain]
        rfl
      · show w₁.chain.tokenData = w.chain.tokenData
        rw [hchain]
        rfl
  | @exited call w₁ hcall hperf =>
      cases performAction_effect hperf with
      | sendWrapped hloop hmint hsend =>
          have hown := sendWrapped_own hloop hmint hsend
          have hother := sendWrapped_other hloop hmint hsend
          exact .sendWrapped _ _ _ _ (performedAction_exited _ _ _ hs) rfl
            (takenIn_flow _ _ _ hs) (givenBack_flow _ _ _ hs) hown hother
      | sendNft hcreate hsend =>
          obtain ⟨hn, hne, hhold, hunits, hlast, hdata⟩ := sendNft_own hcreate hsend
          exact .sendNft _ _ _ _ (performedAction_exited _ _ _ hs)
            (mintedNft_exited _ _ _ hs) rfl (takenIn_flow _ _ _ hs)
            (givenBack_flow _ _ _ hs) rfl hn hne hhold hunits hlast hdata
      | @unfreezeNft recipient token n chain hsend =>
          obtain ⟨-, hlast, hdata, hhold, hunits⟩ :=
            Ledger.transferEsdtViaAsyncCall_spec hsend
          exact .unfreezeNft recipient token n (performedAction_exited _ _ _ hs) rfl
            (takenIn_flow _ _ _ hs) (givenBack_flow _ _ _ hs) rfl hhold hunits hlast hdata

section Withdrawals

variable {caller : Address} {p : Payment} {recipient : String} {chain₁ chain₂ : Ledger}

theorem withdrawNft_ledgerEffect {c : UInt64} {id : Bytes} (htoken : p.token = w.nftToken)
    (hrec : w.chain.receive p = .ok chain₁)
    (huri : (chain₁.getEsdtTokenData p.token p.nonce).uris.head? = some id)
    (hattr : topDecodeU64 (chain₁.getEsdtTokenData p.token p.nonce).attributes = some c)
    (hburn : chain₁.esdtLocalBurn hostOk p.token p.nonce 1 = .ok chain₂) :
    LedgerEffect ⟨w, .tx ⟨caller, p, hostOk, .withdrawNft recipient⟩,
      .ok (.ident (w.eventIdent + 1)),
      { w.emit (.unfreezeNft c recipient id) with chain := chain₂ }⟩ := by
  obtain ⟨hout, hhold, hunits, hlast, hdata⟩ := Ledger.receive_spec hrec
  obtain ⟨hegld, -, hlast₂, hdata₂, hhold₂, hunits₂⟩ := Ledger.esdtLocalBurn_spec hburn
  have hbrings := Payment.units_of_token hegld
  rw [htoken] at hbrings huri hattr hhold₂ hunits₂
  have hown := hbrings (w.nftToken, p.nonce)
  rw [if_pos rfl] at hown
  refine .withdrawNft p.nonce c recipient id p.value rfl ?_ rfl rfl rfl ?_ ?_ ?_
    (fun k => ?_) (fun k => ?_) ?_ ?_
  · rw [insertedEvent, inserted_emit]
    rfl
  · intro hpays
    cases p with
    | egld value => exact absurd rfl hegld
    | esdt token nonce value => exact of_decide_eq_true hpays
  · exact Account.holding_add_le_units (hown ▸ hout _)
  · -- what is paid in is held when the stored data is read
    intro hpos
    have hheld : 0 < chain₁.esdt.holding (w.nftToken, p.nonce) := by
      rw [hhold, hown]
      exact hpos
    rw [Ledger.getEsdtTokenData, if_pos hheld, hdata] at huri hattr
    exact ⟨huri, hattr⟩
  · rw [hhold₂, hhold, hbrings]
  · rw [hunits₂, hunits]
  · exact hlast₂.trans hlast
  · exact hdata₂.trans hdata

theorem withdraw_ledgerEffect (htoken : p.token = w.token)
    (hrec : w.chain.receive p = .ok chain₁)
    (hburn : chain₁.esdtLocalBurn hostOk p.token p.nonce p.value = .ok chain₂) :
    LedgerEffect ⟨w, .tx ⟨caller, p, hostOk, .withdraw recipient⟩,
      .ok (.ident (w.eventIdent + 1)),
      { w.emit (.unfreeze p.nonce recipient p.value) with chain := chain₂ }⟩ := by
  obtain ⟨-, hhold, hunits, hlast, hdata⟩ := Ledger.receive_spec hrec
  obtain ⟨hegld, -, hlast₂, hdata₂, hhold₂, hunits₂⟩ := Ledger.esdtLocalBurn_spec hburn
  have hbrings := Payment.units_of_token hegld
  refine .withdraw p.nonce recipient p.value rfl ?_ rfl rfl rfl (fun k => ?_)
    (fun k => ?_) ?_ ?_
  · rw [insertedEvent, inserted_emit]
    rfl
  · have h₁ := hhold k
    have h₂ := hhold₂ k
    rw [hbrings] at h₁
    show chain₂.esdt.holding k = w.chain.esdt.holding k
    omega
  · have h₁ := hunits k
    have h₂ := hunits₂ k
    rw [htoken] at h₂
    show chain₂.esdt.units k + _ = w.chain.esdt.units k
    rw [← h₁]
    exact h₂
  · exact hlast₂.trans hlast
  · exact hdata₂.trans hdata

end Withdrawals

theorem exec_ledgerEffect_plain (hs : act.signs = none)
    (hex : exec w act = .ok (ret, w')) : LedgerEffect ⟨w, act, .ok ret, w'⟩ := by
  cases exec_plain hs hex with
  | settle => exact .settle _ _ rfl rfl rfl
  | deposit hrec =>
      obtain ⟨-, hhold, hunits, hlast, hdata⟩ := Ledger.receive_spec hrec
      exact .takeIn _ rfl nofun rfl rfl rfl hhold hunits hlast hdata
  | readOn | readOut => exact .still nofun nofun rfl rfl rfl rfl rfl rfl
  | freezeSend hpos hrec =>
      cases hrec
      refine .still nofun (fun e he => ?_) rfl rfl rfl rfl rfl rfl
      rw [insertedEvent, inserted_emit] at he
      cases he
      rfl
  | freezeSendNft hnonce hone hrec =>
      obtain ⟨-, hhold, hunits, hlast, hdata⟩ := Ledger.receive_spec hrec
      refine .takeIn _ rfl (fun e he => ?_) rfl rfl rfl hhold hunits hlast hdata
      rw [insertedEvent, inserted_emit] at he
      cases he
      rfl
  | withdrawNft htoken hnonce hrec huri hattr hburn =>
      exact withdrawNft_ledgerEffect htoken hrec huri hattr hburn
  | withdraw hpos htoken hrec hburn => exact withdraw_ledgerEffect htoken hrec hburn

theorem record_ledgerEffect (w : World) (act : Act) :
    LedgerEffect (record exec w act) := by
  cases hex : exec w act with
  | error e =>
      rw [record_error hex]
      exact .still nofun nofun (takenIn_error _ _ _ _) (givenBack_error _ _ _ _)
        rfl rfl rfl rfl
  | ok out =>
      obtain ⟨ret, w'⟩ := out
      rw [record_ok hex]
      cases hs : act.signs with
      | none => exact exec_ledgerEffect_plain hs hex
      | some s =>
          obtain ⟨caller, id, a⟩ := s
          exact exec_ledgerEffect_sign hs hex

/-! ## The counter of wrapped nonces -/

/-- The chain nonce up to which an action opens wrapped nonces. -/
def Action.wrapsTo : Action → Nat
  | .sendWrapped c _ _ _ => c.toNat
  | _ => 0

theorem wrapsTo_of_not_exits {a : Action} (hact : a.exits = false) : a.wrapsTo = 0 := by
  cases a with
  | sendWrapped => cases hact
  | _ => rfl

/-- The counter moves to what the performed action asks for, and never back. -/
theorem record_sftNonce (w : World) (act : Act) :
    (record exec w act).post.sftNonce.toNat =
      max w.sftNonce.toNat
        (((performedAction (record exec w act)).map Action.wrapsTo).getD 0) := by
  refine record_cases (P := fun r => r.post.sftNonce.toNat =
      max w.sftNonce.toNat (((performedAction r).map Action.wrapsTo).getD 0)) w act
    (fun e _ => (Nat.max_zero _).symm) (fun ret w' hs heff => ?_)
    (fun caller hostOk id a ret w' hs heff => ?_)
  · have hsft : w'.sftNonce = w.sftNonce := congrArg Wrapper.sftNonce heff.frame.2.1
    show w'.sftNonce.toNat = _
    rw [performedAction, performed_none hs, hsft]
    exact (Nat.max_zero _).symm
  · cases heff with
    | known | counted => exact (Nat.max_zero _).symm
    | @returned res w₁ _ hcall hperf hfin =>
        have heff := performAction_effect hperf
        obtain ⟨egld, rfl⟩ := finish_frame hfin
        rw [performedAction_returned _ _ hs heff.exits.2, Option.map_some,
          Option.getD_some, wrapsTo_of_not_exits heff.exits.1, Nat.max_zero]
        exact congrArg UInt64.toNat heff.returned_chain.2
    | exited hcall hperf =>
        rw [performedAction_exited _ _ _ hs]
        show w'.sftNonce.toNat = max w.sftNonce.toNat a.wrapsTo
        cases performAction_effect hperf with
        | sendWrapped hloop =>
            have hcounter := sendWrappedLoop_sftNonce hloop rfl
            exact hcounter
        | sendNft | unfreezeNft => exact (Nat.max_zero _).symm

theorem run_sftNonce (hrun : Run exec w₀ h w) :
    w.sftNonce.toNat =
      ((h.filterMap performedAction).map Action.wrapsTo).foldr max w₀.sftNonce.toNat := by
  induction hrun with
  | start => rfl
  | @step h w act hrun ih =>
      rw [record_sftNonce, ih, Nat.max_comm]
      cases hperf : performedAction (record exec w act) with
      | none =>
          rw [List.filterMap_cons_none hperf]
          exact Nat.zero_max _
      | some a =>
          rw [List.filterMap_cons_some hperf]
          rfl

/-! ## The two collections -/

/-- The ledger holds nothing of a collection and has created none of it. -/
structure Ledger.EmptyOf (l : Ledger) (token : TokenIdentifier) : Prop where
  lastNonce : l.lastNonce token = 0
  units : ∀ n, l.esdt.units (token, n) = 0

theorem PerformEffect.collections {a : Action} {flow : Flow PerformActionResult}
    (h : PerformEffect w hostOk a flow w') :
    w'.token = w.token ∧ w'.nftToken = w.nftToken := by
  cases h with
  | sendWrapped hloop _ _ =>
      obtain ⟨chain, m, rfl⟩ := sendWrappedLoop_frame hloop
      exact ⟨rfl, rfl⟩
  | nothing | govern | sendNft | unfreeze | unfreezeNft => exact ⟨rfl, rfl⟩

theorem exec_collections (hex : exec w act = .ok (ret, w')) :
    w'.token = w.token ∧ w'.nftToken = w.nftToken := by
  cases hs : act.signs with
  | none =>
      have hsame := (exec_plain hs hex).frame.2.1
      exact ⟨congrArg Wrapper.token hsame, congrArg Wrapper.nftToken hsame⟩
  | some s =>
      obtain ⟨caller, id, a⟩ := s
      obtain ⟨hostOk, heff⟩ := exec_sign hs hex
      cases heff with
      | known | counted => exact ⟨rfl, rfl⟩
      | exited hcall hperf => exact (performAction_effect hperf).collections
      | returned hcall hperf hfin =>
          obtain ⟨egld, rfl⟩ := finish_frame hfin
          exact (performAction_effect hperf).collections

theorem run_collections {token nftToken : TokenIdentifier} {minValid : Nat}
    {validators : List Address}
    (hinit : deploy l token nftToken minValid validators = .ok w₀)
    (hrun : Run exec w₀ h w) : w.token = token ∧ w.nftToken = nftToken := by
  refine hrun.invariant (I := fun w => w.token = token ∧ w.nftToken = nftToken) ?_ ?_
  · obtain ⟨ht, hn, -⟩ := deploy_wrapper hinit
    exact ⟨ht, hn⟩
  · intro w a ret w' hi hex
    obtain ⟨ht, hn⟩ := exec_collections hex
    rw [ht, hn]
    exact hi

end ElrondMint
