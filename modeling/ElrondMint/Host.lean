import ElrondMint.Types
import ElrondMint.Lib.Custody
import ElrondMint.Lib.BigEndian
import ElrondMint.Lib.Rollback

/-!
# The host, as far as the contract calls it

`Ledger` is the contract's own account: its EGLD balance, its ESDT units
(`Lib/Custody.lean`, one asset for each token and nonce), and for each
collection the highest nonce created and the data stored with each nonce.

Every call the contract makes can be refused by the host for reasons the
ledger does not show (a missing role, gas, a payee that takes no payments).
One flag of the transaction, `hostOk`, stands for all of them: when it is
false, the first call made fails the transaction. `EGLD` is no ESDT, and the
built-in functions refuse it.

`transferEsdtViaAsyncCall` never returns: it hands the units over and ends
the execution with the storage written so far. The parcel settles in an act
of its own, later, accepted by another account (the host refuses a transfer to
the sender itself) or sent back. A transfer that the holding does not cover
hands nothing over: it fails the whole call, which leaves the storage as it
was before it.

`topEncode` and `topDecode` are the codec's top-level form of a `u64`, the
only encoded value that leaves the contract and comes back to it.
-/

namespace ElrondMint

open Custody Rollback

/-- Top-encoding of a `u64`: minimal big-endian, zero as the empty string. -/
def topEncodeU64 (n : UInt64) : Bytes := BigEndian.encode n.toNat

/-- Top-decoding of a `u64`: more than eight bytes do not decode. -/
def topDecodeU64 (bytes : Bytes) : Option UInt64 :=
  if bytes.length ≤ 8 then some (UInt64.ofNat (BigEndian.decode bytes)) else none

theorem topDecode_topEncode (n : UInt64) :
    topDecodeU64 (topEncodeU64 n) = some n := by
  have hlen : (topEncodeU64 n).length ≤ 8 :=
    BigEndian.length_encode_le (by have := n.toNat_lt; omega)
  rw [topDecodeU64, if_pos hlen, topEncodeU64, BigEndian.decode_encode,
    UInt64.ofNat_toNat]

/-- The data stored with one nonce of a collection. -/
structure EsdtTokenData where
  name : Bytes
  royalties : Nat
  hash : Bytes
  attributes : Bytes
  uris : List Bytes
  deriving DecidableEq, Repr

/-- What a query about a nonce that is not held answers. -/
def EsdtTokenData.default : EsdtTokenData := ⟨[], 0, [], [], []⟩

/-- One asset: a token and a nonce. -/
abbrev Asset := TokenIdentifier × UInt64

structure Ledger where
  egld : Nat
  esdt : Account Asset
  lastNonce : TokenIdentifier → UInt64
  tokenData : TokenIdentifier → UInt64 → EsdtTokenData

/-- A transfer that `transferEsdtViaAsyncCall` started. -/
structure EsdtTransfer where
  recipient : Address
  token : TokenIdentifier
  nonce : UInt64
  amount : Nat
  data : Bytes
  deriving DecidableEq, Repr

/-- What a transaction pays to the contract. -/
inductive Payment where
  | egld (value : Nat)
  | esdt (token : TokenIdentifier) (nonce : UInt64) (value : Nat)
  deriving DecidableEq, Repr

namespace Payment

/-- `#[payment_token]`. -/
def token : Payment → TokenIdentifier
  | .egld _ => .egld
  | .esdt token _ _ => token

/-- `#[payment_nonce]`. -/
def nonce : Payment → UInt64
  | .egld _ => 0
  | .esdt _ nonce _ => nonce

/-- `#[payment]`. -/
def value : Payment → Nat
  | .egld value => value
  | .esdt _ _ value => value

/-- The units of an asset that a payment brings. -/
def units (p : Payment) (k : Asset) : Nat :=
  match p with
  | .egld _ => 0
  | .esdt token nonce value => if k = (token, nonce) then value else 0

end Payment

/-- The payments an endpoint is annotated to accept. -/
inductive Payable where
  | no
  | egld
  | any
  deriving DecidableEq, Repr

/-- The framework's check of a payment against the annotation. -/
def Payable.check : Payable → Payment → Except Failure Unit
  | .no, .egld 0 => .ok ()
  | .no, _ => .error .host
  | .egld, .egld _ => .ok ()
  | .egld, .esdt _ _ _ => .error .host
  | .any, _ => .ok ()

/-- A host call that the host may refuse. -/
def hostCall {α : Type} (hostOk : Bool) : Option α → Except Failure α
  | some a => if hostOk then .ok a else .error .host
  | none => .error .host

@[simp] theorem hostCall_eq_ok {α : Type} {hostOk : Bool} {o : Option α} {a : α} :
    hostCall hostOk o = .ok a ↔ hostOk = true ∧ o = some a := by
  cases o <;> cases hostOk <;> simp [hostCall]

theorem hostCall_error {α : Type} {hostOk : Bool} {o : Option α} {e : Failure}
    (h : hostCall hostOk o = .error e) : e = .host := by
  unfold hostCall at h
  split at h
  · split at h
    · simp at h
    · cases h
      rfl
  · cases h
    rfl

namespace Ledger

/-- Credits the payment of a transaction. -/
def receive (l : Ledger) : Payment → Except Failure Ledger
  | .egld value => .ok { l with egld := l.egld + value }
  | .esdt token nonce value =>
      if token = .egld then .error .host
      else match l.esdt.receive (token, nonce) value with
        | some esdt => .ok { l with esdt := esdt }
        | none => .error .host

/-- `direct_egld`. -/
def directEgld (l : Ledger) (hostOk : Bool) (amount : Nat) :
    Except Failure Ledger :=
  hostCall hostOk
    (if amount ≤ l.egld then some { l with egld := l.egld - amount } else none)

/-- `esdt_nft_create`: `amount` units under the next nonce of the collection,
which has to have one left. -/
def esdtNftCreate (l : Ledger) (hostOk : Bool) (token : TokenIdentifier)
    (amount : Nat) (data : EsdtTokenData) : Except Failure (UInt64 × Ledger) :=
  let nonce := l.lastNonce token + 1
  hostCall hostOk
    (if token ≠ .egld ∧ nonce ≠ 0 then
      some (nonce, { l with
        esdt := l.esdt.mint (token, nonce) amount
        lastNonce := Function.update l.lastNonce token nonce
        tokenData := Function.update l.tokenData token
          (Function.update (l.tokenData token) nonce data) })
    else none)

/-- `esdt_local_mint`. -/
def esdtLocalMint (l : Ledger) (hostOk : Bool) (token : TokenIdentifier)
    (nonce : UInt64) (amount : Nat) : Except Failure Ledger :=
  hostCall hostOk
    (if token ≠ .egld then
      some { l with esdt := l.esdt.mint (token, nonce) amount }
    else none)

/-- `esdt_local_burn`. -/
def esdtLocalBurn (l : Ledger) (hostOk : Bool) (token : TokenIdentifier)
    (nonce : UInt64) (amount : Nat) : Except Failure Ledger :=
  hostCall hostOk
    (if token ≠ .egld then
      (l.esdt.burn (token, nonce) amount).map fun esdt => { l with esdt := esdt }
    else none)

/-- `get_esdt_token_data` of the contract's own holding. -/
def getEsdtTokenData (l : Ledger) (token : TokenIdentifier) (nonce : UInt64) :
    EsdtTokenData :=
  if 0 < l.esdt.holding (token, nonce) then l.tokenData token nonce else .default

/-- `transfer_esdt_via_async_call`. What is not held is not sent, and the call
fails. -/
def transferEsdtViaAsyncCall (l : Ledger) (hostOk : Bool) (t : EsdtTransfer) :
    Except Failure Ledger :=
  hostCall hostOk
    (if t.token ≠ .egld then
      (l.esdt.send (t.token, t.nonce) t.amount).map fun esdt =>
        { l with esdt := esdt }
    else none)

/-- One parcel settles. -/
def settle (l : Ledger) (i : Nat) (accepted : Bool) : Ledger :=
  { l with esdt := l.esdt.settle i accepted }

/-! ## What each call did -/

variable {l l' : Ledger} {hostOk : Bool} {token : TokenIdentifier}
  {nonce : UInt64} {amount : Nat} {data : EsdtTokenData}

/-- A payment that does not arrive is the host's refusal. -/
theorem receive_error {p : Payment} {e : Failure} (h : l.receive p = .error e) :
    e = .host := by
  unfold receive at h
  split at h
  · simp at h
  · split at h
    · cases h
      rfl
    · split at h
      · simp at h
      · cases h
        rfl

/-- A payment raises the holding by what it brings, and only brings units
that exist outside. -/
theorem receive_spec {p : Payment} (h : l.receive p = .ok l') :
    (∀ k, p.units k ≤ l.esdt.outside k) ∧
      (∀ k, l'.esdt.holding k = l.esdt.holding k + p.units k) ∧
      (∀ k, l'.esdt.units k = l.esdt.units k) ∧
      l'.lastNonce = l.lastNonce ∧ l'.tokenData = l.tokenData := by
  cases p with
  | egld value =>
      simp only [receive, Except.ok.injEq] at h
      subst h
      simp [Payment.units, Account.units]
  | esdt token nonce value =>
      simp only [receive] at h
      split at h
      · simp at h
      · split at h
        · next esdt hrec =>
            simp only [Except.ok.injEq] at h
            subst h
            obtain ⟨hout, hhold, hunits⟩ := Account.receive_spec hrec
            refine ⟨fun k => ?_, hhold, hunits, rfl, rfl⟩
            simp only [Payment.units]
            split
            · next hk => rw [hk]; exact hout
            · omega
        · simp at h

/-- A payment in ESDT arrives if its units are there to pay. -/
theorem receive_esdt : (∃ l', l.receive (.esdt token nonce amount) = .ok l') ↔
    token ≠ .egld ∧ amount ≤ l.esdt.outside (token, nonce) := by
  unfold receive Account.receive
  by_cases htoken : token = .egld
  · simp [htoken]
  · by_cases hle : amount ≤ l.esdt.outside (token, nonce)
    · simp [htoken, hle]
    · simp [htoken, hle]

theorem directEgld_spec (h : l.directEgld hostOk amount = .ok l') :
    amount ≤ l.egld ∧ l' = { l with egld := l.egld - amount } := by
  obtain ⟨-, h⟩ := hostCall_eq_ok.mp h
  split at h
  · next hle =>
      injection h with h
      exact ⟨hle, h.symm⟩
  · simp at h

theorem esdtNftCreate_spec {n : UInt64}
    (h : l.esdtNftCreate hostOk token amount data = .ok (n, l')) :
    n = l.lastNonce token + 1 ∧ n ≠ 0 ∧
      l'.egld = l.egld ∧
      l'.lastNonce = Function.update l.lastNonce token n ∧
      (∀ k, l'.esdt.holding k = l.esdt.holding k +
        if k = (token, n) then amount else 0) ∧
      (∀ k, l'.esdt.units k = l.esdt.units k +
        if k = (token, n) then amount else 0) ∧
      (∀ t m, l'.tokenData t m =
        if t = token ∧ m = n then data else l.tokenData t m) := by
  obtain ⟨-, h⟩ := hostCall_eq_ok.mp h
  split at h
  · next hcond =>
      simp only [Option.some.injEq, Prod.mk.injEq] at h
      obtain ⟨rfl, rfl⟩ := h
      refine ⟨rfl, hcond.2, rfl, rfl, fun k => Account.mint_holding _ _ _ _,
        fun k => Account.mint_units _ _ _ _, fun t m => ?_⟩
      by_cases ht : t = token
      · subst ht
        by_cases hm : m = l.lastNonce t + 1
        · simp [hm]
        · simp [hm]
      · simp [ht]
  · simp at h

theorem esdtLocalMint_spec (h : l.esdtLocalMint hostOk token nonce amount = .ok l') :
    l'.egld = l.egld ∧ l'.lastNonce = l.lastNonce ∧ l'.tokenData = l.tokenData ∧
      (∀ k, l'.esdt.holding k = l.esdt.holding k +
        if k = (token, nonce) then amount else 0) ∧
      (∀ k, l'.esdt.units k = l.esdt.units k +
        if k = (token, nonce) then amount else 0) := by
  obtain ⟨-, h⟩ := hostCall_eq_ok.mp h
  split at h
  · injection h with h
    subst h
    exact ⟨rfl, rfl, rfl, fun k => Account.mint_holding _ _ _ _,
      fun k => Account.mint_units _ _ _ _⟩
  · simp at h

theorem esdtLocalBurn_spec (h : l.esdtLocalBurn hostOk token nonce amount = .ok l') :
    token ≠ .egld ∧ l'.egld = l.egld ∧ l'.lastNonce = l.lastNonce ∧
      l'.tokenData = l.tokenData ∧
      (∀ k, l'.esdt.holding k + (if k = (token, nonce) then amount else 0) =
        l.esdt.holding k) ∧
      (∀ k, l'.esdt.units k + (if k = (token, nonce) then amount else 0) =
        l.esdt.units k) := by
  obtain ⟨-, h⟩ := hostCall_eq_ok.mp h
  split at h
  · next htoken =>
      obtain ⟨esdt, hburn, rfl⟩ := Option.map_eq_some_iff.mp h
      obtain ⟨hhold, hunits⟩ := Account.burn_spec hburn
      exact ⟨htoken, rfl, rfl, rfl, hhold, hunits⟩
  · simp at h

/-- A burn of what is held goes through, if the host permits it. -/
theorem esdtLocalBurn_of_le (htoken : token ≠ .egld)
    (hle : amount ≤ l.esdt.holding (token, nonce)) :
    ∃ l', l.esdtLocalBurn true token nonce amount = .ok l' := by
  unfold esdtLocalBurn Account.burn
  rw [if_pos htoken, if_pos hle]
  exact ⟨_, rfl⟩

theorem esdtNftCreate_iff : (∃ out, l.esdtNftCreate hostOk token amount data = .ok out) ↔
    hostOk = true ∧ token ≠ .egld ∧ l.lastNonce token + 1 ≠ 0 := by
  simp [esdtNftCreate]

theorem esdtLocalMint_iff : (∃ l', l.esdtLocalMint hostOk token nonce amount = .ok l') ↔
    hostOk = true ∧ token ≠ .egld := by
  simp [esdtLocalMint]

theorem transferEsdtViaAsyncCall_iff {t : EsdtTransfer} :
    (∃ l', l.transferEsdtViaAsyncCall hostOk t = .ok l') ↔
      hostOk = true ∧ t.token ≠ .egld ∧ t.amount ≤ l.esdt.holding (t.token, t.nonce) := by
  simp [transferEsdtViaAsyncCall, Account.send]

/-- What is handed over is on its way. -/
theorem transferEsdtViaAsyncCall_inFlight {t : EsdtTransfer}
    (h : l.transferEsdtViaAsyncCall hostOk t = .ok l') :
    ((t.token, t.nonce), t.amount) ∈ l'.esdt.inFlight := by
  obtain ⟨-, h⟩ := hostCall_eq_ok.mp h
  split at h
  · obtain ⟨esdt, hsend, rfl⟩ := Option.map_eq_some_iff.mp h
    exact Account.send_inFlight hsend
  · simp at h

theorem transferEsdtViaAsyncCall_spec {t : EsdtTransfer}
    (h : l.transferEsdtViaAsyncCall hostOk t = .ok l') :
    l'.egld = l.egld ∧ l'.lastNonce = l.lastNonce ∧ l'.tokenData = l.tokenData ∧
      (∀ k, l'.esdt.holding k + (if k = (t.token, t.nonce) then t.amount else 0) =
        l.esdt.holding k) ∧
      (∀ k, l'.esdt.units k = l.esdt.units k) := by
  obtain ⟨-, h⟩ := hostCall_eq_ok.mp h
  split at h
  · obtain ⟨esdt, hsend, rfl⟩ := Option.map_eq_some_iff.mp h
    obtain ⟨hhold, hunits⟩ := Account.send_spec hsend
    exact ⟨rfl, rfl, rfl, hhold, hunits⟩
  · simp at h

end Ledger

end ElrondMint
