import Mathlib.Data.Finmap

/-!
# The contract's data

The types of `action.rs`, `events.rs` and `user_role.rs`, the two tables the
contract keeps its storage in, and the ways a call can fail.

Big integers are natural numbers and `u64` is `UInt64`. A `usize` is a
natural number with the wrapping of the 32-bit target written out where the
source computes with one: `usizeInc` and `usizeDec` are `+= 1` and `-= 1` in
a release build, which has no overflow checks. Addresses are 32 bytes. The
source's `to` is a keyword here and reads `recipient`.
-/

namespace ElrondMint

abbrev Address := BitVec 256

/-- `BoxedBytes`. -/
abbrev Bytes := List UInt8

abbrev TokenIdentifier := Bytes

/-- The identifier under which a call sees a payment in EGLD. -/
def TokenIdentifier.egld : TokenIdentifier := [0x45, 0x47, 0x4c, 0x44]

/-- How many values a `usize` has. -/
def usizeBound : Nat := 2 ^ 32

/-- `+= 1` on a `usize`. -/
def usizeInc (n : Nat) : Nat := (n + 1) % usizeBound

/-- `-= 1` on a `usize`. -/
def usizeDec (n : Nat) : Nat := (n + (usizeBound - 1)) % usizeBound

theorem usizeInc_of_lt {n : Nat} (h : n + 1 < usizeBound) : usizeInc n = n + 1 :=
  Nat.mod_eq_of_lt h

theorem usizeDec_of_pos {n : Nat} (hpos : 0 < n) (h : n < usizeBound) :
    usizeDec n = n - 1 := by
  unfold usizeDec usizeBound at *
  omega

/-! ## Roles, actions and events -/

inductive UserRole where
  | none
  | validator
  deriving DecidableEq, Repr

/-- Whether a user is a validator. -/
def UserRole.canSign : UserRole → Bool
  | .validator => true
  | .none => false

@[simp] theorem UserRole.canSign_iff {role : UserRole} :
    role.canSign = true ↔ role = .validator := by
  cases role <;> simp [canSign]

/-- Available actions that validators can call. -/
inductive Action where
  | nothing
  | addValidator (addr : Address)
  | removeUser (userAddress : Address)
  | changeMinValid (newQuorum : Nat)
  | sendWrapped (chainNonce : UInt64) (recipient : Address) (amount : Nat)
      (data : Bytes)
  | sendNft (chainNonce : UInt64) (recipient : Address) (id : Bytes)
  | unfreeze (recipient : Address) (amount : Nat)
  | unfreezeNft (recipient : Address) (token : TokenIdentifier) (nonce : UInt64)
  deriving DecidableEq, Repr

/-- Information associated with an action. -/
structure ActionInfo where
  action : Action
  signers : List Nat
  eventRecvCnt : Nat
  deriving DecidableEq, Repr

/-- A payment in EGLD that the end of a call makes. -/
structure SendEgld where
  recipient : Address
  amount : Nat
  data : Bytes
  deriving DecidableEq, Repr

/-- `AsyncCall`: a call with EGLD attached that the end of a call makes. -/
structure AsyncCall where
  recipient : Address
  egldPayment : Nat
  data : Bytes
  deriving DecidableEq, Repr

/-- Action Result. -/
inductive PerformActionResult where
  | done
  | pending
  | asyncCall (call : AsyncCall)
  | unfreeze (send : SendEgld)
  deriving DecidableEq, Repr

inductive Event where
  | unfreeze (chainNonce : UInt64) (recipient : String) (value : Nat)
  | unfreezeNft (chainNonce : UInt64) (recipient : String) (id : Bytes)
  | transfer (chainNonce : UInt64) (recipient : String) (value : Nat)
  | transferNft (chainNonce : UInt64) (recipient : String) (token : TokenIdentifier)
      (nonce : UInt64)
  deriving DecidableEq, Repr

structure EventInfo where
  event : Event
  readCnt : Nat
  deriving DecidableEq, Repr

def EventInfo.new (event : Event) : EventInfo := ⟨event, 0⟩

/-! ## Failures -/

/-- A call fails with an error of its own, by a panic, or because the host
or the framework refuses it. -/
inductive Failure where
  | error (message : String)
  | panic
  | host
  deriving DecidableEq, Repr

/-- `require!`. -/
def require (cond : Prop) [Decidable cond] (message : String) :
    Except Failure Unit :=
  if cond then .ok () else .error (.error message)

/-- `Option::unwrap`. -/
def unwrap {α : Type} : Option α → Except Failure α
  | some a => .ok a
  | none => .error .panic

@[simp] theorem require_eq_ok {cond : Prop} [Decidable cond] {message : String}
    {u : Unit} : require cond message = .ok u ↔ cond := by
  unfold require
  split <;> simp [*]

theorem require_eq_error {cond : Prop} [Decidable cond] {message : String}
    {e : Failure} :
    require cond message = .error e ↔ ¬ cond ∧ e = .error message := by
  unfold require
  split <;> simp [*, eq_comm]

@[simp] theorem unwrap_eq_ok {α : Type} {o : Option α} {a : α} :
    unwrap o = .ok a ↔ o = some a := by
  cases o <;> simp [unwrap]

theorem unwrap_eq_error {α : Type} {o : Option α} {e : Failure} :
    unwrap o = .error e ↔ o = none ∧ e = .panic := by
  cases o <;> simp [unwrap, eq_comm]

/-! ## The two storage tables -/

/-- `SafeMapMapper`: a finite table from big integers to values. -/
abbrev SafeMapMapper (V : Type) := Finmap fun _ : Nat => V

namespace SafeMapMapper

variable {V : Type}

def get (m : SafeMapMapper V) (k : Nat) : Option V := m.lookup k

/-- Stores a value and hands back the one it replaces. -/
def insert (m : SafeMapMapper V) (k : Nat) (v : V) :
    Option V × SafeMapMapper V :=
  (m.lookup k, Finmap.insert k v m)

/-- Takes a value out of the table. -/
def remove (m : SafeMapMapper V) (k : Nat) : Option V × SafeMapMapper V :=
  (m.lookup k, m.erase k)

@[simp] theorem get_empty (k : Nat) : get (∅ : SafeMapMapper V) k = none :=
  Finmap.lookup_empty k

@[simp] theorem insert_fst (m : SafeMapMapper V) (k : Nat) (v : V) :
    (insert m k v).1 = get m k := rfl

@[simp] theorem remove_fst (m : SafeMapMapper V) (k : Nat) :
    (remove m k).1 = get m k := rfl

theorem get_insert (m : SafeMapMapper V) (k : Nat) (v : V) (j : Nat) :
    get (insert m k v).2 j = if j = k then some v else get m j := by
  by_cases hj : j = k
  · subst hj; simp [get, insert]
  · rw [if_neg hj]
    exact Finmap.lookup_insert_of_ne m hj

theorem get_remove (m : SafeMapMapper V) (k j : Nat) :
    get (remove m k).2 j = if j = k then none else get m j := by
  by_cases hj : j = k
  · subst hj; simp [get, remove]
  · rw [if_neg hj]
    exact Finmap.lookup_erase_ne hj

/-- Storing what is stored already changes nothing. -/
theorem insert_same {m : SafeMapMapper V} {k : Nat} {v : V}
    (h : get m k = some v) : (insert m k v).2 = m := by
  refine Finmap.ext_lookup fun j => ?_
  have hj := get_insert m k v j
  split at hj
  · next heq => subst heq; exact hj.trans h.symm
  · exact hj

end SafeMapMapper

/-- `UserMapper`: the table between addresses and the ids handed out to them
in order, from 1. An id is a `usize`, so the table never numbers
`usizeBound` addresses. -/
structure UserMapper where
  userAddressToId : Address → Nat
  userIdToAddress : Nat → Option Address
  userCount : Nat
  id_of_address : ∀ i a, userIdToAddress i = some a ↔
    i ≠ 0 ∧ userAddressToId a = i
  id_range : ∀ i, (userIdToAddress i).isSome ↔ 1 ≤ i ∧ i ≤ userCount
  count_lt : userCount < usizeBound

namespace UserMapper

def empty : UserMapper where
  userAddressToId _ := 0
  userIdToAddress _ := none
  userCount := 0
  id_of_address i a := by simp [eq_comm]
  id_range i := by simp; omega
  count_lt := by decide

/-- 0 for an unknown address. -/
def getUserId (m : UserMapper) (a : Address) : Nat := m.userAddressToId a

theorem getUserId_le (m : UserMapper) (a : Address) :
    m.getUserId a ≤ m.userCount := by
  by_cases h0 : m.getUserId a = 0
  · omega
  · have hsome := (m.id_of_address (m.getUserId a) a).mpr ⟨h0, rfl⟩
    exact ((m.id_range _).mp (by rw [hsome]; rfl)).2

/-- A registered address is the only one with its id. -/
theorem getUserId_inj (m : UserMapper) {a b : Address}
    (ha : m.getUserId a ≠ 0) (hab : m.getUserId a = m.getUserId b) : a = b := by
  have h₁ := (m.id_of_address (m.getUserId a) a).mpr ⟨ha, rfl⟩
  have h₂ := (m.id_of_address (m.getUserId a) b).mpr ⟨ha, hab.symm⟩
  exact Option.some.inj (h₁.symm.trans h₂)

theorem exists_address (m : UserMapper) {i : Nat} (h1 : 1 ≤ i)
    (hi : i ≤ m.userCount) : ∃ a, m.getUserId a = i := by
  obtain ⟨a, ha⟩ := Option.isSome_iff_exists.mp ((m.id_range i).mpr ⟨h1, hi⟩)
  exact ⟨a, ((m.id_of_address i a).mp ha).2⟩

/-- Numbers one more address. -/
def register (m : UserMapper) (a : Address) (hnew : m.getUserId a = 0)
    (hroom : m.userCount + 1 < usizeBound) : UserMapper where
  userAddressToId := Function.update m.userAddressToId a (m.userCount + 1)
  userIdToAddress := Function.update m.userIdToAddress (m.userCount + 1) (some a)
  userCount := m.userCount + 1
  id_of_address i b := by
    have hle := m.getUserId_le b
    have hold := m.id_of_address i b
    unfold getUserId at hnew hle
    by_cases hb : b = a
    · subst hb
      by_cases hi : i = m.userCount + 1
      · subst hi; simp
      · simp only [Function.update_self, Function.update_of_ne hi]
        refine ⟨?_, ?_⟩
        · intro h; exact absurd (hold.mp h) (by omega)
        · intro h; exact absurd h.2.symm hi
    · rw [Function.update_of_ne hb]
      by_cases hi : i = m.userCount + 1
      · subst hi
        simp only [Function.update_self, Option.some.injEq]
        refine ⟨?_, ?_⟩
        · intro h; exact absurd h.symm hb
        · intro h; omega
      · rw [Function.update_of_ne hi]; exact hold
  id_range i := by
    have hold := m.id_range i
    by_cases hi : i = m.userCount + 1
    · subst hi; simp
    · rw [Function.update_of_ne hi, hold]; omega
  count_lt := hroom

/-- The id of an address, registered on the way if it is new. A table that
has handed out every id refuses the transaction. -/
def getOrCreateUser (m : UserMapper) (a : Address) :
    Except Failure (Nat × UserMapper) :=
  if hnew : m.getUserId a = 0 then
    if hroom : m.userCount + 1 < usizeBound then
      .ok (m.userCount + 1, m.register a hnew hroom)
    else .error .host
  else .ok (m.getUserId a, m)

/-- Registers a list of addresses in order, calling back with each id and
with whether its address was new. -/
def getOrCreateUsers {σ : Type} (callback : Nat → Bool → σ → σ) :
    UserMapper → List Address → σ → Except Failure (UserMapper × σ)
  | m, [], s => .ok (m, s)
  | m, a :: as, s => do
      let newUser := decide (m.getUserId a = 0)
      let (userId, m) ← m.getOrCreateUser a
      getOrCreateUsers callback m as (callback userId newUser s)

end UserMapper

end ElrondMint
