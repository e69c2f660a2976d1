import ElrondMint.Effects
import Mathlib.Order.Interval.Finset.Nat
import Mathlib.Data.Set.Function

/-!
# The board and its quorum

`numValidators` is a cached count: the board never enumerates the role table,
it adds and subtracts one as roles change. `Board.Sound` says the cache is
right, and that no role stands outside the ids handed out; `changeUserRole`
keeps it in all four of its branches because a role written at an id changes
the set of validator ids at that id only. `Board.Invariant` adds what the
checks around `changeUserRole` are for, a non-empty board that can reach its
quorum.

A registered address keeps its id for ever, since the user table only grows
at fresh ids. That is what lets later files speak of signers by address.
-/

namespace ElrondMint

open Rollback

/-- The ids with the role of a validator. -/
def Board.validatorIds (b : Board) : Finset Nat :=
  (Finset.Icc 1 b.userMapper.userCount).filter fun i => b.userRole i = .validator

/-- The validators, by address. -/
def Board.validators (b : Board) : Finset Address :=
  b.validatorIds.image fun i => (b.userMapper.userIdToAddress i).getD 0

/-- No role stands outside the ids handed out. -/
def Board.RolesInside (b : Board) : Prop :=
  ∀ i, i = 0 ∨ b.userMapper.userCount < i → b.userRole i = .none

structure Board.Sound (b : Board) : Prop where
  inside : b.RolesInside
  count : b.numValidators = b.validatorIds.card

structure Board.Invariant (b : Board) : Prop extends b.Sound where
  nonempty : 0 < b.numValidators
  quorum : b.minValid ≤ b.numValidators

/-- One table extends another: no address loses or changes its id. -/
def UserMapper.Grows (m m' : UserMapper) : Prop :=
  ∀ a, m.getUserId a ≠ 0 → m'.getUserId a = m.getUserId a

variable {b b' : Board} {addr : Address} {role : UserRole} {w w' w₀ : World}
  {l : Ledger} {token nftToken : TokenIdentifier} {minValid : Nat}
  {validators : List Address} {h : List Rec} {act : Act} {ret : Ret}

theorem Board.RolesInside.mem_validatorIds (hin : b.RolesInside) {i : Nat} :
    i ∈ b.validatorIds ↔ b.userRole i = .validator := by
  rw [Board.validatorIds, Finset.mem_filter, Finset.mem_Icc]
  refine ⟨?_, ?_⟩
  · intro hi
    exact hi.2
  · intro hi
    refine ⟨?_, hi⟩
    by_contra hout
    rw [hin i (by omega)] at hi
    simp at hi

theorem Board.Sound.card_le (hs : b.Sound) :
    b.numValidators ≤ b.userMapper.userCount := by
  rw [hs.count, Board.validatorIds]
  refine (Finset.card_filter_le _ _).trans ?_
  rw [Nat.card_Icc]
  omega

theorem Board.Sound.card_lt (hs : b.Sound) : b.numValidators < usizeBound :=
  lt_of_le_of_lt hs.card_le b.userMapper.count_lt

theorem Board.Sound.pos_of_isValidator (hs : b.Sound) (hv : b.IsValidator addr) :
    0 < b.numValidators := by
  rw [hs.count, Finset.card_pos]
  exact ⟨_, hs.inside.mem_validatorIds.mpr hv⟩

/-- A validator is registered. -/
theorem Board.Sound.id_ne_zero (hs : b.Sound) (hv : b.IsValidator addr) :
    b.userMapper.getUserId addr ≠ 0 := by
  intro h0
  have hnone := hs.inside 0 (.inl rfl)
  rw [Board.IsValidator, h0, hnone] at hv
  simp at hv

theorem Board.Sound.mem_validators (hs : b.Sound) :
    addr ∈ b.validators ↔ b.IsValidator addr := by
  have hback : ∀ i a, b.userMapper.userIdToAddress i = some a →
      b.userMapper.getUserId a = i :=
    fun i a ha => ((b.userMapper.id_of_address i a).mp ha).2
  rw [Board.validators, Finset.mem_image]
  refine ⟨?_, ?_⟩
  · rintro ⟨i, hi, rfl⟩
    have hrange := (Finset.mem_filter.mp hi).1
    obtain ⟨a, ha⟩ := Option.isSome_iff_exists.mp
      ((b.userMapper.id_range i).mpr (Finset.mem_Icc.mp hrange))
    rw [ha, Option.getD_some, Board.IsValidator, hback i a ha]
    exact hs.inside.mem_validatorIds.mp hi
  · intro hv
    have haddr := (b.userMapper.id_of_address _ addr).mpr ⟨hs.id_ne_zero hv, rfl⟩
    exact ⟨_, hs.inside.mem_validatorIds.mpr hv, by rw [haddr, Option.getD_some]⟩

theorem Board.Sound.card_validators (hs : b.Sound) :
    b.validators.card = b.numValidators := by
  rw [hs.count, Board.validators]
  refine Finset.card_image_of_injOn fun i hi j hj hij => ?_
  have hsome : ∀ i ∈ b.validatorIds, ∃ a, b.userMapper.userIdToAddress i = some a :=
    fun i hi => Option.isSome_iff_exists.mp ((b.userMapper.id_range i).mpr
      (Finset.mem_Icc.mp (Finset.mem_filter.mp hi).1))
  obtain ⟨a, ha⟩ := hsome i hi
  obtain ⟨c, hc⟩ := hsome j hj
  simp only [ha, hc, Option.getD_some] at hij
  rw [← ((b.userMapper.id_of_address i a).mp ha).2, hij,
    ((b.userMapper.id_of_address j c).mp hc).2]

/-! ## The user table -/

theorem UserMapper.Grows.refl (m : UserMapper) : m.Grows m := fun _ _ => rfl

theorem UserMapper.Grows.trans {m₁ m₂ m₃ : UserMapper} (h₁ : m₁.Grows m₂)
    (h₂ : m₂.Grows m₃) : m₁.Grows m₃ := by
  intro a ha
  have h := h₁ a ha
  rw [h₂ a (by rwa [h]), h]

/-- What `getOrCreateUser` returns: the id of the address in the new table,
which is the old table, or the old table with the address under the next id. -/
theorem UserMapper.getOrCreateUser_spec {m m' : UserMapper} {id : Nat}
    (h : m.getOrCreateUser addr = .ok (id, m')) :
    id ≠ 0 ∧ m'.getUserId addr = id ∧ m.Grows m' ∧
      ((m.getUserId addr = id ∧ m' = m) ∨
        (m.getUserId addr = 0 ∧ id = m.userCount + 1 ∧
          m'.userCount = m.userCount + 1)) := by
  rw [getOrCreateUser] at h
  split at h
  · next hnew =>
      split at h
      · next hroom =>
          simp only [Except.ok.injEq, Prod.mk.injEq] at h
          obtain ⟨rfl, rfl⟩ := h
          have hself : (m.register addr hnew hroom).getUserId addr = m.userCount + 1 :=
            Function.update_self ..
          refine ⟨Nat.succ_ne_zero _, hself, fun a ha => ?_, .inr ⟨hnew, rfl, rfl⟩⟩
          have hne : a ≠ addr := by rintro rfl; exact ha hnew
          exact Function.update_of_ne hne _ _
      · simp at h
  · next hold =>
      simp only [Except.ok.injEq, Prod.mk.injEq] at h
      obtain ⟨rfl, rfl⟩ := h
      exact ⟨hold, rfl, .refl _, .inl ⟨rfl, rfl⟩⟩

/-! ## Writing a role -/

/-- Writing a role changes the set of validator ids at one id only, so the
count moves by what the two roles differ in. -/
theorem card_validatorIds_update {id : Nat} (hin : b.RolesInside)
    (hin' : b'.RolesInside)
    (hrole : b'.userRole = Function.update b.userRole id role) :
    b'.validatorIds.card + (if b.userRole id = .validator then 1 else 0) =
      b.validatorIds.card + (if role = .validator then 1 else 0) := by
  have hmem : ∀ i, i ∈ b'.validatorIds ↔
      if i = id then role = .validator else i ∈ b.validatorIds := by
    intro i
    rw [hin'.mem_validatorIds, hrole]
    by_cases hi : i = id
    · rw [if_pos hi, hi, Function.update_self]
    · rw [if_neg hi, Function.update_of_ne hi, hin.mem_validatorIds]
  simp only [← hin.mem_validatorIds]
  by_cases hnew : role = .validator
  · have hset : b'.validatorIds = insert id b.validatorIds := by
      ext i
      rw [hmem, Finset.mem_insert]
      by_cases hi : i = id <;> simp [hi, hnew]
    rw [hset, if_pos hnew]
    by_cases hold : id ∈ b.validatorIds
    · rw [if_pos hold, Finset.insert_eq_of_mem hold]
    · rw [if_neg hold, Finset.card_insert_of_notMem hold]
  · have hset : b'.validatorIds = b.validatorIds.erase id := by
      ext i
      rw [hmem, Finset.mem_erase]
      by_cases hi : i = id <;> simp [hi, hnew]
    rw [hset, if_neg hnew]
    by_cases hold : id ∈ b.validatorIds
    · rw [if_pos hold, Finset.card_erase_add_one hold]
      rfl
    · rw [if_neg hold, Finset.erase_eq_of_notMem hold]

/-- The board with a role written, under a new user table and a new count. -/
def Board.writeRole (b : Board) (m : UserMapper) (id : Nat) (role : UserRole)
    (n : Nat) : Board :=
  { b with
    userMapper := m
    userRole := Function.update b.userRole id role
    numValidators := n }

/-- What `changeUserRole` does, whatever the roles: it writes the new role at
the address's id and keeps the count in step. -/
theorem Board.changeUserRole_spec (hs : b.Sound)
    (h : b.changeUserRole addr role = .ok b') :
    b'.Sound ∧ b'.minValid = b.minValid ∧ b.userMapper.Grows b'.userMapper ∧
      b'.userMapper.getUserId addr ≠ 0 ∧
      b'.userRole = Function.update b.userRole (b'.userMapper.getUserId addr) role ∧
      b'.numValidators + (if b.IsValidator addr then 1 else 0) =
        b.numValidators + (if role = .validator then 1 else 0) := by
  obtain ⟨⟨id, m⟩, hid, h⟩ := bind_eq_ok.mp h
  obtain ⟨hid0, hget, hgrow, hcases⟩ := UserMapper.getOrCreateUser_spec hid
  simp only [if_neg hid0] at h
  have hle : id ≤ m.userCount := hget ▸ m.getUserId_le addr
  have hold : b.IsValidator addr ↔ b.userRole id = .validator := by
    rw [Board.IsValidator]
    rcases hcases with ⟨heq, -⟩ | ⟨hzero, hnext, -⟩
    · rw [heq]
    · rw [hzero, hs.inside 0 (.inl rfl), hnext,
        hs.inside _ (.inr (Nat.lt_succ_self _))]
  have hin : ∀ n, (b.writeRole m id role n).RolesInside := by
    intro n i hi
    have hmono : b.userMapper.userCount ≤ m.userCount := by
      rcases hcases with ⟨-, rfl⟩ | ⟨-, -, hc⟩ <;> omega
    have hi' : i = 0 ∨ m.userCount < i := hi
    exact (Function.update_of_ne (by omega) _ _).trans (hs.inside i (by omega))
  -- the true count of the written board; all four branches have to hit it
  obtain ⟨c, hc⟩ : ∃ c, ∀ n, (b.writeRole m id role n).validatorIds.card = c :=
    ⟨(b.writeRole m id role 0).validatorIds.card, fun _ => rfl⟩
  have hlt : c < usizeBound :=
    Board.Sound.card_lt (b := b.writeRole m id role c) ⟨hin c, (hc c).symm⟩
  have hcard : c + (if b.userRole id = .validator then 1 else 0) =
      b.numValidators + (if role = .validator then 1 else 0) := by
    rw [hs.count, ← hc 0]
    exact card_validatorIds_update hs.inside (hin 0) rfl
  obtain ⟨n, rfl, hn⟩ : ∃ n, b' = b.writeRole m id role n ∧ n = c := by
    split at h
    · next hval =>
        have hpos := hs.pos_of_isValidator (hold.mpr hval)
        rw [if_pos hval] at hcard
        split at h
        · next hnew =>
            rw [if_neg hnew] at hcard
            injection h with h
            refine ⟨_, h.symm, ?_⟩
            rw [usizeDec_of_pos hpos hs.card_lt]
            omega
        · next hnew =>
            rw [if_pos (not_not.mp hnew)] at hcard
            injection h with h
            exact ⟨_, h.symm, by omega⟩
    · next hval =>
        rw [if_neg hval] at hcard
        split at h
        · next hnew =>
            rw [if_pos hnew] at hcard
            injection h with h
            refine ⟨_, h.symm, ?_⟩
            rw [usizeInc_of_lt (by omega)]
            omega
        · next hnew =>
            rw [if_neg hnew] at hcard
            injection h with h
            exact ⟨_, h.symm, by omega⟩
  refine ⟨⟨hin n, hn.trans (hc n).symm⟩, rfl, hgrow, ?_, ?_, ?_⟩
  · exact fun h0 => hid0 (hget.symm.trans h0)
  · exact congrArg (fun i => Function.update b.userRole i role) hget.symm
  · simp only [hold]
    exact hn ▸ hcard

/-- Who is a validator once a role has been written. -/
theorem Board.changeUserRole_isValidator (hs : b.Sound)
    (h : b.changeUserRole addr role = .ok b') (x : Address) :
    b'.IsValidator x ↔ if x = addr then role = .validator else b.IsValidator x := by
  obtain ⟨hs', -, hgrow, hid, hrole, -⟩ := Board.changeUserRole_spec hs h
  by_cases hx : x = addr
  · rw [if_pos hx, hx, Board.IsValidator, hrole, Function.update_self]
  · rw [if_neg hx]
    have hne : b'.userMapper.getUserId x ≠ b'.userMapper.getUserId addr :=
      fun heq => hx (b'.userMapper.getUserId_inj (heq ▸ hid) heq)
    have hold : b'.IsValidator x ↔
        b.userRole (b'.userMapper.getUserId x) = .validator := by
      rw [Board.IsValidator, hrole, Function.update_of_ne hne]
    rw [hold]
    refine ⟨?_, ?_⟩
    · intro hv
      -- the id was handed out before, and to nobody but x
      have hin := hs.inside.mem_validatorIds.mpr hv
      obtain ⟨h1, hle⟩ := Finset.mem_Icc.mp (Finset.mem_filter.mp hin).1
      obtain ⟨y, hy⟩ := b.userMapper.exists_address h1 hle
      have hy' := hgrow y (by omega)
      rw [hy] at hy'
      rw [← b'.userMapper.getUserId_inj (by omega) hy', Board.IsValidator, hy]
      exact hv
    · intro hv
      rw [hgrow x (hs.id_ne_zero hv)]
      exact hv

/-! ## Deployment -/

/-- The callback `init` hands to `getOrCreateUsers`. -/
def initCallback (userId : Nat) (newUser : Bool) :
    Bool × (Nat → UserRole) → Bool × (Nat → UserRole) :=
  fun (duplicates, userRole) =>
    (if !newUser then true else duplicates,
      Function.update userRole userId .validator)

/-- A duplicate, once met, is never forgotten. -/
theorem initCallback_duplicates :
    ∀ {as : List Address} {m m' : UserMapper} {role role' : Nat → UserRole}
      {dup : Bool},
      UserMapper.getOrCreateUsers initCallback m as (true, role) =
        .ok (m', dup, role') → dup = true := by
  intro as
  induction as with
  | nil =>
      intro m m' role role' dup h
      cases h
      rfl
  | cons a as ih =>
      intro m m' role role' dup h
      obtain ⟨⟨id, m₁⟩, -, h⟩ := bind_eq_ok.mp h
      simp only [initCallback, ite_self] at h
      exact ih h

/-- A list that raises no duplicate has a new address first, which gets the next
id. -/
theorem initCallback_cons {a : Address} {as : List Address} {m m' : UserMapper}
    {role role' : Nat → UserRole}
    (h : UserMapper.getOrCreateUsers initCallback m (a :: as) (false, role) =
      .ok (m', false, role')) :
    ∃ m₁, m.getUserId a = 0 ∧ m₁.getUserId a = m.userCount + 1 ∧ m.Grows m₁ ∧
      m₁.userCount = m.userCount + 1 ∧
      UserMapper.getOrCreateUsers initCallback m₁ as
        (false, Function.update role (m.userCount + 1) .validator) =
          .ok (m', false, role') := by
  obtain ⟨⟨id, m₁⟩, hid, h⟩ := bind_eq_ok.mp h
  obtain ⟨hid0, hget, hgrow, hcases⟩ := UserMapper.getOrCreateUser_spec hid
  rcases hcases with ⟨heq, -⟩ | ⟨hzero, rfl, hcount⟩
  · -- a known address is a duplicate
    have hknown : m.getUserId a ≠ 0 := heq ▸ hid0
    simp only [initCallback, hknown, decide_false, Bool.not_false, if_true] at h
    cases initCallback_duplicates h
  · simp only [initCallback, hzero, decide_true, Bool.not_true,
      Bool.false_eq_true, if_false] at h
    exact ⟨m₁, hzero, hget, hgrow, hcount, h⟩

/-- A list without duplicates of addresses all new gives each of them the
role, and the count is its length. -/
theorem initCallback_sound :
    ∀ {as : List Address} {m m' : UserMapper} {role role' : Nat → UserRole}
      {n q : Nat}, Board.Sound ⟨m, q, role, n⟩ →
      UserMapper.getOrCreateUsers initCallback m as (false, role) =
        .ok (m', false, role') →
      Board.Sound ⟨m', q, role', n + as.length⟩ := by
  intro as
  induction as with
  | nil =>
      intro m m' role role' n q hs h
      cases h
      exact hs
  | cons a as ih =>
      intro m m' role role' n q hs h
      obtain ⟨m₁, -, -, -, hcount, hrest⟩ := initCallback_cons h
      have hin : Board.RolesInside
          ⟨m₁, q, Function.update role (m.userCount + 1) .validator, n + 1⟩ := by
        intro i hi
        have hi' : i = 0 ∨ m₁.userCount < i := hi
        have hold : i = 0 ∨ m.userCount < i := by omega
        exact (Function.update_of_ne (by omega) _ _).trans (hs.inside i hold)
      have hfree : role (m.userCount + 1) = .none :=
        hs.inside _ (.inr (Nat.lt_succ_self m.userCount))
      have hcard := card_validatorIds_update hs.inside hin rfl
      simp only [hfree, reduceCtorEq, if_false, if_true, ← hs.count] at hcard
      rw [List.length_cons, Nat.add_comm as.length, ← Nat.add_assoc]
      exact ih ⟨hin, hcard.symm⟩ hrest

/-- What a successful `init` did, on whatever storage. -/
theorem init_effect {s s' : Storage}
    (hinit : init s token nftToken minValid validators = .ok s') :
    validators ≠ [] ∧ ∃ m role,
      UserMapper.getOrCreateUsers initCallback s.userMapper validators
        (false, s.userRole) = .ok (m, false, role) ∧
      s' = { s with
        userMapper := m
        userRole := role
        minValid := minValid
        numValidators := validators.length
        token := token
        nftToken := nftToken
        eventIdent := 0
        sftNonce := 0 } := by
  obtain ⟨_, hne, hinit⟩ := bind_eq_ok.mp hinit
  obtain ⟨_, -, hinit⟩ := bind_eq_ok.mp hinit
  obtain ⟨⟨m, dup, role⟩, husers, hinit⟩ := bind_eq_ok.mp hinit
  obtain ⟨_, hdup, hinit⟩ := bind_eq_ok.mp hinit
  cases require_eq_ok.mp hdup
  cases hinit
  exact ⟨require_eq_ok.mp hne, m, role, husers, rfl⟩

/-- `init` on empty storage leaves a sound board. -/
theorem init_sound {s : Storage}
    (hinit : init .empty token nftToken minValid validators = .ok s) :
    s.toBoard.Sound ∧ s.numValidators = validators.length ∧
      s.minValid = minValid ∧ validators ≠ [] := by
  obtain ⟨hne, m, role, husers, rfl⟩ := init_effect hinit
  have hempty : Board.Sound ⟨.empty, minValid, fun _ => .none, 0⟩ :=
    ⟨fun _ _ => rfl, by simp [Board.validatorIds]⟩
  have hs := initCallback_sound hempty husers
  rw [Nat.zero_add] at hs
  exact ⟨hs, rfl, rfl, hne⟩

/-- `init` on empty storage leaves no pending action and no event. -/
theorem init_fields {s : Storage}
    (hinit : init .empty token nftToken minValid validators = .ok s) :
    s.actionMapper = ∅ ∧ s.toEventLog = ⟨∅, 0⟩ ∧
      s.toWrapper = ⟨token, nftToken, 0⟩ := by
  obtain ⟨-, m, role, -, rfl⟩ := init_effect hinit
  exact ⟨rfl, rfl, rfl⟩

theorem deploy_init (hinit : deploy l token nftToken minValid validators = .ok w₀) :
    init .empty token nftToken minValid validators = .ok w₀.toStorage ∧
      w₀.chain = l := by
  obtain ⟨s, hs, h⟩ := bind_eq_ok.mp hinit
  cases h
  exact ⟨hs, rfl⟩

/-- What a deployment sets the wrapped tokens to, and the account it has. -/
theorem deploy_wrapper (hinit : deploy l token nftToken minValid validators = .ok w₀) :
    w₀.token = token ∧ w₀.nftToken = nftToken ∧ w₀.sftNonce = 0 ∧ w₀.chain = l := by
  obtain ⟨hfields, hchain⟩ := deploy_init hinit
  have hwrap := (init_fields hfields).2.2
  exact ⟨congrArg Wrapper.token hwrap, congrArg Wrapper.nftToken hwrap,
    congrArg Wrapper.sftNonce hwrap, hchain⟩

theorem deploy_sound (hinit : deploy l token nftToken minValid validators = .ok w₀) :
    w₀.toBoard.Sound :=
  (init_sound (deploy_init hinit).1).1

/-! ## Along a run -/

theorem GovernEffect.sound {a : Action} (hg : GovernEffect b a b') (hs : b.Sound) :
    b'.Sound ∧ b.userMapper.Grows b'.userMapper := by
  cases hg with
  | addValidator hrole | removeUser hrole =>
      obtain ⟨hs', -, hgrow, -⟩ := Board.changeUserRole_spec hs hrole
      exact ⟨hs', hgrow⟩
  | changeMinValid => exact ⟨⟨hs.inside, hs.count⟩, .refl _⟩

/-- Who is a validator once a governance action has been executed. -/
theorem GovernEffect.isValidator {a : Action} (hg : GovernEffect b a b')
    (hs : b.Sound) (x : Address) :
    match a with
    | .addValidator y => b'.IsValidator x ↔ x = y ∨ b.IsValidator x
    | .removeUser y => b'.IsValidator x ↔ x ≠ y ∧ b.IsValidator x
    | _ => b'.IsValidator x ↔ b.IsValidator x := by
  cases hg with
  | @addValidator y _ hrole =>
      show b'.IsValidator x ↔ x = y ∨ b.IsValidator x
      rw [Board.changeUserRole_isValidator hs hrole]
      by_cases hx : x = y <;> simp [hx]
  | @removeUser y _ hrole =>
      show b'.IsValidator x ↔ x ≠ y ∧ b.IsValidator x
      rw [Board.changeUserRole_isValidator hs hrole]
      by_cases hx : x = y <;> simp [hx]
  | changeMinValid => exact Iff.rfl

theorem exec_sound (hex : exec w act = .ok (ret, w')) (hs : w.toBoard.Sound) :
    w'.toBoard.Sound ∧ w.userMapper.Grows w'.userMapper := by
  cases exec_board hex with
  | kept _ hb =>
      simp only [] at hb
      rw [hb]
      exact ⟨hs, .refl _⟩
  | govern _ _ _ hg => exact hg.sound hs

theorem run_sound (hinit : deploy l token nftToken minValid validators = .ok w₀)
    (hrun : Run exec w₀ h w) : w.toBoard.Sound :=
  hrun.invariant (I := fun w => w.toBoard.Sound) (deploy_sound hinit)
    fun _ _ _ _ hs hex => (exec_sound hex hs).1

/-- Every user table of the past has grown into the present one. -/
theorem run_grows (hinit : deploy l token nftToken minValid validators = .ok w₀)
    (hrun : Run exec w₀ h w) :
    ∀ r ∈ h, r.pre.userMapper.Grows w.userMapper := by
  refine hrun.induct (I := fun h w => ∀ r ∈ h, r.pre.userMapper.Grows w.userMapper)
    ?start ?ok ?err
  case start => exact fun r hr => absurd hr List.not_mem_nil
  case ok =>
    intro h w a ret w' hrun ih hex r hr
    have hgrow := (exec_sound hex (run_sound hinit hrun)).2
    rcases List.mem_cons.mp hr with rfl | hr
    · exact hgrow
    · exact (ih r hr).trans hgrow
  case err =>
    intro h w a e hrun ih hex r hr
    rcases List.mem_cons.mp hr with rfl | hr
    · exact .refl _
    · exact ih r hr

/-- A call that signs no governance action leaves the board alone. -/
theorem run_board_kept (hrun : Run exec w₀ h w) :
    ∀ r ∈ h, (∀ s ∈ r.act.signs, s.2.2.isGovernance = false) →
      r.post.toBoard = r.pre.toBoard := by
  refine along_forall.mp (hrun.along fun h w act hrun hgov => ?_)
  cases record_board w act with
  | kept _ hb => exact hb
  | govern id a hperf hg =>
      obtain ⟨caller, hs⟩ := performed_signs hperf
      have hno := hgov _ hs
      rw [hg.isGovernance] at hno
      simp at hno

/-- No record of the history changes who is a validator. -/
def SameValidators (h : List Rec) : Prop :=
  ∀ r ∈ h, ∀ a, r.pre.IsValidator a ↔ r.post.IsValidator a

theorem run_sameValidators (hrun : Run exec w₀ h w)
    (hgov : ∀ r ∈ h, ∀ s ∈ r.act.signs, s.2.2.isGovernance = false) :
    SameValidators h := by
  intro r hr a
  rw [run_board_kept hrun r hr (hgov r hr)]

/-- No executed action empties the board. -/
theorem GovernEffect.nonempty {a : Action} (hg : GovernEffect b a b') (hs : b.Sound)
    (hpos : 0 < b.numValidators) : 0 < b'.numValidators := by
  cases hg with
  | addValidator hrole =>
      obtain ⟨-, -, -, -, -, hnum⟩ := Board.changeUserRole_spec hs hrole
      rw [if_pos rfl] at hnum
      split at hnum <;> omega
  | removeUser _ hpos' _ => exact hpos'
  | changeMinValid => exact hpos

/-- Somebody is on the board, whatever the quorum. -/
theorem run_nonempty (hinit : deploy l token nftToken minValid validators = .ok w₀)
    (hrun : Run exec w₀ h w) : 0 < w.numValidators := by
  have hs := (init_sound (deploy_init hinit).1)
  refine (hrun.invariant (I := fun w => w.toBoard.Sound ∧ 0 < w.numValidators) ?_ ?_).2
  · refine ⟨hs.1, ?_⟩
    rw [hs.2.1]
    exact List.length_pos_iff.mpr hs.2.2.2
  · intro w a ret w' hi hex
    refine ⟨(exec_sound hex hi.1).1, ?_⟩
    cases exec_board hex with
    | kept _ hb =>
        simp only [] at hb
        rw [hb]
        exact hi.2
    | govern _ _ _ hg => exact hg.nonempty hi.1 hi.2

/-- What the executed governance actions keep: somebody is on the board, and
the quorum is within reach. -/
theorem GovernEffect.invariant {a : Action} (hg : GovernEffect b a b')
    (hi : b.Invariant) : b'.Invariant := by
  have hs' := (hg.sound hi.toSound).1
  refine ⟨hs', hg.nonempty hi.toSound hi.nonempty, ?_⟩
  cases hg with
  | addValidator hrole =>
      obtain ⟨-, hmin, -, -, -, hnum⟩ := Board.changeUserRole_spec hi.toSound hrole
      have hquorum := hi.quorum
      rw [if_pos rfl] at hnum
      split at hnum <;> omega
  | removeUser _ _ hquorum => exact hquorum
  | changeMinValid hquorum => exact hquorum

theorem run_invariant (hinit : deploy l token nftToken minValid validators = .ok w₀)
    (hquorum : minValid ≤ validators.length) (hrun : Run exec w₀ h w) :
    w.toBoard.Invariant := by
  refine hrun.invariant (I := fun w => w.toBoard.Invariant) ?_ ?_
  · obtain ⟨hs, hnum, hmin, hne⟩ := init_sound (deploy_init hinit).1
    refine ⟨hs, ?_, by omega⟩
    rw [hnum]
    exact List.length_pos_iff.mpr hne
  · intro w a ret w' hi hex
    cases exec_board hex with
    | kept _ hb =>
        simp only [] at hb
        rw [hb]
        exact hi
    | govern _ _ _ hg => exact hg.invariant hi

/-- What holds of the board in a state a run reached: the user table is a
bijection onto `1..userCount` whose two directions agree, ids are never
reassigned, roles stand inside the table, the count is the number of
validators, somebody is on the board and the quorum does not exceed it; and
`changeUserRole` moves the count by exactly what it does to the board. -/
structure BoardHolds (h : List Rec) (w : World) : Prop where
  bijection : Set.BijOn w.userMapper.getUserId
    {a | w.userMapper.getUserId a ≠ 0} (Set.Icc 1 w.userMapper.userCount)
  inverse : ∀ i a, w.userMapper.userIdToAddress i = some a ↔
    i ≠ 0 ∧ w.userMapper.getUserId a = i
  ids_kept : ∀ r ∈ h, ∀ a, r.pre.userMapper.getUserId a ≠ 0 →
    w.userMapper.getUserId a = r.pre.userMapper.getUserId a
  roles_inside : ∀ i, i = 0 ∨ w.userMapper.userCount < i → w.userRole i = .none
  count : w.numValidators = w.validatorIds.card
  nonempty : 1 ≤ w.numValidators
  quorum : w.minValid ≤ w.numValidators
  no_underflow : ∀ a b', w.IsValidator a →
    w.toBoard.changeUserRole a .none = .ok b' →
    b'.numValidators + 1 = w.numValidators
  add_again : ∀ a b', w.IsValidator a →
    w.toBoard.changeUserRole a .validator = .ok b' →
    b'.numValidators = w.numValidators
  remove_unknown : ∀ a b', ¬ w.IsValidator a →
    w.toBoard.changeUserRole a .none = .ok b' →
    b'.numValidators = w.numValidators

/-- The board and its quorum, in every state of every run from a deployment
whose quorum does not exceed its board. -/
theorem board_invariant (hinit : deploy l token nftToken minValid validators = .ok w₀)
    (hquorum : minValid ≤ validators.length) (hrun : Run exec w₀ h w) :
    BoardHolds h w := by
  have hi := run_invariant hinit hquorum hrun
  have hnum : ∀ a role b', w.toBoard.changeUserRole a role = .ok b' →
      b'.numValidators + (if w.IsValidator a then 1 else 0) =
        w.numValidators + (if role = .validator then 1 else 0) :=
    fun _ _ _ hrole => (Board.changeUserRole_spec hi.toSound hrole).2.2.2.2.2
  refine
    { bijection := ⟨?_, ?_, ?_⟩
      inverse := w.userMapper.id_of_address
      ids_kept := run_grows hinit hrun
      roles_inside := hi.inside
      count := hi.count
      nonempty := hi.nonempty
      quorum := hi.quorum
      no_underflow := fun a b' hv hrole => ?_
      add_again := fun a b' hv hrole => ?_
      remove_unknown := fun a b' hv hrole => ?_ }
  · intro a ha
    exact ⟨Nat.one_le_iff_ne_zero.mpr ha, w.userMapper.getUserId_le a⟩
  · intro a ha b _ hab
    exact w.userMapper.getUserId_inj ha hab
  · intro i hi
    obtain ⟨a, ha⟩ := w.userMapper.exists_address hi.1 hi.2
    exact ⟨a, fun h0 => absurd (ha.symm.trans h0) (Nat.one_le_iff_ne_zero.mp hi.1), ha⟩
  all_goals
    have h := hnum _ _ _ hrole
    simpa [hv] using h

/-- Bob is voted off a board of three with a quorum of two. -/
theorem board_invariant_three :
    BoardHolds
      (play exec (freshWorld 2 [alice, bob, charlie])
        [send charlie (.proposeRemoveUser 0 bob),
          send alice (.proposeRemoveUser 0 bob)]).1
      (play exec (freshWorld 2 [alice, bob, charlie])
        [send charlie (.proposeRemoveUser 0 bob),
          send alice (.proposeRemoveUser 0 bob)]).2 :=
  board_invariant deploy_three (by decide) (run_play _ _ _)

end ElrondMint
