import ElrondMint.Board

/-!
# Deployment and upgrade

`init` runs on empty storage when the contract is deployed, and again, on the
storage it finds, when its code is upgraded. It registers the given addresses
and refuses the list if one of them is known already, to the list or to the
table. That is all it refuses: the check of the quorum compares the number of
validators with itself.

`registerAll` says what the loop over the list does to any user table and any
roles, so both occasions are cases of it. On empty storage the new ids are
`1, 2, …`. On the storage of a running contract they follow the old ones, whose
roles stay, while the counters are set as if there had been none.
-/

namespace ElrondMint

open Rollback

variable {w w' w₀ : World} {l : Ledger} {token nftToken : TokenIdentifier}
  {minValid : Nat} {validators : List Address} {h : List Rec} {s s' : Storage}
  {m m' : UserMapper} {role role' : Nat → UserRole} {as : List Address}
  {token₀ nftToken₀ : TokenIdentifier} {minValid₀ : Nat} {validators₀ : List Address}

/-! ## Registering a list -/

/-- A list of distinct addresses, all new to the table, with an id left for
each. -/
structure UserMapper.Admits (m : UserMapper) (as : List Address) : Prop where
  distinct : as.Nodup
  unknown : ∀ a ∈ as, m.getUserId a = 0
  room : m.userCount + as.length < usizeBound

/-- The table and the roles with a list of addresses registered as
validators. -/
structure UserMapper.Registered (m : UserMapper) (role : Nat → UserRole)
    (as : List Address) (m' : UserMapper) (role' : Nat → UserRole) : Prop where
  ids : ∀ i (hi : i < as.length), m'.getUserId (as.get ⟨i, hi⟩) = m.userCount + 1 + i
  count : m'.userCount = m.userCount + as.length
  roles : ∀ j, role' j =
    if m.userCount < j ∧ j ≤ m.userCount + as.length then .validator else role j

/-- The next address of a list the table admits. -/
theorem UserMapper.Admits.cons {a : Address} (hadmits : m.Admits (a :: as)) :
    ∃ m₁, m.getOrCreateUser a = .ok (m.userCount + 1, m₁) ∧ m₁.Admits as ∧
      m₁.userCount = m.userCount + 1 ∧ m₁.getUserId a = m.userCount + 1 := by
  have hnew := hadmits.unknown a List.mem_cons_self
  have hlen := hadmits.room
  rw [List.length_cons] at hlen
  have hroom : m.userCount + 1 < usizeBound := by omega
  have hself : (m.register a hnew hroom).getUserId a = m.userCount + 1 :=
    Function.update_self ..
  obtain ⟨hnotin, hnodup⟩ := List.nodup_cons.mp hadmits.distinct
  refine ⟨m.register a hnew hroom, ?_, ⟨hnodup, fun x hx => ?_, ?_⟩, rfl, hself⟩
  · rw [UserMapper.getOrCreateUser, dif_pos hnew, dif_pos hroom]
  · have hne : x ≠ a := by
      intro heq
      exact hnotin (heq ▸ hx)
    exact (Function.update_of_ne hne _ _).trans
      (hadmits.unknown x (List.mem_cons_of_mem _ hx))
  · show m.userCount + 1 + as.length < usizeBound
    omega

/-- A list the table admits is registered, in order. -/
theorem registerAll :
    ∀ {as : List Address} {m : UserMapper} {role : Nat → UserRole}, m.Admits as →
      ∃ m' role', UserMapper.getOrCreateUsers initCallback m as (false, role) =
        .ok (m', false, role') ∧ m.Grows m' ∧ m.Registered role as m' role' := by
  intro as
  induction as with
  | nil =>
      intro m role hadmits
      refine ⟨m, role, rfl, .refl m, ⟨fun i hi => absurd hi (by simp), rfl, fun j => ?_⟩⟩
      rw [if_neg (by simp)]
  | cons a as ih =>
      intro m role hadmits
      obtain ⟨m₁, hcreate, hadmits₁, hcount₁, hid⟩ := hadmits.cons
      have hnew := hadmits.unknown a List.mem_cons_self
      obtain ⟨-, -, hgrow₁, -⟩ := UserMapper.getOrCreateUser_spec hcreate
      obtain ⟨m', role', hrest, hgrow, hreg⟩ :=
        @ih m₁ (Function.update role (m.userCount + 1) .validator) hadmits₁
      have hcallback :
          UserMapper.getOrCreateUsers initCallback m (a :: as) (false, role) =
            .ok (m', false, role') := by
        refine bind_eq_ok.mpr ⟨_, hcreate, ?_⟩
        simp only [initCallback, hnew, decide_true, Bool.not_true, Bool.false_eq_true,
          if_false]
        exact hrest
      refine ⟨m', role', hcallback, hgrow₁.trans hgrow, ⟨fun i hi => ?_, ?_, fun j => ?_⟩⟩
      · cases i with
        | zero =>
            show m'.getUserId a = m.userCount + 1 + 0
            rw [hgrow a (by omega), hid]
        | succ i =>
            have hrest := hreg.ids i (by rw [List.length_cons] at hi; omega)
            show m'.getUserId (as.get ⟨i, _⟩) = _
            rw [hrest, hcount₁]
            omega
      · rw [hreg.count, hcount₁, List.length_cons]
        omega
      · rw [hreg.roles, hcount₁, List.length_cons]
        by_cases hj : j = m.userCount + 1
        · rw [hj, Function.update_self, if_neg (by omega), if_pos (by omega)]
        · rw [Function.update_of_ne hj]
          by_cases hin : m.userCount + 1 < j ∧ j ≤ m.userCount + 1 + as.length
          · rw [if_pos hin, if_pos (by omega)]
          · rw [if_neg hin, if_neg (by omega)]

/-- No other list is registered without a duplicate being noticed. -/
theorem registerAll_admits :
    ∀ {as : List Address} {m m' : UserMapper} {role role' : Nat → UserRole},
      UserMapper.getOrCreateUsers initCallback m as (false, role) =
        .ok (m', false, role') → m.Admits as := by
  intro as
  induction as with
  | nil =>
      intro m m' role role' h
      exact ⟨List.nodup_nil, nofun, m.count_lt⟩
  | cons a as ih =>
      intro m m' role role' h
      obtain ⟨m₁, hzero, hget, hgrow, hcount, h⟩ := initCallback_cons h
      have hrest := ih h
      refine ⟨List.nodup_cons.mpr ⟨fun ha => ?_, hrest.distinct⟩, ?_, ?_⟩
      · have hunknown := hrest.unknown a ha
        omega
      · intro x hx
        rcases List.mem_cons.mp hx with rfl | hx
        · exact hzero
        · by_contra hknown
          exact hknown ((hgrow x hknown).symm.trans (hrest.unknown x hx))
      · have hroom := hrest.room
        rw [hcount] at hroom
        rw [List.length_cons]
        omega

/-! ## `init` -/

/-- What `init` leaves behind, on whatever storage it ran. -/
structure InitSpec (s : Storage) (token nftToken : TokenIdentifier) (minValid : Nat)
    (validators : List Address) (s' : Storage) : Prop where
  registered : s.userMapper.Registered s.userRole validators s'.userMapper s'.userRole
  counted : s.toBoard.Sound →
    s'.validatorIds.card = s.numValidators + validators.length
  numValidators : s'.numValidators = validators.length
  minValid : s'.minValid = minValid
  toWrapper : s'.toWrapper = ⟨token, nftToken, 0⟩
  toEventLog : s'.toEventLog = ⟨s.eventMapper, 0⟩
  actionMapper : s'.actionMapper = s.actionMapper

theorem init_admits (hinit : init s token nftToken minValid validators = .ok s') :
    validators ≠ [] ∧ s.userMapper.Admits validators := by
  obtain ⟨hne, m, role, husers, -⟩ := init_effect hinit
  exact ⟨hne, registerAll_admits husers⟩

/-- `init` accepts every list that is not empty and that the table admits, and
any quorum with it. -/
theorem init_accepts (hne : validators ≠ []) (hadmits : s.userMapper.Admits validators) :
    ∃ s', init s token nftToken minValid validators = .ok s' ∧
      InitSpec s token nftToken minValid validators s' := by
  obtain ⟨m, role, husers, -, hreg⟩ :=
    @registerAll validators s.userMapper s.userRole hadmits
  refine ⟨{ s with
      userMapper := m
      userRole := role
      minValid := minValid
      numValidators := validators.length
      token := token
      nftToken := nftToken
      eventIdent := 0
      sftNonce := 0 }, ?_,
    ⟨hreg, fun hs => (initCallback_sound hs husers).count.symm, rfl, rfl, rfl, rfl, rfl⟩⟩
  refine bind_eq_ok.mpr ⟨(), require_eq_ok.mpr hne, ?_⟩
  refine bind_eq_ok.mpr ⟨(), require_eq_ok.mpr (Nat.le_refl _), ?_⟩
  refine bind_eq_ok.mpr ⟨(m, false, role), husers, ?_⟩
  exact bind_eq_ok.mpr ⟨(), require_eq_ok.mpr rfl, rfl⟩

theorem init_spec (hinit : init s token nftToken minValid validators = .ok s') :
    InitSpec s token nftToken minValid validators s' := by
  obtain ⟨hne, hadmits⟩ := init_admits hinit
  obtain ⟨s'', hinit', hspec⟩ := init_accepts hne hadmits
  cases hinit.symm.trans hinit'
  exact hspec

/-! ## On empty storage -/

/-- A deployment succeeds for the lists and quorums it should, and sets the
contract up. -/
structure InitCorrect (token nftToken : TokenIdentifier) (minValid : Nat)
    (validators : List Address) : Prop where
  succeeds : (∃ s, init .empty token nftToken minValid validators = .ok s) ↔
    validators ≠ [] ∧ validators.Nodup ∧ 1 ≤ minValid ∧ minValid ≤ validators.length
  establishes : ∀ s, init .empty token nftToken minValid validators = .ok s →
    (∀ i (hi : i < validators.length),
      s.userMapper.getUserId (validators.get ⟨i, hi⟩) = i + 1 ∧
        s.userRole (i + 1) = .validator) ∧
      s.numValidators = validators.length ∧ s.minValid = minValid ∧
      s.eventIdent = 0 ∧ s.sftNonce = 0

/-- The empty table admits every list of distinct addresses that has ids. -/
theorem admits_empty : UserMapper.empty.Admits validators ↔
    validators.Nodup ∧ validators.length < usizeBound := by
  refine ⟨?_, ?_⟩
  · intro hadmits
    have hroom := hadmits.room
    rw [show UserMapper.empty.userCount = 0 from rfl, Nat.zero_add] at hroom
    exact ⟨hadmits.distinct, hroom⟩
  · intro h
    obtain ⟨hnodup, hroom⟩ := h
    refine ⟨hnodup, fun _ _ => rfl, ?_⟩
    rw [show UserMapper.empty.userCount = 0 from rfl, Nat.zero_add]
    exact hroom

theorem init_succeeds_iff :
    (∃ s, init .empty token nftToken minValid validators = .ok s) ↔
      validators ≠ [] ∧ validators.Nodup ∧ validators.length < usizeBound := by
  rw [← admits_empty]
  refine ⟨?_, ?_⟩
  · intro h
    obtain ⟨s, hinit⟩ := h
    exact init_admits hinit
  · intro h
    obtain ⟨hne, hadmits⟩ := h
    obtain ⟨s, hinit, -⟩ := @init_accepts token nftToken minValid _ .empty hne hadmits
    exact ⟨s, hinit⟩

theorem init_establishes (hinit : init .empty token nftToken minValid validators = .ok s) :
    (∀ i (hi : i < validators.length),
      s.userMapper.getUserId (validators.get ⟨i, hi⟩) = i + 1 ∧
        s.userRole (i + 1) = .validator) ∧
      s.numValidators = validators.length ∧ s.minValid = minValid ∧
      s.eventIdent = 0 ∧ s.sftNonce = 0 := by
  have hspec := init_spec hinit
  refine ⟨fun i hi => ⟨?_, ?_⟩, hspec.numValidators, hspec.minValid,
    congrArg EventLog.eventIdent hspec.toEventLog,
    congrArg Wrapper.sftNonce hspec.toWrapper⟩
  · rw [hspec.registered.ids i hi]
    show 0 + 1 + i = i + 1
    omega
  · rw [hspec.registered.roles]
    refine if_pos ⟨Nat.succ_pos i, ?_⟩
    show i + 1 ≤ 0 + validators.length
    omega

/-- `init` does what it should on empty storage for the lists it refuses
anyway, the empty one and those with a duplicate, and otherwise exactly where
the quorum it does not check is one that the board can reach. (No list of a
`usize` length runs out of ids.) -/
theorem init_correct_iff (token nftToken : TokenIdentifier) (minValid : Nat)
    (validators : List Address) :
    InitCorrect token nftToken minValid validators ↔
      validators = [] ∨ ¬ validators.Nodup ∨
        (validators.length < usizeBound ↔ 1 ≤ minValid ∧ minValid ≤ validators.length) := by
  refine ⟨?_, ?_⟩
  · intro hcorrect
    have hsucceeds := hcorrect.succeeds
    rw [init_succeeds_iff] at hsucceeds
    by_cases hne : validators = []
    · exact .inl hne
    · by_cases hnodup : validators.Nodup
      · simp only [ne_eq, hne, not_false_iff, hnodup, true_and] at hsucceeds
        exact .inr (.inr hsucceeds)
      · exact .inr (.inl hnodup)
  · intro hcond
    refine ⟨?_, fun s hinit => init_establishes hinit⟩
    rw [init_succeeds_iff]
    rcases hcond with hnil | hdup | hcond
    · simp [hnil]
    · simp [hdup]
    · rw [hcond]

/-- Alice is deployed alone with a quorum of five: no action can ever have five
signers. -/
theorem init_accepts_any_quorum : ¬ InitCorrect xpdt xpnft 5 [alice] := by
  intro hcorrect
  have hadmits : Storage.empty.userMapper.Admits [alice] := admits_empty.mpr (by decide)
  obtain ⟨s, hinit, -⟩ := @init_accepts xpdt xpnft 5 [alice] .empty (by decide) hadmits
  have hle := (hcorrect.succeeds.mp ⟨s, hinit⟩).2.2.2
  simp at hle

/-! ## On the storage of a running contract -/

/-- An upgrade: `init` on the storage the contract has by then. A failed one
leaves the contract as it was. -/
def upgrade (w : World) (token nftToken : TokenIdentifier) (minValid : Nat)
    (validators : List Address) : Except Failure World := do
  let s ← init w.toStorage token nftToken minValid validators
  .ok { s with chain := w.chain }

/-- The counters fit what they count, if the upgrade succeeds: the validators,
the stored events, and the nonces of the wrapper collection, if that is still
the same one. -/
structure UpgradeConsistent (w : World) (token nftToken : TokenIdentifier)
    (minValid : Nat) (validators : List Address) : Prop where
  count : ∀ w', upgrade w token nftToken minValid validators = .ok w' →
    w'.numValidators = w'.validatorIds.card
  events : ∀ w', upgrade w token nftToken minValid validators = .ok w' →
    ∀ k info, w'.eventMapper.get k = some info → k ≤ w'.eventIdent
  nonces : ∀ w', upgrade w token nftToken minValid validators = .ok w' →
    token = w.token → w'.sftNonce = w.chain.lastNonce token

theorem upgrade_admits (hup : upgrade w token nftToken minValid validators = .ok w') :
    validators ≠ [] ∧ w.userMapper.Admits validators := by
  obtain ⟨s, hinit, -⟩ := bind_eq_ok.mp hup
  exact init_admits hinit

/-- An upgrade adds validators to those there are, and counts the new ones
only. -/
theorem upgrade_miscounts (hs : w.toBoard.Sound)
    (hup : upgrade w token nftToken minValid validators = .ok w') :
    w'.numValidators + w.numValidators = w'.validatorIds.card := by
  obtain ⟨s, hinit, hup⟩ := bind_eq_ok.mp hup
  cases hup
  have hspec := init_spec hinit
  show s.numValidators + w.numValidators = s.validatorIds.card
  rw [hspec.counted hs, hspec.numValidators]
  exact Nat.add_comm ..

/-- From any state of any run, an upgrade keeps the counters right exactly when
it fails: when its list is empty, has a duplicate, names somebody the table
knows, or is too long for the ids that are left. -/
theorem upgrade_consistent_iff
    (hinit : deploy l token₀ nftToken₀ minValid₀ validators₀ = .ok w₀)
    (hrun : Run exec w₀ h w) (token nftToken : TokenIdentifier) (minValid : Nat)
    (validators : List Address) :
    UpgradeConsistent w token nftToken minValid validators ↔
      validators = [] ∨ ¬ validators.Nodup ∨
        (∃ a ∈ validators, w.userMapper.getUserId a ≠ 0) ∨
        usizeBound ≤ w.userMapper.userCount + validators.length := by
  have hs := run_sound hinit hrun
  have hpos := run_nonempty hinit hrun
  refine ⟨?_, ?_⟩
  · intro hcons
    by_contra hcond
    simp only [not_or, not_exists, not_and, not_not, not_le] at hcond
    obtain ⟨hne, hnodup, hunknown, hroom⟩ := hcond
    have hadmits : w.userMapper.Admits validators := ⟨hnodup, hunknown, hroom⟩
    obtain ⟨s, hnew, -⟩ := @init_accepts token nftToken minValid _ _ hne hadmits
    have hup : upgrade w token nftToken minValid validators =
        .ok { s with chain := w.chain } := bind_eq_ok.mpr ⟨s, hnew, rfl⟩
    have hcount := upgrade_miscounts hs hup
    have hright := hcons.count _ hup
    omega
  · intro hcond
    have hfails : ∀ w', upgrade w token nftToken minValid validators ≠ .ok w' := by
      intro w' hup
      obtain ⟨hne, hadmits⟩ := upgrade_admits hup
      rcases hcond with hnil | hdup | ⟨a, ha, hknown⟩ | hfull
      · exact hne hnil
      · exact hdup hadmits.distinct
      · exact hknown (hadmits.unknown a ha)
      · have hroom := hadmits.room
        omega
    exact ⟨fun w' hup => absurd hup (hfails w'), fun w' hup => absurd hup (hfails w'),
      fun w' hup => absurd hup (hfails w')⟩

/-- A board of three with an event in its log and a nonce created. -/
def upgradable : World :=
  (play exec (freshWorld 2 [alice, bob, charlie])
    [.tx ⟨dan, .egld 10, true, .freezeSend 9 "dan"⟩,
      send bob (.validateSendWrapped 1 1 dan 1 none),
      send alice (.validateSendWrapped 1 1 dan 1 none)]).2

/-- Upgraded with alice, it stays as it is: the call fails. -/
theorem upgrade_consistent_known :
    UpgradeConsistent upgradable xpdt xpnft 1 [alice] ↔
      [alice] = [] ∨ ¬ [alice].Nodup ∨
        (∃ a ∈ [alice], upgradable.userMapper.getUserId a ≠ 0) ∨
        usizeBound ≤ upgradable.userMapper.userCount + [alice].length :=
  upgrade_consistent_iff deploy_three (run_play _ _ _)
    xpdt xpnft 1 [alice]

/-- Upgraded with dan, the board of four counts one validator, the event has an id
above the latest one, and the nonce that exists is to be created again. -/
theorem upgrade_forgets :
    (∃ w', upgrade upgradable xpdt xpnft 1 [dan] = .ok w' ∧
      w'.numValidators = 1 ∧ w'.validatorIds.card = 4 ∧
      (w'.eventMapper.get 1).isSome ∧ w'.eventIdent = 0 ∧
      w'.sftNonce = 0 ∧ upgradable.chain.lastNonce xpdt = 1) ∧
      ¬ UpgradeConsistent upgradable xpdt xpnft 1 [dan] := by
  have hrun : Run exec (freshWorld 2 [alice, bob, charlie]) _ upgradable := run_play _ _ _
  have hs := run_sound deploy_three hrun
  have hnew : upgradable.userMapper.getUserId dan = 0 := by decide +kernel
  have hroom : upgradable.userMapper.userCount + 1 < usizeBound := by decide +kernel
  have hadmits : upgradable.userMapper.Admits [dan] := by
    refine ⟨List.nodup_singleton dan, fun a ha => ?_, hroom⟩
    rw [List.mem_singleton.mp ha]
    exact hnew
  obtain ⟨s, hinit', hspec⟩ := @init_accepts xpdt xpnft 1 _ _ (by decide) hadmits
  have hup : upgrade upgradable xpdt xpnft 1 [dan] =
      .ok { s with chain := upgradable.chain } := bind_eq_ok.mpr ⟨s, hinit', rfl⟩
  have hcard : s.validatorIds.card = 4 := by
    rw [hspec.counted hs]
    decide +kernel
  refine ⟨⟨_, hup, hspec.numValidators, hcard, ?_,
    congrArg EventLog.eventIdent hspec.toEventLog,
    congrArg Wrapper.sftNonce hspec.toWrapper, by decide +kernel⟩, fun hcons => ?_⟩
  · show (s.eventMapper.get 1).isSome
    rw [congrArg EventLog.eventMapper hspec.toEventLog]
    decide +kernel
  · have hright := hcons.count _ hup
    rw [show s.numValidators = 1 from hspec.numValidators] at hright
    rw [hcard] at hright
    simp at hright

end ElrondMint
