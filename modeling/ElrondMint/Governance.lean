import ElrondMint.Deployment
import ElrondMint.Frozen
import ElrondMint.Outsiders
import ElrondMint.Lib.Council
import ElrondMint.Lib.Simulation

/-!
# The contract as a council

Behind user ids, cached counts, storage tables and the account there is a
council (`Lib/Council.lean`): the validators by address, `minValid`, and for each
uuid the addresses that its entry stands for. `council_refinement` says that
nothing else governs. Whatever transactions a run interleaves, its validators'
calls that succeed, taken as votes in their order, lead the council to the board,
the quorum and the ballots that the storage holds, and enact the actions that the
run performs; and a call is refused exactly where the council refuses the vote, up
to what only the host knows.

Two facts about councils then hold of the contract. The board is the deployed one,
amended by the governance actions performed (`board_amended`). And validators fewer
than the quorum change nothing by themselves (`minority_powerless`).
-/

namespace ElrondMint

open Council Rollback

variable {w w' w₀ : World} {l : Ledger} {token nftToken : TokenIdentifier}
  {minValid : Nat} {validators : List Address} {h past : List Rec} {r : Rec}
  {act : Act} {ret : Ret} {hostOk : Bool} {id : Nat} {caller x : Address} {a : Action}
  {b b' : Board} {e : Failure}

/-! ## The council -/

/-- What executing an action makes of the board and the quorum. -/
def Action.amend : Action → Finset Address × Nat → Finset Address × Nat
  | .addValidator addr, (members, quorum) => (insert addr members, quorum)
  | .removeUser userAddress, (members, quorum) => (members.erase userAddress, quorum)
  | .changeMinValid newQuorum, (members, _) => (members, newQuorum)
  | _, s => s

/-- Nobody may empty the board or put the quorum out of its reach. -/
def Action.inOrder : Action → Finset Address × Nat → Bool
  | .removeUser userAddress, (members, quorum) =>
      0 < (members.erase userAddress).card ∧ quorum ≤ (members.erase userAddress).card
  | .changeMinValid newQuorum, (members, _) => newQuorum ≤ members.card
  | _, _ => true

def charter : Charter Address Action where
  enact a s := if a.inOrder s then some (a.amend s) else none
  keeps := Action.exits

/-- The address with an id. -/
def UserMapper.addressOf (m : UserMapper) (i : Nat) : Address :=
  (m.userIdToAddress i).getD 0

def World.council (w : World) : Council.State Address Nat where
  members := w.toBoard.validators
  quorum := w.minValid
  ballots id := (w.signersOf id).map w.userMapper.addressOf

theorem addressOf_getUserId {m : UserMapper} (hreg : m.getUserId x ≠ 0) :
    m.addressOf (m.getUserId x) = x := by
  rw [UserMapper.addressOf, (m.id_of_address _ x).mpr ⟨hreg, rfl⟩, Option.getD_some]

/-- The ballots are the rounds. -/
theorem council_ballots (hi : RoundInvariant h w) (id : Nat) :
    w.council.ballots id = (round id h).map Prod.fst := by
  show (w.signersOf id).map w.userMapper.addressOf = _
  rw [hi.signers, List.map_map]
  exact List.map_congr_left fun s hs => addressOf_getUserId (hi.registered id s hs)

/-! ## Governance actions, on sets of addresses -/

theorem changeUserRole_validators (hs : b.Sound)
    (hrole : b.changeUserRole x .validator = .ok b') :
    b'.validators = insert x b.validators := by
  obtain ⟨hs', -⟩ := Board.changeUserRole_spec hs hrole
  ext y
  rw [hs'.mem_validators, Board.changeUserRole_isValidator hs hrole, Finset.mem_insert,
    hs.mem_validators]
  by_cases hy : y = x <;> simp [hy]

theorem changeUserRole_erase (hs : b.Sound) (hrole : b.changeUserRole x .none = .ok b') :
    b'.validators = b.validators.erase x := by
  obtain ⟨hs', -⟩ := Board.changeUserRole_spec hs hrole
  ext y
  rw [hs'.mem_validators, Board.changeUserRole_isValidator hs hrole, Finset.mem_erase,
    hs.mem_validators]
  by_cases hy : y = x <;> simp [hy]

theorem GovernEffect.enact (hg : GovernEffect b a b') (hs : b.Sound) :
    charter.enact a (b.validators, b.minValid) = some (b'.validators, b'.minValid) := by
  have hs' := (hg.sound hs).1
  have hcard := hs'.card_validators
  cases hg with
  | addValidator hrole =>
      obtain ⟨-, hmin, -⟩ := Board.changeUserRole_spec hs hrole
      rw [changeUserRole_validators hs hrole, hmin]
      rfl
  | removeUser hrole hpos hquorum =>
      obtain ⟨-, hmin, -⟩ := Board.changeUserRole_spec hs hrole
      rw [← hcard] at hpos hquorum
      rw [changeUserRole_erase hs hrole] at hpos hquorum ⊢
      rw [hmin] at hquorum ⊢
      have hin : Action.inOrder (.removeUser _) (b.validators, b.minValid) = true :=
        decide_eq_true ⟨hpos, hquorum⟩
      exact if_pos hin
  | changeMinValid hquorum =>
      rw [← hs.card_validators] at hquorum
      have hin : Action.inOrder (.changeMinValid _) (b.validators, b.minValid) = true :=
        decide_eq_true hquorum
      exact if_pos hin

theorem enact_other (hgov : a.isGovernance = false) (s : Finset Address × Nat) :
    charter.enact a s = some s := by
  cases a with
  | addValidator | removeUser | changeMinValid => cases hgov
  | nothing | sendWrapped | sendNft | unfreeze | unfreezeNft => rfl

/-- A performed action was in order, and amended the board. -/
theorem BoardEffect.enact (heff : BoardEffect r) (hs : r.pre.toBoard.Sound)
    (hperf : performed r = some (id, a)) :
    charter.enact a (r.pre.council.members, r.pre.council.quorum) =
      some (r.post.council.members, r.post.council.quorum) := by
  show charter.enact a (r.pre.toBoard.validators, r.pre.toBoard.minValid) =
    some (r.post.toBoard.validators, r.post.toBoard.minValid)
  cases heff with
  | kept hother hboard =>
      rw [hboard]
      exact enact_other (hother _ hperf) _
  | govern j a' hperf' hg =>
      rw [hperf] at hperf'
      cases hperf'
      exact hg.enact hs

/-- Nothing performed, nothing amended. -/
theorem BoardEffect.same (heff : BoardEffect r) (hperf : performed r = none) :
    r.post.council.members = r.pre.council.members ∧
      r.post.council.quorum = r.pre.council.quorum := by
  cases heff with
  | kept _ hboard =>
      show r.post.toBoard.validators = r.pre.toBoard.validators ∧
        r.post.toBoard.minValid = r.pre.toBoard.minValid
      rw [hboard]
      exact ⟨rfl, rfl⟩
  | govern j a' hperf' _ =>
      rw [hperf] at hperf'
      simp at hperf'

/-! ## A record as a vote -/

/-- A record and the vote it is: they enact the same. -/
def Votes (r : Rec) (q : Record (Council.State Address Nat) (Address × Nat × Action)
    Refusal Outcome) : Prop :=
  (∃ o, q.ret = .ok o) ∧ performed r = Council.enacted q

theorem council_ext {c c' : Council.State Address Nat} (hmembers : c'.members = c.members)
    (hquorum : c'.quorum = c.quorum) (hballots : c'.ballots = c.ballots) : c' = c := by
  obtain ⟨members, quorum, ballots⟩ := c
  obtain ⟨members', quorum', ballots'⟩ := c'
  obtain rfl : members' = members := hmembers
  obtain rfl : quorum' = quorum := hquorum
  obtain rfl : ballots' = ballots := hballots
  rfl

/-- Nothing is performed without a successful call. -/
theorem performed_unsigned (hno : signed r = none) : performed r = none := by
  cases hperf : performed r with
  | none => rfl
  | some s =>
      obtain ⟨j, b⟩ := s
      obtain ⟨c, hsig⟩ := performed_signature hperf
      rw [signatureOn, hno] at hsig
      simp at hsig

/-- No vote, no change. -/
theorem council_stutter (hinit : deploy l token nftToken minValid validators = .ok w₀)
    (hrun : Run exec w₀ h w) (hno : signed (record exec w act) = none) :
    (record exec w act).post.council = w.council := by
  have hi := run_round hinit hrun
  have hi' := run_round hinit (.step act hrun)
  obtain ⟨hmembers, hquorum⟩ := (record_board w act).same (performed_unsigned hno)
  rw [record_pre] at hmembers hquorum
  refine council_ext hmembers hquorum (funext fun j => ?_)
  rw [council_ballots hi', council_ballots hi, round_skip (by rw [signatureOn, hno])]

/-- A call performs its own action or none. -/
theorem performed_eq (hsigned : signed r = some (caller, id, a)) :
    performed r = if performsId id r then some (id, a) else none := by
  have hown : ∀ s, performed r = some s → s = (id, a) := by
    rintro ⟨j, b⟩ hperf
    obtain ⟨c, hsig⟩ := performed_signature hperf
    have hsig := signatureOn_some hsig
    rw [hsigned] at hsig
    cases hsig
    rfl
  cases hperf : performed r with
  | none => rw [performsId_none hperf id, if_neg Bool.false_ne_true]
  | some s =>
      obtain rfl := hown s hperf
      rw [performsId_self hperf, if_pos rfl]

/-- The ballots after a record that one uuid is signed in. -/
theorem ballots_update (hi : RoundInvariant h w) (hi' : RoundInvariant (r :: h) w')
    (hsigned : signed r = some (caller, id, a)) :
    w'.council.ballots =
      Function.update w.council.ballots id ((round id (r :: h)).map Prod.fst) := by
  funext j
  rw [council_ballots hi']
  by_cases hj : j = id
  · rw [hj, Function.update_self]
  · rw [Function.update_of_ne hj, council_ballots hi,
      round_skip (signatureOn_ne hsigned hj)]

/-- A call that succeeds and performs nothing is a vote that stays pending. -/
theorem council_pending (hinit : deploy l token nftToken minValid validators = .ok w₀)
    (hrun : Run exec w₀ h w) (hsigned : signed (record exec w act) = some (caller, id, a))
    (hmem : caller ∈ w.council.members) (hperf : performed (record exec w act) = none) :
    VoteEffect charter w.council caller id a .pending (record exec w act).post.council := by
  have hi := run_round hinit hrun
  have hsig := signatureOn_self hsigned
  have hballots := ballots_update hi (run_round hinit (.step act hrun)) hsigned
  have hballot := council_ballots hi id
  obtain ⟨hmembers, hquorum⟩ := (record_board w act).same hperf
  rw [record_pre] at hmembers hquorum
  have hnodup := nodup_round id (record exec w act :: h)
  have hidle := performsId_none hperf id
  cases run_roundEffect hinit hrun act id with
  | other hno => rw [hsig] at hno; cases hno
  | exited _ _ hyes | returned _ _ hyes => rw [hidle] at hyes; cases hyes
  | again s hown _ hold hround =>
      rw [hsig] at hown
      cases hown
      rw [hround, ← hballot, Function.update_eq_self] at hballots
      rw [council_ext hmembers hquorum hballots]
      refine .again hmem ?_
      rw [hballot]
      exact hold
  | counted s hown _ hcount hround =>
      rw [hsig] at hown
      cases hown
      rw [hround, List.map_append, ← hballot] at hballots hnodup
      have hpost : (record exec w act).post.council = { w.council with
          ballots := Function.update w.council.ballots id
            (w.council.ballots id ++ [caller]) } :=
        council_ext hmembers hquorum hballots
      rw [hpost]
      refine .counted hmem (fun hold => ?_) ?_
      · rw [List.nodup_append'] at hnodup
        exact hnodup.2.2 hold (List.mem_singleton_self caller)
      · rw [hballot, List.length_map]
        rw [record_pre] at hcount
        exact hcount

/-- A call that performs its action is a vote that enacts it. -/
theorem council_enacted (hinit : deploy l token nftToken minValid validators = .ok w₀)
    (hrun : Run exec w₀ h w) (hsigned : signed (record exec w act) = some (caller, id, a))
    (hmem : caller ∈ w.council.members)
    (hperf : performed (record exec w act) = some (id, a)) :
    VoteEffect charter w.council caller id a .enacted (record exec w act).post.council := by
  have hs := run_sound hinit hrun
  have hi := run_round hinit hrun
  have hballots := ballots_update hi (run_round hinit (.step act hrun)) hsigned
  have hballot := council_ballots hi id
  have henact := (record_board w act).enact (by rw [record_pre]; exact hs) hperf
  obtain ⟨c, hown, hcall⟩ := (record_signingEffect w act).of_performed hperf
  rw [hsigned] at hown
  cases hown
  rw [record_pre] at henact hcall
  have hnew : caller ∉ w.council.ballots id := by
    rw [hballot, ← hi.mem_signersOf (hs.id_ne_zero hcall.1)]
    exact hcall.2.1
  have hcount : (w.council.ballots id).length + 1 = w.council.quorum := by
    rw [hballot, List.length_map, ← hi.length_signersOf]
    exact hcall.2.2
  have hleft : (round id (record exec w act :: h)).map Prod.fst =
      if charter.keeps a then w.council.ballots id ++ [caller] else [] := by
    have hsig := signatureOn_self hsigned
    have hyes := performsId_self hperf
    cases run_roundEffect hinit hrun act id with
    | other _ hno | again _ _ hno | counted _ _ hno => rw [hyes] at hno; cases hno
    | exited s hown _ hexits _ hround =>
        rw [hsig] at hown
        cases hown
        rw [show charter.keeps a = true from hexits, if_pos rfl, hround, hballot,
          List.map_append, List.map_singleton]
    | returned s hown _ hexits _ hround =>
        rw [hsig] at hown
        cases hown
        rw [show charter.keeps a = false from hexits, if_neg Bool.false_ne_true, hround,
          List.map_nil]
  rw [hleft] at hballots
  have hvote := VoteEffect.enacted hmem hnew hcount henact
  rw [← hballots] at hvote
  exact hvote

/-- A call that succeeds is a vote that the council takes, with the same outcome. -/
theorem council_step (hinit : deploy l token nftToken minValid validators = .ok w₀)
    (hrun : Run exec w₀ h w) (hsigned : signed (record exec w act) = some (caller, id, a)) :
    ∃ o, VoteEffect charter w.council caller id a o (record exec w act).post.council ∧
      performed (record exec w act) = if o = .enacted then some (id, a) else none := by
  have hval := (record_signingEffect w act).isValidator hsigned
  rw [record_pre] at hval
  have hmem := (run_sound hinit hrun).mem_validators.mpr hval
  have hperf := performed_eq hsigned
  split at hperf
  · exact ⟨.enacted, council_enacted hinit hrun hsigned hmem hperf, hperf⟩
  · exact ⟨.pending, council_pending hinit hrun hsigned hmem hperf, hperf⟩

theorem council_simulation (hinit : deploy l token nftToken minValid validators = .ok w₀) :
    Simulation exec w₀ (vote charter) World.council signed Votes where
  stutter _ _ _ hrun hno := council_stutter hinit hrun hno
  step h w act b hrun hsigned := by
    obtain ⟨caller, id, a⟩ := b
    obtain ⟨o, heff, hperf⟩ := council_step hinit hrun hsigned
    have hvote := record_ok (vote_effect.mpr heff)
    rw [hvote]
    refine ⟨rfl, ⟨o, rfl⟩, ?_⟩
    rw [hperf]
    cases o <;> rfl

/-! ## Refused where the council refuses -/

/-- The council that a deployment founds. -/
theorem deploy_council (hinit : deploy l token nftToken minValid validators = .ok w₀) :
    w₀.council = founded validators.toFinset minValid := by
  have hspec := (deploy_init hinit).1
  have hs := deploy_sound hinit
  obtain ⟨hids, -, hmin, -⟩ := init_establishes hspec
  have hroles := (init_spec hspec).registered.roles
  refine council_ext ?_ hmin (funext fun id => ?_)
  · ext x
    show x ∈ w₀.toBoard.validators ↔ x ∈ validators.toFinset
    rw [hs.mem_validators, List.mem_toFinset]
    constructor
    · intro hval
      have hid := hs.id_ne_zero hval
      have hle := w₀.userMapper.getUserId_le x
      rw [(init_spec hspec).registered.count] at hle
      have hempty : Storage.empty.userMapper.userCount = 0 := rfl
      rw [hempty, Nat.zero_add] at hle
      obtain ⟨hget, -⟩ := hids (w₀.userMapper.getUserId x - 1) (by omega)
      rw [Nat.sub_add_cancel (Nat.pos_of_ne_zero hid)] at hget
      rw [← w₀.userMapper.getUserId_inj (by rw [hget]; exact hid) hget]
      exact List.get_mem _ _
    · intro hx
      obtain ⟨i, hi, rfl⟩ := List.getElem_of_mem hx
      obtain ⟨hget, hrole⟩ := hids i hi
      rw [Board.IsValidator]
      exact (congrArg w₀.userRole hget).trans hrole
  · show (w₀.signersOf id).map _ = []
    rw [signersOf_none (by rw [(init_fields hspec).1, SafeMapMapper.get_empty]), List.map_nil]

/-- The votes of a run, played by the council. -/
theorem run_council (hinit : deploy l token nftToken minValid validators = .ok w₀)
    (hrun : Run exec w₀ h w) :
    (play (vote charter) (founded validators.toFinset minValid)
        (h.filterMap signed)).2 = w.council ∧
      List.Forall₂ Votes (h.filter fun r => (signed r).isSome)
        (play (vote charter) (founded validators.toFinset minValid)
          (h.filterMap signed)).1 := by
  rw [← deploy_council hinit]
  exact (council_simulation hinit).run hrun

theorem run_motions (hinit : deploy l token nftToken minValid validators = .ok w₀)
    (hrun : Run exec w₀ h w) :
    h.filterMap performed = (play (vote charter) (founded validators.toFinset minValid)
      (h.filterMap signed)).1.filterMap Council.enacted := by
  exact observed_labels (fun r q hv => hv.2) (fun r _ hno => performed_unsigned hno)
    (run_council hinit hrun).2

/-- The validators and the quorum are those of the deployment, amended by the
actions performed, in their order. -/
theorem board_amended (hinit : deploy l token nftToken minValid validators = .ok w₀)
    (hrun : Run exec w₀ h w) :
    (w.toBoard.validators, w.minValid) =
      ((h.filterMap performed).map Prod.snd).foldr Action.amend
        (validators.toFinset, minValid) := by
  have hamend : ∀ (a : Action) x y, charter.enact a x = some y → y = a.amend x := by
    intro a x y henact
    have hsome : (if a.inOrder x = true then some (a.amend x) else none) = some y := henact
    rw [Option.ite_none_right_eq_some] at hsome
    exact (Option.some.inj hsome.2).symm
  have hfold := Council.run_amended hamend
    (run_play (vote charter) (founded validators.toFinset minValid) (h.filterMap signed))
  rw [(run_council hinit hrun).1, ← run_motions hinit hrun] at hfold
  exact hfold

theorem board_amended_dan :
    let run := play exec (freshWorld 2 [alice, bob, charlie])
      [send charlie (.proposeAddValidator 7 dan), send alice (.proposeAddValidator 7 dan)]
    (run.2.toBoard.validators, run.2.minValid) =
      ((run.1.filterMap performed).map Prod.snd).foldr Action.amend
        ([alice, bob, charlie].toFinset, 2) :=
  board_amended deploy_three (run_play _ _ _)

/-! ## A minority is powerless -/

/-- A record that performs nothing leaves the board and the wrapped tokens'
settings alone, creates no nonce and pays no EGLD. -/
theorem record_unperformed (hperf : performed (record exec w act) = none) :
    (record exec w act).post.toBoard = w.toBoard ∧
      (record exec w act).post.toWrapper = w.toWrapper ∧
      (record exec w act).post.chain.lastNonce = w.chain.lastNonce ∧
      w.chain.egld ≤ (record exec w act).post.chain.egld := by
  have hegld : w.chain.egld ≤ (record exec w act).post.chain.egld := by
    have hstep := record_egld w act
    have hpaid : paidOut (record exec w act) = 0 := by
      rw [paidOut, performedAction, hperf]
      rfl
    rw [EgldStep, record_pre, hpaid] at hstep
    omega
  have hframe : performed (record exec w act) = none →
      (record exec w act).post.toBoard = w.toBoard ∧
        (record exec w act).post.toWrapper = w.toWrapper ∧
        (record exec w act).post.chain.lastNonce = w.chain.lastNonce := by
    refine record_cases (P := fun r => performed r = none → r.post.toBoard = w.toBoard ∧
        r.post.toWrapper = w.toWrapper ∧ r.post.chain.lastNonce = w.chain.lastNonce) w act
      (fun e _ _ => ⟨rfl, rfl, rfl⟩) (fun ret w' _ heff _ => ?_)
      (fun caller hostOk id a ret w' hs heff hno => ?_)
    · obtain ⟨hboard, hwrap, -⟩ := heff.frame
      exact ⟨hboard, hwrap, heff.lastNonce⟩
    · rcases heff.unperformed hs hno with rfl | rfl
      · exact ⟨rfl, rfl, rfl⟩
      · exact ⟨rfl, rfl, rfl⟩
  obtain ⟨hboard, hwrap, hlast⟩ := hframe hperf
  exact ⟨hboard, hwrap, hlast, hegld⟩

/-- What a run leaves as the deployment made it, if it performs nothing. -/
structure Untouched (w₀ w : World) : Prop where
  board : w.toBoard = w₀.toBoard
  wrapper : w.toWrapper = w₀.toWrapper
  nonces : w.chain.lastNonce = w₀.chain.lastNonce
  egld : w₀.chain.egld ≤ w.chain.egld

theorem run_untouched (hrun : Run exec w₀ h w) (hnone : ∀ r ∈ h, performed r = none) :
    Untouched w₀ w := by
  induction hrun with
  | start => exact ⟨rfl, rfl, rfl, Nat.le_refl _⟩
  | @step h w act hrun ih =>
      obtain ⟨hlast, hpast⟩ := List.forall_mem_cons.mp hnone
      obtain ⟨hboard, hwrap, hnonces, hegld⟩ := record_unperformed hlast
      have ih := ih hpast
      exact ⟨hboard.trans ih.board, hwrap.trans ih.wrapper, hnonces.trans ih.nonces,
        Nat.le_trans ih.egld hegld⟩

/-- As long as only addresses of a set smaller than the quorum get their calls
through, nothing is performed, whatever they sign and whatever everybody else
sends: board, quorum, wrapped tokens and EGLD stay, and only they are on the
entries. -/
theorem minority_powerless
    (hinit : deploy l token nftToken minValid validators = .ok w₀)
    (hrun : Run exec w₀ h w) {T : Finset Address} (hT : T.card < minValid)
    (hvoters : ∀ r ∈ h, ∀ s, signed r = some s → s.1 ∈ T) :
    (∀ r ∈ h, performed r = none) ∧ Untouched w₀ w ∧
      ∀ id, ∀ i ∈ w.signersOf id, ∃ x ∈ T, w.userMapper.getUserId x = i := by
  have hplay := run_play (vote charter) (founded validators.toFinset minValid)
    (h.filterMap signed)
  have hacts : ∀ q ∈ (play (vote charter) (founded validators.toFinset minValid)
      (h.filterMap signed)).1, q.act.1 ∈ T := by
    intro q hq
    have hact : q.act ∈ h.filterMap signed := by
      rw [← play_acts (vote charter) (founded validators.toFinset minValid)
        (h.filterMap signed)]
      exact List.mem_map_of_mem hq
    obtain ⟨r, hr, hsigned⟩ := List.mem_filterMap.mp hact
    exact hvoters r hr _ hsigned
  obtain ⟨-, -, hin, hnone⟩ := Council.run_minority hT
    (.founded T validators.toFinset minValid) hacts hplay
  have hempty : h.filterMap performed = [] := by
    rw [run_motions hinit hrun, List.filterMap_eq_nil_iff]
    exact hnone
  have hidle : ∀ r ∈ h, performed r = none := List.filterMap_eq_nil_iff.mp hempty
  refine ⟨hidle, run_untouched hrun hidle, fun id i hi => ?_⟩
  have hround := run_round hinit hrun
  rw [hround.signers, List.mem_map] at hi
  obtain ⟨s, hs, rfl⟩ := hi
  rw [(run_council hinit hrun).1] at hin
  refine ⟨s.1, hin.voters id s.1 ?_, rfl⟩
  rw [council_ballots hround]
  exact List.mem_map_of_mem hs

/-- Alice alone, with a quorum of two: she proposes dan and votes for a payment
while dan deposits. -/
theorem minority_powerless_alice :
    let run := play exec (freshWorld 2 [alice, bob, charlie])
      [send alice (.proposeAddValidator 7 dan), send dan (.proposeAddValidator 7 dan),
        .tx ⟨dan, .egld 10, true, .deposit⟩, send alice (.validateUnfreeze 1 alice 5)]
    (∀ r ∈ run.1, performed r = none) ∧ Untouched (freshWorld 2 [alice, bob, charlie]) run.2 ∧
      ∀ id, ∀ i ∈ run.2.signersOf id, ∃ x ∈ ({alice} : Finset Address),
        run.2.userMapper.getUserId x = i :=
  minority_powerless deploy_three (run_play _ _ _) (by decide) (by decide +kernel)

end ElrondMint
