import ElrondMint.Board
import Mathlib.Data.List.Nodup
import Mathlib.Data.Finset.Card

/-!
# Rounds of signatures

An entry of `actionMapper` names its signers by id and the action of the
first of them, and it stays behind, signers and all, when an execution ends
in an asynchronous transfer.

`round id h` says what an entry stands for, from the history alone: the
addresses whose signatures it holds, each with the action it sent, in the
order of their calls. `SigningEffect` says what one record did to the
entries, and `run_round` that the table is the rounds seen through the user
table, in every run and for every uuid at once. The files above this one
argue about rounds and leave the table alone.
-/

namespace ElrondMint

open Rollback

/-- The call of `validate_action` a transaction makes: the caller, the uuid
and the action. A payment is refused before it. -/
def Act.validates : Act → Option (Address × Nat × Action)
  | .tx t => if t.payment = .egld 0 then (Act.tx t).signs else none
  | .settle .. => none

/-- Whether a call executed the action of uuid `id`. -/
def performsId (id : Nat) (r : Rec) : Bool :=
  (performed r).any fun x => x.1 == id

/-- The records since uuid `id` was last performed. -/
def since (id : Nat) (h : List Rec) : List Rec :=
  h.takeWhile fun r => !performsId id r

/-- An execution of uuid `id` ended in an asynchronous transfer. -/
def Spent (id : Nat) (h : List Rec) : Prop := ∃ r ∈ h, exitedId r = some id

instance (id : Nat) (h : List Rec) : Decidable (Spent id h) :=
  inferInstanceAs (Decidable (∃ r ∈ h, _))

variable {w w' w₀ : World} {l : Ledger} {token nftToken : TokenIdentifier}
  {minValid : Nat} {validators : List Address} {h past : List Rec} {r : Rec}
  {act : Act} {ret : Ret} {id : Nat} {caller : Address} {a : Action}

/-! ## One record -/

/-- What a record does to the pending actions. `idle` and `known` leave them
alone, `counted` and `exited` add a signature, `returned` takes the entry
out. -/
inductive SigningEffect (r : Rec) : Prop
  | idle (hsigned : signed r = none) (hperf : performed r = none)
      (hexit : exitedId r = none)
      (hsame : r.post.actionMapper = r.pre.actionMapper)
  | known (caller : Address) (id : Nat) (a : Action)
      (hsigned : signed r = some (caller, id, a)) (hperf : performed r = none)
      (hexit : exitedId r = none) (hval : r.pre.IsValidator caller)
      (hold : r.pre.userMapper.getUserId caller ∈ r.pre.signersOf id)
      (hsame : r.post.actionMapper = r.pre.actionMapper)
  | counted (caller : Address) (id : Nat) (a : Action)
      (hsigned : signed r = some (caller, id, a)) (hperf : performed r = none)
      (hexit : exitedId r = none) (hval : r.pre.IsValidator caller)
      (hnew : r.pre.userMapper.getUserId caller ∉ r.pre.signersOf id)
      (hcount : (r.pre.signersOf id).length + 1 ≠ r.pre.minValid)
      (hpost : r.post.actionMapper =
        (r.pre.sign id a (r.pre.userMapper.getUserId caller)).actionMapper)
  | exited (caller : Address) (id : Nat) (a : Action)
      (hsigned : signed r = some (caller, id, a))
      (hperf : performed r = some (id, a)) (hexit : exitedId r = some id)
      (hact : a.exits = true) (hcall : r.pre.CallsPerformAction caller id)
      (hpost : r.post.actionMapper =
        (r.pre.sign id a (r.pre.userMapper.getUserId caller)).actionMapper)
  | returned (caller : Address) (id : Nat) (a : Action)
      (hsigned : signed r = some (caller, id, a))
      (hperf : performed r = some (id, a)) (hexit : exitedId r = none)
      (hact : a.exits = false) (hcall : r.pre.CallsPerformAction caller id)
      (hpost : r.post.actionMapper = (((r.pre.sign id a
        (r.pre.userMapper.getUserId caller)).dropEntry id)).actionMapper)

theorem record_signingEffect (w : World) (act : Act) :
    SigningEffect (record exec w act) := by
  refine record_cases w act (fun e _ => .idle rfl rfl rfl rfl) (fun ret w' hs heff => ?_)
    (fun caller hostOk id a ret w' hs heff => ?_)
  · obtain ⟨-, -, hsame, hflow⟩ := heff.frame
    cases ret with
    | flow flow => exact absurd rfl (hflow flow)
    | unit | ident | info => exact .idle hs rfl rfl hsame
  · have hid : act.signs.map Prod.snd = some (id, a) := by rw [hs]; rfl
    have hexit : act.signs.map (fun s => s.2.1) = some id := by rw [hs]; rfl
    cases heff with
    | known hval hold => exact .known caller id a hs rfl rfl hval hold rfl
    | counted hval hnew hcount =>
        exact .counted caller id a hs rfl rfl hval hnew hcount rfl
    | exited hcall hperf =>
        have hp := performAction_effect hperf
        exact .exited caller id a hs hid hexit hp.exits hcall hp.frame.1
    | @returned res w₁ _ hcall hperf hfin =>
        have hp := performAction_effect hperf
        obtain ⟨hact, hres⟩ := hp.exits
        obtain ⟨egld, rfl⟩ := finish_frame hfin
        refine .returned caller id a hs ?_ rfl hact hcall ?_
        · cases res with
          | pending => exact absurd rfl hres
          | done | asyncCall | unfreeze => exact hid
        · show (w₁.actionMapper.remove id).2 = _
          rw [hp.frame.1]
          rfl

theorem SigningEffect.isValidator {s : Address × Nat × Action} (heff : SigningEffect r)
    (hs : signed r = some s) : r.pre.IsValidator s.1 := by
  cases heff with
  | idle hsigned => rw [hsigned] at hs; cases hs
  | known caller id a hsigned _ _ hval =>
      rw [hsigned] at hs
      cases hs
      exact hval
  | counted caller id a hsigned _ _ hval =>
      rw [hsigned] at hs
      cases hs
      exact hval
  | exited caller id a hsigned _ _ _ hcall =>
      rw [hsigned] at hs
      cases hs
      exact hcall.1
  | returned caller id a hsigned _ _ _ hcall =>
      rw [hsigned] at hs
      cases hs
      exact hcall.1

/-- An execution has a caller who completes the quorum. -/
theorem SigningEffect.of_performed (heff : SigningEffect r)
    (hperf : performed r = some (id, a)) :
    ∃ caller, signed r = some (caller, id, a) ∧ r.pre.CallsPerformAction caller id := by
  cases heff with
  | idle _ hno | known _ _ _ _ hno | counted _ _ _ _ hno =>
      rw [hno] at hperf
      simp at hperf
  | exited caller _ _ hsigned hown _ _ hcall | returned caller _ _ hsigned hown _ _ hcall =>
      rw [hown] at hperf
      cases hperf
      exact ⟨caller, hsigned, hcall⟩

/-- An execution that ended in an asynchronous transfer. -/
theorem SigningEffect.of_exitedId (heff : SigningEffect r) (hexit : exitedId r = some id) :
    ∃ caller a, signed r = some (caller, id, a) ∧ performed r = some (id, a) ∧
      a.exits = true ∧ r.pre.CallsPerformAction caller id ∧
      r.post.actionMapper =
        (r.pre.sign id a (r.pre.userMapper.getUserId caller)).actionMapper := by
  cases heff with
  | idle _ _ hno | known _ _ _ _ _ hno | counted _ _ _ _ _ hno
  | returned _ _ _ _ _ hno =>
      rw [hno] at hexit
      simp at hexit
  | exited caller j a hsigned hperf hsome hact hcall hpost =>
      rw [hsome] at hexit
      cases hexit
      exact ⟨caller, a, hsigned, hperf, hact, hcall, hpost⟩

theorem run_signed_isValidator (hrun : Run exec w₀ h w) :
    ∀ r ∈ h, ∀ s, signed r = some s → r.pre.IsValidator s.1 :=
  along_forall.mp (hrun.along fun _ w act _ _ hs =>
    (record_signingEffect w act).isValidator hs)

theorem record_validates {s : Address × Nat × Action}
    (hs : signed (record exec w act) = some s) :
    (record exec w act).act.validates = some s := by
  rw [record_act]
  cases hex : exec w act with
  | error e => rw [record_error hex] at hs; cases hs
  | ok out =>
      obtain ⟨ret, w'⟩ := out
      rw [record_ok hex] at hs
      cases act with
      | settle => cases hs
      | tx tx =>
          have hs : (Act.tx tx).signs = some s := hs
          obtain ⟨ua, hcall, -⟩ := Option.map_eq_some_iff.mp hs
          obtain ⟨_, hcheck, -⟩ := bind_eq_ok.mp hex
          rw [(invoke_signs (w := w) hcall).2] at hcheck
          rw [Act.validates, if_pos (check_no hcheck)]
          exact hs

/-! ## What an entry stands for -/

/-- The signer and the action of a successful call under uuid `id`. -/
def signatureOn (id : Nat) (r : Rec) : Option (Address × Action) :=
  match signed r with
  | some (x, j, a) => if j = id then some (x, a) else none
  | none => none

/-- Whether a record took the entry of `id` out: it performed the action, and
returned. -/
def dropsEntry (id : Nat) (r : Rec) : Bool :=
  performsId id r && (exitedId r).isNone

/-- The signatures the entry of uuid `id` holds, oldest first. -/
def round (id : Nat) : List Rec → List (Address × Action)
  | [] => []
  | r :: past =>
      if dropsEntry id r then []
      else match signatureOn id r with
        | none => round id past
        | some s =>
            if s.1 ∈ (round id past).map Prod.fst then round id past
            else round id past ++ [s]

theorem signatureOn_some {s : Address × Action} (hs : signatureOn id r = some s) :
    signed r = some (s.1, id, s.2) := by
  unfold signatureOn at hs
  split at hs
  · next x j b hsigned =>
      split at hs
      · next hj =>
          injection hs with hs
          rw [hsigned, ← hs, hj]
      · simp at hs
  · simp at hs

theorem signatureOn_self (hs : signed r = some (caller, id, a)) :
    signatureOn id r = some (caller, a) := by
  rw [signatureOn, hs]
  exact if_pos rfl

theorem signatureOn_ne (hs : signed r = some (caller, id, a)) {j : Nat} (hj : j ≠ id) :
    signatureOn j r = none := by
  rw [signatureOn, hs]
  exact if_neg (Ne.symm hj)

theorem performsId_self (hperf : performed r = some (id, a)) : performsId id r = true := by
  rw [performsId, hperf, Option.any_some]
  exact beq_iff_eq.mpr rfl

theorem performsId_none (hperf : performed r = none) (j : Nat) :
    performsId j r = false := by
  rw [performsId, hperf]
  rfl

/-- Whoever performs signs. -/
theorem performed_signature (hperf : performed r = some (id, a)) :
    ∃ caller, signatureOn id r = some (caller, a) := by
  obtain ⟨caller, hs⟩ := performed_signs hperf
  refine ⟨caller, signatureOn_self ?_⟩
  unfold performed at hperf
  unfold signed
  split at hperf
  · simp at hperf
  · next hret => rw [hret]; exact hs
  · simp at hperf

theorem performsId_some (hperf : performsId id r = true) :
    ∃ a, performed r = some (id, a) := by
  rw [performsId, Option.any_eq_true] at hperf
  obtain ⟨⟨i, a⟩, hperf, hi⟩ := hperf
  obtain rfl : i = id := beq_iff_eq.mp hi
  exact ⟨a, hperf⟩

theorem performsId_of_none (hsig : signatureOn id r = none) : performsId id r = false := by
  cases hperf : performsId id r with
  | false => rfl
  | true =>
      obtain ⟨a, hperf⟩ := performsId_some hperf
      obtain ⟨caller, hs⟩ := performed_signature hperf
      rw [hs] at hsig
      simp at hsig

theorem dropsEntry_of_performed_none (hperf : performed r = none) :
    dropsEntry id r = false := by
  rw [dropsEntry, performsId_none hperf, Bool.false_and]

theorem dropsEntry_of_exitedId {j : Nat} (hexit : exitedId r = some j) :
    dropsEntry id r = false := by
  rw [dropsEntry, hexit]
  exact Bool.and_false _

theorem dropsEntry_of_returned (hperf : performed r = some (id, a))
    (hexit : exitedId r = none) : dropsEntry id r = true := by
  rw [dropsEntry, performsId_self hperf, hexit]
  rfl

theorem exitedId_of_performsId {j : Nat} (hperf : performsId id r = true)
    (hexit : exitedId r = some j) : j = id := by
  obtain ⟨a, hperf⟩ := performsId_some hperf
  obtain ⟨caller, hs⟩ := performed_signs hperf
  unfold exitedId at hexit
  split at hexit
  · rw [hs] at hexit
    cases hexit
    rfl
  · simp at hexit

/-- A signature on another uuid is no concern of this one's entry. -/
theorem round_skip (hs : signatureOn id r = none) :
    round id (r :: past) = round id past := by
  rw [round, dropsEntry, performsId_of_none hs, hs]
  rfl

theorem round_again {s : Address × Action} (hdrop : dropsEntry id r = false)
    (hs : signatureOn id r = some s) (hold : s.1 ∈ (round id past).map Prod.fst) :
    round id (r :: past) = round id past := by
  rw [round, hdrop, hs]
  exact if_pos hold

theorem round_add {s : Address × Action} (hdrop : dropsEntry id r = false)
    (hs : signatureOn id r = some s) (hnew : s.1 ∉ (round id past).map Prod.fst) :
    round id (r :: past) = round id past ++ [s] := by
  rw [round, hdrop, hs]
  exact if_neg hnew

theorem round_drop (hdrop : dropsEntry id r = true) : round id (r :: past) = [] := by
  rw [round, hdrop]
  rfl

/-- What one record does to a round: ends it, leaves it, or adds to it the
signature of somebody who had not signed. -/
theorem round_cons (id : Nat) (r : Rec) (past : List Rec) :
    round id (r :: past) = [] ∨
      dropsEntry id r = false ∧ (round id (r :: past) = round id past ∨
        ∃ s, signatureOn id r = some s ∧ s.1 ∉ (round id past).map Prod.fst ∧
          round id (r :: past) = round id past ++ [s]) := by
  cases hdrop : dropsEntry id r with
  | true => exact .inl (round_drop hdrop)
  | false =>
      refine .inr ⟨rfl, ?_⟩
      cases hs : signatureOn id r with
      | none => exact .inl (round_skip hs)
      | some s =>
          by_cases hold : s.1 ∈ (round id past).map Prod.fst
          · exact .inl (round_again hdrop hs hold)
          · exact .inr ⟨s, rfl, hold, round_add hdrop hs hold⟩

/-- Nobody signs twice in a round. -/
theorem nodup_round (id : Nat) (h : List Rec) :
    ((round id h).map Prod.fst).Nodup := by
  induction h with
  | nil => exact List.nodup_nil
  | cons r past ih =>
      rcases round_cons id r past with hr | ⟨-, hr | ⟨s, -, hnew, hr⟩⟩
      · rw [hr]
        exact List.nodup_nil
      · rw [hr]
        exact ih
      · rw [hr, List.map_append, List.nodup_append']
        refine ⟨ih, List.nodup_singleton _, ?_⟩
        intro x hx hx'
        rw [List.map_singleton, List.mem_singleton] at hx'
        exact hnew (hx' ▸ hx)

/-- What a round holds is somebody's successful call. -/
theorem mem_round {s : Address × Action} (hs : s ∈ round id h) :
    ∃ r ∈ h, signatureOn id r = some s := by
  induction h with
  | nil => cases hs
  | cons r past ih =>
      rcases round_cons id r past with hr | ⟨-, hr | ⟨t, hsig, -, hr⟩⟩
      · rw [hr] at hs
        simp at hs
      · rw [hr] at hs
        obtain ⟨r', hr', hsig⟩ := ih hs
        exact ⟨r', List.mem_cons_of_mem _ hr', hsig⟩
      · rw [hr, List.mem_append, List.mem_singleton] at hs
        rcases hs with hs | rfl
        · obtain ⟨r', hr', hsig⟩ := ih hs
          exact ⟨r', List.mem_cons_of_mem _ hr', hsig⟩
        · exact ⟨r, List.mem_cons_self, hsig⟩

/-- A record that performs and keeps the entry spends its signatures. -/
theorem performsId_false (hspent : ¬ Spent id (r :: past))
    (hdrop : dropsEntry id r = false) : performsId id r = false := by
  cases hperf : performsId id r with
  | false => rfl
  | true =>
      rw [dropsEntry, hperf, Bool.true_and] at hdrop
      cases hexit : exitedId r with
      | none => rw [hexit] at hdrop; cases hdrop
      | some j =>
          rw [exitedId_of_performsId hperf hexit] at hexit
          exact absurd ⟨r, List.mem_cons_self, hexit⟩ hspent

/-- Unless the signatures of a uuid are spent, its round goes back no further
than the last time it was performed. -/
theorem mem_round_since {s : Address × Action} (hspent : ¬ Spent id h)
    (hs : s ∈ round id h) : ∃ r ∈ since id h, signatureOn id r = some s := by
  induction h with
  | nil => cases hs
  | cons r past ih =>
      have hpast : ¬ Spent id past :=
        fun ⟨r', hr', hx⟩ => hspent ⟨r', List.mem_cons_of_mem _ hr', hx⟩
      rcases round_cons id r past with hr | ⟨hdrop, hr⟩
      · rw [hr] at hs
        simp at hs
      · rw [since, List.takeWhile_cons_of_pos
          (by rw [performsId_false hspent hdrop]; rfl)]
        rcases hr with hr | ⟨t, hsig, -, hr⟩
        · rw [hr] at hs
          obtain ⟨r', hr', hsig⟩ := ih hpast hs
          exact ⟨r', List.mem_cons_of_mem _ hr', hsig⟩
        · rw [hr, List.mem_append, List.mem_singleton] at hs
          rcases hs with hs | rfl
          · obtain ⟨r', hr', hsig⟩ := ih hpast hs
            exact ⟨r', List.mem_cons_of_mem _ hr', hsig⟩
          · exact ⟨r, List.mem_cons_self, hsig⟩

/-! ## The table holds the rounds -/

/-- The entries of the table are the rounds of the history, with each signer
under its id and the action of the first. -/
structure RoundInvariant (h : List Rec) (w : World) : Prop where
  signers : ∀ id, w.signersOf id =
    (round id h).map fun s => w.userMapper.getUserId s.1
  action : ∀ id info, w.actionMapper.get id = some info →
    (round id h).head?.map Prod.snd = some info.action
  registered : ∀ id, ∀ s ∈ round id h, w.userMapper.getUserId s.1 ≠ 0

theorem RoundInvariant.mem_signersOf (hi : RoundInvariant h w)
    (hreg : w.userMapper.getUserId caller ≠ 0) :
    w.userMapper.getUserId caller ∈ w.signersOf id ↔
      caller ∈ (round id h).map Prod.fst := by
  rw [hi.signers, List.mem_map, List.mem_map]
  refine ⟨?_, ?_⟩
  · rintro ⟨s, hs, hid⟩
    exact ⟨s, hs, (w.userMapper.getUserId_inj hreg hid.symm).symm⟩
  · rintro ⟨s, hs, rfl⟩
    exact ⟨s, hs, rfl⟩

theorem RoundInvariant.length_signersOf (hi : RoundInvariant h w) (id : Nat) :
    (w.signersOf id).length = (round id h).length := by
  rw [hi.signers, List.length_map]

theorem RoundInvariant.round_eq_nil (hi : RoundInvariant h w)
    (hnone : w.actionMapper.get id = none) : round id h = [] := by
  rw [← List.length_eq_zero_iff, ← hi.length_signersOf, signersOf_none hnone]
  rfl

/-- An entry has somebody on it. -/
theorem RoundInvariant.round_ne_nil (hi : RoundInvariant h w)
    (hentry : (w.actionMapper.get id).isSome) : round id h ≠ [] := by
  intro hnil
  obtain ⟨info, hget⟩ := Option.isSome_iff_exists.mp hentry
  have hhead := hi.action id info hget
  rw [hnil] at hhead
  simp at hhead

/-- A round with a signature in it has an entry, with the first one's action. -/
theorem RoundInvariant.entry (hi : RoundInvariant h w) {s : Address × Action}
    (hs : s ∈ round id h) : ∃ t info, (round id h).head? = some t ∧
      w.actionMapper.get id = some info ∧ t.2 = info.action := by
  cases hget : w.actionMapper.get id with
  | none =>
      rw [hi.round_eq_nil hget] at hs
      simp at hs
  | some info =>
      obtain ⟨t, ht, hact⟩ := Option.map_eq_some_iff.mp (hi.action id info hget)
      exact ⟨t, info, ht, rfl, hact⟩

/-- A record that leaves the entry of every uuid and its round as they were. -/
theorem RoundInvariant.keep (hi : RoundInvariant h r.pre)
    (hgrow : r.pre.userMapper.Grows r.post.userMapper)
    (hsame : r.post.actionMapper = r.pre.actionMapper)
    (hround : ∀ id, round id (r :: h) = round id h) :
    RoundInvariant (r :: h) r.post := by
  constructor
  case signers =>
    intro id
    rw [hround, signersOf_congr hsame, hi.signers]
    exact List.map_congr_left fun s hs => (hgrow _ (hi.registered id s hs)).symm
  case action =>
    intro id info hget
    rw [hsame] at hget
    rw [hround]
    exact hi.action id info hget
  case registered =>
    intro id s hs
    rw [hround] at hs
    rw [hgrow _ (hi.registered id s hs)]
    exact hi.registered id s hs

/-- A signature is added to the entry of a uuid and to its round. -/
theorem RoundInvariant.add (hi : RoundInvariant h r.pre)
    (hgrow : r.pre.userMapper.Grows r.post.userMapper)
    (hreg : r.pre.userMapper.getUserId caller ≠ 0)
    (hpost : r.post.actionMapper =
      (r.pre.sign id a (r.pre.userMapper.getUserId caller)).actionMapper)
    (hround : round id (r :: h) = round id h ++ [(caller, a)])
    (hother : ∀ j, j ≠ id → round j (r :: h) = round j h) :
    RoundInvariant (r :: h) r.post := by
  constructor
  case signers =>
    intro j
    rw [signersOf_congr hpost, sign_signersOf]
    split
    · next hj =>
        rw [hj, hround, List.map_append, hi.signers, List.map_singleton, hgrow _ hreg]
        congr 1
        exact List.map_congr_left fun s hs => (hgrow _ (hi.registered id s hs)).symm
    · next hj =>
        rw [hother j hj, hi.signers]
        exact List.map_congr_left fun s hs => (hgrow _ (hi.registered j s hs)).symm
  case action =>
    intro j info hget
    rw [hpost, sign_get] at hget
    split at hget
    · next hj =>
        injection hget with hget
        rw [hj, hround, ← hget, Storage.signedInfo]
        cases hold : r.pre.actionMapper.get id with
        | none =>
            rw [hi.round_eq_nil hold]
            rfl
        | some old =>
            have hhead := hi.action id old hold
            cases hr : round id h with
            | nil => rw [hr] at hhead; cases hhead
            | cons s rest => rw [hr] at hhead; exact hhead
    · next hj =>
        rw [hother j hj]
        exact hi.action j info hget
  case registered =>
    intro j s hs
    have hold : r.pre.userMapper.getUserId s.1 ≠ 0 := by
      by_cases hj : j = id
      · rw [hj, hround, List.mem_append, List.mem_singleton] at hs
        rcases hs with hs | rfl
        · exact hi.registered id s hs
        · exact hreg
      · rw [hother j hj] at hs
        exact hi.registered j s hs
    rw [hgrow _ hold]
    exact hold

/-- The entry of a uuid is taken out, and its round is over. -/
theorem RoundInvariant.drop (hi : RoundInvariant h r.pre)
    (hgrow : r.pre.userMapper.Grows r.post.userMapper) {signer : Nat}
    (hpost : r.post.actionMapper = ((r.pre.sign id a signer).dropEntry id).actionMapper)
    (hround : round id (r :: h) = [])
    (hother : ∀ j, j ≠ id → round j (r :: h) = round j h) :
    RoundInvariant (r :: h) r.post := by
  constructor
  case signers =>
    intro j
    rw [signersOf_congr hpost, dropEntry_signersOf]
    split
    · next hj => rw [hj, hround]; rfl
    · next hj =>
        rw [sign_signersOf, if_neg hj, hother j hj, hi.signers]
        exact List.map_congr_left fun s hs => (hgrow _ (hi.registered j s hs)).symm
  case action =>
    intro j info hget
    rw [hpost, dropEntry_get] at hget
    split at hget
    · simp at hget
    · next hj =>
        rw [sign_get, if_neg hj] at hget
        rw [hother j hj]
        exact hi.action j info hget
  case registered =>
    intro j s hs
    by_cases hj : j = id
    · rw [hj, hround] at hs
      simp at hs
    · rw [hother j hj] at hs
      rw [hgrow _ (hi.registered j s hs)]
      exact hi.registered j s hs

theorem RoundInvariant.start (hempty : w.actionMapper = ∅) : RoundInvariant [] w where
  signers id := signersOf_none (by rw [hempty, SafeMapMapper.get_empty])
  action id info hget := by rw [hempty, SafeMapMapper.get_empty] at hget; cases hget
  registered id s hs := absurd hs List.not_mem_nil

/-- One record of a run, as the round of one uuid sees it. -/
inductive RoundEffect (id : Nat) (past : List Rec) (r : Rec) : Prop
  | other (hsig : signatureOn id r = none) (hperf : performsId id r = false)
      (hround : round id (r :: past) = round id past)
  | again (s : Address × Action) (hsig : signatureOn id r = some s)
      (hperf : performsId id r = false)
      (hold : s.1 ∈ (round id past).map Prod.fst)
      (hround : round id (r :: past) = round id past)
  | counted (s : Address × Action) (hsig : signatureOn id r = some s)
      (hperf : performsId id r = false)
      (hcount : (round id past).length + 1 ≠ r.pre.minValid)
      (hround : round id (r :: past) = round id past ++ [s])
  | exited (s : Address × Action) (hsig : signatureOn id r = some s)
      (hperf : performsId id r = true) (hact : s.2.exits = true)
      (hcount : (round id past).length + 1 = r.pre.minValid)
      (hround : round id (r :: past) = round id past ++ [s])
  | returned (s : Address × Action) (hsig : signatureOn id r = some s)
      (hperf : performsId id r = true) (hact : s.2.exits = false)
      (hcount : (round id past).length + 1 = r.pre.minValid)
      (hround : round id (r :: past) = [])

theorem RoundInvariant.effect (hi : RoundInvariant h r.pre) (hs : r.pre.toBoard.Sound)
    (heff : SigningEffect r) (j : Nat) : RoundEffect j h r := by
  cases hsig : signatureOn j r with
  | none => exact .other hsig (performsId_of_none hsig) (round_skip hsig)
  | some s =>
      obtain ⟨caller, a⟩ := s
      have hsigned := signatureOn_some hsig
      have hmem : r.pre.userMapper.getUserId caller ∈ r.pre.signersOf j ↔
          caller ∈ (round j h).map Prod.fst :=
        hi.mem_signersOf (hs.id_ne_zero (heff.isValidator hsigned))
      have hlen := hi.length_signersOf j
      cases heff with
      | idle hno => rw [hno] at hsigned; cases hsigned
      | known _ _ _ hown hperf hexit hval hold hsame =>
          rw [hown] at hsigned
          cases hsigned
          exact .again _ hsig (performsId_none hperf j) (hmem.mp hold)
            (round_again (dropsEntry_of_performed_none hperf) hsig (hmem.mp hold))
      | counted _ _ _ hown hperf hexit hval hnew hcount hpost =>
          rw [hown] at hsigned
          cases hsigned
          rw [hmem] at hnew
          exact .counted _ hsig (performsId_none hperf j) (hlen ▸ hcount)
            (round_add (dropsEntry_of_performed_none hperf) hsig hnew)
      | exited _ _ _ hown hperf hexit hact hcall hpost =>
          rw [hown] at hsigned
          cases hsigned
          have hnew := hcall.2.1
          rw [hmem] at hnew
          exact .exited _ hsig (performsId_self hperf) hact (hlen ▸ hcall.2.2)
            (round_add (dropsEntry_of_exitedId hexit) hsig hnew)
      | returned _ _ _ hown hperf hexit hact hcall hpost =>
          rw [hown] at hsigned
          cases hsigned
          exact .returned _ hsig (performsId_self hperf) hact (hlen ▸ hcall.2.2)
            (round_drop (dropsEntry_of_returned hperf hexit))

theorem RoundInvariant.step (hi : RoundInvariant h r.pre) (hs : r.pre.toBoard.Sound)
    (hgrow : r.pre.userMapper.Grows r.post.userMapper) (heff : SigningEffect r) :
    RoundInvariant (r :: h) r.post := by
  cases heff with
  | idle hsigned _ _ hsame =>
      exact hi.keep hgrow hsame fun id =>
        round_skip (by rw [signatureOn, hsigned])
  | known caller id a hsigned hperf hexit hval hold hsame =>
      rw [hi.mem_signersOf (hs.id_ne_zero hval)] at hold
      refine hi.keep hgrow hsame fun j => ?_
      by_cases hj : j = id
      · subst hj
        exact round_again (dropsEntry_of_performed_none hperf)
          (signatureOn_self hsigned) hold
      · exact round_skip (signatureOn_ne hsigned hj)
  | counted caller id a hsigned hperf hexit hval hnew hcount hpost =>
      have hreg := hs.id_ne_zero hval
      rw [hi.mem_signersOf hreg] at hnew
      exact hi.add hgrow hreg hpost
        (round_add (dropsEntry_of_performed_none hperf) (signatureOn_self hsigned) hnew)
        fun j hj => round_skip (signatureOn_ne hsigned hj)
  | exited caller id a hsigned hperf hexit hact hcall hpost =>
      have hreg := hs.id_ne_zero hcall.1
      have hnew := hcall.2.1
      rw [hi.mem_signersOf hreg] at hnew
      exact hi.add hgrow hreg hpost
        (round_add (dropsEntry_of_exitedId hexit) (signatureOn_self hsigned) hnew)
        fun j hj => round_skip (signatureOn_ne hsigned hj)
  | returned caller id a hsigned hperf hexit hact hcall hpost =>
      exact hi.drop hgrow hpost (round_drop (dropsEntry_of_returned hperf hexit))
        fun j hj => round_skip (signatureOn_ne hsigned hj)

theorem run_round (hinit : deploy l token nftToken minValid validators = .ok w₀)
    (hrun : Run exec w₀ h w) : RoundInvariant h w := by
  induction hrun with
  | start => exact .start (init_fields (deploy_init hinit).1).1
  | @step h w act hrun ih =>
      have hs := run_sound hinit hrun
      rw [← record_pre exec w act] at ih hs
      exact ih.step hs (run_grows hinit (.step act hrun) _ List.mem_cons_self)
        (record_signingEffect w act)

theorem run_roundEffect (hinit : deploy l token nftToken minValid validators = .ok w₀)
    (hrun : Run exec w₀ h w) (act : Act) (id : Nat) :
    RoundEffect id h (record exec w act) := by
  have hi := run_round hinit hrun
  have hs := run_sound hinit hrun
  rw [← record_pre exec w act] at hi hs
  exact hi.effect hs (record_signingEffect w act) id

/-- Nobody is counted twice in an entry. -/
theorem run_nodup_signersOf (hinit : deploy l token nftToken minValid validators = .ok w₀)
    (hrun : Run exec w₀ h w) (id : Nat) : (w.signersOf id).Nodup := by
  have hi := run_round hinit hrun
  rw [hi.signers]
  refine List.Nodup.map_on (fun s hs t ht hid => ?_) (nodup_round id h).of_map
  have haddr : s.1 = t.1 := w.userMapper.getUserId_inj (hi.registered id s hs) hid
  exact List.inj_on_of_nodup_map (nodup_round id h) hs ht haddr

/-- The signers in an entry have all been on the board. -/
theorem RoundInvariant.signer (hi : RoundInvariant h w) (hrun : Run exec w₀ h w)
    {i : Nat} (hsigner : i ∈ w.signersOf id) :
    ∃ x, w.userMapper.getUserId x = i ∧ ∃ r ∈ h, r.pre.IsValidator x := by
  rw [hi.signers, List.mem_map] at hsigner
  obtain ⟨s, hs, rfl⟩ := hsigner
  obtain ⟨r, hr, hsig⟩ := mem_round hs
  exact ⟨s.1, rfl, r, hr, run_signed_isValidator hrun r hr _ (signatureOn_some hsig)⟩

end ElrondMint
