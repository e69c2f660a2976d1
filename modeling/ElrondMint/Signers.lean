import ElrondMint.Evaluation
import Mathlib.Data.Finset.Card

/-!
# The signers of an entry

An entry lists user ids and nothing else; whose they are is in the history.
`sinceEntry` goes back to the call that created the entry, and `callers` reads
off whose calls on the uuid have succeeded since. The list is the ids of these
callers in the order of their first call. An id stays with its address while
roles come and go, so a validator who leaves the board and returns is the
signer it was, and its next call changes nothing.

`validateAction` counts the list and not the callers. That it comes to the same
is what lets `minValid` entries stand for `minValid` people.
-/

namespace ElrondMint

open Rollback

variable {w w₀ : World} {l : Ledger} {token nftToken : TokenIdentifier}
  {minValid : Nat} {validators : List Address} {h past recent : List Rec} {r : Rec}
  {id : Nat} {caller : Address} {a : Action}

/-! ## The calls an entry stands for -/

/-- The records since the entry of a uuid was created, back to the one that
found none. -/
def sinceEntry (id : Nat) : List Rec → List Rec
  | [] => []
  | r :: past =>
      if (r.pre.actionMapper.get id).isSome then r :: sinceEntry id past else [r]

/-- The callers of the calls on a uuid that succeeded, oldest first, each as
often as it called. -/
def callers (id : Nat) (h : List Rec) : List Address :=
  h.reverse.filterMap fun r => (signatureOn id r).map Prod.fst

theorem callers_cons (id : Nat) (r : Rec) (past : List Rec) :
    callers id (r :: past) =
      callers id past ++ ((signatureOn id r).map Prod.fst).toList := by
  rw [callers, List.reverse_cons, List.filterMap_append]
  cases hsig : signatureOn id r with
  | none => simp [callers, hsig]
  | some s => simp [callers, hsig]

/-- A repetition at the end is not the first occurrence of anything. -/
theorem eraseDups_known {xs : List Address} {x : Address} (hx : x ∈ xs) :
    (xs ++ [x]).eraseDups = xs.eraseDups := by
  rw [List.eraseDups_append]
  simp [List.removeAll, hx]

theorem eraseDups_new {xs : List Address} {x : Address} (hx : x ∉ xs) :
    (xs ++ [x]).eraseDups = xs.eraseDups ++ [x] := by
  rw [List.eraseDups_append]
  simp [List.removeAll, hx, List.eraseDups_cons]

/-- One more record keeps the first calls of a round in step with the round, if
the round goes on. -/
theorem RoundEffect.callers_eq (heff : RoundEffect id past r)
    (hfirst : (callers id recent).eraseDups = (round id past).map Prod.fst)
    (hgoes : round id (r :: past) ≠ []) :
    (callers id (r :: recent)).eraseDups = (round id (r :: past)).map Prod.fst := by
  have hmem : ∀ x, x ∈ callers id recent ↔ x ∈ (round id past).map Prod.fst := by
    intro x
    rw [← hfirst, List.mem_eraseDups]
  rw [callers_cons]
  cases heff with
  | other hsig _ hround =>
      rw [hsig, hround]
      simpa using hfirst
  | again s hsig _ hold hround =>
      rw [hsig, hround, ← hfirst]
      exact eraseDups_known ((hmem s.1).mpr hold)
  | counted s hsig _ _ hround | exited s hsig _ _ _ hround =>
      have hnodup := nodup_round id (r :: past)
      rw [hround, List.map_append, List.nodup_append'] at hnodup
      have hnew : s.1 ∉ callers id recent := by
        rw [hmem]
        intro hold
        exact hnodup.2.2 hold (List.mem_singleton_self s.1)
      rw [hsig, hround, List.map_append, ← hfirst]
      exact eraseDups_new hnew
  | returned _ _ _ _ _ hround => exact absurd hround hgoes

/-- While a uuid has an entry, its round is whoever called since the entry was
created, in the order of the first calls. -/
theorem run_callers (hinit : deploy l token nftToken minValid validators = .ok w₀)
    (hrun : Run exec w₀ h w) (hentry : (w.actionMapper.get id).isSome) :
    (callers id (sinceEntry id h)).eraseDups = (round id h).map Prod.fst := by
  induction hrun with
  | start =>
      rw [(init_fields (deploy_init hinit).1).1, SafeMapMapper.get_empty] at hentry
      simp at hentry
  | @step h w act hrun ih =>
      have hgoes := (run_round hinit (.step act hrun)).round_ne_nil hentry
      have heff := run_roundEffect hinit hrun act id
      rw [sinceEntry, record_pre]
      split
      · next hold => exact heff.callers_eq (ih hold) hgoes
      · next hnone =>
          -- this record created the entry
          have hnil := (run_round hinit hrun).round_eq_nil
            (Option.not_isSome_iff_eq_none.mp hnone)
          have hfirst : (callers id []).eraseDups = (round id h).map Prod.fst := by
            rw [hnil]
            rfl
          exact heff.callers_eq hfirst hgoes

/-! ## Faithful lists -/

/-- The signers of an entry: somebody, nobody twice, ids that were handed out,
and in order the users who called since the entry was created, one signature
for each address. -/
structure FaithfulEntry (h : List Rec) (w : World) (id : Nat) (info : ActionInfo) :
    Prop where
  nonempty : info.signers ≠ []
  nodup : info.signers.Nodup
  ids : ∀ i ∈ info.signers, 1 ≤ i ∧ i ≤ w.userMapper.userCount
  listed : info.signers =
    (callers id (sinceEntry id h)).eraseDups.map w.userMapper.getUserId
  counted : info.signers.length = (callers id (sinceEntry id h)).toFinset.card

theorem run_faithfulEntry (hinit : deploy l token nftToken minValid validators = .ok w₀)
    (hrun : Run exec w₀ h w) {info : ActionInfo}
    (hget : w.actionMapper.get id = some info) : FaithfulEntry h w id info := by
  have hi := run_round hinit hrun
  have hentry : (w.actionMapper.get id).isSome := by
    rw [hget]
    rfl
  have hfirst := run_callers hinit hrun hentry
  have hsigners : info.signers = (round id h).map fun s => w.userMapper.getUserId s.1 := by
    rw [← signersOf_some hget]
    exact hi.signers id
  have hlisted : info.signers =
      (callers id (sinceEntry id h)).eraseDups.map w.userMapper.getUserId := by
    rw [hfirst, List.map_map]
    exact hsigners
  refine ⟨?_, ?_, fun i hmem => ?_, hlisted, ?_⟩
  · intro hnil
    rw [hsigners, List.map_eq_nil_iff] at hnil
    exact hi.round_ne_nil hentry hnil
  · rw [← signersOf_some hget]
    exact run_nodup_signersOf hinit hrun id
  · rw [hsigners, List.mem_map] at hmem
    obtain ⟨s, hs, rfl⟩ := hmem
    exact ⟨Nat.one_le_iff_ne_zero.mpr (hi.registered id s hs), w.userMapper.getUserId_le _⟩
  · have hset : (callers id (sinceEntry id h)).toFinset =
        (callers id (sinceEntry id h)).eraseDups.toFinset := by
      ext x
      rw [List.mem_toFinset, List.mem_toFinset, List.mem_eraseDups]
    rw [hset, hfirst, List.toFinset_card_of_nodup (nodup_round id h), List.length_map,
      hsigners, List.length_map]

/-- What `performAction` is called with: the call goes on as that call, in a
state whose entry holds as many ids as the quorum, all different. -/
structure PerformsFull (w : World) (act : Act) (caller : Address) (id : Nat)
    (a : Action) : Prop where
  runs : exec w act = (performAction (w.sign id a (w.userMapper.getUserId caller))
    act.hostOk a >>= complete act.hostOk id)
  full : ∃ info, (w.sign id a (w.userMapper.getUserId caller)).actionMapper.get id =
    some info ∧ info.signers.Nodup ∧ info.signers.length =
      (w.sign id a (w.userMapper.getUserId caller)).minValid

theorem run_performsFull (hinit : deploy l token nftToken minValid validators = .ok w₀)
    (hrun : Run exec w₀ h w) {act : Act} (hs : act.validates = some (caller, id, a))
    (hcall : w.CallsPerformAction caller id) : PerformsFull w act caller id a := by
  refine ⟨exec_performs hs hcall, w.signedInfo id a (w.userMapper.getUserId caller), ?_,
    ?_, ?_⟩
  · rw [sign_get, if_pos rfl]
  · rw [signedInfo_signers, List.nodup_append']
    refine ⟨run_nodup_signersOf hinit hrun id, List.nodup_singleton _, fun i hi hi' => ?_⟩
    rw [List.mem_singleton.mp hi'] at hi
    exact hcall.2.1 hi
  · rw [signedInfo_signers, List.length_append]
    exact hcall.2.2

/-- What holds of the signers in a state a run reached: every entry is
faithful, an address keeps the id it once had, a validator's second call changes
nothing whatever the quorum is, and `performAction` is called by a call that makes
its entry as long as the quorum, and by no other. -/
structure SignersFaithful (h : List Rec) (w : World) : Prop where
  entries : ∀ id info, w.actionMapper.get id = some info → FaithfulEntry h w id info
  ids_kept : ∀ r ∈ h, ∀ x, r.pre.userMapper.getUserId x ≠ 0 →
    w.userMapper.getUserId x = r.pre.userMapper.getUserId x
  again : ∀ act caller id a quorum, act.validates = some (caller, id, a) →
    w.IsValidator caller → w.userMapper.getUserId caller ∈ w.signersOf id →
    exec { w with minValid := quorum } act =
      .ok (.flow (.returned .pending), { w with minValid := quorum })
  performs : ∀ act caller id a, act.validates = some (caller, id, a) →
    w.CallsPerformAction caller id → PerformsFull w act caller id a
  waits : ∀ act caller id a, act.validates = some (caller, id, a) →
    ¬ w.CallsPerformAction caller id →
      exec w act = .error (.error "only board members and proposers can propose") ∨
        ∃ w', exec w act = .ok (.flow (.returned .pending), w')

/-- The signer lists are faithful in every state of every run. -/
theorem signer_lists_faithful
    (hinit : deploy l token nftToken minValid validators = .ok w₀)
    (hrun : Run exec w₀ h w) : SignersFaithful h w where
  entries _ _ hget := run_faithfulEntry hinit hrun hget
  ids_kept := run_grows hinit hrun
  again _ _ _ _ quorum hs hval hold :=
    exec_known (w := { w with minValid := quorum }) hs hval hold
  performs _ _ _ _ hs hcall := run_performsFull hinit hrun hs hcall
  waits act caller id a hs hcall := by
    by_cases hval : w.IsValidator caller
    · by_cases hold : w.userMapper.getUserId caller ∈ w.signersOf id
      · exact .inr ⟨w, exec_known hs hval hold⟩
      · exact .inr ⟨_, exec_counted hs hval hold fun hcount => hcall ⟨hval, hold, hcount⟩⟩
    · exact .inl (exec_outsider hs hval)

/-- Alice signs, is voted off the board and back onto it, and signs again: she is
the same signer. -/
theorem signer_lists_faithful_alice :
    let run := play exec (freshWorld 2 [alice, bob, charlie])
      [send alice nftVote, send charlie (.proposeAddValidator 3 alice),
        send bob (.proposeAddValidator 3 alice), send charlie (.proposeRemoveUser 2 alice),
        send bob (.proposeRemoveUser 2 alice), send alice nftVote]
    SignersFaithful run.1 run.2 :=
  signer_lists_faithful deploy_three (run_play _ _ _)

end ElrondMint
