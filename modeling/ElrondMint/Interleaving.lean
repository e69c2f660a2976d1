import ElrondMint.Evaluation
import ElrondMint.Execution
import ElrondMint.Transfers

/-!
# The order of signatures

Payments do not touch the board, so a collection of validators' calls for
payments meets one quorum, whatever the order they come in. Under a uuid
without an entry the calls are its signatures, and `Execution.lean` says what
a number of signatures performs: a payment in EGLD once for each quorum, an
asynchronous one once if there is a quorum at all. None of these numbers
names an order, and the counter of wrapped nonces ends at the largest chain
nonce performed, which names none either.
-/

namespace ElrondMint

open Rollback

/-- The uuids and actions of a list of validators' calls. -/
def requests (calls : List Act) : List (Nat × Action) :=
  calls.filterMap fun act => act.validates.map Prod.snd

/-- The uuids and actions performed, latest first. -/
def performances (h : List Rec) : List (Nat × Action) := h.filterMap performed

/-- Calls for payments by validators, under uuids without an entry: nobody
calls a uuid twice, and the calls of one uuid are for one action. -/
structure PaymentCalls (w : World) (calls : List Act) : Prop where
  payment : ∀ act ∈ calls, ∃ s ∈ act.validates, s.2.2.isPayment = true ∧
    w.IsValidator s.1 ∧ w.actionMapper.get s.2.1 = none
  once : (calls.map fun act => act.validates.map fun s => (s.1, s.2.1)).Nodup
  oneAction : ∀ act ∈ calls, ∀ act' ∈ calls, ∀ s ∈ act.validates, ∀ s' ∈ act'.validates,
    s.2.1 = s'.2.1 → s.2.2 = s'.2.2

/-- The host refuses nothing. -/
def NoHostFailure (h : List Rec) : Prop := ∀ r ∈ h, r.ret ≠ .error .host

instance (h : List Rec) : Decidable (NoHostFailure h) :=
  inferInstanceAs (Decidable (∀ r ∈ h, _))

/-- How often `k` signatures perform a payment, with a quorum of `m`. -/
def Action.executions (a : Action) (m k : Nat) : Nat :=
  if a.exits then (if m ≤ k then 1 else 0) else k / m

variable {w w' w₀ : World} {l : Ledger} {token nftToken : TokenIdentifier}
  {minValid m : Nat} {validators : List Address} {h past : List Rec} {r : Rec}
  {calls order : List Act} {act : Act} {id : Nat} {caller : Address} {a : Action}

/-! ## The later part of a history -/

/-- A uuid without an entry starts afresh. -/
theorem round_append (hfree : round id past = []) (h : List Rec) :
    round id (h ++ past) = round id h := by
  induction h with
  | nil => exact hfree
  | cons r rest ih =>
      show round id (r :: (rest ++ past)) = round id (r :: rest)
      rw [round, round, ih]

theorem RoundEffect.later (hfree : round id past = [])
    (heff : RoundEffect id (h ++ past) r) : RoundEffect id h r := by
  have hcons : round id (r :: (h ++ past)) = round id (r :: h) :=
    round_append hfree (r :: h)
  have hround := round_append hfree h
  cases heff with
  | other hsig hperf heq =>
      rw [hcons, hround] at heq
      exact .other hsig hperf heq
  | again s hsig hperf hold heq =>
      rw [hround] at hold
      rw [hcons, hround] at heq
      exact .again s hsig hperf hold heq
  | counted s hsig hperf hcount heq =>
      rw [hround] at hcount
      rw [hcons, hround] at heq
      exact .counted s hsig hperf hcount heq
  | exited s hsig hperf hact hcount heq =>
      rw [hround] at hcount
      rw [hcons, hround] at heq
      exact .exited s hsig hperf hact hcount heq
  | returned s hsig hperf hact hcount heq =>
      rw [hround] at hcount
      rw [hcons] at heq
      exact .returned s hsig hperf hact hcount heq

/-- From a reachable state on, a uuid without an entry is signed and performed
as the rounds of the later records say. -/
theorem later_roundEffects (hinit : deploy l token nftToken minValid validators = .ok w₀)
    (hpast : Run exec w₀ past w) (hrun : Run exec w h w')
    (hfree : w.actionMapper.get id = none) : Along (RoundEffect id) h := by
  have hround := (run_round hinit hpast).round_eq_nil hfree
  exact (run_roundEffects hinit (hpast.trans hrun) id).later.imp fun _ _ => .later hround

/-! ## Calls for payments -/

theorem PaymentCalls.perm (hcalls : PaymentCalls w calls) (hperm : order.Perm calls) :
    PaymentCalls w order where
  payment act hact := hcalls.payment act (hperm.mem_iff.mp hact)
  once := (hperm.map _).nodup_iff.mpr hcalls.once
  oneAction act hact act' hact' :=
    hcalls.oneAction act (hperm.mem_iff.mp hact) act' (hperm.mem_iff.mp hact')

/-- A history that is made of the calls of a collection, each of which
succeeded and met the same board. -/
structure Signs (w : World) (calls : List Act) (h : List Rec) : Prop where
  acts : h.map Record.act = calls
  succeeded : ∀ r ∈ h, signed r = r.act.validates
  quorum : ∀ r ∈ h, r.pre.minValid = w.minValid

theorem PaymentCalls.board (hcalls : PaymentCalls w calls) (hrun : Run exec w h w')
    (hacts : h.map Record.act = calls) : ∀ r ∈ h, r.pre.toBoard = w.toBoard := by
  refine (hrun.constant (f := fun w : World => w.toBoard) fun r hr =>
    run_board_kept hrun r hr fun s hs => ?_).2
  have hmem : r.act ∈ calls := hacts ▸ List.mem_map_of_mem hr
  obtain ⟨t, ht, hpay, -⟩ := hcalls.payment _ hmem
  rw [validates_signs ht] at hs
  cases hs
  exact Action.isGovernance_of_isPayment hpay

/-- A validator's call for a payment fails by the host alone. -/
theorem PaymentCalls.signs (hcalls : PaymentCalls w calls) (hrun : Run exec w h w')
    (hacts : h.map Record.act = calls) (hhost : NoHostFailure h) : Signs w calls h := by
  have hboard := hcalls.board hrun hacts
  refine ⟨hacts, fun r hr => ?_, fun r hr => by rw [hboard r hr]⟩
  obtain ⟨⟨caller, id, a⟩, hs, hpay, hval, -⟩ :=
    hcalls.payment r.act (hacts ▸ List.mem_map_of_mem hr)
  have hrec := hrun.records r hr
  rw [← hboard r hr] at hval
  cases hex : exec r.pre r.act with
  | ok out =>
      rw [record_ok hex] at hrec
      rw [hrec]
      show r.act.signs = r.act.validates
      rw [hs, validates_signs hs]
  | error e =>
      have hret : r.ret = .error e := by
        rw [record_error hex] at hrec
        rw [hrec]
      have hhost' : e = .host := by
        obtain ⟨-, herr⟩ := exec_error_performs hs hval hex
        rcases bind_eq_error.mp herr with herr | ⟨out, -, herr⟩
        · exact payment_error hpay herr
        · exact complete_error herr
      exact absurd (hhost' ▸ hret) (hhost r hr)

/-! ## Counting -/

/-- The signatures under a uuid are the requests for it. -/
theorem length_signatures (hsigned : ∀ r ∈ h, signed r = r.act.validates)
    (hone : SignedFor id a h) :
    (signatures id h).length = (requests (h.map Record.act)).count (id, a) := by
  induction h with
  | nil => rfl
  | cons r past ih =>
      have ih := ih (fun r hr => hsigned r (List.mem_cons_of_mem _ hr)) hone.tail
      have hown := hsigned r List.mem_cons_self
      unfold requests at ih ⊢
      rw [List.map_cons]
      cases hs : r.act.validates with
      | none =>
          rw [hs] at hown
          rw [signatures_none (by rw [signatureOn, hown]), ih,
            List.filterMap_cons_none (by rw [hs]; rfl)]
      | some s =>
          obtain ⟨caller, j, b⟩ := s
          rw [hs] at hown
          rw [List.filterMap_cons_some (by rw [hs]; rfl)]
          by_cases hj : j = id
          · subst hj
            have hb : b = a := hone r List.mem_cons_self _ (signatureOn_self hown)
            rw [signatures_some (signatureOn_self hown), List.length_cons, ih, hb,
              List.count_cons_self]
          · rw [signatures_none (signatureOn_ne hown (Ne.symm hj)), ih,
              List.count_cons_of_ne]
            intro heq
            exact hj (congrArg Prod.fst heq)

theorem count_performances (hone : SignedFor id a h) :
    (performances h).count (id, a) = performedCount id h := by
  induction h with
  | nil => rfl
  | cons r past ih =>
      have ih := ih hone.tail
      unfold performances at ih ⊢
      rw [performedCount_cons]
      cases hperf : performed r with
      | none =>
          rw [List.filterMap_cons_none hperf, performsId_none hperf, ih]
          rfl
      | some s =>
          obtain ⟨j, b⟩ := s
          rw [List.filterMap_cons_some hperf]
          by_cases hj : j = id
          · subst hj
            obtain ⟨caller, hs⟩ := performed_signature hperf
            have hb : b = a := hone r List.mem_cons_self _ hs
            rw [hb, List.count_cons_self, performsId_self hperf, ih]
            rfl
          · have hno : performsId id r = false := by
              rw [performsId, hperf, Option.any_some]
              exact beq_false_of_ne hj
            rw [hno, List.count_cons_of_ne (fun heq => hj (congrArg Prod.fst heq)), ih]
            rfl

theorem mem_performances (hperf : (id, a) ∈ performances h) :
    ∃ r ∈ h, ∃ caller, signed r = some (caller, id, a) := by
  obtain ⟨r, hr, hperf⟩ := List.mem_filterMap.mp hperf
  obtain ⟨caller, hs⟩ := performed_signature hperf
  exact ⟨r, hr, caller, signatureOn_some hs⟩

theorem mem_requests : (id, a) ∈ requests calls ↔
    ∃ act ∈ calls, ∃ caller, act.validates = some (caller, id, a) := by
  rw [requests, List.mem_filterMap]
  refine ⟨?_, ?_⟩
  · rintro ⟨act, hact, hs⟩
    obtain ⟨⟨caller, ua⟩, hs, rfl⟩ := Option.map_eq_some_iff.mp hs
    exact ⟨act, hact, caller, hs⟩
  · rintro ⟨act, hact, caller, hs⟩
    exact ⟨act, hact, by rw [hs]; rfl⟩

/-- Nobody's signature on a uuid is there twice. -/
theorem Signs.nodup_signatures (hsigns : Signs w calls h) (hcalls : PaymentCalls w calls)
    (id : Nat) : (signatures id h).Nodup := by
  have honce := hcalls.once
  rw [← hsigns.acts, List.map_map] at honce
  have hkeys : signatures id h =
      (h.map ((fun act => act.validates.map fun s => (s.1, s.2.1)) ∘ Record.act)).filterMap
        fun o => o.bind fun s => if s.2 = id then some s.1 else none := by
    rw [signatures, List.filterMap_map]
    refine List.filterMap_congr fun r hr => ?_
    show _ = (r.act.validates.map _).bind _
    rw [← hsigns.succeeded r hr, signatureOn]
    cases signed r with
    | none => rfl
    | some s =>
        show Option.map Prod.fst (if s.2.1 = id then some (s.1, s.2.2) else none) =
          if s.2.1 = id then some s.1 else none
        split <;> rfl
  rw [hkeys]
  refine honce.filterMap fun o o' x hx hx' => ?_
  cases o with
  | none => simp at hx
  | some s =>
      cases o' with
      | none => simp at hx'
      | some s' =>
          obtain ⟨y, j⟩ := s
          obtain ⟨y', j'⟩ := s'
          simp at hx hx'
          simp [hx, hx']

theorem Signs.signedFor (hsigns : Signs w calls h) (hcalls : PaymentCalls w calls)
    (hask : (id, a) ∈ requests calls) : SignedFor id a h := by
  intro r hr s hs
  obtain ⟨act, hact, caller, hv⟩ := mem_requests.mp hask
  have hown := signatureOn_some hs
  rw [hsigns.succeeded r hr] at hown
  have hmem : r.act ∈ calls := hsigns.acts ▸ List.mem_map_of_mem hr
  exact hcalls.oneAction r.act hmem act hact _ hown _ hv rfl

/-! ## The outcome of an order -/

theorem executions_zero (hpos : 1 ≤ m) : a.executions m 0 = 0 := by
  unfold Action.executions
  split
  · rw [if_neg (by omega)]
  · exact Nat.zero_div m

/-- What is performed of a request depends on how often it is made. -/
theorem Signs.count (hinit : deploy l token nftToken minValid validators = .ok w₀)
    (hpast : Run exec w₀ past w) (hpos : 1 ≤ w.minValid) (hcalls : PaymentCalls w calls)
    (hrun : Run exec w h w') (hsigns : Signs w calls h) (id : Nat) (a : Action) :
    (performances h).count (id, a) =
      a.executions w.minValid ((requests calls).count (id, a)) := by
  by_cases hask : (id, a) ∈ requests calls
  · obtain ⟨act, hact, caller, hv⟩ := mem_requests.mp hask
    obtain ⟨s, hs, -, -, hfree⟩ := hcalls.payment act hact
    rw [hv] at hs
    cases hs
    have heff := later_roundEffects hinit hpast hrun hfree
    have hone := hsigns.signedFor hcalls hask
    have honce := hsigns.nodup_signatures hcalls id
    have hlen := length_signatures hsigns.succeeded hone
    rw [hsigns.acts] at hlen
    rw [count_performances hone, ← hlen, Action.executions]
    cases hexits : a.exits with
    | true =>
        rw [if_pos rfl]
        exact performedCount_async hpos heff hsigns.quorum hexits hone honce
    | false =>
        rw [if_neg (by simp)]
        exact performedCount_paid hpos heff hsigns.quorum hexits hone honce
  · rw [List.count_eq_zero.mpr hask, executions_zero hpos, List.count_eq_zero]
    intro hperf
    obtain ⟨r, hr, caller, hown⟩ := mem_performances hperf
    rw [hsigns.succeeded r hr] at hown
    exact hask (mem_requests.mpr
      ⟨r.act, hsigns.acts ▸ List.mem_map_of_mem hr, caller, hown⟩)

/-- The counter ends at the largest chain nonce performed. -/
theorem run_sftNonce_performances (hrun : Run exec w h w') :
    w'.sftNonce.toNat =
      ((performances h).map fun s => s.2.wrapsTo).foldr max w.sftNonce.toNat := by
  have hactions : h.filterMap performedAction = (performances h).map Prod.snd := by
    rw [performances, List.map_filterMap]
    rfl
  rw [run_sftNonce hrun, hactions, List.map_map]
  rfl

/-- Validators' calls for payments under fresh uuids, each calling a uuid once
and all with its one action, come to the same in every order: an EGLD payment
is made once for each `minValid` calls, an asynchronous one once if there are
so many, and the counter of wrapped nonces ends at one value. -/
theorem order_of_signing (hinit : deploy l token nftToken minValid validators = .ok w₀)
    (hpast : Run exec w₀ past w) (hpos : 1 ≤ w.minValid) (hcalls : PaymentCalls w calls) :
    (∀ order : List Act, order.Perm calls → NoHostFailure (play exec w order).1 →
      ∀ id a, (performances (play exec w order).1).count (id, a) =
        a.executions w.minValid ((requests calls).count (id, a))) ∧
      ∀ order order' : List Act, order.Perm calls → order'.Perm calls →
        NoHostFailure (play exec w order).1 → NoHostFailure (play exec w order').1 →
        (performances (play exec w order).1).Perm (performances (play exec w order').1) ∧
          (play exec w order).2.sftNonce = (play exec w order').2.sftNonce := by
  have hcount : ∀ order : List Act, order.Perm calls →
      NoHostFailure (play exec w order).1 →
      ∀ id a, (performances (play exec w order).1).count (id, a) =
        a.executions w.minValid ((requests calls).count (id, a)) := by
    intro order hperm hhost id a
    have hrun := run_play exec w order
    have horder := hcalls.perm hperm
    have hreq : (requests order).Perm (requests calls) := hperm.filterMap _
    rw [← hreq.count_eq]
    exact (horder.signs hrun (play_acts exec w order) hhost).count hinit hpast hpos horder
      hrun id a
  refine ⟨hcount, fun order order' hperm hperm' hhost hhost' => ?_⟩
  have hsame : (performances (play exec w order).1).Perm
      (performances (play exec w order').1) := by
    rw [List.perm_iff_count]
    intro s
    rw [hcount order hperm hhost s.1 s.2, hcount order' hperm' hhost' s.1 s.2]
  refine ⟨hsame, ?_⟩
  rw [← UInt64.toNat_inj, run_sftNonce_performances (run_play exec w order),
    run_sftNonce_performances (run_play exec w order')]
  exact (hsame.map _).foldr_eq _

/-- Dan is paid five by four validators, a quorum of two twice over; three of
them, and bob alone, send him wrapped tokens. -/
def fourCalls : List Act :=
  [send dan (.validateUnfreeze 1 dan 5), send charlie (.validateSendWrapped 2 3 dan 7 none),
    send bob (.validateUnfreeze 1 dan 5), send bob (.validateSendWrapped 3 9 dan 7 none),
    send bob (.validateSendWrapped 2 3 dan 7 none), send charlie (.validateUnfreeze 1 dan 5),
    send alice (.validateSendWrapped 2 3 dan 7 none), send alice (.validateUnfreeze 1 dan 5)]

/-- Forwards and backwards, the calls come to the same. -/
theorem order_of_signing_four :
    let w := (play exec (freshWorld 2 [alice, bob, charlie, dan])
      [.tx ⟨dan, .egld 10, true, .deposit⟩]).2
    (∀ id a, (performances (play exec w fourCalls).1).count (id, a) =
        a.executions w.minValid ((requests fourCalls).count (id, a))) ∧
      (performances (play exec w fourCalls).1).Perm
        (performances (play exec w fourCalls.reverse).1) ∧
      (play exec w fourCalls).2.sftNonce = (play exec w fourCalls.reverse).2.sftNonce := by
  intro w
  have hinit : deploy .fresh xpdt xpnft 2 [alice, bob, charlie, dan] =
      .ok (freshWorld 2 [alice, bob, charlie, dan]) := deploy_eq (by decide +kernel)
  have hpast : Run exec (freshWorld 2 [alice, bob, charlie, dan]) _ w := run_play _ _ _
  have hcalls : PaymentCalls w fourCalls :=
    ⟨by decide +kernel, by decide +kernel, by decide +kernel⟩
  have hpos : 1 ≤ w.minValid := by decide +kernel
  have hhost : NoHostFailure (play exec w fourCalls).1 := by decide +kernel
  have hhost' : NoHostFailure (play exec w fourCalls.reverse).1 := by decide +kernel
  obtain ⟨hcount, hsame⟩ := order_of_signing hinit hpast hpos hcalls
  exact ⟨hcount fourCalls (.refl _) hhost,
    hsame fourCalls fourCalls.reverse (.refl _) (List.reverse_perm fourCalls) hhost hhost'⟩

end ElrondMint
