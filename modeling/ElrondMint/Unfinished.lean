import ElrondMint.Outsiders
import ElrondMint.Quorum

/-!
# Proposals that come to nothing

A uuid is a name that the validators make up. As long as no quorum forms under
it, it is as if nobody had used it: erase from a run all calls under a uuid that
is never performed, and everything else goes as before, to the unit. Calls
answer the same, and the contract ends with the same board, tokens, events and
account, and with the same entries under every other uuid
(`unfinished_inert`).

Nothing is excused here, as it is in `Outsiders.lean`: an entry is not money, so
the account does not notice either.
-/

namespace ElrondMint

open Rollback

variable {w w' w₀ t : World} {h : List Rec} {r : Rec} {act : Act} {ret : Ret}
  {hostOk : Bool} {id j : Nat} {caller : Address} {a : Action} {m : SafeMapMapper ActionInfo}

/-- Two states that differ at most in the entry of one uuid. -/
structure AlikeExcept (id : Nat) (w t : World) : Prop where
  rest : t = w.withActions t.actionMapper
  entries : ∀ j, j ≠ id → t.actionMapper.get j = w.actionMapper.get j

/-- Whether a call is for another uuid, or for none. -/
def Elsewhere (id : Nat) (act : Act) : Prop := ∀ s ∈ act.signs, s.2.1 ≠ id

instance (id : Nat) (act : Act) : Decidable (Elsewhere id act) :=
  inferInstanceAs (Decidable (∀ s ∈ act.signs, _))

namespace AlikeExcept

theorem refl (id : Nat) (w : World) : AlikeExcept id w w := ⟨rfl, fun _ _ => rfl⟩

theorem isValidator (h : AlikeExcept id w t) (x : Address) :
    t.IsValidator x ↔ w.IsValidator x := by
  rw [h.rest]
  exact Iff.rfl

theorem signersOf (h : AlikeExcept id w t) (hj : j ≠ id) : t.signersOf j = w.signersOf j := by
  rw [Storage.signersOf, Storage.signersOf, h.entries j hj]

theorem getUserId (h : AlikeExcept id w t) (x : Address) :
    t.userMapper.getUserId x = w.userMapper.getUserId x := by
  rw [h.rest]
  rfl

theorem minValid (h : AlikeExcept id w t) : t.minValid = w.minValid := by
  rw [h.rest]
  rfl

/-- The same signature in both. -/
theorem sign (h : AlikeExcept id w t) (hj : j ≠ id) (signer : Nat) :
    AlikeExcept id (w.sign j a signer) (t.sign j a signer) := by
  refine ⟨?_, fun i hi => ?_⟩
  · rw [h.rest]
    rfl
  · rw [sign_get, sign_get, Storage.signedInfo, Storage.signedInfo, h.entries j hj,
      h.entries i hi]

theorem dropEntry (h : AlikeExcept id w t) (j : Nat) :
    AlikeExcept id (w.dropEntry j) (t.dropEntry j) := by
  refine ⟨?_, fun i hi => ?_⟩
  · rw [h.rest]
    rfl
  · rw [dropEntry_get, dropEntry_get, h.entries i hi]

/-- A computation that neither reads nor writes the entries. -/
theorem of_map {β : Type} {x y : Except Failure (β × World)} (h : AlikeExcept id w t)
    (hmap : y = x.map fun p => (p.1, p.2.withActions t.actionMapper))
    (hframe : ∀ p, x = .ok p → p.2.actionMapper = w.actionMapper) :
    Agree (fun _ => False) (fun p q => p.1 = q.1 ∧ AlikeExcept id p.2 q.2) x y := by
  cases x with
  | error e =>
      rw [hmap]
      exact .error e
  | ok p =>
      rw [hmap]
      refine .ok ⟨rfl, rfl, fun i hi => ?_⟩
      rw [hframe p rfl]
      exact h.entries i hi

end AlikeExcept

/-! ## One act in two states -/

theorem performAction_alike (h : AlikeExcept id w t) (hostOk : Bool) (a : Action) :
    Agree (fun _ => False) (fun p q => p.1 = q.1 ∧ AlikeExcept id p.2 q.2)
      (performAction w hostOk a) (performAction t hostOk a) := by
  refine h.of_map ?_ fun p hp => (performAction_effect hp).frame.1
  have hmap : performAction (w.withActions t.actionMapper) hostOk a = _ :=
    performAction_withActions t.actionMapper w a
  rw [← h.rest] at hmap
  exact hmap

theorem complete_alike (h : AlikeExcept id w t) (hostOk : Bool) (j : Nat)
    (flow : Flow PerformActionResult) :
    Agree (fun _ => False) (fun p q => p.1 = q.1 ∧ AlikeExcept id p.2 q.2)
      (complete hostOk j (flow, w)) (complete hostOk j (flow, t)) := by
  have hdrop := h.dropEntry j
  cases flow with
  | exited call => exact .ok ⟨rfl, h⟩
  | returned res =>
      refine hdrop.of_map ?_ fun p hp => ?_
      · show (res.finish (t.dropEntry j) hostOk >>= _) =
          (res.finish (w.dropEntry j) hostOk >>= _).map _
        rw [hdrop.rest]
        cases res with
        | done | pending => rfl
        | asyncCall call | unfreeze payment =>
            show (((w.dropEntry j).chain.directEgld hostOk _ >>= _) >>= _) =
              (((w.dropEntry j).chain.directEgld hostOk _ >>= _) >>= _).map _
            cases (w.dropEntry j).chain.directEgld hostOk _ with
            | error e => rfl
            | ok chain => rfl
      · obtain ⟨w₁, hfin, hp⟩ := bind_eq_ok.mp hp
        cases hp
        obtain ⟨egld, rfl⟩ := finish_frame hfin
        rfl

/-- A validator's call for another uuid. -/
theorem exec_alike_signs (h : AlikeExcept id w t) (hj : j ≠ id)
    (hs : act.validates = some (caller, j, a)) :
    Agree (fun _ => False) (fun p q => p.1 = q.1 ∧ AlikeExcept id p.2 q.2)
      (exec w act) (exec t act) := by
  have hsigners := h.signersOf hj
  have hid := h.getUserId caller
  by_cases hval : w.IsValidator caller
  · have hval' := (h.isValidator caller).mpr hval
    by_cases hold : w.userMapper.getUserId caller ∈ w.signersOf j
    · have hold' : t.userMapper.getUserId caller ∈ t.signersOf j := by
        rw [hid, hsigners]
        exact hold
      rw [exec_known hs hval hold, exec_known hs hval' hold']
      exact .ok ⟨rfl, h⟩
    · have hnew' : t.userMapper.getUserId caller ∉ t.signersOf j := by
        rw [hid, hsigners]
        exact hold
      have hsign := @AlikeExcept.sign _ _ id j a h hj (w.userMapper.getUserId caller)
      by_cases hcount : (w.signersOf j).length + 1 = w.minValid
      · have hcount' : (t.signersOf j).length + 1 = t.minValid := by
          rw [hsigners, h.minValid]
          exact hcount
        rw [exec_performs hs ⟨hval, hold, hcount⟩, exec_performs hs ⟨hval', hnew', hcount'⟩,
          hid]
        refine (performAction_alike hsign act.hostOk a).bind fun p q hpq => ?_
        obtain ⟨flow, w'⟩ := p
        obtain ⟨flow', t'⟩ := q
        obtain ⟨rfl, halike⟩ := hpq
        exact complete_alike halike act.hostOk j flow
      · have hcount' : (t.signersOf j).length + 1 ≠ t.minValid := by
          rw [hsigners, h.minValid]
          exact hcount
        rw [exec_counted hs hval hold hcount, exec_counted hs hval' hnew' hcount', hid]
        exact .ok ⟨rfl, hsign⟩
  · have hval' : ¬ t.IsValidator caller := fun hv => hval ((h.isValidator caller).mp hv)
    rw [exec_outsider hs hval, exec_outsider hs hval']
    exact .error _

theorem eventRead_withActions (m : SafeMapMapper ActionInfo) (s : Storage)
    (caller : Address) (k : Nat) :
    eventRead { s with actionMapper := m } caller k =
      (eventRead s caller k).map fun p => (p.1, { p.2 with actionMapper := m }) := by
  unfold eventRead
  refine bind_eq_map fun _ => ?_
  simp only []
  cases s.eventMapper.get k with
  | none => rfl
  | some info =>
      simp only []
      split
      · exact bind_eq_map fun _ => rfl
      · exact bind_eq_map fun _ => rfl

/-- An endpoint that answers with the id of an event. -/
theorem ident_withActions (m : SafeMapMapper ActionInfo) {x y : Except Failure (Nat × World)}
    (h : y = x.map fun p => (p.1, p.2.withActions m)) :
    (y >>= fun (ident, w) => Except.ok (Ret.ident ident, w)) =
      (x >>= fun (ident, w) => Except.ok (Ret.ident ident, w)).map
        fun p => (p.1, p.2.withActions m) := by
  rw [h]
  cases x with
  | error e => rfl
  | ok p => rfl

/-- What is no validator's call does not look at the entries. -/
theorem exec_plain_withActions (hs : act.signs = none) (m : SafeMapMapper ActionInfo)
    (w : World) :
    exec (w.withActions m) act =
      (exec w act).map fun p => (p.1, p.2.withActions m) := by
  cases act with
  | settle => rfl
  | tx tx =>
      rw [Act.signs, Option.map_eq_none_iff] at hs
      obtain ⟨caller, p, hostOk, call⟩ := tx
      refine bind_eq_map fun _ => bind_eq_map fun chain => ?_
      cases call with
      | eventRead k =>
          show (eventRead { w.toStorage with actionMapper := m } caller k >>= _) =
            (eventRead w.toStorage caller k >>= _).map _
          rw [eventRead_withActions]
          cases eventRead w.toStorage caller k with
          | error e => rfl
          | ok out => rfl
      | freezeSend => exact ident_withActions m (bind_eq_map fun _ => rfl)
      | freezeSendNft =>
          exact ident_withActions m (bind_eq_map fun _ => bind_eq_map fun _ => rfl)
      | withdrawNft =>
          exact ident_withActions m (bind_eq_map fun _ => bind_eq_map fun _ =>
            bind_eq_map fun _ => bind_eq_map fun _ => bind_eq_map fun _ => rfl)
      | withdraw =>
          exact ident_withActions m (bind_eq_map fun _ => bind_eq_map fun _ =>
            bind_eq_map fun _ => rfl)
      | deposit => rfl
      | proposeAddValidator | proposeRemoveUser | proposeChangeMinValid
      | validateUnfreeze | validateUnfreezeNft | validateSendWrapped
      | validateSendNft => cases hs

/-- An act that has nothing to do with the uuid. -/
theorem exec_alike (h : AlikeExcept id w t) (helse : Elsewhere id act) :
    Agree (fun _ => False) (fun p q => p.1 = q.1 ∧ AlikeExcept id p.2 q.2)
      (exec w act) (exec t act) := by
  cases hs : act.signs with
  | none =>
      refine h.of_map ?_ fun p hp => (exec_plain hs hp).frame.2.2.1
      have hmap := exec_plain_withActions hs t.actionMapper w
      rw [← h.rest] at hmap
      exact hmap
  | some s =>
      cases hv : act.validates with
      | none =>
          have hsome : act.signs.isSome := by
            rw [hs]
            rfl
          rw [exec_paid hsome hv, exec_paid hsome hv]
          exact .error _
      | some s' =>
          obtain ⟨caller, j, a⟩ := s'
          exact exec_alike_signs h (helse _ (validates_signs hv)) hv

/-! ## Two runs -/

/-- A call under the uuid that performs nothing changes nothing else. -/
theorem record_here (hhere : ¬ Elsewhere id act)
    (hperf : performsId id (record exec w act) = false) (h : AlikeExcept id w t) :
    AlikeExcept id (record exec w act).post t := by
  unfold Elsewhere at hhere
  push Not at hhere
  obtain ⟨⟨caller, j, a⟩, hs, rfl⟩ := hhere
  have hnone : performed (record exec w act) = none := by
    cases hown : performed (record exec w act) with
    | none => rfl
    | some s =>
        obtain ⟨i, b⟩ := s
        obtain ⟨c, hsigns⟩ := performed_signs hown
        rw [record_act, Option.mem_def.mp hs] at hsigns
        cases hsigns
        rw [performsId_self hown] at hperf
        simp at hperf
  cases hex : exec w act with
  | error e =>
      rw [record_error hex]
      exact h
  | ok out =>
      obtain ⟨ret, w'⟩ := out
      rw [record_ok hex] at hnone ⊢
      obtain ⟨hostOk, heff⟩ := exec_sign hs hex
      rcases heff.unperformed hs hnone with rfl | rfl
      · exact h
      · refine ⟨?_, fun i hi => ?_⟩
        · rw [h.rest]
          rfl
        · rw [h.entries i hi, sign_get, if_neg hi]

/-- A call elsewhere leaves the entry alone. -/
theorem record_elsewhere (helse : Elsewhere id act) :
    (record exec w act).post.actionMapper.get id = w.actionMapper.get id := by
  have hne : ∀ {c j b}, signed (record exec w act) = some (c, j, b) → id ≠ j := by
    intro c j b hsigned
    have hv := validates_signs (record_validates hsigned)
    rw [record_act] at hv
    exact fun heq => helse _ hv heq.symm
  have hpre := record_pre exec w act
  cases record_signingEffect w act with
  | idle _ _ _ hsame | known _ _ _ _ _ _ _ _ hsame => rw [hsame, hpre]
  | counted _ _ _ hsigned _ _ _ _ _ hpost | exited _ _ _ hsigned _ _ _ _ hpost =>
      rw [hpost, sign_get, if_neg (hne hsigned), hpre]
  | returned _ _ _ hsigned _ _ _ _ hpost =>
      rw [hpost, dropEntry_get, if_neg (hne hsigned), sign_get, if_neg (hne hsigned), hpre]

/-- The calls under the uuid that perform nothing are what is erased. -/
def NotIdle (id : Nat) (r : Rec) : Prop := Elsewhere id r.act ∨ performsId id r = true

instance (id : Nat) : DecidablePred (NotIdle id) :=
  fun _ => inferInstanceAs (Decidable (_ ∨ _))

theorem unfinished_unwinding (w₀ : World) (id : Nat) :
    Unwinding exec w₀ (NotIdle id) (fun r => performsId id r = false)
      (fun w t => AlikeExcept id w t ∧ t.actionMapper.get id = w₀.actionMapper.get id)
      (fun r r' => r.ret = r'.ret) where
  start := ⟨.refl id w₀, rfl⟩
  frame h w t act _ hR hidle := by
    rw [NotIdle, not_or, record_act, Bool.not_eq_true] at hidle
    exact ⟨record_here hidle.1 hidle.2 hR.1, hR.2⟩
  step h w t act _ hR hkeep hfine _ := by
    have helse : Elsewhere id act := by
      rcases hkeep with helse | hperf
      · rw [record_act] at helse
        exact helse
      · rw [hfine] at hperf
        simp at hperf
    obtain ⟨halike, hret⟩ :=
      (exec_alike hR.1 helse).record hR.1 (fun _ _ hno => hno) (fun _ _ hno => hno)
    exact ⟨⟨halike, (record_elsewhere helse).trans hR.2⟩, hret⟩

/-- Erase all calls under a uuid that is never performed. The others answer as they
did, and the contract ends as it did but for the entry of that uuid, which is what
it was at the start. -/
theorem unfinished_inert (hrun : Run exec w₀ h w) (id : Nat)
    (hnever : ∀ r ∈ h, performsId id r = false) :
    let run := play exec w₀ (kept (fun r => Elsewhere id r.act) h)
    AlikeExcept id w run.2 ∧ run.2.actionMapper.get id = w₀.actionMapper.get id ∧
      (h.filter fun r => Elsewhere id r.act).map Record.ret = run.1.map Record.ret := by
  intro run
  have hfilter : (h.filter fun r => decide (NotIdle id r)) =
      h.filter fun r => decide (Elsewhere id r.act) := by
    refine List.filter_congr fun r hr => ?_
    simp only [NotIdle, hnever r hr, Bool.false_eq_true, or_false]
  have hkept : kept (NotIdle id) h = kept (fun r => Elsewhere id r.act) h := by
    rw [kept, kept, hfilter]
  have hquiet : ∀ r ∈ run.1, performsId id r = false := by
    intro r hr
    cases hperf : performsId id r with
    | false => rfl
    | true =>
        obtain ⟨a, hperf⟩ := performsId_some hperf
        obtain ⟨c, hs⟩ := performed_signs hperf
        have hact : r.act ∈ kept (fun r => Elsewhere id r.act) h := by
          rw [← play_acts exec w₀ (kept (fun r => Elsewhere id r.act) h)]
          exact List.mem_map_of_mem hr
        obtain ⟨r', hr', heq⟩ := List.mem_map.mp hact
        have helse : Elsewhere id r'.act := of_decide_eq_true (List.mem_filter.mp hr').2
        rw [heq] at helse
        exact absurd rfl (helse _ hs)
  obtain ⟨⟨halike, hentry⟩, hrets⟩ :=
    (unfinished_unwinding w₀ id).run hrun hnever (by rw [hkept]; exact hquiet)
  rw [hkept] at halike hentry hrets
  rw [hfilter] at hrets
  refine ⟨halike, hentry, ?_⟩
  rw [← List.forall₂_eq_eq_eq, List.forall₂_map_left_iff, List.forall₂_map_right_iff]
  exact hrets

/-- Alice alone proposes dan, while dan is paid by alice and bob. -/
theorem unfinished_inert_alice :
    let h := (play exec (freshWorld 2 [alice, bob, charlie])
      [send bob (.validateUnfreeze 1 dan 5), send alice (.proposeAddValidator 7 dan),
        send alice (.validateUnfreeze 1 dan 5), send alice (.proposeAddValidator 7 dan),
        .tx ⟨dan, .egld 10, true, .deposit⟩]).1
    let w := (play exec (freshWorld 2 [alice, bob, charlie])
      [send bob (.validateUnfreeze 1 dan 5), send alice (.proposeAddValidator 7 dan),
        send alice (.validateUnfreeze 1 dan 5), send alice (.proposeAddValidator 7 dan),
        .tx ⟨dan, .egld 10, true, .deposit⟩]).2
    let run := play exec (freshWorld 2 [alice, bob, charlie])
      (kept (fun r => Elsewhere 7 r.act) h)
    AlikeExcept 7 w run.2 ∧
      run.2.actionMapper.get 7 = (freshWorld 2 [alice, bob, charlie]).actionMapper.get 7 ∧
      (h.filter fun r => Elsewhere 7 r.act).map Record.ret = run.1.map Record.ret :=
  unfinished_inert (run_play _ _ _) 7 (by decide +kernel)

end ElrondMint
