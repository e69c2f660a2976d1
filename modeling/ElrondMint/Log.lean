import ElrondMint.Board

/-!
# The event log

Ids are handed out by a counter that only grows, events are inserted at fresh
ids only, and an entry is rewritten by reads alone, which keep its payload.
So what a reader gets is a function of the id: the payload the inserting call
stored, with the number of reads so far.

`LogEffect` says what one record did to the log. `LogInvariant` ties the
counter and the table to the history: every stored entry has an insertion
behind it and a counter that counts the reads of its id. `event_log_integrity`
assembles from it what the validators of the other chain rely on.
-/

namespace ElrondMint

open Rollback

/-- The id a call returned for the event it inserted. -/
def ident (r : Rec) : Option Nat :=
  match r.ret with
  | .ok (.ident k) => some k
  | _ => none

/-- Whether a record is a successful read of event `k`. -/
def readsEvent (k : Nat) (r : Rec) : Bool :=
  (reads r).any fun x => x.2.1 == k

/-- How often event `k` has been read. -/
def readCount (k : Nat) (h : List Rec) : Nat := h.countP (readsEvent k)

/-- A record takes event `k` out of the table. -/
def Deletes (r : Rec) (k : Nat) : Prop :=
  (r.pre.eventMapper.get k).isSome ∧ r.post.eventMapper.get k = none

instance (r : Rec) (k : Nat) : Decidable (Deletes r k) :=
  inferInstanceAs (Decidable (_ ∧ _))

/-- The four endpoints that insert an event. -/
def Call.inserts : Call → Bool
  | .freezeSend .. | .freezeSendNft .. | .withdrawNft .. | .withdraw .. => true
  | _ => false

def Act.inserts : Act → Bool
  | .tx t => t.call.inserts
  | .settle .. => false

variable {w w' w₀ : World} {l : Ledger} {token nftToken : TokenIdentifier}
  {minValid : Nat} {validators : List Address} {h : List Rec} {r : Rec}
  {act : Act} {ret : Ret}

/-! ## One record -/

/-- What a record does to the event log: nothing, an insertion at the next
id, or a read by a validator. -/
inductive LogEffect (r : Rec) : Prop
  | quiet (hlog : r.post.toEventLog = r.pre.toEventLog) (hident : ident r = none)
      (hreads : reads r = none)
  | insert (event : Event) (hident : ident r = some (r.pre.eventIdent + 1))
      (hins : inserted r = some (r.pre.eventIdent + 1, event))
      (hreads : reads r = none)
      (hnext : r.post.eventIdent = r.pre.eventIdent + 1)
      (hget : ∀ j, r.post.eventMapper.get j =
        if j = r.pre.eventIdent + 1 then some (.new event)
        else r.pre.eventMapper.get j)
  | read (caller : Address) (k : Nat) (info : EventInfo)
      (hval : r.pre.IsValidator caller)
      (hold : r.pre.eventMapper.get k = some info)
      (hreads : reads r = some (caller, k, info.bump)) (hident : ident r = none)
      (hboard : r.post.toBoard = r.pre.toBoard)
      (hsame : r.post.eventIdent = r.pre.eventIdent)
      (hget : ∀ j, r.post.eventMapper.get j =
        if j = k then
          (if usizeInc info.readCnt = r.pre.numValidators then none
            else some info.bump)
        else r.pre.eventMapper.get j)

theorem emit_get (event : Event) (j : Nat) :
    (w.emit event).eventMapper.get j =
      if j = w.eventIdent + 1 then some (.new event) else w.eventMapper.get j :=
  SafeMapMapper.get_insert _ _ _ _

theorem inserted_emit {event : Event} {chain : Ledger} :
    inserted ⟨w, act, .ok (.ident (w.eventIdent + 1)),
      { w.emit event with chain := chain }⟩ = some (w.eventIdent + 1, event) := by
  have hget := emit_get (w := w) event (w.eventIdent + 1)
  rw [if_pos rfl] at hget
  exact congrArg (Option.map _) hget

theorem logEffect_emit {event : Event} {chain : Ledger}
    (hreads : reads ⟨w, act, .ok (.ident (w.eventIdent + 1)),
      { w.emit event with chain := chain }⟩ = none) :
    LogEffect ⟨w, act, .ok (.ident (w.eventIdent + 1)),
      { w.emit event with chain := chain }⟩ :=
  .insert event rfl inserted_emit hreads rfl fun j => emit_get event j

theorem exec_logEffect (hex : exec w act = .ok (ret, w')) :
    LogEffect ⟨w, act, .ok ret, w'⟩ := by
  cases hs : act.signs with
  | some s =>
      obtain ⟨caller, id, a⟩ := s
      obtain ⟨hostOk, heff⟩ := exec_sign hs hex
      have hreads : ∀ flow, reads ⟨w, act, .ok (.flow flow), w'⟩ = none := by
        intro flow
        cases act with
        | settle => rfl
        | tx tx =>
            obtain ⟨caller, p, hostOk, call⟩ := tx
            cases call <;> rfl
      cases heff with
      | known | counted => exact .quiet rfl rfl (hreads _)
      | exited hcall hperf =>
          exact .quiet (performAction_effect hperf).frame.2 rfl (hreads _)
      | returned hcall hperf hfin =>
          obtain ⟨egld, rfl⟩ := finish_frame hfin
          exact .quiet (performAction_effect hperf).frame.2 rfl (hreads _)
  | none =>
      cases exec_plain hs hex with
      | settle | deposit => exact .quiet rfl rfl rfl
      | readOn hval hget hcnt =>
          refine .read _ _ _ hval hget rfl rfl rfl rfl fun j => ?_
          rw [if_neg hcnt]
          exact SafeMapMapper.get_insert _ _ _ _
      | readOut hval hget hcnt =>
          refine .read _ _ _ hval hget rfl rfl rfl rfl fun j => ?_
          rw [if_pos hcnt]
          exact SafeMapMapper.get_remove _ _ _
      | freezeSend | freezeSendNft | withdrawNft | withdraw =>
          exact logEffect_emit rfl

theorem reads_error (w : World) (act : Act) (e : Failure) (w' : World) :
    reads ⟨w, act, .error e, w'⟩ = none := by
  cases act with
  | settle => rfl
  | tx tx =>
      obtain ⟨caller, p, hostOk, call⟩ := tx
      cases call <;> rfl

theorem record_logEffect (w : World) (act : Act) :
    LogEffect (record exec w act) := by
  cases hex : exec w act with
  | ok out =>
      obtain ⟨ret, w'⟩ := out
      rw [record_ok hex]
      exact exec_logEffect hex
  | error e =>
      rw [record_error hex]
      exact .quiet rfl rfl (reads_error w act e w)

/-- The payload of a call that returned an id, and only such a call has one. -/
theorem inserted_ident {k : Nat} {e : Event} (hins : inserted r = some (k, e)) :
    ident r = some k := by
  unfold inserted at hins
  split at hins
  · next k' hret =>
      obtain ⟨info, -, heq⟩ := Option.map_eq_some_iff.mp hins
      cases heq
      rw [ident, hret]
  · simp at hins

theorem readCount_cons (k : Nat) (r : Rec) (h : List Rec) :
    readCount k (r :: h) = readCount k h + if readsEvent k r then 1 else 0 :=
  List.countP_cons

theorem readsEvent_none {k : Nat} (hreads : reads r = none) :
    readsEvent k r = false := by
  rw [readsEvent, hreads]
  rfl

theorem readsEvent_some {k j : Nat} {caller : Address} {info : EventInfo}
    (hreads : reads r = some (caller, k, info)) :
    readsEvent j r = true ↔ j = k := by
  rw [readsEvent, hreads, Option.any_some, beq_iff_eq, eq_comm]

/-- Neither `unwrap` of `eventRead` can fail: both look up the entry that was
just found. -/
theorem eventRead_ne_panic {s : Storage} {caller : Address} {k : Nat} :
    eventRead s caller k ≠ .error .panic := by
  intro h
  rcases bind_eq_error.mp h with hrole | ⟨_, -, h⟩
  · cases (require_eq_error.mp hrole).2
  · split at h
    · simp at h
    · next info hget =>
        simp only [] at h
        split at h
        · rcases bind_eq_error.mp h with hnone | ⟨_, -, h⟩
          · have hget' := (unwrap_eq_error.mp hnone).1
            rw [SafeMapMapper.remove_fst, hget] at hget'
            simp at hget'
          · simp at h
        · rcases bind_eq_error.mp h with hnone | ⟨_, -, h⟩
          · have hget' := (unwrap_eq_error.mp hnone).1
            rw [SafeMapMapper.insert_fst, hget] at hget'
            simp at hget'
          · simp at h

theorem check_ne_panic {p : Payable} {payment : Payment} :
    p.check payment ≠ .error .panic := by
  intro h
  cases payment with
  | egld value => cases p <;> cases value <;> cases h
  | esdt => cases p <;> cases h

theorem exec_eventRead_ne_panic {tx : Tx} {k : Nat} (hcall : tx.call = .eventRead k) :
    exec w (.tx tx) ≠ .error .panic := by
  intro h
  rcases bind_eq_error.mp h with hcheck | ⟨_, hcheck, h⟩
  · exact check_ne_panic hcheck
  · rw [hcall] at hcheck
    rcases bind_eq_error.mp h with hrec | ⟨chain, -, h⟩
    · rw [check_no hcheck, receive_nothing] at hrec
      simp at hrec
    · rw [invoke, hcall] at h
      rcases bind_eq_error.mp h with hread | ⟨_, -, h⟩
      · exact eventRead_ne_panic hread
      · simp at h

/-- A call that inserts an event answers its id, if it succeeds. -/
theorem exec_inserts (hact : act.inserts = true) (hex : exec w act = .ok (ret, w')) :
    ∃ k, ret = .ident k := by
  cases act with
  | settle => cases hact
  | tx tx =>
      obtain ⟨caller, p, hostOk, call⟩ := tx
      cases call with
      | freezeSend | freezeSendNft | withdrawNft | withdraw =>
          cases exec_plain rfl hex
          exact ⟨_, rfl⟩
      | eventRead | deposit | proposeAddValidator | proposeRemoveUser
      | proposeChangeMinValid | validateUnfreeze | validateUnfreezeNft
      | validateSendWrapped | validateSendNft => cases hact

/-! ## The run invariant -/

structure LogInvariant (h : List Rec) (w : World) : Prop where
  idents : (h.filterMap ident).reverse = List.range' 1 w.eventIdent
  stored : ∀ k info, w.eventMapper.get k = some info →
    (1 ≤ k ∧ k ≤ w.eventIdent) ∧ (∃ r ∈ h, inserted r = some (k, info.event)) ∧
      info.readCnt = readCount k h % usizeBound
  known : ∀ r ∈ h, ∀ k, ident r = some k → (1 ≤ k ∧ k ≤ w.eventIdent) ∧
    ∀ info e, w.eventMapper.get k = some info → inserted r = some (k, e) →
      info.event = e
  unread : ∀ k, w.eventIdent < k → readCount k h = 0
  gone : ∀ r ∈ h, ∀ k, Deletes r k →
    k ≤ w.eventIdent ∧ w.eventMapper.get k = none

theorem LogInvariant.start (hident : w.eventIdent = 0)
    (hempty : w.eventMapper = ∅) : LogInvariant [] w where
  idents := by rw [hident]; rfl
  stored k info hget := by rw [hempty, SafeMapMapper.get_empty] at hget; cases hget
  known r hr := absurd hr List.not_mem_nil
  unread _ _ := rfl
  gone r hr := absurd hr List.not_mem_nil

theorem LogInvariant.quiet (hi : LogInvariant h r.pre)
    (hlog : r.post.toEventLog = r.pre.toEventLog) (hident : ident r = none)
    (hreads : reads r = none) : LogInvariant (r :: h) r.post := by
  have hcount : ∀ k, readCount k (r :: h) = readCount k h := by
    intro k
    rw [readCount_cons, readsEvent_none hreads]
    rfl
  have hid : r.post.eventIdent = r.pre.eventIdent := congrArg EventLog.eventIdent hlog
  have hmap : r.post.eventMapper = r.pre.eventMapper :=
    congrArg EventLog.eventMapper hlog
  constructor
  case idents =>
    rw [List.filterMap_cons_none hident, hid]
    exact hi.idents
  case stored =>
    intro k info hget
    rw [hmap] at hget
    obtain ⟨hk, ⟨r', hr', hins⟩, hcnt⟩ := hi.stored k info hget
    rw [hid, hcount]
    exact ⟨hk, ⟨r', List.mem_cons_of_mem _ hr', hins⟩, hcnt⟩
  case known =>
    intro r' hr' k hk
    rw [hid, hmap]
    rcases List.mem_cons.mp hr' with rfl | hr'
    · rw [hident] at hk; cases hk
    · exact hi.known r' hr' k hk
  case unread =>
    intro k hk
    rw [hcount]
    exact hi.unread k (hid ▸ hk)
  case gone =>
    intro r' hr' k hdel
    rw [hid, hmap]
    rcases List.mem_cons.mp hr' with rfl | hr'
    · have hsome := hdel.1
      rw [← hmap, hdel.2] at hsome
      simp at hsome
    · exact hi.gone r' hr' k hdel

theorem LogInvariant.insert {event : Event} (hi : LogInvariant h r.pre)
    (hident : ident r = some (r.pre.eventIdent + 1))
    (hins : inserted r = some (r.pre.eventIdent + 1, event))
    (hreads : reads r = none) (hnext : r.post.eventIdent = r.pre.eventIdent + 1)
    (hget : ∀ j, r.post.eventMapper.get j =
      if j = r.pre.eventIdent + 1 then some (.new event)
      else r.pre.eventMapper.get j) : LogInvariant (r :: h) r.post := by
  have hcount : ∀ k, readCount k (r :: h) = readCount k h := by
    intro k
    rw [readCount_cons, readsEvent_none hreads]
    rfl
  -- nothing that was stored before sits at the new id
  have hold : ∀ k, k ≤ r.pre.eventIdent →
      r.post.eventMapper.get k = r.pre.eventMapper.get k := by
    intro k hk
    rw [hget, if_neg (by omega)]
  constructor
  case idents =>
    rw [List.filterMap_cons_some hident, List.reverse_cons, hi.idents, hnext,
      List.range'_1_concat, Nat.add_comm 1]
  case stored =>
    intro k info hk
    rw [hcount, hnext]
    rw [hget] at hk
    split at hk
    · next heq =>
        cases hk
        rw [heq, hi.unread _ (Nat.lt_succ_self _)]
        exact ⟨by omega, ⟨r, List.mem_cons_self, hins⟩, rfl⟩
    · obtain ⟨hle, ⟨r', hr', hins'⟩, hcnt⟩ := hi.stored k info hk
      exact ⟨by omega, ⟨r', List.mem_cons_of_mem _ hr', hins'⟩, hcnt⟩
  case known =>
    intro r' hr' k hk
    rw [hnext]
    rcases List.mem_cons.mp hr' with rfl | hr'
    · rw [hident] at hk
      cases hk
      refine ⟨by omega, fun info e hinfo he => ?_⟩
      rw [hget, if_pos rfl] at hinfo
      cases hinfo
      rw [hins] at he
      cases he
      rfl
    · obtain ⟨hle, hev⟩ := hi.known r' hr' k hk
      refine ⟨by omega, ?_⟩
      rw [hold k hle.2]
      exact hev
  case unread =>
    intro k hk
    rw [hcount]
    exact hi.unread k (by omega)
  case gone =>
    intro r' hr' k hdel
    rcases List.mem_cons.mp hr' with rfl | hr'
    · obtain ⟨info, hinfo⟩ := Option.isSome_iff_exists.mp hdel.1
      have hle := (hi.stored k info hinfo).1.2
      have hnone := hdel.2
      rw [hold k hle, hinfo] at hnone
      simp at hnone
    · obtain ⟨hle, hnone⟩ := hi.gone r' hr' k hdel
      exact ⟨by omega, (hold k hle).trans hnone⟩

theorem LogInvariant.read {caller : Address} {k : Nat} {info : EventInfo}
    (hi : LogInvariant h r.pre) (hold : r.pre.eventMapper.get k = some info)
    (hreads : reads r = some (caller, k, info.bump)) (hident : ident r = none)
    (hsame : r.post.eventIdent = r.pre.eventIdent)
    (hget : ∀ j, r.post.eventMapper.get j =
      if j = k then
        (if usizeInc info.readCnt = r.pre.numValidators then none
          else some info.bump)
      else r.pre.eventMapper.get j) : LogInvariant (r :: h) r.post := by
  have hself : readCount k (r :: h) = readCount k h + 1 := by
    rw [readCount_cons, if_pos ((readsEvent_some hreads).mpr rfl)]
  have hother : ∀ j, j ≠ k → readCount j (r :: h) = readCount j h := by
    intro j hj
    rw [readCount_cons, if_neg (fun ht => hj ((readsEvent_some hreads).mp ht))]
    rfl
  obtain ⟨hk, ⟨rk, hrk, hinsk⟩, hcnt⟩ := hi.stored k info hold
  constructor
  case idents =>
    rw [List.filterMap_cons_none hident, hsame]
    exact hi.idents
  case stored =>
    intro j info' hj
    rw [hget] at hj
    split at hj
    · next heq =>
        subst heq
        split at hj
        · simp at hj
        · cases hj
          refine ⟨by omega, ⟨rk, List.mem_cons_of_mem _ hrk, hinsk⟩, ?_⟩
          rw [hself, EventInfo.bump, usizeInc, hcnt, Nat.mod_add_mod]
    · next hne =>
        obtain ⟨hle, ⟨r', hr', hins⟩, hcnt'⟩ := hi.stored j info' hj
        rw [hother j hne]
        exact ⟨by omega, ⟨r', List.mem_cons_of_mem _ hr', hins⟩, hcnt'⟩
  case known =>
    intro r' hr' j hj
    rcases List.mem_cons.mp hr' with rfl | hr'
    · rw [hident] at hj; cases hj
    · obtain ⟨hle, hev⟩ := hi.known r' hr' j hj
      refine ⟨by omega, fun info' e hinfo he => ?_⟩
      rw [hget] at hinfo
      split at hinfo
      · next heq =>
          subst heq
          split at hinfo
          · simp at hinfo
          · cases hinfo
            exact hev info e hold he
      · exact hev info' e hinfo he
  case unread =>
    intro j hj
    rw [hother j (by omega)]
    exact hi.unread j (by omega)
  case gone =>
    intro r' hr' j hdel
    rcases List.mem_cons.mp hr' with rfl | hr'
    · obtain ⟨info', hinfo⟩ := Option.isSome_iff_exists.mp hdel.1
      exact ⟨hsame ▸ (hi.stored j info' hinfo).1.2, hdel.2⟩
    · obtain ⟨hle, hnone⟩ := hi.gone r' hr' j hdel
      refine ⟨by omega, ?_⟩
      rw [hget, if_neg (by rintro rfl; rw [hold] at hnone; cases hnone)]
      exact hnone

theorem run_logInvariant
    (hinit : deploy l token nftToken minValid validators = .ok w₀)
    (hrun : Run exec w₀ h w) : LogInvariant h w := by
  induction hrun with
  | start =>
      have hlog := (init_fields (deploy_init hinit).1).2.1
      exact .start (congrArg EventLog.eventIdent hlog)
        (congrArg EventLog.eventMapper hlog)
  | @step h w act hrun ih =>
      rw [← record_pre exec w act] at ih
      cases record_logEffect w act with
      | quiet hlog hident hreads => exact ih.quiet hlog hident hreads
      | insert event hident hins hreads hnext hget =>
          exact ih.insert hident hins hreads hnext hget
      | read caller k info hval hold hreads hident hboard hsame hget =>
          exact ih.read hold hreads hident hsame hget

/-! ## What the readers rely on -/

/-- The law of one record of a run, given the records before it. -/
structure LogHolds (past : List Rec) (r : Rec) : Prop where
  /-- A successful insertion answers the next id, where nothing was stored. -/
  inserts_next : r.act.inserts = true → ∀ ret, r.ret = .ok ret →
    ret = .ident (r.pre.eventIdent + 1) ∧
      r.pre.eventMapper.get (r.pre.eventIdent + 1) = none ∧
      ∃ e, inserted r = some (r.pre.eventIdent + 1, e)
  /-- The `j`-th successful read of `k` answers the payload that the call
  returning `k` inserted, with `j` as its counter. -/
  reads_agree : ∀ caller k info, reads r = some (caller, k, info) →
    (∃ r' ∈ past, inserted r' = some (k, info.event)) ∧
      (∀ r' ∈ past, ∀ e, inserted r' = some (k, e) → e = info.event) ∧
      (readCount k past + 1 < usizeBound → info.readCnt = readCount k past + 1)
  /-- A deleted event is never read again, nor its id reused. -/
  deleted : ∀ r' ∈ past, ∀ k, Deletes r' k →
    (∀ caller info, reads r ≠ some (caller, k, info)) ∧ ident r ≠ some k
  no_panic : ∀ tx k, r.act = .tx tx → tx.call = .eventRead k →
    r.ret ≠ .error .panic

theorem LogInvariant.fresh (hi : LogInvariant h w) :
    w.eventMapper.get (w.eventIdent + 1) = none := by
  cases hget : w.eventMapper.get (w.eventIdent + 1) with
  | none => rfl
  | some info =>
      have hle := (hi.stored _ _ hget).1.2
      omega

theorem LogInvariant.inserts_next (hi : LogInvariant h w)
    (hact : act.inserts = true) (hex : exec w act = .ok (ret, w')) :
    ret = .ident (w.eventIdent + 1) ∧ w.eventMapper.get (w.eventIdent + 1) = none ∧
      ∃ e, inserted ⟨w, act, .ok ret, w'⟩ = some (w.eventIdent + 1, e) := by
  obtain ⟨k, rfl⟩ := exec_inserts hact hex
  cases exec_logEffect hex with
  | insert event hident hins hreads hnext hget =>
      have hk : k = w.eventIdent + 1 := Option.some.inj hident
      subst hk
      exact ⟨rfl, hi.fresh, event, hins⟩
  | quiet hlog hident => simp [ident] at hident
  | read caller k info hval hold hreads hident => simp [ident] at hident

theorem LogInvariant.reads_agree {past : List Rec} {caller : Address} {k : Nat}
    {info : EventInfo} (hi : LogInvariant past r.pre) (heff : LogEffect r)
    (hr : reads r = some (caller, k, info)) :
    (∃ r' ∈ past, inserted r' = some (k, info.event)) ∧
      (∀ r' ∈ past, ∀ e, inserted r' = some (k, e) → e = info.event) ∧
      (readCount k past + 1 < usizeBound → info.readCnt = readCount k past + 1) := by
  cases heff with
  | quiet hlog hident hreads =>
      rw [hreads] at hr
      simp at hr
  | insert event hident hins hreads =>
      rw [hreads] at hr
      simp at hr
  | read caller' k' old hval hold hreads =>
      rw [hreads] at hr
      cases hr
      obtain ⟨-, hins, hcnt⟩ := hi.stored k old hold
      refine ⟨hins, fun r' hr' e he => ?_, fun hlt => ?_⟩
      · exact ((hi.known r' hr' k (inserted_ident he)).2 old e hold he).symm
      · rw [EventInfo.bump, hcnt, Nat.mod_eq_of_lt (by omega)]
        exact usizeInc_of_lt hlt

theorem LogInvariant.stays_deleted {past : List Rec} {k : Nat} {r' : Rec}
    (hi : LogInvariant past r.pre) (heff : LogEffect r) (hr' : r' ∈ past) (hdel : Deletes r' k) :
    (∀ caller info, reads r ≠ some (caller, k, info)) ∧ ident r ≠ some k := by
  obtain ⟨hle, hnone⟩ := hi.gone r' hr' k hdel
  cases heff with
  | quiet hlog hident hreads => simp [hreads, hident]
  | insert event hident hins hreads =>
      rw [hreads, hident]
      refine ⟨by simp, fun hk => ?_⟩
      injection hk with hk
      omega
  | read caller' k' old hval hold hreads hident =>
      rw [hreads, hident]
      refine ⟨fun caller info hr => ?_, by simp⟩
      cases hr
      rw [hold] at hnone
      simp at hnone

theorem record_no_panic {tx : Tx} {k : Nat} (hcall : tx.call = .eventRead k) :
    (record exec w (.tx tx)).ret ≠ .error .panic := by
  intro hret
  cases hex : exec w (.tx tx) with
  | ok out =>
      rw [record_ok hex] at hret
      simp at hret
  | error e =>
      rw [record_error hex] at hret
      cases hret
      exact exec_eventRead_ne_panic hcall hex

theorem LogInvariant.holds (hi : LogInvariant h w) (act : Act) :
    LogHolds h (record exec w act) := by
  have heff := record_logEffect w act
  have hpre := hi
  rw [← record_pre exec w act] at hpre
  constructor
  case inserts_next =>
    intro hact ret hret
    rw [record_act] at hact
    cases hex : exec w act with
    | error e =>
        rw [record_error hex] at hret
        simp at hret
    | ok out =>
        obtain ⟨ret', w'⟩ := out
        rw [record_ok hex] at hret ⊢
        cases hret
        exact hi.inserts_next hact hex
  case reads_agree => exact fun caller k info => hpre.reads_agree heff
  case deleted => exact fun r' hr' k => hpre.stays_deleted heff hr'
  case no_panic =>
    intro tx k hact hcall
    rw [record_act] at hact
    subst hact
    exact record_no_panic hcall

/-- The integrity of the event log in every run: the ids returned are
1, 2, 3, ... in order, every stored id is one of them, and every record obeys
`LogHolds`. -/
theorem event_log_integrity
    (hinit : deploy l token nftToken minValid validators = .ok w₀)
    (hrun : Run exec w₀ h w) :
    (h.filterMap ident).reverse = List.range' 1 w.eventIdent ∧
      (∀ k info, w.eventMapper.get k = some info → 1 ≤ k ∧ k ≤ w.eventIdent) ∧
      Along LogHolds h := by
  have hi := run_logInvariant hinit hrun
  refine ⟨hi.idents, fun k info hget => (hi.stored k info hget).1, ?_⟩
  exact hrun.along fun h w act hrun => (run_logInvariant hinit hrun).holds act

/-- Two freezes and a read of the first by each of two validators. -/
theorem event_log_integrity_two :
    let acts := [send bob (.eventRead 1), send alice (.eventRead 1),
      .tx ⟨dan, .egld 7, true, .freezeSend 2 ""⟩,
      .tx ⟨charlie, .egld 5, true, .freezeSend 2 ""⟩]
    let run := play exec (freshWorld 1 [alice, bob]) acts
    (run.1.filterMap ident).reverse = List.range' 1 run.2.eventIdent ∧
      (∀ k info, run.2.eventMapper.get k = some info →
        1 ≤ k ∧ k ≤ run.2.eventIdent) ∧
      Along LogHolds run.1 :=
  event_log_integrity (deploy_eq (by decide +kernel)) (run_play _ _ _)

end ElrondMint
