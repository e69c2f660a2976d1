import ElrondMint.Lib.Rollback
import Mathlib.Data.Finset.Card
import Mathlib.Data.List.Nodup

/-!
# Councils

A council is a finite set of members, a quorum and a ballot for every subject.
A member votes for a motion on a subject; the vote that makes the ballot as long
as the quorum enacts the motion it came with. What motions do, to the members
and to the quorum among other things, and whether a ballot outlives the motion
it carried, is the council's charter.

The machine says nothing of accounts, messages or identifiers. Its runs are
those of `Lib/Rollback.lean`: a refused vote changes nothing.
-/

namespace Council

open Rollback

variable {V S M : Type*}

/-- What enacting a motion makes of the members and the quorum, unless it is out
of order, and whether the ballot is kept. -/
structure Charter (V M : Type*) where
  enact : M → Finset V × Nat → Option (Finset V × Nat)
  keeps : M → Bool

structure State (V S : Type*) where
  members : Finset V
  quorum : Nat
  /-- Who has voted on a subject, in order. -/
  ballots : S → List V

inductive Refusal where
  | stranger
  | outOfOrder
  deriving DecidableEq, Repr

inductive Outcome where
  | pending
  | enacted
  deriving DecidableEq, Repr

variable {c : State V S} {v : V} {s : S} {m : M} {T : Finset V}

/-- A council before its first vote. -/
def founded (members : Finset V) (quorum : Nat) : State V S := ⟨members, quorum, fun _ => []⟩

/-- The voters of a ballot are different, and those of all ballots in `T`. -/
structure Within (T : Finset V) (c : State V S) : Prop where
  nodup : ∀ s, (c.ballots s).Nodup
  voters : ∀ s, ∀ v ∈ c.ballots s, v ∈ T

theorem Within.founded (T members : Finset V) (quorum : Nat) :
    Within T (founded members quorum : State V S) := ⟨fun _ => List.nodup_nil, nofun⟩

/-- One more voter from `T`. -/
theorem Within.add (hin : Within T c) (hv : v ∈ T) (hnew : v ∉ c.ballots s) :
    (c.ballots s ++ [v]).Nodup ∧ ∀ x ∈ c.ballots s ++ [v], x ∈ T := by
  constructor
  · rw [List.nodup_append']
    refine ⟨hin.nodup s, List.nodup_singleton v, fun x hx hx' => ?_⟩
    rw [List.mem_singleton.mp hx'] at hx
    exact hnew hx
  · intro x hx
    rcases List.mem_append.mp hx with hx | hx
    · exact hin.voters s x hx
    · rw [List.mem_singleton.mp hx]
      exact hv

theorem Within.card_le [DecidableEq V] {xs : List V} (hnodup : xs.Nodup)
    (hT : ∀ x ∈ xs, x ∈ T) : xs.length ≤ T.card := by
  rw [← List.toFinset_card_of_nodup hnodup]
  exact Finset.card_le_card fun x hx => hT x (List.mem_toFinset.mp hx)

variable [DecidableEq V] [DecidableEq S]

/-- One vote: who, on what subject, for what motion. -/
def vote (charter : Charter V M) (c : State V S) :
    V × S × M → Except Refusal (Outcome × State V S)
  | (v, s, m) =>
      if v ∉ c.members then .error .stranger
      else if v ∈ c.ballots s then .ok (.pending, c)
      else
        let ballot := c.ballots s ++ [v]
        if ballot.length = c.quorum then
          match charter.enact m (c.members, c.quorum) with
          | none => .error .outOfOrder
          | some (members, quorum) =>
              let left := if charter.keeps m then ballot else []
              .ok (.enacted, ⟨members, quorum, Function.update c.ballots s left⟩)
        else .ok (.pending, { c with ballots := Function.update c.ballots s ballot })

/-- The subject and the motion of a vote that enacted it. -/
def enacted (r : Record (State V S) (V × S × M) Refusal Outcome) : Option (S × M) :=
  match r.ret with
  | .ok .enacted => some r.act.2
  | _ => none

variable {charter : Charter V M} {c' c₀ : State V S}
  {o : Outcome} {b : V × S × M}
  {k : List (Record (State V S) (V × S × M) Refusal Outcome)}

/-- What a vote that was not refused did: nothing, one more name on the ballot,
or a motion enacted. -/
inductive VoteEffect (charter : Charter V M) (c : State V S) (v : V) (s : S) (m : M) :
    Outcome → State V S → Prop
  | again (hmem : v ∈ c.members) (hold : v ∈ c.ballots s) :
      VoteEffect charter c v s m .pending c
  | counted (hmem : v ∈ c.members) (hnew : v ∉ c.ballots s)
      (hcount : (c.ballots s).length + 1 ≠ c.quorum) :
      VoteEffect charter c v s m .pending
        { c with ballots := Function.update c.ballots s (c.ballots s ++ [v]) }
  | enacted {members : Finset V} {quorum : Nat} (hmem : v ∈ c.members)
      (hnew : v ∉ c.ballots s) (hcount : (c.ballots s).length + 1 = c.quorum)
      (henact : charter.enact m (c.members, c.quorum) = some (members, quorum)) :
      VoteEffect charter c v s m .enacted ⟨members, quorum, Function.update c.ballots s
        (if charter.keeps m then c.ballots s ++ [v] else [])⟩

theorem vote_effect : vote charter c (v, s, m) = .ok (o, c') ↔
    VoteEffect charter c v s m o c' := by
  constructor
  · intro h
    rw [vote] at h
    split at h
    · simp at h
    · next hmem =>
        rw [not_not] at hmem
        split at h
        · next hold =>
            cases h
            exact .again hmem hold
        · next hnew =>
            simp only [List.length_append, List.length_cons, List.length_nil] at h
            split at h
            · next hcount =>
                split at h
                · simp at h
                · next members quorum henact =>
                    cases h
                    exact .enacted hmem hnew hcount henact
            · next hcount =>
                cases h
                exact .counted hmem hnew hcount
  · intro h
    cases h with
    | again hmem hold => rw [vote, if_neg (not_not.mpr hmem), if_pos hold]
    | counted hmem hnew hcount =>
        rw [vote, if_neg (not_not.mpr hmem), if_neg hnew]
        simp only [List.length_append, List.length_cons, List.length_nil]
        rw [if_neg hcount]
    | enacted hmem hnew hcount henact =>
        rw [vote, if_neg (not_not.mpr hmem), if_neg hnew]
        simp only [List.length_append, List.length_cons, List.length_nil]
        rw [if_pos hcount, henact]

/-! ## A council is what it has enacted -/

/-- If every motion in order amends the members and the quorum by `amend`, they are
at any time the founding ones amended by the motions enacted, in their order. -/
theorem run_amended {amend : M → Finset V × Nat → Finset V × Nat}
    (hamend : ∀ m x y, charter.enact m x = some y → y = amend m x)
    (hrun : Run (vote charter) c₀ k c) :
    (c.members, c.quorum) =
      ((k.filterMap enacted).map Prod.snd).foldr amend (c₀.members, c₀.quorum) := by
  refine hrun.induct (I := fun k c => (c.members, c.quorum) =
    ((k.filterMap enacted).map Prod.snd).foldr amend (c₀.members, c₀.quorum)) ?start ?ok ?err
  case start => rfl
  case ok =>
    intro k c b o c' _ ih hvote
    obtain ⟨v, s, m⟩ := b
    cases vote_effect.mp hvote with
    | again | counted => exact ih
    | enacted _ _ _ henact =>
        have hlast := hamend m _ _ henact
        rw [ih] at hlast
        exact hlast
  case err => exact fun k c b e _ ih _ => ih

/-! ## Minorities -/

/-- Voters fewer than the quorum enact nothing, whatever they vote for and on
however many subjects: the council stays as it was founded. -/
theorem run_minority (hT : T.card < c₀.quorum) (hstart : Within T c₀)
    (hvoters : ∀ r ∈ k, r.act.1 ∈ T) (hrun : Run (vote charter) c₀ k c) :
    c.members = c₀.members ∧ c.quorum = c₀.quorum ∧ Within T c ∧
      ∀ r ∈ k, enacted r = none := by
  induction hrun with
  | start => exact ⟨rfl, rfl, hstart, nofun⟩
  | @step k c b hrun ih =>
      rw [List.forall_mem_cons, record_act] at hvoters
      obtain ⟨hmembers, hquorum, hin, hnone⟩ := ih hvoters.2
      obtain ⟨v, s, m⟩ := b
      cases hvote : vote charter c (v, s, m) with
      | error e =>
          rw [record_error hvote]
          exact ⟨hmembers, hquorum, hin, List.forall_mem_cons.mpr ⟨rfl, hnone⟩⟩
      | ok out =>
          obtain ⟨o, c'⟩ := out
          rw [record_ok hvote]
          cases vote_effect.mp hvote with
          | again => exact ⟨hmembers, hquorum, hin, List.forall_mem_cons.mpr ⟨rfl, hnone⟩⟩
          | counted _ hnew =>
              obtain ⟨hnodup, hall⟩ := hin.add hvoters.1 hnew
              refine ⟨hmembers, hquorum, ⟨fun t => ?_, fun t => ?_⟩,
                List.forall_mem_cons.mpr ⟨rfl, hnone⟩⟩
              · by_cases ht : t = s
                · subst ht
                  simpa using hnodup
                · simpa [ht] using hin.nodup t
              · by_cases ht : t = s
                · subst ht
                  simpa using hall
                · simpa [ht] using hin.voters t
          | enacted _ hnew hcount =>
              -- the ballot would be longer than the minority is large
              obtain ⟨hnodup, hall⟩ := hin.add hvoters.1 hnew
              have hle := Within.card_le hnodup hall
              rw [List.length_append, List.length_singleton, hcount, hquorum] at hle
              omega

end Council
