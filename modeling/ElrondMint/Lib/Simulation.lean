import ElrondMint.Lib.Rollback

/-!
# A machine that refines another

`abs` maps the states of a machine to those of a simpler one, and `label` says
which of its records are acts there; the others stutter. If every labelled
record is matched by the simpler machine's own step, a whole run is matched by
playing its labels (`Simulation.run`): the state of the simpler machine is a
function of the labelled acts alone, and whatever else happened in between left
no trace in it.
-/

namespace Rollback

variable {σ α ε ρ τ β η κ : Type*} {exec : σ → α → Except ε (ρ × σ)} {s₀ s : σ}
  {exec' : τ → β → Except η (κ × τ)} {abs : σ → τ}
  {label : Record σ α ε ρ → Option β}
  {Q : Record σ α ε ρ → Record τ β η κ → Prop} {h : List (Record σ α ε ρ)}

/-- Along the runs from `s₀`, a record without a label leaves the abstract state
alone, and one with a label is an act of the simpler machine, with records
related by `Q`. -/
structure Simulation (exec : σ → α → Except ε (ρ × σ)) (s₀ : σ)
    (exec' : τ → β → Except η (κ × τ)) (abs : σ → τ)
    (label : Record σ α ε ρ → Option β)
    (Q : Record σ α ε ρ → Record τ β η κ → Prop) : Prop where
  stutter : ∀ h s a, Run exec s₀ h s → label (record exec s a) = none →
    abs (record exec s a).post = abs s
  step : ∀ h s a b, Run exec s₀ h s → label (record exec s a) = some b →
    (record exec' (abs s) b).post = abs (record exec s a).post ∧
      Q (record exec s a) (record exec' (abs s) b)

/-- A run is matched by the play of its labels. -/
theorem Simulation.run (hsim : Simulation exec s₀ exec' abs label Q)
    (hrun : Run exec s₀ h s) :
    (play exec' (abs s₀) (h.filterMap label)).2 = abs s ∧
      List.Forall₂ Q (h.filter fun r => (label r).isSome)
        (play exec' (abs s₀) (h.filterMap label)).1 := by
  induction hrun with
  | start => exact ⟨rfl, .nil⟩
  | @step h s a hrun ih =>
      obtain ⟨hstate, hQ⟩ := ih
      cases hlabel : label (record exec s a) with
      | none =>
          have hquiet : (record exec s a :: h).filter (fun r => (label r).isSome) =
              h.filter fun r => (label r).isSome :=
            List.filter_cons_of_neg (by simp [hlabel])
          rw [List.filterMap_cons_none hlabel, hquiet, hsim.stutter h s a hrun hlabel]
          exact ⟨hstate, hQ⟩
      | some b =>
          have hheard : (record exec s a :: h).filter (fun r => (label r).isSome) =
              record exec s a :: h.filter fun r => (label r).isSome :=
            List.filter_cons_of_pos (by simp [hlabel])
          obtain ⟨hpost, hstep⟩ := hsim.step h s a b hrun hlabel
          rw [List.filterMap_cons_some hlabel, hheard]
          simp only [play, hstate]
          exact ⟨hpost, .cons hstep hQ⟩

/-- What is observed of a run, and never of an unlabelled record, is observed of
the matching run in the same order. -/
theorem observed_labels {γ : Type*} {obs : Record σ α ε ρ → Option γ}
    {obs' : Record τ β η κ → Option γ} {k : List (Record τ β η κ)}
    (hobs : ∀ r q, Q r q → obs r = obs' q)
    (hquiet : ∀ r ∈ h, label r = none → obs r = none)
    (hQ : List.Forall₂ Q (h.filter fun r => (label r).isSome) k) :
    h.filterMap obs = k.filterMap obs' := by
  induction h generalizing k with
  | nil =>
      cases hQ
      rfl
  | cons r past ih =>
      obtain ⟨hlast, hpast⟩ := List.forall_mem_cons.mp hquiet
      cases hlabel : label r with
      | none =>
          rw [List.filter_cons_of_neg (by simp [hlabel])] at hQ
          rw [List.filterMap_cons_none (hlast hlabel), ih hpast hQ]
      | some b =>
          rw [List.filter_cons_of_pos (by simp [hlabel])] at hQ
          cases hQ with
          | cons hr hQ => rw [List.filterMap_cons, List.filterMap_cons, hobs _ _ hr, ih hpast hQ]

end Rollback
