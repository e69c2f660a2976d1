import ElrondMint.Lib.Rollback

/-!
# Erasing acts from a run

What does a run look like to somebody who does not know that some of its acts
happened? `kept` are the acts of a history that are left when the others are
erased, and playing them from the start is the run that could have been. An
`Unwinding` is a relation between the states of the two runs that an erased act
leaves alone on its own side, and that a kept act preserves when both runs make
it; `Unwinding.run` puts these steps together.

A kept act may fail in one of the two runs for reasons the relation does not
see. `Agree excused R` is what can be said of two such computations: they fail
alike, or succeed with related results, or one of them has an excuse. It
composes along `>>=`, so the step of a machine is shown to agree with itself
half by half.
-/

namespace Rollback

universe u

variable {σ α ε ρ : Type*}

/-! ## Two computations -/

section Agree

variable {β γ δ η : Type u} {excused : ε → Prop} {R : β → γ → Prop} {S : δ → η → Prop}
  {x : Except ε β} {y : Except ε γ}

/-- Both fail alike, both succeed with related results, or one of them fails
with an excuse. -/
inductive Agree (excused : ε → Prop) (R : β → γ → Prop) :
    Except ε β → Except ε γ → Prop
  | ok {b : β} {c : γ} (h : R b c) : Agree excused R (.ok b) (.ok c)
  | error (e : ε) : Agree excused R (.error e) (.error e)
  | left {e : ε} (he : excused e) (y : Except ε γ) : Agree excused R (.error e) y
  | right {e : ε} (he : excused e) (x : Except ε β) : Agree excused R x (.error e)

theorem Agree.bind {f : β → Except ε δ} {g : γ → Except ε η} (h : Agree excused R x y)
    (hfg : ∀ b c, R b c → Agree excused S (f b) (g c)) :
    Agree excused S (x >>= f) (y >>= g) := by
  cases h with
  | ok h => exact hfg _ _ h
  | error e => exact .error e
  | left he y => exact .left he _
  | right he x => exact .right he _

theorem Agree.refl (x : Except ε β) : Agree excused Eq x x := by
  cases x with
  | ok b => exact .ok rfl
  | error e => exact .error e

/-- Two computations that fail with an excuse only. -/
theorem Agree.of_excused (hx : ∀ e, x = .error e → excused e)
    (hy : ∀ e, y = .error e → excused e) (hR : ∀ b c, x = .ok b → y = .ok c → R b c) :
    Agree excused R x y := by
  cases x with
  | error e => exact .left (hx e rfl) y
  | ok b =>
      cases y with
      | error e => exact .right (hy e rfl) _
      | ok c => exact .ok (hR b c rfl rfl)

theorem Agree.weaken {excused' : ε → Prop} (h : Agree excused R x y)
    (he : ∀ e, excused e → excused' e) : Agree excused' R x y := by
  cases h with
  | ok h => exact .ok h
  | error e => exact .error e
  | left hl y => exact .left (he _ hl) y
  | right hr x => exact .right (he _ hr) x

/-- One act performed in two states: without an excuse it answers alike, and
leaves related states. -/
theorem Agree.record {exec : σ → α → Except ε (ρ × σ)} {s t : σ} {a : α}
    {R : σ → σ → Prop}
    (h : Agree excused (fun p q => p.1 = q.1 ∧ R p.2 q.2) (exec s a) (exec t a))
    (hR : R s t) (hs : ∀ e, (record exec s a).ret = .error e → ¬ excused e)
    (ht : ∀ e, (record exec t a).ret = .error e → ¬ excused e) :
    R (record exec s a).post (record exec t a).post ∧
      (record exec s a).ret = (record exec t a).ret := by
  unfold Rollback.record at hs ht ⊢
  generalize exec s a = x at h hs
  generalize exec t a = y at h ht
  cases h with
  | ok h => exact ⟨h.2, congrArg Except.ok h.1⟩
  | error e => exact ⟨hR, rfl⟩
  | left he y => exact absurd he (hs _ rfl)
  | right he x => exact absurd he (ht _ rfl)

end Agree

/-! ## Two runs -/

section Unwinding

variable {exec : σ → α → Except ε (ρ × σ)} {s₀ s t : σ} {a : α}
  {keep : Record σ α ε ρ → Prop} [DecidablePred keep] {fine : Record σ α ε ρ → Prop}
  {R : σ → σ → Prop} {Q : Record σ α ε ρ → Record σ α ε ρ → Prop}
  {h : List (Record σ α ε ρ)}

/-- The acts that are left when the others are erased. -/
def kept (keep : Record σ α ε ρ → Prop) [DecidablePred keep]
    (h : List (Record σ α ε ρ)) : List α :=
  (h.filter fun r => decide (keep r)).map Record.act

/-- A relation between a run and what is left of it, which an erased record does
not disturb and a kept act preserves, where both of its records are fine. -/
structure Unwinding (exec : σ → α → Except ε (ρ × σ)) (s₀ : σ)
    (keep fine : Record σ α ε ρ → Prop) (R : σ → σ → Prop)
    (Q : Record σ α ε ρ → Record σ α ε ρ → Prop) : Prop where
  start : R s₀ s₀
  frame : ∀ h s t a, Run exec s₀ h s → R s t → ¬ keep (record exec s a) →
    R (record exec s a).post t
  step : ∀ h s t a, Run exec s₀ h s → R s t → keep (record exec s a) →
    fine (record exec s a) → fine (record exec t a) →
    R (record exec s a).post (record exec t a).post ∧
      Q (record exec s a) (record exec t a)

theorem Unwinding.run (hu : Unwinding exec s₀ keep fine R Q) (hrun : Run exec s₀ h s)
    (hfine : ∀ r ∈ h, fine r) (hfine' : ∀ r ∈ (play exec s₀ (kept keep h)).1, fine r) :
    R s (play exec s₀ (kept keep h)).2 ∧
      List.Forall₂ Q (h.filter fun r => decide (keep r))
        (play exec s₀ (kept keep h)).1 := by
  induction hrun with
  | start => exact ⟨hu.start, .nil⟩
  | @step h s a hrun ih =>
      obtain ⟨hlast, hpast⟩ := List.forall_mem_cons.mp hfine
      by_cases hkeep : keep (record exec s a)
      · have hfilter : (record exec s a :: h).filter (fun r => decide (keep r)) =
            record exec s a :: h.filter fun r => decide (keep r) :=
          List.filter_cons_of_pos (decide_eq_true hkeep)
        have hkept : kept keep (record exec s a :: h) = a :: kept keep h := by
          rw [kept, hfilter, List.map_cons, record_act]
          rfl
        rw [hkept] at hfine' ⊢
        rw [hfilter]
        obtain ⟨hlast', hpast'⟩ := List.forall_mem_cons.mp hfine'
        obtain ⟨hR, hQ⟩ := ih hpast hpast'
        obtain ⟨hR', hlastQ⟩ := hu.step h s _ a hrun hR hkeep hlast hlast'
        exact ⟨hR', .cons hlastQ hQ⟩
      · have hfilter : (record exec s a :: h).filter (fun r => decide (keep r)) =
            h.filter fun r => decide (keep r) :=
          List.filter_cons_of_neg (by simpa using hkeep)
        have hkept : kept keep (record exec s a :: h) = kept keep h := by
          rw [kept, hfilter, kept]
        rw [hkept] at hfine' ⊢
        rw [hfilter]
        obtain ⟨hR, hQ⟩ := ih hpast hfine'
        exact ⟨hu.frame h s _ a hrun hR hkeep, hQ⟩

/-- What an observer notes of related records, he notes in the same order. -/
theorem observed {β : Type*} {obs : Record σ α ε ρ → Option β}
    {h h' : List (Record σ α ε ρ)} (hobs : ∀ r r', Q r r' → obs r = obs r')
    (hQ : List.Forall₂ Q h h') : h.filterMap obs = h'.filterMap obs := by
  induction hQ with
  | nil => rfl
  | cons hr _ ih => rw [List.filterMap_cons, List.filterMap_cons, hobs _ _ hr, ih]

end Unwinding

end Rollback
