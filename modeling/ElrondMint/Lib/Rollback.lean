import Mathlib.Data.List.Basic

/-!
# Runs of a machine whose failed steps roll back

A machine is a function `exec : σ → α → Except ε (ρ × σ)`: an act either
answers and moves the state, or fails and leaves it alone. `Run exec s₀ h s`
says that playing acts from `s₀` can end in `s` with history `h`, the most
recent record first. A record keeps the act, its answer and the two states
around it, so a statement about the past of a step is a statement about the
tail of the list the step stands on.

`Along P h` is the shape of every such statement: `P past r` at every record
`r` of the history, with `past` the records before it. `Run.induct` is the
one induction over runs. A failed act costs it nothing but the fact that the
record changed no state, so the two cases of the rule are the successful
act and the failed one, and invariants only argue about the first.
-/

namespace Rollback

variable {σ α ε ρ : Type*}

/-! ## Fallible computations, read back -/

/-- A computation that succeeded had both of its halves succeed. -/
theorem bind_eq_ok {β γ : Type} {x : Except ε β} {f : β → Except ε γ} {c : γ} :
    (x >>= f) = .ok c ↔ ∃ b, x = .ok b ∧ f b = .ok c := by
  cases x with
  | ok b => simp [bind, Except.bind]
  | error e => simp [bind, Except.bind]

/-- A list was computed entry by entry. -/
theorem mapM_cons_eq_ok {β γ : Type} {f : β → Except ε γ} {x : β} {xs : List β} {ys : List γ} :
    (x :: xs).mapM f = .ok ys ↔ ∃ z zs, f x = .ok z ∧ xs.mapM f = .ok zs ∧ ys = z :: zs := by
  rw [List.mapM_cons, bind_eq_ok]
  simp only [bind_eq_ok, pure, Except.pure, Except.ok.injEq, eq_comm (b := ys)]
  constructor
  · rintro ⟨z, hz, zs, hzs, rfl⟩
    exact ⟨z, zs, hz, hzs, rfl⟩
  · rintro ⟨z, zs, hz, hzs, rfl⟩
    exact ⟨z, hz, zs, hzs, rfl⟩

theorem mapM_eq_ok {β γ : Type} {f : β → Except ε γ} {g : β → γ} {xs : List β}
    (h : ∀ x ∈ xs, f x = .ok (g x)) : xs.mapM f = .ok (xs.map g) := by
  induction xs with
  | nil => rfl
  | cons x xs ih =>
      obtain ⟨hx, hxs⟩ := List.forall_mem_cons.mp h
      exact mapM_cons_eq_ok.mpr ⟨g x, xs.map g, hx, ih hxs, rfl⟩

/-- A computation that failed had one of its halves fail. -/
theorem bind_eq_error {β γ : Type} {x : Except ε β} {f : β → Except ε γ} {e : ε} :
    (x >>= f) = .error e ↔ x = .error e ∨ ∃ b, x = .ok b ∧ f b = .error e := by
  cases x with
  | ok b => simp [bind, Except.bind]
  | error e => simp [bind, Except.bind]

/-- Two computations with one first half, whose second halves agree up to a
map, agree up to that map. -/
theorem bind_eq_map {β γ δ : Type} {x : Except ε β} {f : β → Except ε δ}
    {g : β → Except ε γ} {φ : γ → δ} (hfg : ∀ b, f b = (g b).map φ) :
    (x >>= f) = (x >>= g).map φ := by
  cases x with
  | ok b => exact hfg b
  | error e => rfl

/-! ## Runs -/

/-- What a run keeps of one act. -/
structure Record (σ α ε ρ : Type*) where
  pre : σ
  act : α
  ret : Except ε ρ
  post : σ

/-- Performs one act: a failed one leaves the state as it was. -/
def record (exec : σ → α → Except ε (ρ × σ)) (s : σ) (a : α) :
    Record σ α ε ρ :=
  match exec s a with
  | .ok (r, s') => ⟨s, a, .ok r, s'⟩
  | .error e => ⟨s, a, .error e, s⟩

theorem record_ok {exec : σ → α → Except ε (ρ × σ)} {s s' : σ} {a : α}
    {r : ρ} (h : exec s a = .ok (r, s')) :
    record exec s a = ⟨s, a, .ok r, s'⟩ := by
  simp only [record, h]

theorem record_error {exec : σ → α → Except ε (ρ × σ)} {s : σ} {a : α}
    {e : ε} (h : exec s a = .error e) :
    record exec s a = ⟨s, a, .error e, s⟩ := by
  simp only [record, h]

theorem record_pre (exec : σ → α → Except ε (ρ × σ)) (s : σ) (a : α) :
    (record exec s a).pre = s := by
  unfold record
  split <;> rfl

theorem record_act (exec : σ → α → Except ε (ρ × σ)) (s : σ) (a : α) :
    (record exec s a).act = a := by
  unfold record
  split <;> rfl

/-- The record of an act that answered says what the act did. -/
theorem record_ret {exec : σ → α → Except ε (ρ × σ)} {s : σ} {a : α} {r : ρ}
    (h : (record exec s a).ret = .ok r) : exec s a = .ok (r, (record exec s a).post) := by
  cases hex : exec s a with
  | ok out =>
      rw [record_ok hex] at h ⊢
      injection h with h
      rw [← h]
  | error e =>
      rw [record_error hex] at h
      simp at h

/-- The runs of a machine from `s₀`, with their histories, latest first. -/
inductive Run (exec : σ → α → Except ε (ρ × σ)) (s₀ : σ) :
    List (Record σ α ε ρ) → σ → Prop
  | start : Run exec s₀ [] s₀
  | step {h : List (Record σ α ε ρ)} {s : σ} (a : α) (hrun : Run exec s₀ h s) :
      Run exec s₀ (record exec s a :: h) (record exec s a).post

/-- The induction over runs: what holds at the start, is kept by every
successful act and by a failed act's record, holds of every history and of
the state it reaches. -/
theorem Run.induct {exec : σ → α → Except ε (ρ × σ)} {s₀ : σ}
    {I : List (Record σ α ε ρ) → σ → Prop} (hstart : I [] s₀)
    (hok : ∀ h s a r s', Run exec s₀ h s → I h s → exec s a = .ok (r, s') →
      I (⟨s, a, .ok r, s'⟩ :: h) s')
    (herr : ∀ h s a e, Run exec s₀ h s → I h s → exec s a = .error e →
      I (⟨s, a, .error e, s⟩ :: h) s)
    {h : List (Record σ α ε ρ)} {s : σ} (hrun : Run exec s₀ h s) : I h s := by
  induction hrun with
  | start => exact hstart
  | @step h s a hrun ih =>
      cases hex : exec s a with
      | ok out =>
          obtain ⟨r, s'⟩ := out
          rw [record_ok hex]
          exact hok h s a r s' hrun ih hex
      | error e =>
          rw [record_error hex]
          exact herr h s a e hrun ih hex

/-- A state property kept by every successful act holds in every state
reached. -/
theorem Run.invariant {exec : σ → α → Except ε (ρ × σ)} {s₀ : σ}
    {I : σ → Prop} (hstart : I s₀)
    (hok : ∀ s a r s', I s → exec s a = .ok (r, s') → I s')
    {h : List (Record σ α ε ρ)} {s : σ} (hrun : Run exec s₀ h s) : I s :=
  Run.induct (I := fun _ s => I s) hstart
    (fun _ s a r s' _ hi hex => hok s a r s' hi hex)
    (fun _ _ _ _ _ hi _ => hi) hrun

/-- A run can be continued. -/
theorem Run.trans {exec : σ → α → Except ε (ρ × σ)} {s₀ s₁ s₂ : σ}
    {h h' : List (Record σ α ε ρ)} (hrun : Run exec s₀ h s₁)
    (hrun' : Run exec s₁ h' s₂) : Run exec s₀ (h' ++ h) s₂ := by
  induction hrun' with
  | start => exact hrun
  | step a _ ih => exact .step a ih

/-- `P past r` at every record `r` of the history, with its own past. -/
def Along (P : List (Record σ α ε ρ) → Record σ α ε ρ → Prop) :
    List (Record σ α ε ρ) → Prop
  | [] => True
  | r :: past => P past r ∧ Along P past

variable {P : List (Record σ α ε ρ) → Record σ α ε ρ → Prop}

@[simp] theorem along_nil : Along P [] := trivial

@[simp] theorem along_cons {r : Record σ α ε ρ} {h : List (Record σ α ε ρ)} :
    Along P (r :: h) ↔ P h r ∧ Along P h := Iff.rfl

instance Along.decidable [∀ past r, Decidable (P past r)] :
    ∀ h : List (Record σ α ε ρ), Decidable (Along P h)
  | [] => isTrue trivial
  | r :: past =>
      have := Along.decidable past
      inferInstanceAs (Decidable (P past r ∧ Along P past))

/-- At a record of the history, `P` holds with a past that the history has. -/
theorem Along.of_mem {h : List (Record σ α ε ρ)} {r : Record σ α ε ρ}
    (hP : Along P h) (hr : r ∈ h) : ∃ past, past ⊆ h ∧ P past r := by
  induction h with
  | nil => exact absurd hr List.not_mem_nil
  | cons r' past ih =>
      rcases List.mem_cons.mp hr with rfl | hr
      · exact ⟨past, List.subset_cons_self _ _, hP.1⟩
      · obtain ⟨p, hp, hPr⟩ := ih hP.2 hr
        exact ⟨p, fun x hx => List.mem_cons_of_mem _ (hp hx), hPr⟩

theorem along_forall {Q : Record σ α ε ρ → Prop} {h : List (Record σ α ε ρ)} :
    Along (fun _ r => Q r) h ↔ ∀ r ∈ h, Q r := by
  induction h with
  | nil => simp
  | cons r past ih => rw [along_cons, ih, List.forall_mem_cons]

theorem Along.imp {Q : List (Record σ α ε ρ) → Record σ α ε ρ → Prop}
    (hPQ : ∀ past r, P past r → Q past r) {h : List (Record σ α ε ρ)}
    (hP : Along P h) : Along Q h := by
  induction h with
  | nil => trivial
  | cons r past ih => exact ⟨hPQ past r hP.1, ih hP.2⟩

/-- What holds along a history holds along its later part, whose records have
the earlier part behind them. -/
theorem Along.later {h h' : List (Record σ α ε ρ)} (hP : Along P (h' ++ h)) :
    Along (fun past r => P (past ++ h) r) h' := by
  induction h' with
  | nil => trivial
  | cons r past ih => exact ⟨hP.1, ih hP.2⟩

/-- Every record of a run is an act performed in a state a shorter run
reached. -/
theorem Run.along {exec : σ → α → Except ε (ρ × σ)} {s₀ : σ}
    (hP : ∀ h s a, Run exec s₀ h s → P h (record exec s a))
    {h : List (Record σ α ε ρ)} {s : σ} (hrun : Run exec s₀ h s) :
    Along P h := by
  induction hrun with
  | start => trivial
  | step a hrun ih => exact ⟨hP _ _ a hrun, ih⟩

/-- What holds along a run carries another property along it, if it does at
the record after any run along which both hold. -/
theorem Run.along_of {exec : σ → α → Except ε (ρ × σ)} {s₀ : σ}
    {Q : List (Record σ α ε ρ) → Record σ α ε ρ → Prop}
    (hPQ : ∀ h s a, Run exec s₀ h s → Along P h → Along Q h →
      P h (record exec s a) → Q h (record exec s a))
    {h : List (Record σ α ε ρ)} {s : σ} (hrun : Run exec s₀ h s) (hP : Along P h) :
    Along Q h := by
  induction hrun with
  | start => trivial
  | @step h s a hrun ih => exact ⟨hPQ h s a hrun hP.2 (ih hP.2) hP.1, ih hP.2⟩

/-- Two properties agree along a run if they agree at the record after any run
along which the first holds. -/
theorem Run.along_iff {exec : σ → α → Except ε (ρ × σ)} {s₀ : σ}
    {Q : List (Record σ α ε ρ) → Record σ α ε ρ → Prop}
    (hPQ : ∀ h s a, Run exec s₀ h s → Along P h →
      (P h (record exec s a) ↔ Q h (record exec s a)))
    {h : List (Record σ α ε ρ)} {s : σ} (hrun : Run exec s₀ h s) :
    Along P h ↔ Along Q h := by
  induction hrun with
  | start => exact Iff.rfl
  | @step h s a hrun ih =>
      rw [along_cons, along_cons, ← ih]
      exact and_congr_left fun hpast => hPQ h s a hrun hpast

/-- A record of a run is made in its own state by its own act. -/
theorem Run.records {exec : σ → α → Except ε (ρ × σ)} {s₀ : σ}
    {h : List (Record σ α ε ρ)} {s : σ} (hrun : Run exec s₀ h s) :
    ∀ r ∈ h, r = record exec r.pre r.act :=
  along_forall.mp (hrun.along fun _ _ _ _ => by rw [record_pre, record_act])

/-- What no record changes is the same all along. -/
theorem Run.constant {exec : σ → α → Except ε (ρ × σ)} {s₀ : σ} {β : Type*} {f : σ → β}
    {h : List (Record σ α ε ρ)} {s : σ} (hrun : Run exec s₀ h s)
    (hsame : ∀ r ∈ h, f r.post = f r.pre) : f s = f s₀ ∧ ∀ r ∈ h, f r.pre = f s₀ := by
  induction hrun with
  | start => exact ⟨rfl, fun r hr => absurd hr List.not_mem_nil⟩
  | @step h s a hrun ih =>
      obtain ⟨hlast, hall⟩ := ih fun r hr => hsame r (List.mem_cons_of_mem _ hr)
      have hstep := hsame _ List.mem_cons_self
      rw [record_pre, hlast] at hstep
      refine ⟨hstep, List.forall_mem_cons.mpr ⟨?_, hall⟩⟩
      rw [record_pre]
      exact hlast

/-- The history of playing a list of acts, given latest first like the
history itself, and the state it ends in. -/
def play (exec : σ → α → Except ε (ρ × σ)) (s₀ : σ) :
    List α → List (Record σ α ε ρ) × σ
  | [] => ([], s₀)
  | a :: as =>
      let (h, s) := play exec s₀ as
      (record exec s a :: h, (record exec s a).post)

theorem run_play (exec : σ → α → Except ε (ρ × σ)) (s₀ : σ) (as : List α) :
    Run exec s₀ (play exec s₀ as).1 (play exec s₀ as).2 := by
  induction as with
  | nil => exact .start
  | cons a as ih => exact .step a ih

theorem play_acts (exec : σ → α → Except ε (ρ × σ)) (s₀ : σ) (as : List α) :
    (play exec s₀ as).1.map Record.act = as := by
  induction as with
  | nil => rfl
  | cons a as ih =>
      show (record exec _ a).act :: (play exec s₀ as).1.map Record.act = a :: as
      rw [record_act, ih]

end Rollback
