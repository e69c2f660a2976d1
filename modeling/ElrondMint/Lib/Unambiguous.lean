import Mathlib.Data.List.Basic
import Mathlib.Logic.Function.Basic

/-!
# Writing that can be read in one way only

A writer turns values into strings of symbols. `Writes stop w` says that of a value
written by `w` and whatever follows it, both can be told, as long as nothing follows
or a symbol of `stop`. Any writer that can be read back is of this kind before
anything (`Writes.of_reader`), and so is one whose symbols are of one class before
symbols of another (`Writes.of_class`). Writers put together stay of this kind: one
after the other, in a list with a mark at its end, in a list with separators.

What all of this is for is that such a writer is injective (`Writes.injective`).
-/

namespace Unambiguous

variable {σ α β : Type*} {stop stop' : σ → Prop} {w : α → List σ} {v : β → List σ}

/-- Nothing, or something that begins with one of these symbols. -/
def Ends (stop : σ → Prop) (s : List σ) : Prop := ∀ c ∈ s.head?, stop c

/-- A value and what follows it can be told from the two together. -/
def Writes (stop : σ → Prop) (w : α → List σ) : Prop :=
  ∀ ⦃a b : α⦄ ⦃s t : List σ⦄, Ends stop s → Ends stop t → w a ++ s = w b ++ t → a = b ∧ s = t

/-- Before anything. -/
abbrev anything : σ → Prop := fun _ => True

theorem ends_anything (s : List σ) : Ends anything s := fun _ _ => trivial

theorem ends_cons {c : σ} {s : List σ} (h : stop c) : Ends stop (c :: s) := by
  intro d hd
  obtain rfl := Option.some.inj hd
  exact h

namespace Writes

theorem injective (h : Writes stop w) : Function.Injective w := by
  intro a b hab
  have hnil : Ends stop ([] : List σ) := fun c hc => by simp at hc
  exact (h hnil hnil (by rw [hab])).1

/-- Something fixed in front. -/
theorem prepend (pre : List σ) (h : Writes stop w) : Writes stop fun a => pre ++ w a := by
  intro a b s t hs ht heq
  rw [List.append_assoc, List.append_assoc] at heq
  exact h hs ht (List.append_cancel_left heq)

/-- One value after the other, the second beginning with what the first can end
before. -/
theorem pair (hw : Writes stop w) (hv : Writes stop' v)
    (hbegin : ∀ b, ∃ c t, v b = c :: t ∧ stop c) :
    Writes stop' fun p : α × β => w p.1 ++ v p.2 := by
  intro p q s t hs ht heq
  have hends : ∀ (b : β) (u : List σ), Ends stop (v b ++ u) := by
    intro b u
    obtain ⟨c, t, hb, hc⟩ := hbegin b
    rw [hb, List.cons_append]
    exact ends_cons hc
  rw [List.append_assoc, List.append_assoc] at heq
  obtain ⟨hfirst, hrest⟩ := hw (hends _ _) (hends _ _) heq
  obtain ⟨hsecond, hst⟩ := hv hs ht hrest
  exact ⟨Prod.ext hfirst hsecond, hst⟩

/-- Any number of values and a mark that none of them begins with. -/
theorem list {fin : σ} (h : Writes stop w) (hfin : stop fin)
    (hbegin : ∀ a, ∃ c t, w a = c :: t ∧ c ≠ fin ∧ stop c) :
    Writes anything fun as : List α => as.flatMap w ++ [fin] := by
  have hends : ∀ (as : List α) (s : List σ), Ends stop (as.flatMap w ++ [fin] ++ s) := by
    intro as s
    cases as with
    | nil => exact ends_cons hfin
    | cons a as =>
        obtain ⟨c, t, ha, -, hc⟩ := hbegin a
        rw [List.flatMap_cons, ha]
        exact ends_cons hc
  intro as bs s t _ _ heq
  beta_reduce at heq
  induction as generalizing bs with
  | nil =>
      cases bs with
      | nil => exact ⟨rfl, (List.cons.inj heq).2⟩
      | cons b bs =>
          obtain ⟨c, u, hb, hc, -⟩ := hbegin b
          rw [List.flatMap_cons, hb] at heq
          exact absurd (List.cons.inj heq).1.symm hc
  | cons a as ih =>
      cases bs with
      | nil =>
          obtain ⟨c, u, ha, hc, -⟩ := hbegin a
          rw [List.flatMap_cons, ha] at heq
          exact absurd (List.cons.inj heq).1 hc
      | cons b bs =>
          rw [List.flatMap_cons, List.flatMap_cons] at heq
          simp only [List.append_assoc] at heq
          obtain ⟨rfl, hrest⟩ := h (by simpa using hends as s) (by simpa using hends bs t) heq
          obtain ⟨rfl, hst⟩ := @ih bs (by simpa using hrest)
          exact ⟨rfl, hst⟩

/-- Any number of values with separators between and a mark at the end. -/
theorem separated {sep fin : σ} (h : Writes stop w) (hsep : stop sep) (hfin : stop fin)
    (hne : sep ≠ fin) (hbegin : ∀ a, ∃ c t, w a = c :: t ∧ c ≠ fin) :
    Writes anything fun as : List α => [sep].intercalate (as.map w) ++ [fin] := by
  have htail : Writes anything fun as : List α => as.flatMap (fun a => sep :: w a) ++ [fin] :=
    list (prepend [sep] h) hfin fun a => ⟨sep, w a, rfl, hne, hsep⟩
  have hcons : ∀ (a : α) (as : List α), [sep].intercalate ((a :: as).map w) =
      w a ++ as.flatMap fun a => sep :: w a := by
    intro a as
    induction as generalizing a with
    | nil => simp
    | cons b as ih =>
        rw [List.map_cons, List.intercalate_cons_of_ne_nil (by simp), ih, List.flatMap_cons]
        simp
  have hends : ∀ (as : List α) (s : List σ),
      Ends stop (as.flatMap (fun a => sep :: w a) ++ [fin] ++ s) := by
    intro as s
    cases as with
    | nil => exact ends_cons hfin
    | cons a as => exact ends_cons hsep
  intro as bs s t _ _ heq
  beta_reduce at heq
  cases as with
  | nil =>
      cases bs with
      | nil => exact ⟨rfl, (List.cons.inj heq).2⟩
      | cons b bs =>
          obtain ⟨c, u, hb, hc⟩ := hbegin b
          rw [hcons, hb] at heq
          exact absurd (List.cons.inj heq).1.symm hc
  | cons a as =>
      cases bs with
      | nil =>
          obtain ⟨c, u, ha, hc⟩ := hbegin a
          rw [hcons, ha] at heq
          exact absurd (List.cons.inj heq).1 hc
      | cons b bs =>
          rw [hcons, hcons] at heq
          simp only [List.append_assoc] at heq
          obtain ⟨rfl, hrest⟩ := h (by simpa using hends as s) (by simpa using hends bs t) heq
          obtain ⟨rfl, hst⟩ := htail (ends_anything s) (ends_anything t)
            (show _ = bs.flatMap (fun a => sep :: w a) ++ [fin] ++ t by simpa using hrest)
          exact ⟨rfl, hst⟩

/-- What can be read back is unambiguous. -/
theorem of_reader {r : List σ → Option (α × List σ)} (h : ∀ a s, r (w a ++ s) = some (a, s)) :
    Writes anything w := by
  intro a b s t _ _ heq
  have hread := h a s
  rw [heq, h] at hread
  exact ⟨(Prod.mk.inj (Option.some.inj hread)).1.symm, (Prod.mk.inj (Option.some.inj hread)).2.symm⟩

/-- Symbols of one class end where another begins. -/
theorem of_class {p : σ → Bool} (hw : Function.Injective w) (hp : ∀ a, ∀ c ∈ w a, p c = true) :
    Writes (fun c => p c = false) w := by
  have htake : ∀ (a : α) (s : List σ), Ends (fun c => p c = false) s →
      (w a ++ s).takeWhile p = w a := by
    intro a s hs
    rw [List.takeWhile_append_of_pos (hp a)]
    cases s with
    | nil => simp
    | cons c s =>
        have hc := hs c rfl
        rw [List.takeWhile_cons_of_neg (by rw [hc]; exact Bool.false_ne_true), List.append_nil]
  intro a b s t hs ht heq
  have hab := htake a s hs
  rw [heq, htake b t ht] at hab
  rw [hab] at heq
  exact ⟨hw hab.symm, List.append_cancel_left heq⟩

end Writes

end Unambiguous
