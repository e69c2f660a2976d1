import Mathlib.Logic.Function.Basic
import Mathlib.Algebra.GroupWithZero.Nat

/-!
# Units of many assets, as one account sees them

`Account κ` is the ledger of one account over assets of type `κ`: the units
it holds, the units everybody else holds, and the parcels it has sent that
have neither arrived nor come back yet. A payment can only deliver units that
stand outside, a burn and a sending can only spend units that are held, and
`settle` ends the flight of one parcel, with the receiver or back home.

`units` is what exists of an asset. Only `mint` and `burn` change it; each
operation below has one lemma saying what it does to the holding and to the
units of every asset, stated with an `if` so that a caller never has to know
which asset moved.
-/

namespace Custody

/-- The ledger of one account. -/
structure Account (κ : Type*) where
  holding : κ → Nat
  outside : κ → Nat
  inFlight : List (κ × Nat)

variable {κ : Type*} [DecidableEq κ]

/-- The units of one asset among the parcels on their way. -/
def flying (k : κ) (parcels : List (κ × Nat)) : Nat :=
  (parcels.map fun p => if p.1 = k then p.2 else 0).sum

namespace Account

/-- What exists of an asset. -/
def units (c : Account κ) (k : κ) : Nat :=
  c.holding k + c.outside k + flying k c.inFlight

/-- A payment of `q` units into the account. -/
def receive (c : Account κ) (k : κ) (q : Nat) : Option (Account κ) :=
  if q ≤ c.outside k then
    some { c with
      holding := Function.update c.holding k (c.holding k + q)
      outside := Function.update c.outside k (c.outside k - q) }
  else none

def mint (c : Account κ) (k : κ) (q : Nat) : Account κ :=
  { c with holding := Function.update c.holding k (c.holding k + q) }

def burn (c : Account κ) (k : κ) (q : Nat) : Option (Account κ) :=
  if q ≤ c.holding k then
    some { c with holding := Function.update c.holding k (c.holding k - q) }
  else none

/-- Hands `q` units over to the carrier. -/
def send (c : Account κ) (k : κ) (q : Nat) : Option (Account κ) :=
  if q ≤ c.holding k then
    some { c with
      holding := Function.update c.holding k (c.holding k - q)
      inFlight := c.inFlight ++ [(k, q)] }
  else none

/-- Ends the flight of the `i`-th parcel: it stays with the receiver if
accepted, and comes back otherwise. -/
def settle (c : Account κ) (i : Nat) (accepted : Bool) : Account κ :=
  match c.inFlight[i]? with
  | none => c
  | some (k, q) =>
      if accepted then
        { c with
          outside := Function.update c.outside k (c.outside k + q)
          inFlight := c.inFlight.eraseIdx i }
      else
        { c with
          holding := Function.update c.holding k (c.holding k + q)
          inFlight := c.inFlight.eraseIdx i }

end Account

theorem update_add (f : κ → Nat) (k j : κ) (q : Nat) :
    Function.update f k (f k + q) j = f j + if j = k then q else 0 := by
  by_cases hj : j = k
  · subst hj; simp
  · simp [hj]

theorem update_sub {f : κ → Nat} {k : κ} {q : Nat} (hq : q ≤ f k) (j : κ) :
    Function.update f k (f k - q) j + (if j = k then q else 0) = f j := by
  by_cases hj : j = k
  · subst hj; simp [hq]
  · simp [hj]

theorem flying_append (k : κ) (p₁ p₂ : List (κ × Nat)) :
    flying k (p₁ ++ p₂) = flying k p₁ + flying k p₂ := by
  simp [flying]

theorem flying_single (j k : κ) (q : Nat) :
    flying j [(k, q)] = if j = k then q else 0 := by
  simp [flying, eq_comm]

theorem flying_eraseIdx {parcels : List (κ × Nat)} {i : Nat} {k : κ} {q : Nat}
    (hi : parcels[i]? = some (k, q)) (j : κ) :
    flying j (parcels.eraseIdx i) + (if j = k then q else 0) =
      flying j parcels := by
  induction parcels generalizing i with
  | nil => simp at hi
  | cons p ps ih =>
      cases i with
      | zero =>
          rw [List.getElem?_cons_zero, Option.some.injEq] at hi
          subst hi
          rw [List.eraseIdx_cons_zero, ← List.singleton_append, flying_append,
            flying_single, Nat.add_comm]
      | succ i =>
          rw [List.getElem?_cons_succ] at hi
          have := ih hi
          rw [List.eraseIdx_cons_succ, ← List.singleton_append,
            ← List.singleton_append (l := ps), flying_append, flying_append]
          omega

namespace Account

variable {c c' : Account κ} {k : κ} {q : Nat}

theorem receive_spec (h : c.receive k q = some c') :
    q ≤ c.outside k ∧
      (∀ j, c'.holding j = c.holding j + if j = k then q else 0) ∧
      (∀ j, c'.units j = c.units j) := by
  unfold receive at h
  split at h
  · next hq =>
      injection h with h
      subst h
      refine ⟨hq, fun j => update_add _ _ _ _, fun j => ?_⟩
      have h₁ := update_add c.holding k j q
      have h₂ := update_sub hq j
      simp only [units]
      omega
  · simp at h

theorem mint_holding (c : Account κ) (k : κ) (q : Nat) (j : κ) :
    (c.mint k q).holding j = c.holding j + if j = k then q else 0 :=
  update_add _ _ _ _

theorem mint_units (c : Account κ) (k : κ) (q : Nat) (j : κ) :
    (c.mint k q).units j = c.units j + if j = k then q else 0 := by
  have h := mint_holding c k q j
  simp only [units, mint] at h ⊢
  omega

theorem burn_spec (h : c.burn k q = some c') :
    (∀ j, c'.holding j + (if j = k then q else 0) = c.holding j) ∧
      (∀ j, c'.units j + (if j = k then q else 0) = c.units j) := by
  unfold burn at h
  split at h
  · next hq =>
      injection h with h
      subst h
      refine ⟨fun j => update_sub hq j, fun j => ?_⟩
      have h₁ := update_sub hq j
      simp only [units]
      omega
  · simp at h

theorem send_spec (h : c.send k q = some c') :
    (∀ j, c'.holding j + (if j = k then q else 0) = c.holding j) ∧
      (∀ j, c'.units j = c.units j) := by
  unfold send at h
  split at h
  · next hq =>
      injection h with h
      subst h
      refine ⟨fun j => update_sub hq j, fun j => ?_⟩
      have h₁ := update_sub hq j
      simp only [units, flying_append, flying_single]
      omega
  · simp at h

/-- Settling moves no units in or out of existence. -/
theorem settle_units (c : Account κ) (i : Nat) (accepted : Bool) (j : κ) :
    (c.settle i accepted).units j = c.units j := by
  unfold settle
  split
  · rfl
  · next k q hi =>
      have hfly := flying_eraseIdx hi j
      split
      · have h₁ := update_add c.outside k j q
        simp only [units]
        omega
      · have h₁ := update_add c.holding k j q
        simp only [units]
        omega

/-- A parcel that arrives does not come back to the holding. -/
theorem settle_accepted_holding (c : Account κ) (i : Nat) :
    (c.settle i true).holding = c.holding := by
  unfold settle
  split <;> rfl

/-- A parcel that is sent back is held again. -/
theorem settle_rejected_holding {i : Nat} (hi : c.inFlight[i]? = some (k, q)) (j : κ) :
    (c.settle i false).holding j = c.holding j + if j = k then q else 0 := by
  rw [settle, hi]
  exact update_add _ _ _ _

theorem holding_le_settle (c : Account κ) (i : Nat) (accepted : Bool) (j : κ) :
    c.holding j ≤ (c.settle i accepted).holding j := by
  unfold settle
  split
  · exact Nat.le_refl _
  · next k q hi =>
      split
      · exact Nat.le_refl _
      · have h₁ := update_add c.holding k j q
        simp only []
        omega

/-- What is sent is on its way. -/
theorem send_inFlight (h : c.send k q = some c') : (k, q) ∈ c'.inFlight := by
  unfold send at h
  split at h
  · injection h with h
    subst h
    exact List.mem_append_right _ List.mem_cons_self
  · simp at h

/-- What is held and what is about to be paid in exist side by side. -/
theorem holding_add_le_units (hq : q ≤ c.outside k) : c.holding k + q ≤ c.units k := by
  unfold units
  omega

theorem holding_le_units (c : Account κ) (k : κ) : c.holding k ≤ c.units k := by
  unfold units
  omega

end Account

end Custody
