import Mathlib.Data.List.Basic
import Mathlib.Data.Nat.Bitwise
import Mathlib.Tactic.Ring

/-!
# Words and the bits they are made of

A word of width `w` is a number below `2 ^ w`; its bits are listed the most
significant first. What makes this more than notation is `Splits`: a bit
string is cut into words of one width from the front, and what is left over is
shorter than a word. There is only one way to do it (`Splits.unique`), so two
programs that regroup the same bits into words of the same width agree, however
they keep their accumulators.
-/

namespace BitString

/-- The `w` low bits of a number, the most significant first. -/
def ofWord : Nat → Nat → List Bool
  | 0, _ => []
  | w + 1, n => n.testBit w :: ofWord w n

/-- The number that a bit string stands for. -/
def toNat (bits : List Bool) : Nat :=
  bits.foldl (fun n b => 2 * n + b.toNat) 0

/-- The bits of a string of words. -/
def ofWords (w : Nat) (ws : List Nat) : List Bool :=
  ws.flatMap (ofWord w)

variable {w n k : Nat} {bits rest : List Bool} {ws : List Nat}

@[simp] theorem length_ofWord (w n : Nat) : (ofWord w n).length = w := by
  induction w with
  | zero => rfl
  | succ w ih => simp [ofWord, ih]

@[simp] theorem ofWords_nil (w : Nat) : ofWords w [] = [] := rfl

@[simp] theorem ofWords_cons (w n : Nat) (ws : List Nat) :
    ofWords w (n :: ws) = ofWord w n ++ ofWords w ws := rfl

@[simp] theorem ofWords_append (w : Nat) (us vs : List Nat) :
    ofWords w (us ++ vs) = ofWords w us ++ ofWords w vs :=
  List.flatMap_append

@[simp] theorem length_ofWords (w : Nat) (ws : List Nat) :
    (ofWords w ws).length = w * ws.length := by
  induction ws with
  | nil => rfl
  | cons n ws ih => simp [ih, Nat.mul_add, Nat.add_comm]

/-! ## Numbers -/

@[simp] theorem toNat_nil : toNat [] = 0 := rfl

theorem foldl_toNat (bits : List Bool) (n : Nat) :
    bits.foldl (fun n b => 2 * n + b.toNat) n = n * 2 ^ bits.length + toNat bits := by
  induction bits generalizing n with
  | nil => simp
  | cons b bits ih =>
      simp only [toNat, List.foldl_cons, List.length_cons, Nat.mul_zero, Nat.zero_add]
      rw [ih, ih b.toNat, Nat.pow_succ]
      ring

theorem toNat_append (bits rest : List Bool) :
    toNat (bits ++ rest) = toNat bits * 2 ^ rest.length + toNat rest := by
  rw [toNat, List.foldl_append, foldl_toNat]
  rfl

theorem toNat_cons (b : Bool) (bits : List Bool) :
    toNat (b :: bits) = b.toNat * 2 ^ bits.length + toNat bits := by
  have happ := toNat_append [b] bits
  simpa [toNat] using happ

theorem toNat_lt (bits : List Bool) : toNat bits < 2 ^ bits.length := by
  induction bits with
  | nil => simp
  | cons b bits ih =>
      rw [toNat_cons, List.length_cons, Nat.pow_succ]
      have hb : b.toNat ≤ 1 := b.toNat_le
      have hmul : b.toNat * 2 ^ bits.length ≤ 2 ^ bits.length := by
        simpa using Nat.mul_le_mul_right (2 ^ bits.length) hb
      omega

theorem toNat_append_div (bits rest : List Bool) :
    toNat (bits ++ rest) / 2 ^ rest.length = toNat bits := by
  rw [toNat_append, Nat.mul_comm, Nat.mul_add_div (Nat.two_pow_pos _),
    Nat.div_eq_of_lt (toNat_lt rest), Nat.add_zero]

theorem toNat_append_mod (bits rest : List Bool) :
    toNat (bits ++ rest) % 2 ^ rest.length = toNat rest := by
  rw [toNat_append, Nat.mul_comm, Nat.mul_add_mod, Nat.mod_eq_of_lt (toNat_lt rest)]

/-- Reading the low bits of a number back gives it modulo a power of two. -/
theorem toNat_ofWord (w n : Nat) : toNat (ofWord w n) = n % 2 ^ w := by
  induction w with
  | zero => simp [ofWord, Nat.mod_one]
  | succ w ih =>
      rw [ofWord, toNat_cons, ih, length_ofWord, Nat.toNat_testBit, Nat.pow_succ,
        Nat.mod_mul]
      ring

theorem toNat_ofWord_of_lt (h : n < 2 ^ w) : toNat (ofWord w n) = n := by
  rw [toNat_ofWord, Nat.mod_eq_of_lt h]

/-- The bits of the number that a bit string stands for. -/
theorem ofWord_toNat (bits : List Bool) : ofWord bits.length (toNat bits) = bits := by
  have inj : ∀ {xs ys : List Bool}, xs.length = ys.length → toNat xs = toNat ys →
      xs = ys := by
    intro xs
    induction xs with
    | nil =>
        intro ys hlen _
        rw [List.length_nil] at hlen
        exact (List.length_eq_zero_iff.mp hlen.symm).symm
    | cons x xs ih =>
        intro ys hlen hnat
        cases ys with
        | nil => simp at hlen
        | cons y ys =>
            rw [List.length_cons, List.length_cons, Nat.add_right_cancel_iff] at hlen
            rw [toNat_cons, toNat_cons, hlen] at hnat
            have hxs := toNat_lt xs
            have hys := toNat_lt ys
            rw [hlen] at hxs
            -- the leading bit decides on which side of the power the number is
            cases x <;> cases y <;> simp at hnat
            · rw [ih hlen hnat]
            · omega
            · omega
            · rw [ih hlen hnat]
  refine inj (length_ofWord _ _) ?_
  exact toNat_ofWord_of_lt (toNat_lt bits)

theorem ofWord_injective {m : Nat} (hm : m < 2 ^ w) (hn : n < 2 ^ w)
    (h : ofWord w m = ofWord w n) : m = n := by
  rw [← toNat_ofWord_of_lt hm, h, toNat_ofWord_of_lt hn]

/-- A number is zero if its bits are. -/
theorem toNat_eq_zero : toNat bits = 0 ↔ bits = List.replicate bits.length false := by
  induction bits with
  | nil => simp
  | cons b bits ih =>
      rw [toNat_cons, List.length_cons, List.replicate_succ, List.cons.injEq, ← ih]
      cases b <;> simp

@[simp] theorem toNat_replicate (k : Nat) : toNat (List.replicate k false) = 0 := by
  rw [toNat_eq_zero, List.length_replicate]

/-- A word as the two parts of its bits. -/
theorem ofWord_append {xs ys : List Bool} (hlen : xs.length + ys.length = w) :
    ofWord w (toNat (xs ++ ys)) = xs ++ ys := by
  rw [← hlen, ← List.length_append]
  exact ofWord_toNat (xs ++ ys)

/-! ## Cutting a bit string into words -/

/-- A bit string is a string of words and less than a word more. -/
structure Splits (w : Nat) (bits : List Bool) (ws : List Nat) (rest : List Bool) :
    Prop where
  eq : bits = ofWords w ws ++ rest
  words : ∀ x ∈ ws, x < 2 ^ w
  short : rest.length < w

/-- Words in front of a bit string that is cut. -/
theorem Splits.prepend {us : List Nat} (hus : ∀ x ∈ us, x < 2 ^ w)
    (h : Splits w bits ws rest) : Splits w (ofWords w us ++ bits) (us ++ ws) rest where
  eq := by rw [ofWords_append, List.append_assoc, ← h.eq]
  words := by
    intro x hx
    rcases List.mem_append.mp hx with hx | hx
    · exact hus x hx
    · exact h.words x hx
  short := h.short

/-- There is only one way to cut. -/
theorem Splits.unique {us : List Nat} {rest' : List Bool} (h : Splits w bits ws rest)
    (h' : Splits w bits us rest') : ws = us ∧ rest = rest' := by
  induction ws generalizing us bits with
  | nil =>
      cases us with
      | nil => exact ⟨rfl, by simpa using h.eq.symm.trans h'.eq⟩
      | cons u us =>
          have hlen := congrArg List.length (h.eq.symm.trans h'.eq)
          have hshort := h.short
          simp at hlen
          omega
  | cons x ws ih =>
      cases us with
      | nil =>
          have hlen := congrArg List.length (h.eq.symm.trans h'.eq)
          have hshort := h'.short
          simp at hlen
          omega
      | cons u us =>
          have heq := h.eq.symm.trans h'.eq
          rw [ofWords_cons, ofWords_cons, List.append_assoc, List.append_assoc] at heq
          obtain ⟨hhead, htail⟩ := List.append_inj heq (by simp)
          obtain ⟨hx, hws⟩ := List.forall_mem_cons.mp h.words
          obtain ⟨hu, hus⟩ := List.forall_mem_cons.mp h'.words
          obtain ⟨rfl, rfl⟩ := ih ⟨rfl, hws, h.short⟩ ⟨htail, hus, h'.short⟩
          exact ⟨by rw [ofWord_injective hx hu hhead], rfl⟩

end BitString
