import Mathlib.Data.List.Induction
import Mathlib.Data.List.Nodup
import Mathlib.Data.List.Pairwise
import Mathlib.Data.Nat.Bitwise

/-!
# Checksums by a linear shift register

A register holds `k` symbols of `w` bits. Taking in a symbol updates the
register by a map `feed` that is linear in exclusive or, and adds the symbol.
Everything follows from that: what a word leaves in the register is what its
symbols leave one by one, so the last `k` symbols can be chosen to leave any
value wanted, in one way only (`run_symbols_iff`), and a word passes the check
together with another exactly if their difference leaves nothing.

Two kinds of difference never leave nothing. A burst, confined to `k`
symbols in a row, stands in the register as it is, and `feed` forgets nothing
(`burst`). And where the orbits of single symbols keep apart, no difference of
up to three symbols vanishes, wherever they stand (`Separated.sparse`); whether
they do is for a computation to say (`separated_of_table`).
-/

/-- A register of `k` symbols of `w` bits and the map that makes room for the
next symbol. -/
structure ShiftRegister (w k : Nat) where
  feed : Nat → Nat
  linear : ∀ a b, feed (a ^^^ b) = feed a ^^^ feed b
  faithful : ∀ a, a < 2 ^ (w * k) → feed a = 0 → a = 0
  /-- As long as nothing leaves the register, it only shifts. -/
  shifts : ∀ a, a * 2 ^ w < 2 ^ (w * k) → feed a = a * 2 ^ w
  bounded : ∀ a, a < 2 ^ (w * k) → feed a < 2 ^ (w * k)
  pos : 0 < k

namespace ShiftRegister

variable {w k : Nat} (R : ShiftRegister w k) {s t : Nat} {us vs ws : List Nat}

/-- Takes in one symbol. -/
def step (s v : Nat) : Nat := R.feed s ^^^ v

/-- Takes in a word. -/
def run (s : Nat) (vs : List Nat) : Nat := vs.foldl R.step s

@[simp] theorem run_nil : R.run s [] = s := rfl

@[simp] theorem run_cons {v : Nat} : R.run s (v :: vs) = R.run (R.feed s ^^^ v) vs := rfl

theorem run_append : R.run s (us ++ vs) = R.run (R.run s us) vs := List.foldl_append

/-! ## Linearity -/

theorem xor_left_cancel {a b c : Nat} (h : a ^^^ b = a ^^^ c) : b = c := by
  rw [← Nat.xor_xor_cancel_left a b, h, Nat.xor_xor_cancel_left]

theorem xor_eq_zero {a b : Nat} : a ^^^ b = 0 ↔ a = b := by
  constructor
  · intro h
    exact (xor_left_cancel (a := a) (h.trans (Nat.xor_self a).symm)).symm
  · rintro rfl
    exact Nat.xor_self a

theorem feed_zero : R.feed 0 = 0 := by
  have h := R.linear 0 0
  rwa [Nat.xor_self, Nat.xor_self] at h

/-- The difference of two words, symbol by symbol. -/
def difference (us vs : List Nat) : List Nat := us.zipWith (· ^^^ ·) vs

@[simp] theorem difference_cons {u v : Nat} :
    difference (u :: us) (v :: vs) = (u ^^^ v) :: difference us vs := rfl

@[simp] theorem difference_self (vs : List Nat) :
    difference vs vs = List.replicate vs.length 0 := by
  induction vs with
  | nil => rfl
  | cons v vs ih => rw [difference_cons, ih, Nat.xor_self]; rfl

@[simp] theorem difference_zeros (vs : List Nat) :
    difference (List.replicate vs.length 0) vs = vs := by
  induction vs with
  | nil => rfl
  | cons v vs ih =>
      rw [List.length_cons, List.replicate_succ, difference_cons, ih, Nat.zero_xor]

theorem length_difference (hlen : us.length = vs.length) :
    (difference us vs).length = us.length := by
  rw [difference, List.length_zipWith, hlen, Nat.min_self]

theorem difference_append {us' vs' : List Nat} (hlen : us.length = vs.length) :
    difference (us ++ us') (vs ++ vs') = difference us vs ++ difference us' vs' :=
  List.zipWith_append hlen

theorem run_difference (hlen : us.length = vs.length) :
    R.run s us ^^^ R.run t vs = R.run (s ^^^ t) (difference us vs) := by
  induction us generalizing s t vs with
  | nil =>
      rw [List.length_nil] at hlen
      rw [List.length_eq_zero_iff.mp hlen.symm]
      rfl
  | cons u us ih =>
      cases vs with
      | nil => simp at hlen
      | cons v vs =>
          rw [List.length_cons, List.length_cons, Nat.add_right_cancel_iff] at hlen
          rw [run_cons, run_cons, ih hlen, difference_cons, run_cons, R.linear]
          congr 1
          ac_rfl

/-- Two words of one length leave the same in the register exactly if their
difference leaves nothing in an empty one. -/
theorem run_eq_iff (hlen : us.length = vs.length) :
    R.run s us = R.run s vs ↔ R.run 0 (difference us vs) = 0 := by
  rw [← xor_eq_zero, run_difference R hlen, Nat.xor_self]

/-! ## The last symbols -/

/-- The number whose symbols these are, the most significant first. -/
def number (w : Nat) (vs : List Nat) : Nat := vs.foldl (fun n v => n * 2 ^ w + v) 0

/-- The symbols of a number, the most significant of `k` first. -/
def symbols (w k n : Nat) : List Nat :=
  (List.range k).map fun i => n / 2 ^ (w * (k - 1 - i)) % 2 ^ w

@[simp] theorem length_symbols (w k n : Nat) : (symbols w k n).length = k := by
  simp [symbols]

theorem symbols_lt {n : Nat} : ∀ v ∈ symbols w k n, v < 2 ^ w := by
  intro v hv
  obtain ⟨i, -, rfl⟩ := List.mem_map.mp hv
  exact Nat.mod_lt _ (Nat.two_pow_pos w)

theorem number_concat (vs : List Nat) (v : Nat) :
    number w (vs ++ [v]) = number w vs * 2 ^ w + v := by
  rw [number, List.foldl_append]
  rfl

theorem number_lt (hvs : ∀ v ∈ vs, v < 2 ^ w) : number w vs < 2 ^ (w * vs.length) := by
  induction vs using List.reverseRecOn with
  | nil => simp [number]
  | append_singleton vs v ih =>
      have hv : v < 2 ^ w := hvs v (by simp)
      have hnum := ih fun x hx => hvs x (List.mem_append_left _ hx)
      rw [number_concat, List.length_append, List.length_singleton, Nat.mul_add, Nat.mul_one,
        Nat.pow_add]
      have hmul := Nat.mul_le_mul_right (2 ^ w) (Nat.succ_le_of_lt hnum)
      rw [Nat.succ_mul] at hmul
      omega

theorem symbols_succ (w k n : Nat) :
    symbols w (k + 1) n = symbols w k (n / 2 ^ w) ++ [n % 2 ^ w] := by
  rw [symbols, List.range_succ, List.map_append, List.map_singleton, symbols]
  congr 1
  · refine List.map_congr_left fun i hi => ?_
    have hi := List.mem_range.mp hi
    rw [Nat.div_div_eq_div_mul, ← Nat.pow_add]
    congr 3
    have hsub : k + 1 - 1 - i = (k - 1 - i) + 1 := by omega
    rw [hsub, Nat.mul_add, Nat.mul_one, Nat.add_comm]
  · simp

theorem number_symbols {n : Nat} (h : n < 2 ^ (w * k)) : number w (symbols w k n) = n := by
  induction k generalizing n with
  | zero =>
      have hn : n = 0 := by simpa using h
      rw [hn]
      rfl
  | succ k ih =>
      have hdiv : n / 2 ^ w < 2 ^ (w * k) := by
        rw [Nat.div_lt_iff_lt_mul (Nat.two_pow_pos w), ← Nat.pow_add]
        rwa [Nat.mul_add, Nat.mul_one] at h
      rw [symbols_succ, number_concat, ih hdiv]
      have hdm := Nat.div_add_mod n (2 ^ w)
      rw [Nat.mul_comm] at hdm
      exact hdm

theorem symbols_number (hvs : ∀ v ∈ vs, v < 2 ^ w) :
    symbols w vs.length (number w vs) = vs := by
  induction vs using List.reverseRecOn with
  | nil => rfl
  | append_singleton vs v ih =>
      have hv : v < 2 ^ w := hvs v (by simp)
      have hvs := fun x hx => hvs x (List.mem_append_left _ hx)
      rw [List.length_append, List.length_singleton, symbols_succ, number_concat]
      rw [Nat.mul_comm, Nat.mul_add_div (Nat.two_pow_pos w), Nat.div_eq_of_lt hv,
        Nat.add_zero, ih hvs, Nat.mul_add_mod, Nat.mod_eq_of_lt hv]

theorem number_eq_zero (hvs : ∀ v ∈ vs, v < 2 ^ w) (h : number w vs = 0) :
    ∀ v ∈ vs, v = 0 := by
  intro v hv
  have hsym := symbols_number hvs
  rw [h] at hsym
  rw [← hsym] at hv
  obtain ⟨i, -, rfl⟩ := List.mem_map.mp hv
  rw [Nat.zero_div, Nat.zero_mod]

/-- A symbol below a shifted register does not touch it. -/
theorem mul_xor {a v : Nat} (hv : v < 2 ^ w) : a * 2 ^ w ^^^ v = a * 2 ^ w + v := by
  rw [Nat.mul_comm]
  refine Nat.eq_of_testBit_eq fun j => ?_
  rw [Nat.testBit_xor, Nat.testBit_two_pow_mul_add a hv, Nat.testBit_two_pow_mul]
  split
  · next hj => simp [Nat.not_le_of_lt hj]
  · next hj =>
      have hpow : 2 ^ w ≤ 2 ^ j := Nat.pow_le_pow_right (by omega) (by omega)
      rw [Nat.testBit_lt_two_pow (Nat.lt_of_lt_of_le hv hpow)]
      simp [Nat.le_of_not_lt hj]

/-- In an empty register, up to `k` symbols stand as they are. -/
theorem run_zero (hvs : ∀ v ∈ vs, v < 2 ^ w) (hlen : vs.length ≤ k) :
    R.run 0 vs = number w vs := by
  induction vs using List.reverseRecOn with
  | nil => rfl
  | append_singleton vs v ih =>
      have hv : v < 2 ^ w := hvs v (by simp)
      have hvs := fun x hx => hvs x (List.mem_append_left _ hx)
      rw [List.length_append, List.length_singleton] at hlen
      have hnum := number_lt hvs
      have hroom : number w vs * 2 ^ w < 2 ^ (w * k) := by
        calc number w vs * 2 ^ w
            < 2 ^ (w * vs.length) * 2 ^ w := Nat.mul_lt_mul_of_pos_right hnum (Nat.two_pow_pos w)
          _ = 2 ^ (w * (vs.length + 1)) := by rw [← Nat.pow_add, Nat.mul_add, Nat.mul_one]
          _ ≤ 2 ^ (w * k) := Nat.pow_le_pow_right (by omega) (Nat.mul_le_mul_left w hlen)
      rw [run_append, run_cons, run_nil, ih hvs (by omega), R.shifts _ hroom, mul_xor hv,
        number_concat]

theorem symbol_lt (R : ShiftRegister w k) {v : Nat} (hv : v < 2 ^ w) : v < 2 ^ (w * k) :=
  Nat.lt_of_lt_of_le hv
    (Nat.pow_le_pow_right (by omega) (Nat.le_mul_of_pos_right w R.pos))

theorem run_lt (hs : s < 2 ^ (w * k)) (hvs : ∀ v ∈ vs, v < 2 ^ (w * k)) :
    R.run s vs < 2 ^ (w * k) := by
  induction vs generalizing s with
  | nil => exact hs
  | cons v vs ih =>
      obtain ⟨hv, hvs⟩ := List.forall_mem_cons.mp hvs
      exact ih (Nat.xor_lt_two_pow (R.bounded s hs) hv) hvs

/-- The last `k` symbols add their number to what zeros in their place would
leave. -/
theorem run_tail (hvs : ∀ v ∈ vs, v < 2 ^ w) (hlen : vs.length = k) :
    R.run s (us ++ vs) = R.run s (us ++ List.replicate k 0) ^^^ number w vs := by
  have hdiff : difference (List.replicate k 0) vs = vs := by
    rw [← hlen, difference_zeros]
  have hrun : R.run (R.run s us) (List.replicate k 0) ^^^ R.run (R.run s us) vs =
      number w vs := by
    rw [run_difference R (by rw [List.length_replicate, hlen]), hdiff, Nat.xor_self,
      R.run_zero hvs (Nat.le_of_eq hlen)]
  rw [run_append, run_append, ← hrun, Nat.xor_xor_cancel_left]

/-- There is exactly one way to choose the last `k` symbols so that a given
value is left. -/
theorem run_symbols_iff (hs : s < 2 ^ (w * k)) (ht : t < 2 ^ (w * k))
    (hus : ∀ v ∈ us, v < 2 ^ (w * k)) (hvs : ∀ v ∈ vs, v < 2 ^ w) (hlen : vs.length = k) :
    R.run s (us ++ vs) = t ↔
      vs = symbols w k (R.run s (us ++ List.replicate k 0) ^^^ t) := by
  have hzeros : R.run s (us ++ List.replicate k 0) < 2 ^ (w * k) := by
    refine R.run_lt hs fun v hv => ?_
    rcases List.mem_append.mp hv with hv | hv
    · exact hus v hv
    · rw [List.eq_of_mem_replicate hv]
      exact Nat.two_pow_pos (w * k)
  rw [R.run_tail hvs hlen]
  constructor
  · intro h
    rw [← h, Nat.xor_xor_cancel_left, ← hlen, symbols_number hvs]
  · intro h
    rw [h, number_symbols (Nat.xor_lt_two_pow hzeros ht), Nat.xor_xor_cancel_left]

/-! ## What the check notices -/

theorem run_zeros (n : Nat) : R.run s (List.replicate n 0) = R.feed^[n] s := by
  induction n generalizing s with
  | zero => rfl
  | succ n ih => rw [List.replicate_succ, run_cons, ih, Nat.xor_zero, Function.iterate_succ_apply]

theorem iterate_zero (n : Nat) : R.feed^[n] 0 = 0 := Function.iterate_fixed R.feed_zero n

theorem iterate_xor (n a b : Nat) : R.feed^[n] (a ^^^ b) = R.feed^[n] a ^^^ R.feed^[n] b := by
  induction n generalizing a b with
  | zero => rfl
  | succ n ih => rw [Function.iterate_succ_apply, R.linear, ih]; rfl

theorem iterate_lt (n : Nat) {a : Nat} (ha : a < 2 ^ (w * k)) :
    R.feed^[n] a < 2 ^ (w * k) := by
  induction n generalizing a with
  | zero => exact ha
  | succ n ih => exact ih (R.bounded a ha)

/-- The register forgets nothing. -/
theorem iterate_eq_zero {n a : Nat} (ha : a < 2 ^ (w * k)) (h : R.feed^[n] a = 0) :
    a = 0 := by
  induction n generalizing a with
  | zero => exact h
  | succ n ih => exact R.faithful a ha (ih (R.bounded a ha) h)

theorem difference_lt (hus : ∀ v ∈ us, v < 2 ^ w) (hvs : ∀ v ∈ vs, v < 2 ^ w) :
    ∀ v ∈ difference us vs, v < 2 ^ w := by
  induction us generalizing vs with
  | nil => exact nofun
  | cons u us ih =>
      cases vs with
      | nil => exact nofun
      | cons v vs =>
          obtain ⟨hu, hus⟩ := List.forall_mem_cons.mp hus
          obtain ⟨hv, hvs⟩ := List.forall_mem_cons.mp hvs
          rw [difference_cons]
          exact List.forall_mem_cons.mpr ⟨Nat.xor_lt_two_pow hu hv, ih hus hvs⟩

/-- Words of one length whose difference is zero throughout are the same. -/
theorem eq_of_difference (hlen : us.length = vs.length)
    (h : ∀ v ∈ difference us vs, v = 0) : us = vs := by
  induction us generalizing vs with
  | nil => exact (List.length_eq_zero_iff.mp hlen.symm).symm
  | cons u us ih =>
      cases vs with
      | nil => simp at hlen
      | cons v vs =>
          rw [difference_cons] at h
          obtain ⟨huv, h⟩ := List.forall_mem_cons.mp h
          rw [xor_eq_zero.mp huv, ih (by simpa using hlen) h]

/-- Two words that differ in a burst of up to `k` symbols leave different
values. -/
theorem burst {xs ys : List Nat} (hxs : ∀ v ∈ xs, v < 2 ^ w) (hys : ∀ v ∈ ys, v < 2 ^ w)
    (hlen : xs.length = ys.length) (hk : xs.length ≤ k)
    (h : R.run s (us ++ xs ++ vs) = R.run s (us ++ ys ++ vs)) : xs = ys := by
  rw [run_eq_iff R (by simp [hlen]), difference_append (by simp [hlen]),
    difference_append rfl, difference_self, difference_self, run_append, run_append, run_zeros,
    run_zeros, iterate_zero] at h
  have hlt := difference_lt hxs hys
  have hzero := R.iterate_eq_zero (R.run_lt (Nat.two_pow_pos _) fun v hv => R.symbol_lt (hlt v hv)) h
  rw [R.run_zero hlt (by rw [length_difference hlen]; exact hk)] at hzero
  exact eq_of_difference hlen (number_eq_zero hlt hzero)

/-- The same for words that agree before and after `k` places in a row. -/
theorem burst_within {i : Nat} (hus : ∀ v ∈ us, v < 2 ^ w) (hvs : ∀ v ∈ vs, v < 2 ^ w)
    (hlen : us.length = vs.length) (htake : us.take i = vs.take i)
    (hdrop : us.drop (i + k) = vs.drop (i + k)) (h : R.run s us = R.run s vs) : us = vs := by
  have hsplit : ∀ xs : List Nat, xs = xs.take i ++ (xs.drop i).take k ++ xs.drop (i + k) := by
    intro xs
    rw [← List.drop_drop, List.append_assoc, List.take_append_drop, List.take_append_drop]
  have hmid : ∀ xs : List Nat, (∀ v ∈ xs, v < 2 ^ w) →
      ∀ v ∈ (xs.drop i).take k, v < 2 ^ w :=
    fun xs hxs v hv => hxs v (List.mem_of_mem_drop (List.mem_of_mem_take hv))
  rw [hsplit us, hsplit vs, htake, hdrop] at h ⊢
  have hburst := R.burst (hmid us hus) (hmid vs hvs) (by simp [hlen])
    (by rw [List.length_take]; exact Nat.min_le_left _ _) h
  rw [hburst]

/-! ## Few symbols, far apart -/

/-- Above the last symbol, the values that single symbols leave behind in up to
`n` steps are different from each other and from nothing. -/
structure Separated (n : Nat) : Prop where
  lone : ∀ a d, 0 < a → a < 2 ^ w → 0 < d → d ≤ n → R.feed^[d] a / 2 ^ w ≠ 0
  pair : ∀ a b d d', 0 < a → a < 2 ^ w → 0 < b → b < 2 ^ w → 0 < d → d < d' → d' ≤ n →
    R.feed^[d] a / 2 ^ w ≠ R.feed^[d'] b / 2 ^ w

/-- A word is zero throughout, or there is a first symbol that is not. -/
theorem zeros_or_first (vs : List Nat) :
    (∀ v ∈ vs, v = 0) ∨
      ∃ i a rest, 0 < a ∧ vs = List.replicate i 0 ++ a :: rest := by
  induction vs with
  | nil => exact .inl nofun
  | cons v vs ih =>
      rcases Nat.eq_zero_or_pos v with rfl | hpos
      · rcases ih with hall | ⟨i, a, rest, ha, rfl⟩
        · exact .inl (List.forall_mem_cons.mpr ⟨rfl, hall⟩)
        · exact .inr ⟨i + 1, a, rest, ha, rfl⟩
      · exact .inr ⟨0, v, vs, hpos, rfl⟩

/-- How many symbols are not zero. -/
def weight (vs : List Nat) : Nat := vs.countP (0 < ·)

theorem weight_first {i a : Nat} (ha : 0 < a) :
    weight (List.replicate i 0 ++ a :: us) = weight us + 1 := by
  rw [weight, List.countP_append, List.countP_cons_of_pos (by simpa using ha)]
  simp [weight]

theorem zeros_of_weight (h : weight vs = 0) : ∀ v ∈ vs, v = 0 := by
  intro v hv
  have hpos := List.countP_eq_zero.mp h v hv
  simpa using hpos

theorem eq_replicate (h : ∀ v ∈ vs, v = 0) : vs = List.replicate vs.length 0 :=
  List.eq_replicate_of_mem h

/-- A word with up to three symbols that are not zero leaves something. -/
theorem Separated.sparse {R : ShiftRegister w k} {n : Nat} (hsep : R.Separated n) (hvs : ∀ v ∈ vs, v < 2 ^ w)
    (hlen : vs.length ≤ n) (hweight : weight vs ≤ 3) (h : R.run 0 vs = 0) :
    ∀ v ∈ vs, v = 0 := by
  -- the first symbol, and how far it has been fed when the next one comes
  rcases zeros_or_first vs with hall | ⟨i, a, rest, ha, rfl⟩
  · exact hall
  exfalso
  rw [weight_first ha] at hweight
  obtain ⟨haw, hrest⟩ := List.forall_mem_cons.mp fun v hv =>
    hvs v (List.mem_append_right _ hv)
  rw [run_append, run_zeros, iterate_zero, run_cons, R.feed_zero, Nat.zero_xor] at h
  rcases zeros_or_first rest with hall | ⟨j, b, rest, hb, rfl⟩
  · rw [eq_replicate hall, run_zeros] at h
    have hzero := R.iterate_eq_zero (R.symbol_lt haw) h
    omega
  rw [weight_first hb] at hweight
  obtain ⟨hbw, hrest⟩ := List.forall_mem_cons.mp fun v hv =>
    hrest v (List.mem_append_right _ hv)
  rw [run_append, run_zeros, run_cons, ← Function.iterate_succ_apply' R.feed] at h
  have hab : R.feed^[j + 1] a ^^^ b < 2 ^ (w * k) :=
    Nat.xor_lt_two_pow (R.iterate_lt _ (R.symbol_lt haw)) (R.symbol_lt hbw)
  simp only [List.length_append, List.length_replicate, List.length_cons] at hlen
  have hlone : R.feed^[j + 1] a / 2 ^ w ≠ 0 := hsep.lone a (j + 1) ha haw (by omega) (by omega)
  rcases zeros_or_first rest with hall | ⟨l, c, rest, hc, rfl⟩
  · rw [eq_replicate hall, run_zeros] at h
    have hzero := xor_eq_zero.mp (R.iterate_eq_zero hab h)
    rw [hzero, Nat.div_eq_of_lt hbw] at hlone
    exact hlone rfl
  rw [weight_first hc] at hweight
  obtain ⟨hcw, hrest⟩ := List.forall_mem_cons.mp fun v hv =>
    hrest v (List.mem_append_right _ hv)
  rw [run_append, run_zeros, run_cons, ← Function.iterate_succ_apply' R.feed] at h
  rw [eq_replicate (zeros_of_weight (by omega : weight rest = 0)), run_zeros] at h
  have hfed : R.feed^[l + 1] (R.feed^[j + 1] a ^^^ b) < 2 ^ (w * k) := R.iterate_lt _ hab
  -- nothing is left: the third symbol is what the first two have become
  have hthird := xor_eq_zero.mp
    (R.iterate_eq_zero (Nat.xor_lt_two_pow hfed (R.symbol_lt hcw)) h)
  rw [iterate_xor, ← Function.iterate_add_apply] at hthird
  have hhigh := congrArg (· / 2 ^ w) hthird
  simp only [Nat.xor_div_two_pow, Nat.div_eq_of_lt hcw] at hhigh
  simp only [List.length_append, List.length_replicate, List.length_cons] at hlen
  exact hsep.pair b a (l + 1) (l + 1 + (j + 1)) hb hbw ha haw (by omega) (by omega) (by omega)
    (xor_eq_zero.mp hhigh).symm

/-- Two words of one length that differ in up to three symbols leave different
values. -/
theorem Separated.differ {R : ShiftRegister w k} {n : Nat} (hsep : R.Separated n) (hus : ∀ v ∈ us, v < 2 ^ w)
    (hvs : ∀ v ∈ vs, v < 2 ^ w) (hlen : us.length = vs.length) (hn : us.length ≤ n)
    (hweight : weight (difference us vs) ≤ 3) (h : R.run s us = R.run s vs) : us = vs := by
  refine eq_of_difference hlen ?_
  refine hsep.sparse (difference_lt hus hvs) ?_ hweight ((run_eq_iff R hlen).mp h)
  rw [length_difference hlen]
  exact hn

/-! ## Checking the orbits

The orbits are listed and compared by their residues, which are looked up in one
number used as a set of bits. The list is made by whatever computes `feed` fast. -/

/-- What a register leaves above its last symbol, step after step. -/
def trail (w : Nat) (feed : Nat → Nat) (s : Nat) : Nat → List Nat
  | 0 => []
  | n + 1 => feed s / 2 ^ w :: trail w feed (feed s) n

/-- The trails of all symbols. -/
def trails (w : Nat) (feed : Nat → Nat) (n : Nat) : List Nat :=
  (List.range (2 ^ w - 1)).flatMap fun a => trail w feed (a + 1) n

/-- Whether the residues are different from each other and not yet seen. -/
def distinct (m : Nat) : Nat → List Nat → Bool
  | _, [] => true
  | seen, x :: xs =>
      if seen.testBit (x % m) then false else distinct m (seen ||| 2 ^ (x % m)) xs

theorem nodup_of_distinct {m seen : Nat} (h : distinct m seen vs = true) :
    vs.Nodup ∧ ∀ v ∈ vs, seen.testBit (v % m) = false := by
  induction vs generalizing seen with
  | nil => exact ⟨List.nodup_nil, nofun⟩
  | cons v vs ih =>
      rw [distinct] at h
      split at h
      · simp at h
      · next hnew =>
          obtain ⟨hnodup, hseen⟩ := ih h
          have hboth : ∀ x ∈ vs, seen.testBit (x % m) = false ∧ v % m ≠ x % m := by
            intro x hx
            simpa [Nat.testBit_two_pow] using hseen x hx
          refine ⟨List.nodup_cons.mpr ⟨fun hv => (hboth v hv).2 rfl, hnodup⟩, ?_⟩
          exact List.forall_mem_cons.mpr ⟨by simpa using hnew, fun x hx => (hboth x hx).1⟩

section Trails

variable {feed : Nat → Nat}

theorem length_trail (s n : Nat) : (trail w feed s n).length = n := by
  induction n generalizing s with
  | zero => rfl
  | succ n ih => rw [trail, List.length_cons, ih]

theorem getElem_trail (s n d : Nat) (hd : d < (trail w feed s n).length) :
    (trail w feed s n)[d] = feed^[d + 1] s / 2 ^ w := by
  induction n generalizing s d with
  | zero => simp [trail] at hd
  | succ n ih =>
      cases d with
      | zero => rfl
      | succ d => exact ih (feed s) d (by simpa [trail] using hd)

theorem mem_trail {s n d : Nat} (hpos : 0 < d) (hd : d ≤ n) :
    feed^[d] s / 2 ^ w ∈ trail w feed s n := by
  obtain ⟨d, rfl⟩ := Nat.exists_eq_succ_of_ne_zero (by omega : d ≠ 0)
  have hlt : d < (trail w feed s n).length := by
    rw [length_trail]
    omega
  exact getElem_trail s n d hlt ▸ List.getElem_mem hlt

/-- The orbits keep apart if the table of their trails has no repetition. -/
theorem separated_of_table {n m : Nat} (hfeed : ∀ a, R.feed a = feed a)
    (h : distinct m 0 (0 :: trails w feed n) = true) : R.Separated n := by
  obtain rfl : R.feed = feed := funext hfeed
  obtain ⟨hzero, hnodup⟩ := List.nodup_cons.mp (nodup_of_distinct h).1
  obtain ⟨heach, hpair⟩ := List.nodup_flatMap.mp hnodup
  have hmem : ∀ a d, 0 < a → a < 2 ^ w → 0 < d → d ≤ n →
      R.feed^[d] a / 2 ^ w ∈ trails w R.feed n := by
    intro a d ha haw hd hdn
    refine List.mem_flatMap.mpr ⟨a - 1, List.mem_range.mpr (by omega), ?_⟩
    rw [Nat.sub_add_cancel ha]
    exact mem_trail hd hdn
  refine ⟨fun a d ha haw hd hdn heq => hzero (heq ▸ hmem a d ha haw hd hdn), ?_⟩
  intro a b d d' ha haw hb hbw hd hdd hdn heq
  rcases eq_or_ne a b with rfl | hab
  · -- one orbit: its trail does not come back
    have hone := heach (a - 1) (List.mem_range.mpr (by omega))
    rw [Nat.sub_add_cancel ha] at hone
    have hlen : (trail w R.feed a n).length = n := length_trail a n
    have hd1 : d - 1 < (trail w R.feed a n).length := by omega
    have hd2 : d' - 1 < (trail w R.feed a n).length := by omega
    have hsame : (trail w R.feed a n)[d - 1] = (trail w R.feed a n)[d' - 1] := by
      rw [getElem_trail, getElem_trail, Nat.sub_add_cancel hd, Nat.sub_add_cancel (by omega),
        heq]
    have hidx := hone.getElem_inj_iff.mp hsame
    omega
  · -- two orbits: their trails have nothing in common
    have hrange : ∀ x, 0 < x → x < 2 ^ w → x - 1 ∈ List.range (2 ^ w - 1) :=
      fun x hx hxw => List.mem_range.mpr (by omega)
    have : Std.Symm (Function.onFun List.Disjoint fun a => trail w R.feed (a + 1) n) :=
      ⟨fun _ _ h _ ha hb => h hb ha⟩
    have hdisj := hpair.forall (hrange a ha haw) (hrange b hb hbw) (by omega)
    simp only [Nat.sub_add_cancel ha, Nat.sub_add_cancel hb, Function.onFun] at hdisj
    exact hdisj (mem_trail hd (by omega)) (heq ▸ mem_trail (by omega) hdn)

end Trails

end ShiftRegister
