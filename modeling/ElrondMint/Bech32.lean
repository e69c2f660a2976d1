import ElrondMint.Lib.ShiftRegister

/-!
# The text form of addresses

`wallet/bech32.py`, as far as erdpy uses it: the checksum, the encoder and the
decoder. The regrouping of bits, `convertbits`, is in `Convertbits.lean`.

A text is a list of characters. Python's integers are natural numbers here,
none of them is ever negative. Where the source answers `(None, None)` the
model answers `none`, and an index out of `CHARSET` is `none` as well.

The decoder accepts nothing but what the encoder produces, up to a change of
case of the whole text (`bech32_decode_iff`), and the checksum tells any two
accepted texts of one length apart that differ in up to three characters or in
a burst of six (`typos_noticed`). It does not notice everything:
`insertion_unnoticed`.
-/

namespace ElrondMint

abbrev Text := List Char

namespace Text

/-- `str.lower`, on the characters the decoder lets through. -/
def lower (s : Text) : Text := s.map Char.toLower

/-- `str.upper`. -/
def upper (s : Text) : Text := s.map Char.toUpper

/-- `str.rfind` of one character, with `none` for -1. -/
def rfind (c : Char) : Text → Option Nat
  | [] => none
  | x :: s =>
      match rfind c s with
      | some i => some (i + 1)
      | none => if x = c then some 0 else none

end Text

/-! ## The source's functions -/

def charset : List Char :=
  ['q', 'p', 'z', 'r', 'y', '9', 'x', '8', 'g', 'f', '2', 't', 'v', 'd', 'w', '0',
   's', '3', 'j', 'n', '5', '4', 'k', 'h', 'c', 'e', '6', 'm', 'u', 'a', '7', 'l']

def generator : List Nat := [0x3b6a57b2, 0x26508e6d, 0x1ea119fa, 0x3d4233dd, 0x2a1462b3]

/-- One turn of the loop of `bech32_polymod`. -/
def bech32PolymodStep (chk value : Nat) : Nat :=
  let top := chk >>> 25
  let chk := ((chk &&& 0x1ffffff) <<< 5) ^^^ value
  (List.range 5).foldl
    (fun chk i => chk ^^^ (if (top >>> i) &&& 1 ≠ 0 then generator.getD i 0 else 0)) chk

/-- `bech32_polymod`. -/
def bech32Polymod (values : List Nat) : Nat := values.foldl bech32PolymodStep 1

/-- `bech32_hrp_expand`. -/
def bech32HrpExpand (hrp : Text) : List Nat :=
  hrp.map (fun x => x.toNat >>> 5) ++ [0] ++ hrp.map (fun x => x.toNat &&& 31)

/-- `bech32_verify_checksum`. -/
def bech32VerifyChecksum (hrp : Text) (data : List Nat) : Bool :=
  bech32Polymod (bech32HrpExpand hrp ++ data) = 1

/-- `bech32_create_checksum`. -/
def bech32CreateChecksum (hrp : Text) (data : List Nat) : List Nat :=
  let values := bech32HrpExpand hrp ++ data
  let polymod := bech32Polymod (values ++ [0, 0, 0, 0, 0, 0]) ^^^ 1
  (List.range 6).map fun i => (polymod >>> (5 * (5 - i))) &&& 31

/-- `bech32_encode`. -/
def bech32Encode (hrp : Text) (data : List Nat) : Option Text := do
  let combined := data ++ bech32CreateChecksum hrp data
  let chars ← combined.mapM fun d => charset[d]?
  return hrp ++ ['1'] ++ chars

/-- `bech32_decode`. -/
def bech32Decode (bech : Text) : Option (Text × List Nat) :=
  if bech.any (fun x => decide (x.toNat < 33) || decide (x.toNat > 126)) ||
      (bech.lower ≠ bech && bech.upper ≠ bech) then none
  else
    let bech := bech.lower
    match bech.rfind '1' with
    | none => none
    | some pos =>
        if pos < 1 ∨ pos + 7 > bech.length ∨ bech.length > 90 then none
        else if ¬ (bech.drop (pos + 1)).all (fun x => x ∈ charset) then none
        else
          let hrp := bech.take pos
          let data := (bech.drop (pos + 1)).map fun x => charset.idxOf x
          if bech32VerifyChecksum hrp data then some (hrp, data.take (data.length - 6))
          else none

/-! ## The checksum is a shift register -/

/-- What the top symbol of the register feeds back. -/
def feedback (top : Nat) : Nat :=
  (List.range 5).foldl
    (fun chk i => chk ^^^ (if (top >>> i) &&& 1 ≠ 0 then generator.getD i 0 else 0)) 0

theorem foldl_xor (f : Nat → Nat) (is : List Nat) (a : Nat) :
    is.foldl (fun chk i => chk ^^^ f i) a = a ^^^ is.foldl (fun chk i => chk ^^^ f i) 0 := by
  induction is generalizing a with
  | nil => simp
  | cons i is ih =>
      rw [List.foldl_cons, List.foldl_cons, ih, ih (0 ^^^ f i), Nat.zero_xor, Nat.xor_assoc]

theorem bit_iff (top i : Nat) : (top >>> i) &&& 1 ≠ 0 ↔ top.testBit i = true := by
  rw [Nat.testBit, Nat.and_comm, bne_iff_ne]

theorem ite_xor (a b i g : Nat) :
    (if ((a ^^^ b) >>> i) &&& 1 ≠ 0 then g else 0) =
      (if (a >>> i) &&& 1 ≠ 0 then g else 0) ^^^ (if (b >>> i) &&& 1 ≠ 0 then g else 0) := by
  simp only [bit_iff, Nat.testBit_xor]
  cases a.testBit i <;> cases b.testBit i <;> simp

theorem feedback_xor (a b : Nat) : feedback (a ^^^ b) = feedback a ^^^ feedback b := by
  unfold feedback
  induction List.range 5 with
  | nil => simp
  | cons i is ih =>
      simp only [List.foldl_cons, Nat.zero_xor]
      rw [foldl_xor, foldl_xor (a := if (a >>> i) &&& 1 ≠ 0 then _ else _),
        foldl_xor (a := if (b >>> i) &&& 1 ≠ 0 then _ else _), ih, ite_xor]
      ac_rfl

theorem generator_lt : ∀ i, generator.getD i 0 < 2 ^ 30
  | 0 | 1 | 2 | 3 | 4 => by decide
  | _ + 5 => Nat.two_pow_pos 30

theorem feedback_lt (top : Nat) : feedback top < 2 ^ 30 := by
  unfold feedback
  induction List.range 5 with
  | nil => exact Nat.two_pow_pos 30
  | cons i is ih =>
      rw [List.foldl_cons, Nat.zero_xor, foldl_xor]
      refine Nat.xor_lt_two_pow ?_ ih
      split
      · exact generator_lt i
      · exact Nat.two_pow_pos 30

/-- The lowest symbol of the feedback tells the top symbol. -/
theorem feedback_faithful : ∀ top, top < 32 → feedback top % 32 = 0 → top = 0 := by
  decide

/-- `bech32_polymod` without the value that is taken in. -/
def polymodFeed (chk : Nat) : Nat := ((chk &&& 0x1ffffff) <<< 5) ^^^ feedback (chk >>> 25)

theorem polymodFeed_eq (chk : Nat) :
    polymodFeed chk = (chk % 2 ^ 25) * 2 ^ 5 ^^^ feedback (chk / 2 ^ 25) := by
  have hand : chk &&& 0x1ffffff = chk % 2 ^ 25 := Nat.and_two_pow_sub_one_eq_mod chk 25
  rw [polymodFeed, hand, Nat.shiftLeft_eq, Nat.shiftRight_eq_div_pow]

theorem polymodFeed_shifts {a : Nat} (h : a * 2 ^ 5 < 2 ^ 30) : polymodFeed a = a * 2 ^ 5 := by
  have hlow : a < 2 ^ 25 := by omega
  rw [polymodFeed_eq, Nat.mod_eq_of_lt hlow, Nat.div_eq_of_lt hlow,
    show feedback 0 = 0 from rfl, Nat.xor_zero]

theorem polymodFeed_faithful {a : Nat} (ha : a < 2 ^ 30) (h : polymodFeed a = 0) : a = 0 := by
  have hmod := congrArg (· % 2 ^ 5) h
  simp only [polymodFeed_eq, Nat.xor_mod_two_pow, Nat.mul_mod_left, Nat.zero_xor] at hmod
  have htop := feedback_faithful (a / 2 ^ 25) (by omega) hmod
  have hroom : a * 2 ^ 5 < 2 ^ 30 := by omega
  rw [polymodFeed_shifts hroom] at h
  omega

/-- Six symbols of five bits, fed by the generator. -/
def polymodRegister : ShiftRegister 5 6 where
  feed := polymodFeed
  linear a b := by
    unfold polymodFeed
    rw [Nat.and_xor_distrib_right, Nat.shiftLeft_xor_distrib, Nat.shiftRight_xor_distrib,
      feedback_xor]
    ac_rfl
  faithful a ha h := polymodFeed_faithful ha h
  shifts a h := polymodFeed_shifts h
  bounded a _ := by
    rw [polymodFeed_eq]
    refine Nat.xor_lt_two_pow ?_ (feedback_lt _)
    have hmod := Nat.mod_lt a (Nat.two_pow_pos 25)
    omega
  pos := by omega

theorem bech32PolymodStep_eq (chk value : Nat) :
    bech32PolymodStep chk value = polymodRegister.step chk value := by
  unfold bech32PolymodStep ShiftRegister.step polymodRegister polymodFeed feedback
  simp only []
  rw [foldl_xor]
  ac_rfl

theorem bech32Polymod_eq (values : List Nat) :
    bech32Polymod values = polymodRegister.run 1 values := by
  have hstep : bech32PolymodStep = polymodRegister.step :=
    funext fun chk => funext fun value => bech32PolymodStep_eq chk value
  rw [bech32Polymod, hstep]
  rfl

theorem bech32CreateChecksum_eq (hrp : Text) (data : List Nat) :
    bech32CreateChecksum hrp data =
      ShiftRegister.symbols 5 6
        (polymodRegister.run 1 (bech32HrpExpand hrp ++ data ++ List.replicate 6 0) ^^^ 1) := by
  rw [bech32CreateChecksum, ShiftRegister.symbols, ← bech32Polymod_eq]
  refine List.map_congr_left fun i _ => ?_
  rw [Nat.shiftRight_eq_div_pow]
  exact Nat.and_two_pow_sub_one_eq_mod _ 5

@[simp] theorem length_bech32CreateChecksum (hrp : Text) (data : List Nat) :
    (bech32CreateChecksum hrp data).length = 6 := by
  rw [bech32CreateChecksum_eq, ShiftRegister.length_symbols]

theorem bech32CreateChecksum_lt (hrp : Text) (data : List Nat) :
    ∀ v ∈ bech32CreateChecksum hrp data, v < 32 := by
  rw [bech32CreateChecksum_eq]
  exact ShiftRegister.symbols_lt

/-- The expansion of a character fits in the register. -/
theorem bech32HrpExpand_lt (hrp : Text) : ∀ v ∈ bech32HrpExpand hrp, v < 2 ^ 30 := by
  have hchar : ∀ x : Char, x.toNat < 2 ^ 30 := fun x => by
    have hval : x.toNat < 0xd800 ∨ 0xdfff < x.toNat ∧ x.toNat < 0x110000 := x.valid
    omega
  intro v hv
  simp only [bech32HrpExpand, List.mem_append, List.mem_map, List.mem_singleton] at hv
  obtain (⟨x, -, rfl⟩ | rfl) | ⟨x, -, rfl⟩ := hv
  · exact Nat.lt_of_le_of_lt (Nat.shiftRight_le _ _) (hchar x)
  · decide
  · exact Nat.lt_of_le_of_lt Nat.and_le_left (hchar x)

/-- Every text and data have one checksum: of all tails of six symbols, the
check accepts the one created and no other. -/
theorem checksum_unique (hrp : Text) {data tail : List Nat} (hdata : ∀ v ∈ data, v < 32)
    (htail : ∀ v ∈ tail, v < 32) (hlen : tail.length = 6) :
    bech32VerifyChecksum hrp (data ++ tail) = true ↔ tail = bech32CreateChecksum hrp data := by
  have hprefix : ∀ v ∈ bech32HrpExpand hrp ++ data, v < 2 ^ (5 * 6) := by
    intro v hv
    rcases List.mem_append.mp hv with hv | hv
    · exact bech32HrpExpand_lt hrp v hv
    · exact Nat.lt_of_lt_of_le (hdata v hv) (by decide)
  rw [bech32VerifyChecksum, decide_eq_true_iff, bech32Polymod_eq, ← List.append_assoc,
    bech32CreateChecksum_eq]
  exact polymodRegister.run_symbols_iff (by decide) (by decide) hprefix htail hlen

/-! ## The alphabet -/

theorem charset_ne_one : ∀ x ∈ charset, x ≠ '1' := by
  have hall : charset.all (fun x => x ≠ '1') = true := by decide
  simpa using hall

theorem charset_nodup : charset.Nodup := by decide

theorem idxOf_lt {x : Char} (hx : x ∈ charset) : charset.idxOf x < 32 :=
  List.idxOf_lt_length_of_mem hx

theorem getElem?_charset {d : Nat} {x : Char} :
    charset[d]? = some x ↔ x ∈ charset ∧ charset.idxOf x = d := by
  constructor
  · intro h
    obtain ⟨hd, hx⟩ := List.getElem?_eq_some_iff.mp h
    exact ⟨hx ▸ List.getElem_mem hd, hx ▸ charset_nodup.idxOf_getElem d hd⟩
  · rintro ⟨hx, rfl⟩
    exact List.getElem?_idxOf hx

/-- Symbols render as the characters they are the indices of. -/
theorem mapM_charset {data : List Nat} {chars : Text} :
    (data.mapM fun d => charset[d]?) = some chars ↔
      (∀ x ∈ chars, x ∈ charset) ∧ chars.map (fun x => charset.idxOf x) = data := by
  induction data generalizing chars with
  | nil =>
      cases chars with
      | nil => simp
      | cons x chars => simp
  | cons d data ih =>
      rw [List.mapM_cons]
      cases chars with
      | nil => simp [Option.bind_eq_some_iff]
      | cons x chars =>
          simp only [Option.bind_eq_bind, Option.bind_eq_some_iff, Option.pure_def,
            Option.some.injEq, List.cons.injEq, List.forall_mem_cons, List.map_cons]
          constructor
          · rintro ⟨_, hd, _, hdata, rfl, rfl⟩
            obtain ⟨hx, hidx⟩ := getElem?_charset.mp hd
            obtain ⟨hchars, hmap⟩ := ih.mp hdata
            exact ⟨⟨hx, hchars⟩, hidx, hmap⟩
          · rintro ⟨⟨hx, hchars⟩, hidx, hmap⟩
            exact ⟨x, getElem?_charset.mpr ⟨hx, hidx⟩, chars, ih.mpr ⟨hchars, hmap⟩, rfl, rfl⟩

/-- Symbols render. -/
theorem exists_chars {data : List Nat} (hdata : ∀ v ∈ data, v < 32) :
    ∃ chars : Text, (∀ x ∈ chars, x ∈ charset) ∧
      chars.map (fun x => charset.idxOf x) = data := by
  induction data with
  | nil => exact ⟨[], fun _ hx => absurd hx List.not_mem_nil, rfl⟩
  | cons d data ih =>
      obtain ⟨hd, hdata⟩ := List.forall_mem_cons.mp hdata
      obtain ⟨chars, hchars, hmap⟩ := ih hdata
      obtain ⟨x, hx⟩ : ∃ x, charset[d]? = some x := ⟨_, List.getElem?_eq_getElem hd⟩
      obtain ⟨hx, hidx⟩ := getElem?_charset.mp hx
      refine ⟨x :: chars, List.forall_mem_cons.mpr ⟨hx, hchars⟩, ?_⟩
      rw [List.map_cons, hidx, hmap]

theorem bech32_encode_eq {hrp s : Text} {data : List Nat} :
    bech32Encode hrp data = some s ↔
      ∃ chars : Text, s = hrp ++ '1' :: chars ∧ (∀ x ∈ chars, x ∈ charset) ∧
        chars.map (fun x => charset.idxOf x) = data ++ bech32CreateChecksum hrp data := by
  simp only [bech32Encode, Option.bind_eq_bind, Option.bind_eq_some_iff, Option.pure_def,
    Option.some.injEq, mapM_charset, List.append_assoc, List.singleton_append]
  constructor
  · rintro ⟨chars, hchars, rfl⟩
    exact ⟨chars, rfl, hchars⟩
  · rintro ⟨chars, rfl, hchars⟩
    exact ⟨chars, hchars, rfl⟩

/-! ## The last separator -/

namespace Text

variable {c : Char} {s t : Text}

theorem rfind_eq_none : s.rfind c = none ↔ c ∉ s := by
  induction s with
  | nil => simp [rfind]
  | cons x s ih =>
      rw [rfind]
      cases hs : rfind c s with
      | some i =>
          have hmem : c ∈ s := by
            by_contra hc
            rw [ih.mpr hc] at hs
            simp at hs
          simp [hmem]
      | none =>
          have hmem : c ∉ s := ih.mp hs
          by_cases hx : x = c
          · simp [hx]
          · simp [hx, hmem, Ne.symm hx]

/-- The last occurrence is the one with no other behind it. -/
theorem rfind_append (hc : c ∉ t) : rfind c (s ++ c :: t) = some s.length := by
  induction s with
  | nil => simp [rfind, rfind_eq_none.mpr hc]
  | cons x s ih => simp [rfind, ih]

theorem rfind_eq_some {i : Nat} (h : s.rfind c = some i) :
    s = s.take i ++ c :: s.drop (i + 1) := by
  induction s generalizing i with
  | nil => simp [rfind] at h
  | cons x s ih =>
      rw [rfind] at h
      cases hs : rfind c s with
      | some j =>
          rw [hs] at h
          obtain rfl := Option.some.inj h
          rw [List.take_succ_cons, List.drop_succ_cons, List.cons_append, ← ih hs]
      | none =>
          simp only [hs, Option.ite_none_right_eq_some] at h
          obtain ⟨rfl, hi⟩ := h
          obtain rfl := Option.some.inj hi
          rfl

/-- What the decoder lets through: characters from 33 to 126, not in both
cases. -/
def Admissible (s : Text) : Prop :=
  (∀ x ∈ s, 33 ≤ x.toNat ∧ x.toNat ≤ 126) ∧ (s.lower = s ∨ s.upper = s)

@[simp] theorem length_lower (s : Text) : s.lower.length = s.length := List.length_map _

end Text

/-! ## Decoding is encoding backwards -/

theorem bech32_refused_iff (bech : Text) :
    (bech.any (fun x => decide (x.toNat < 33) || decide (x.toNat > 126)) ||
      (bech.lower ≠ bech && bech.upper ≠ bech)) = false ↔ bech.Admissible := by
  simp only [Text.Admissible, Bool.or_eq_false_iff, List.any_eq_false, Bool.and_eq_false_iff,
    decide_eq_false_iff_not, ne_eq, not_not, Bool.or_eq_true, decide_eq_true_eq, not_or, not_lt]

/-- What an accepted text went through. -/
theorem bech32Decode_spec {bech hrp : Text} {data : List Nat}
    (h : bech32Decode bech = some (hrp, data)) :
    bech.Admissible ∧ bech.length ≤ 90 ∧ hrp ≠ [] ∧
      ∃ chars : Text, bech.lower = hrp ++ '1' :: chars ∧ (∀ x ∈ chars, x ∈ charset) ∧
        6 ≤ chars.length ∧
        bech32VerifyChecksum hrp (chars.map fun x => charset.idxOf x) = true ∧
        data = (chars.map fun x => charset.idxOf x).take (chars.length - 6) := by
  unfold bech32Decode at h
  split at h
  · simp at h
  next hadm =>
  rw [Bool.not_eq_true, bech32_refused_iff] at hadm
  simp only [] at h
  split at h
  · simp at h
  next pos hpos =>
  split at h
  · simp at h
  next hbounds =>
  split at h
  · simp at h
  next hchars =>
  split at h
  · next hverify =>
      simp only [Option.some.injEq, Prod.mk.injEq] at h
      obtain ⟨rfl, rfl⟩ := h
      simp only [not_or, not_lt, gt_iff_lt, Text.length_lower] at hbounds
      obtain ⟨hpos1, hroom, hlen⟩ := hbounds
      refine ⟨hadm, hlen, ?_, bech.lower.drop (pos + 1), Text.rfind_eq_some hpos, ?_, ?_,
        hverify, ?_⟩
      · intro hnil
        have htake := congrArg List.length hnil
        rw [List.length_take, Text.length_lower, List.length_nil] at htake
        omega
      · simpa using hchars
      · rw [List.length_drop, Text.length_lower]
        omega
      · simp
  · simp at h

/-- A text that has all of this is accepted. -/
theorem bech32Decode_of_chars {bech hrp chars : Text} (hadm : bech.Admissible)
    (hlen : bech.length ≤ 90) (hhrp : hrp ≠ []) (heq : bech.lower = hrp ++ '1' :: chars)
    (hchars : ∀ x ∈ chars, x ∈ charset) (hsize : 6 ≤ chars.length)
    (hverify : bech32VerifyChecksum hrp (chars.map fun x => charset.idxOf x) = true) :
    bech32Decode bech =
      some (hrp, (chars.map fun x => charset.idxOf x).take (chars.length - 6)) := by
  have hone : '1' ∉ chars := fun hmem => charset_ne_one '1' (hchars '1' hmem) rfl
  have hlower := congrArg List.length heq
  rw [Text.length_lower, List.length_append, List.length_cons] at hlower
  have hpos := List.length_pos_iff.mpr hhrp
  have hrefused := (bech32_refused_iff bech).mpr hadm
  have hbounds : ¬ (hrp.length < 1 ∨ hrp.length + 7 > (hrp ++ '1' :: chars).length ∨
      (hrp ++ '1' :: chars).length > 90) := by
    rw [List.length_append, List.length_cons]
    omega
  have hdrop : (hrp ++ '1' :: chars).drop (hrp.length + 1) = chars := by simp
  have hall : ¬¬ (chars.all (fun x => decide (x ∈ charset)) = true) := by simpa using hchars
  unfold bech32Decode
  rw [if_neg (by rw [hrefused]; exact Bool.false_ne_true)]
  simp only [heq, Text.rfind_append hone, hdrop, List.take_left']
  rw [if_neg hbounds, if_neg hall, if_pos hverify, List.length_map]

theorem symbols_lt {chars : Text} (hchars : ∀ x ∈ chars, x ∈ charset) :
    ∀ v ∈ chars.map fun x => charset.idxOf x, v < 2 ^ 5 := by
  intro v hv
  obtain ⟨x, hx, rfl⟩ := List.mem_map.mp hv
  exact idxOf_lt (hchars x hx)

theorem bech32Encode_of_decode {bech hrp : Text} {data : List Nat}
    (h : bech32Decode bech = some (hrp, data)) : bech32Encode hrp data = some bech.lower := by
  obtain ⟨-, -, -, chars, heq, hchars, hsize, hverify, rfl⟩ := bech32Decode_spec h
  rw [bech32_encode_eq, heq]
  refine ⟨chars, rfl, hchars, ?_⟩
  have hsymbols := symbols_lt hchars
  -- the checksum leaves no choice for the last six symbols
  have hsplit := List.take_append_drop (chars.length - 6) (chars.map fun x => charset.idxOf x)
  rw [← hsplit] at hverify
  have htail := (checksum_unique hrp (fun v hv => hsymbols v (List.mem_of_mem_take hv))
    (fun v hv => hsymbols v (List.mem_of_mem_drop hv)) (by simp; omega)).mp hverify
  rw [← htail, hsplit]

theorem bech32Decode_of_encode {bech hrp : Text} {data : List Nat} (hadm : bech.Admissible)
    (hlen : bech.length ≤ 90) (hhrp : hrp ≠ []) (henc : bech32Encode hrp data = some bech.lower) :
    bech32Decode bech = some (hrp, data) := by
  obtain ⟨chars, heq, hchars, hmap⟩ := bech32_encode_eq.mp henc
  have hsymbols := symbols_lt hchars
  rw [hmap] at hsymbols
  have hsize : chars.length = data.length + 6 := by
    simpa using congrArg List.length hmap
  have hverify : bech32VerifyChecksum hrp (data ++ bech32CreateChecksum hrp data) = true :=
    (checksum_unique hrp (fun v hv => hsymbols v (List.mem_append_left _ hv))
      (fun v hv => hsymbols v (List.mem_append_right _ hv))
      (length_bech32CreateChecksum hrp data)).mpr rfl
  rw [← hmap] at hverify
  have hdec := bech32Decode_of_chars hadm hlen hhrp heq hchars (by omega) hverify
  rw [hdec, hmap, hsize]
  simp

/-- What the decoder accepts is what the encoder produces, in one case or the
other, as long as it is printable, has a human-readable part and at most 90
characters; and it answers with what was encoded. -/
theorem bech32_decode_iff (bech hrp : Text) (data : List Nat) :
    bech32Decode bech = some (hrp, data) ↔
      bech.Admissible ∧ bech.length ≤ 90 ∧ hrp ≠ [] ∧
        bech32Encode hrp data = some bech.lower := by
  constructor
  · intro h
    obtain ⟨hadm, hlen, hhrp, -⟩ := bech32Decode_spec h
    exact ⟨hadm, hlen, hhrp, bech32Encode_of_decode h⟩
  · rintro ⟨hadm, hlen, hhrp, henc⟩
    exact bech32Decode_of_encode hadm hlen hhrp henc

/-! ## What the checksum does not notice -/

/-- An admissible text that ends in a small letter is all in small letters. -/
theorem Text.Admissible.lower_eq {s : Text} (h : (s ++ ['p']).Admissible) :
    (s ++ ['p']).lower = s ++ ['p'] := by
  rcases h.2 with hlower | hupper
  · exact hlower
  · rw [Text.upper, List.map_append] at hupper
    have hlast := (List.append_inj' hupper rfl).2
    simp at hlast

theorem Text.Admissible.insert {s t : Text} {n : Nat} (h : (s ++ t).Admissible)
    (hlower : (s ++ t).lower = s ++ t) :
    (s ++ List.replicate n 'q' ++ t).Admissible ∧
      (s ++ List.replicate n 'q' ++ t).lower = s ++ List.replicate n 'q' ++ t := by
  rw [Text.lower, List.map_append] at hlower
  obtain ⟨hs, ht⟩ := List.append_inj hlower (List.length_map _)
  have heq : (s ++ List.replicate n 'q' ++ t).lower = s ++ List.replicate n 'q' ++ t := by
    rw [Text.lower, List.map_append, List.map_append, hs, ht, List.map_replicate]
    rfl
  refine ⟨⟨fun x hx => ?_, .inl heq⟩, heq⟩
  rcases List.mem_append.mp hx with hx | hx
  · rcases List.mem_append.mp hx with hx | hx
    · exact h.1 x (List.mem_append_left _ hx)
    · rw [List.eq_of_mem_replicate hx]
      decide
  · exact h.1 x (List.mem_append_right _ hx)

/-- The check passes with `p` at the end if what stands before leaves nothing. -/
theorem verify_concat (hrp : Text) (symbols : List Nat) (hsymbols : ∀ v ∈ symbols, v < 2 ^ 5) :
    bech32VerifyChecksum hrp (symbols ++ [1]) = true ↔
      polymodRegister.run 1 (bech32HrpExpand hrp ++ symbols) = 0 := by
  have hlt : polymodRegister.run 1 (bech32HrpExpand hrp ++ symbols) < 2 ^ 30 := by
    refine polymodRegister.run_lt (by decide) fun v hv => ?_
    rcases List.mem_append.mp hv with hv | hv
    · exact bech32HrpExpand_lt hrp v hv
    · exact polymodRegister.symbol_lt (hsymbols v hv)
  rw [bech32VerifyChecksum, decide_eq_true_iff, bech32Polymod_eq, ← List.append_assoc,
    ShiftRegister.run_append, ShiftRegister.run_cons, ShiftRegister.run_nil]
  constructor
  · intro h
    have hfeed : polymodRegister.feed
        (polymodRegister.run 1 (bech32HrpExpand hrp ++ symbols)) = 0 := by
      refine ShiftRegister.xor_left_cancel (a := 1) ?_
      rw [Nat.xor_comm, h]
      rfl
    exact polymodRegister.faithful _ hlt hfeed
  · intro h
    rw [h, polymodRegister.feed_zero]
    rfl

/-- A text that ends in `p` is accepted with any number of `q`s put before the
`p`, while there is room: the checksum does not see them. -/
theorem insertion_unnoticed {s hrp : Text} {data : List Nat} (n : Nat)
    (h : bech32Decode (s ++ ['p']) = some (hrp, data)) (hroom : s.length + n + 1 ≤ 90) :
    ∃ data', bech32Decode (s ++ List.replicate n 'q' ++ ['p']) = some (hrp, data') ∧
      data'.length = data.length + n := by
  obtain ⟨hadm, -, hhrp, chars, heq, hchars, hsize, hverify, rfl⟩ := bech32Decode_spec h
  rw [hadm.lower_eq] at heq
  -- the `p` is the last symbol of the checksum
  rcases List.eq_nil_or_concat chars with rfl | ⟨init, last, rfl⟩
  · simp at hsize
  rw [List.concat_eq_append] at heq hchars hsize hverify ⊢
  have hassoc : hrp ++ '1' :: (init ++ [last]) = (hrp ++ '1' :: init) ++ [last] := by simp
  obtain ⟨rfl, hlast⟩ := List.append_inj' (heq.trans hassoc) rfl
  obtain rfl : 'p' = last := List.singleton_inj.mp hlast
  have hinit : ∀ x ∈ init, x ∈ charset := fun x hx => hchars x (List.mem_append_left _ hx)
  rw [List.map_append] at hverify
  have hempty := (verify_concat hrp _ (symbols_lt hinit)).mp hverify
  have hq : ∀ x ∈ init ++ List.replicate n 'q', x ∈ charset := by
    intro x hx
    rcases List.mem_append.mp hx with hx | hx
    · exact hinit x hx
    · rw [List.eq_of_mem_replicate hx]
      decide
  have hverify' : bech32VerifyChecksum hrp
      ((init ++ List.replicate n 'q' ++ ['p']).map fun x => charset.idxOf x) = true := by
    rw [List.map_append]
    refine (verify_concat hrp _ (symbols_lt hq)).mpr ?_
    rw [List.map_append, List.map_replicate, ← List.append_assoc, ShiftRegister.run_append,
      hempty]
    exact (polymodRegister.run_zeros n).trans (polymodRegister.iterate_zero n)
  obtain ⟨hadm', hlower'⟩ := hadm.insert (n := n) hadm.lower_eq
  have hp : ∀ x ∈ init ++ List.replicate n 'q' ++ ['p'], x ∈ charset := by
    intro x hx
    rcases List.mem_append.mp hx with hx | hx
    · exact hq x hx
    · rw [List.mem_singleton.mp hx]
      decide
  simp only [List.length_append, List.length_cons, List.length_nil] at hroom hsize
  refine ⟨_, bech32Decode_of_chars hadm' ?_ hhrp ?_ hp ?_ hverify', ?_⟩
  · simp only [List.length_append, List.length_cons, List.length_nil, List.length_replicate]
    omega
  · rw [hlower']
    simp
  · simp only [List.length_append, List.length_cons, List.length_nil, List.length_replicate]
    omega
  · simp only [List.length_take, List.length_map, List.length_append, List.length_cons,
      List.length_nil, List.length_replicate]
    omega

theorem bech32Decode_short :
    bech32Decode ['e', 'r', 'd', '1', 'e', 'p', 'f', '4', '5', 'e', 'm', 'p'] =
        some (['e', 'r', 'd'], [25, 1]) ∧
      bech32Decode ['E', 'R', 'D', '1', 'E', 'P', 'F', '4', '5', 'E', 'M', 'P'] =
        some (['e', 'r', 'd'], [25, 1]) := by
  decide +kernel

theorem insertion_unnoticed_three :
    ∃ data', bech32Decode (['e', 'r', 'd', '1', 'e', 'p', 'f', '4', '5', 'e', 'm'] ++
        List.replicate 3 'q' ++ ['p']) = some (['e', 'r', 'd'], data') ∧
      data'.length = [25, 1].length + 3 :=
  insertion_unnoticed 3 bech32Decode_short.1 (by decide)

/-! ## What it notices -/

namespace Text

/-- In how many places two texts differ. -/
def mismatches (s t : Text) : Nat := (s.zip t).countP fun p => decide (p.1 ≠ p.2)

/-- Two texts differ within `k` places in a row at most. -/
def DifferWithin (k : Nat) (s t : Text) : Prop :=
  ∃ i, s.take i = t.take i ∧ s.drop (i + k) = t.drop (i + k)

variable {s t pre : Text} {k : Nat}

theorem mismatches_append (pre s t : Text) :
    mismatches (pre ++ s) (pre ++ t) = mismatches s t := by
  induction pre with
  | nil => rfl
  | cons x pre ih =>
      rw [List.cons_append, List.cons_append, mismatches, List.zip_cons_cons,
        List.countP_cons_of_neg (by simp)]
      exact ih

theorem DifferWithin.of_append (h : DifferWithin k (pre ++ s) (pre ++ t)) :
    DifferWithin k s t := by
  obtain ⟨i, htake, hdrop⟩ := h
  rw [List.take_append, List.take_append] at htake
  rw [List.drop_append, List.drop_append] at hdrop
  refine ⟨i - pre.length, List.append_cancel_left htake, ?_⟩
  have hle : i + k - pre.length ≤ i - pre.length + k := by omega
  obtain ⟨d, hd⟩ := Nat.exists_eq_add_of_le hle
  rw [hd, ← List.drop_drop, ← List.drop_drop, List.append_cancel_left hdrop]

end Text

/-- Symbols differ where their characters do. -/
theorem weight_symbols {s t : Text} (hs : ∀ x ∈ s, x ∈ charset) (ht : ∀ x ∈ t, x ∈ charset) :
    ShiftRegister.weight (ShiftRegister.difference
      (s.map fun x => charset.idxOf x) (t.map fun x => charset.idxOf x)) =
      Text.mismatches s t := by
  induction s generalizing t with
  | nil => rfl
  | cons x s ih =>
      cases t with
      | nil => rfl
      | cons y t =>
          obtain ⟨hx, hs⟩ := List.forall_mem_cons.mp hs
          obtain ⟨hy, ht⟩ := List.forall_mem_cons.mp ht
          have htail := ih hs ht
          unfold ShiftRegister.weight Text.mismatches at htail ⊢
          rw [List.map_cons, List.map_cons, ShiftRegister.difference_cons, List.zip_cons_cons,
            List.countP_cons, List.countP_cons, htail]
          congr 1
          have hxor : 0 < charset.idxOf x ^^^ charset.idxOf y ↔ x ≠ y := by
            rw [Nat.pos_iff_ne_zero, ne_eq, ShiftRegister.xor_eq_zero, List.idxOf_inj hx]
          simp [hxor]

/-- The characters behind the separator of two accepted texts with the same
human-readable part, and what they have in common. -/
theorem decoded_tails {s t hrp : Text} {data data' : List Nat}
    (hs : bech32Decode s = some (hrp, data)) (ht : bech32Decode t = some (hrp, data'))
    (hlen : s.length = t.length) :
    ∃ cs ct : Text, s.lower = (hrp ++ ['1']) ++ cs ∧ t.lower = (hrp ++ ['1']) ++ ct ∧
      (∀ x ∈ cs, x ∈ charset) ∧ (∀ x ∈ ct, x ∈ charset) ∧
      cs.length = ct.length ∧ cs.length ≤ 88 ∧
      polymodRegister.run (polymodRegister.run 1 (bech32HrpExpand hrp))
        (cs.map fun x => charset.idxOf x) =
      polymodRegister.run (polymodRegister.run 1 (bech32HrpExpand hrp))
        (ct.map fun x => charset.idxOf x) := by
  obtain ⟨-, hlens, hhrp, cs, hscs, hcs, -, hverify, -⟩ := bech32Decode_spec hs
  obtain ⟨-, -, -, ct, htct, hct, -, hverify', -⟩ := bech32Decode_spec ht
  rw [bech32VerifyChecksum, decide_eq_true_iff, bech32Polymod_eq, ShiftRegister.run_append]
    at hverify hverify'
  have hlower := congrArg List.length hscs
  have hlower' := congrArg List.length htct
  rw [Text.length_lower, List.length_append, List.length_cons] at hlower hlower'
  have hpos := List.length_pos_iff.mpr hhrp
  exact ⟨cs, ct, by simpa using hscs, by simpa using htct, hcs, hct, by omega, by omega,
    hverify.trans hverify'.symm⟩

theorem ite_bit (top i g : Nat) :
    (if (top >>> i) &&& 1 ≠ 0 then g else 0) = top / 2 ^ i % 2 * g := by
  rw [Nat.and_one_is_mod, Nat.shiftRight_eq_div_pow]
  rcases Nat.mod_two_eq_zero_or_one (top / 2 ^ i) with h | h <;> simp [h]

/-- The feedback, one bit of the top symbol after the other. -/
theorem feedback_eq (top : Nat) :
    feedback top = top % 2 * 0x3b6a57b2 ^^^ (top / 2 % 2 * 0x26508e6d ^^^
      (top / 4 % 2 * 0x1ea119fa ^^^ (top / 8 % 2 * 0x3d4233dd ^^^
        top / 16 % 2 * 0x2a1462b3))) := by
  have hfold : feedback top = ((((0 ^^^ top / 2 ^ 0 % 2 * generator.getD 0 0) ^^^
      top / 2 ^ 1 % 2 * generator.getD 1 0) ^^^ top / 2 ^ 2 % 2 * generator.getD 2 0) ^^^
      top / 2 ^ 3 % 2 * generator.getD 3 0) ^^^ top / 2 ^ 4 % 2 * generator.getD 4 0 := by
    simp only [← ite_bit]
    rfl
  rw [hfold]
  simp only [Nat.zero_xor, Nat.xor_assoc, Nat.pow_zero, Nat.div_one, Nat.pow_one]
  rfl

/-- `polymodFeed` in as few operations as it takes. -/
def polymodFeedFast (chk : Nat) : Nat :=
  let top := Nat.div chk 0x2000000
  Nat.xor (Nat.mul (Nat.mod chk 0x2000000) 32)
    (Nat.xor (Nat.mul (Nat.mod top 2) 0x3b6a57b2)
      (Nat.xor (Nat.mul (Nat.mod (Nat.div top 2) 2) 0x26508e6d)
        (Nat.xor (Nat.mul (Nat.mod (Nat.div top 4) 2) 0x1ea119fa)
          (Nat.xor (Nat.mul (Nat.mod (Nat.div top 8) 2) 0x3d4233dd)
            (Nat.mul (Nat.mod (Nat.div top 16) 2) 0x2a1462b3)))))

theorem polymodFeedFast_eq (chk : Nat) : polymodFeed chk = polymodFeedFast chk := by
  rw [polymodFeed_eq, feedback_eq]
  rfl

/-- In 88 steps, as many as a text leaves room for, the orbits of the register do
not meet. -/
theorem polymodRegister_separated : polymodRegister.Separated 88 := by
  have htable : ShiftRegister.distinct 353736 0
      (0 :: ShiftRegister.trails 5 polymodFeedFast 88) = true := by
    decide +kernel
  exact polymodRegister.separated_of_table polymodFeedFast_eq htable

/-- Characters are those of their symbols. -/
theorem chars_eq {cs ct : Text} (hcs : ∀ x ∈ cs, x ∈ charset) (hct : ∀ x ∈ ct, x ∈ charset)
    (hmap : (cs.map fun x => charset.idxOf x) = ct.map fun x => charset.idxOf x) : cs = ct :=
  Option.some.inj ((mapM_charset.mpr ⟨hcs, hmap⟩).symm.trans (mapM_charset.mpr ⟨hct, rfl⟩))

section Noticed

variable {s t hrp : Text} {data data' : List Nat}

theorem few_noticed (hs : bech32Decode s = some (hrp, data))
    (ht : bech32Decode t = some (hrp, data')) (hlen : s.length = t.length)
    (hfew : s.lower.mismatches t.lower ≤ 3) : s.lower = t.lower := by
  obtain ⟨cs, ct, hscs, htct, hcs, hct, heq, hroom, hrun⟩ := decoded_tails hs ht hlen
  rw [hscs, htct] at hfew ⊢
  rw [Text.mismatches_append, ← weight_symbols hcs hct] at hfew
  rw [chars_eq hcs hct]
  exact polymodRegister_separated.differ (symbols_lt hcs) (symbols_lt hct)
    (by simpa using heq) (by simpa using hroom) hfew hrun

theorem burst_noticed (hs : bech32Decode s = some (hrp, data))
    (ht : bech32Decode t = some (hrp, data')) (hlen : s.length = t.length)
    (hwithin : s.lower.DifferWithin 6 t.lower) : s.lower = t.lower := by
  obtain ⟨cs, ct, hscs, htct, hcs, hct, heq, -, hrun⟩ := decoded_tails hs ht hlen
  rw [hscs, htct] at hwithin ⊢
  obtain ⟨i, htake, hdrop⟩ := hwithin.of_append
  rw [chars_eq hcs hct]
  refine polymodRegister.burst_within (i := i) (symbols_lt hcs) (symbols_lt hct)
    (by simpa using heq) ?_ ?_ hrun
  · rw [← List.map_take, htake, List.map_take]
  · rw [← List.map_drop, hdrop, List.map_drop]

/-- Typing errors are noticed: no two accepted texts with the same human-readable
part and of one length differ, apart from case, in one, two or three characters,
or only within six characters in a row. -/
theorem typos_noticed (hs : bech32Decode s = some (hrp, data))
    (ht : bech32Decode t = some (hrp, data')) (hlen : s.length = t.length)
    (hclose : s.lower.mismatches t.lower ≤ 3 ∨ s.lower.DifferWithin 6 t.lower) :
    s.lower = t.lower := by
  rcases hclose with hfew | hwithin
  · exact few_noticed hs ht hlen hfew
  · exact burst_noticed hs ht hlen hwithin

end Noticed

/-- A short text in either case. -/
theorem typos_noticed_case :
    Text.lower ['e', 'r', 'd', '1', 'e', 'p', 'f', '4', '5', 'e', 'm', 'p'] =
      Text.lower ['E', 'R', 'D', '1', 'E', 'P', 'F', '4', '5', 'E', 'M', 'P'] :=
  typos_noticed bech32Decode_short.1 bech32Decode_short.2 rfl (.inl (by decide))

end ElrondMint
