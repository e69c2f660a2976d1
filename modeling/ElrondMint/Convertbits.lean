import ElrondMint.Lib.BitString
import Mathlib.Data.Nat.ModEq

/-!
# Regrouping bits

`convertbits` of `wallet/bech32.py` turns words of one width into words of
another: it shifts the bits into an accumulator and takes them out as soon as
there are enough. Bits that are left over are padded with zeros if `pad` is set;
otherwise they have to be zeros already, and fewer than a word that came in.

Seen from the bits, nothing happens: what comes out is what went in, cut
differently (`padded_spec`, `unpadded_iff`). Regrouping to narrower words with
padding and to wider ones without therefore undo each other exactly
(`convertbits_inverse`), and the second accepts nothing but what the first
produces.

The values of `data` are never negative in erdpy, so the source's check for that
is left out. With `tobits = 0` the source's inner loop does not end; the model
leaves it at once, and nothing is claimed of that case.
-/

namespace ElrondMint

open BitString

/-- The inner `while` loop: the bits left in the accumulator, and `ret`. -/
def convertbitsEmit (tobits maxv acc bits : Nat) (ret : List Nat) : Nat × List Nat :=
  if _h : 0 < tobits ∧ bits ≥ tobits then
    let bits' := bits - tobits
    convertbitsEmit tobits maxv acc bits' (ret ++ [(acc >>> bits') &&& maxv])
  else (bits, ret)
termination_by bits

/-- The `for` loop: `acc`, `bits` and `ret` at its end, or the early return. -/
def convertbitsLoop (frombits tobits maxv maxAcc : Nat) :
    List Nat → Nat → Nat → List Nat → Option (Nat × Nat × List Nat)
  | [], acc, bits, ret => some (acc, bits, ret)
  | value :: data, acc, bits, ret =>
      if value >>> frombits ≠ 0 then none
      else
        let acc := ((acc <<< frombits) ||| value) &&& maxAcc
        let (bits, ret) := convertbitsEmit tobits maxv acc (bits + frombits) ret
        convertbitsLoop frombits tobits maxv maxAcc data acc bits ret

/-- `convertbits`. -/
def convertbits (data : List Nat) (frombits tobits : Nat) (pad : Bool) :
    Option (List Nat) := do
  let maxv := (1 <<< tobits) - 1
  let maxAcc := (1 <<< (frombits + tobits - 1)) - 1
  let (acc, bits, ret) ← convertbitsLoop frombits tobits maxv maxAcc data 0 0 []
  if pad then
    if bits ≠ 0 then some (ret ++ [(acc <<< (tobits - bits)) &&& maxv]) else some ret
  else if bits ≥ frombits ∨ (acc <<< (tobits - bits)) &&& maxv ≠ 0 then none
  else some ret

variable {frombits tobits acc : Nat} {data : List Nat} {pending : List Bool}

/-! ## The loops -/

theorem and_mask (n w : Nat) : n &&& ((1 <<< w) - 1) = n % 2 ^ w := by
  rw [Nat.one_shiftLeft, Nat.and_two_pow_sub_one_eq_mod]

/-- The low bits of the accumulator are the bits that have not been taken out
yet. Taking words out leaves less than a word of them. -/
theorem convertbitsEmit_spec (hto : 0 < tobits)
    (hacc : acc % 2 ^ pending.length = toNat pending) (ret : List Nat) :
    ∃ us rest, convertbitsEmit tobits ((1 <<< tobits) - 1) acc pending.length ret =
        (rest.length, ret ++ us) ∧
      Splits tobits pending us rest ∧ acc % 2 ^ rest.length = toNat rest := by
  induction hn : pending.length using Nat.strongRecOn generalizing pending ret with
  | _ n ih =>
      subst hn
      unfold convertbitsEmit
      split
      · next h =>
          obtain ⟨-, hge⟩ := h
          have hrest : (pending.drop tobits).length = pending.length - tobits :=
            List.length_drop
          have hword : (pending.take tobits).length = tobits := by
            rw [List.length_take, Nat.min_eq_left hge]
          have hsplit := List.take_append_drop tobits pending
          -- the first word on top, what is behind it below
          have htop : acc >>> (pending.length - tobits) &&& ((1 <<< tobits) - 1) =
              toNat (pending.take tobits) := by
            have hdiv := toNat_append_div (pending.take tobits) (pending.drop tobits)
            rw [hsplit, ← hacc, hrest] at hdiv
            rw [and_mask, Nat.shiftRight_eq_div_pow, ← hdiv]
            have hpow : 2 ^ pending.length = 2 ^ (pending.length - tobits) * 2 ^ tobits := by
              rw [← Nat.pow_add, Nat.sub_add_cancel hge]
            rw [hpow, Nat.mod_mul_right_div_self]
          have hlow : acc % 2 ^ (pending.drop tobits).length = toNat (pending.drop tobits) := by
            have hmod := toNat_append_mod (pending.take tobits) (pending.drop tobits)
            rw [hsplit, ← hacc, Nat.mod_mod_of_dvd] at hmod
            · exact hmod
            · exact Nat.pow_dvd_pow 2 (by omega)
          obtain ⟨us, rest, heq, hcut, hleft⟩ := ih (pending.length - tobits) (by omega) hlow
            (ret ++ [toNat (pending.take tobits)]) hrest
          refine ⟨toNat (pending.take tobits) :: us, rest, ?_, ?_, hleft⟩
          · simp only [htop]
            rw [heq, List.append_assoc]
            rfl
          · have hlt : ∀ x ∈ [toNat (pending.take tobits)], x < 2 ^ tobits := by
              intro x hx
              rw [List.mem_singleton.mp hx]
              have hlt := toNat_lt (pending.take tobits)
              rwa [hword] at hlt
            have hprep := hcut.prepend hlt
            rw [ofWords_cons, ofWords_nil, List.append_nil] at hprep
            have hbits := ofWord_toNat (pending.take tobits)
            rw [hword] at hbits
            rwa [hbits, hsplit] at hprep
      · next h =>
          refine ⟨[], pending, by rw [List.append_nil], ⟨rfl, fun _ hx => absurd hx List.not_mem_nil, ?_⟩, hacc⟩
          omega

/-- Taking in a value puts its bits behind the pending ones: the mask keeps more
bits than can be pending. -/
theorem accumulate {value : Nat} (hshort : pending.length < tobits)
    (hacc : acc % 2 ^ pending.length = toNat pending) (hvalue : value < 2 ^ frombits) :
    (((acc <<< frombits) ||| value) &&& ((1 <<< (frombits + tobits - 1)) - 1)) %
        2 ^ (pending ++ ofWord frombits value).length =
      toNat (pending ++ ofWord frombits value) := by
  have hdvd : 2 ^ (pending.length + frombits) ∣ 2 ^ (frombits + tobits - 1) :=
    Nat.pow_dvd_pow 2 (by omega)
  rw [and_mask, List.length_append, length_ofWord, Nat.mod_mod_of_dvd _ hdvd,
    ← Nat.shiftLeft_add_eq_or_of_lt hvalue, Nat.shiftLeft_eq, toNat_append, length_ofWord,
    toNat_ofWord_of_lt hvalue, ← hacc]
  have hdm := Nat.div_add_mod acc (2 ^ pending.length)
  have hexp : acc * 2 ^ frombits + value =
      (acc % 2 ^ pending.length * 2 ^ frombits + value) +
        2 ^ (pending.length + frombits) * (acc / 2 ^ pending.length) := by
    rw [Nat.pow_add]
    calc acc * 2 ^ frombits + value
        = (2 ^ pending.length * (acc / 2 ^ pending.length) + acc % 2 ^ pending.length) *
            2 ^ frombits + value := by rw [hdm]
      _ = _ := by ring
  rw [hexp, Nat.add_mul_mod_self_left, Nat.mod_eq_of_lt]
  have hlow := Nat.mod_lt acc (Nat.two_pow_pos pending.length)
  have hmul := Nat.mul_le_mul_right (2 ^ frombits) (Nat.succ_le_of_lt hlow)
  rw [Nat.succ_mul, ← Nat.pow_add] at hmul
  omega

theorem shiftRight_eq_zero {value : Nat} : value >>> frombits ≠ 0 ↔ ¬ value < 2 ^ frombits := by
  rw [Nat.shiftRight_eq_div_pow, ne_eq, Nat.div_eq_zero_iff]
  have hpos := Nat.two_pow_pos frombits
  omega

/-- The `for` loop cuts the pending bits and those of the data. -/
theorem convertbitsLoop_spec (hto : 0 < tobits) (hdata : ∀ v ∈ data, v < 2 ^ frombits)
    (hshort : pending.length < tobits) (hacc : acc % 2 ^ pending.length = toNat pending)
    (ret : List Nat) :
    ∃ acc' us rest, convertbitsLoop frombits tobits ((1 <<< tobits) - 1)
        ((1 <<< (frombits + tobits - 1)) - 1) data acc pending.length ret =
          some (acc', rest.length, ret ++ us) ∧
      Splits tobits (pending ++ ofWords frombits data) us rest ∧
      acc' % 2 ^ rest.length = toNat rest := by
  induction data generalizing acc pending ret with
  | nil =>
      refine ⟨acc, [], pending, by rw [List.append_nil]; rfl, ⟨?_, nofun, hshort⟩, hacc⟩
      rw [ofWords_nil, List.append_nil, ofWords_nil, List.nil_append]
  | cons value data ih =>
      obtain ⟨hvalue, hdata⟩ := List.forall_mem_cons.mp hdata
      have hnew := accumulate hshort hacc hvalue
      obtain ⟨us, rest, hemit, hcut, hleft⟩ := convertbitsEmit_spec hto hnew ret
      obtain ⟨acc', us', rest', hloop, hcut', hleft'⟩ := ih hdata hcut.short hleft (ret ++ us)
      refine ⟨acc', us ++ us', rest', ?_, ?_, hleft'⟩
      · rw [convertbitsLoop, if_neg (by rw [shiftRight_eq_zero, not_not]; exact hvalue)]
        rw [List.length_append, length_ofWord] at hemit
        simp only [hemit]
        rw [hloop, List.append_assoc]
      · have hprep := hcut'.prepend hcut.words
        rw [← List.append_assoc, ← hcut.eq, List.append_assoc] at hprep
        rw [ofWords_cons]
        exact hprep

/-- A value too large ends the loop. -/
theorem convertbitsLoop_none {maxv maxAcc bits : Nat} {ret : List Nat}
    (hdata : ∃ v ∈ data, ¬ v < 2 ^ frombits) :
    convertbitsLoop frombits tobits maxv maxAcc data acc bits ret = none := by
  induction data generalizing acc bits ret with
  | nil =>
      obtain ⟨v, hv, -⟩ := hdata
      cases hv
  | cons value data ih =>
      rw [convertbitsLoop]
      split
      · rfl
      · next hvalue =>
          refine ih ?_
          obtain ⟨v, hv, hlarge⟩ := hdata
          rcases List.mem_cons.mp hv with rfl | hv
          · exact absurd (shiftRight_eq_zero.mpr hlarge) hvalue
          · exact ⟨v, hv, hlarge⟩

/-- What is left over, as a word padded with zeros. -/
theorem padding (hshort : pending.length < tobits)
    (hacc : acc % 2 ^ pending.length = toNat pending) :
    (acc <<< (tobits - pending.length)) &&& ((1 <<< tobits) - 1) =
      toNat (pending ++ List.replicate (tobits - pending.length) false) := by
  have hpow : 2 ^ tobits = 2 ^ pending.length * 2 ^ (tobits - pending.length) := by
    rw [← Nat.pow_add, Nat.add_sub_cancel' (Nat.le_of_lt hshort)]
  rw [and_mask, Nat.shiftLeft_eq, hpow, Nat.mul_mod_mul_right, hacc, toNat_append,
    toNat_replicate, List.length_replicate, Nat.add_zero]

/-! ## The whole -/

/-- Data that fits is cut into words, and what is left over decides. -/
theorem convertbits_spec (hto : 0 < tobits) (hdata : ∀ v ∈ data, v < 2 ^ frombits) :
    ∃ us rest, Splits tobits (ofWords frombits data) us rest ∧
      convertbits data frombits tobits true =
        some (if rest = [] then us
          else us ++ [toNat (rest ++ List.replicate (tobits - rest.length) false)]) ∧
      convertbits data frombits tobits false =
        if rest.length < frombits ∧ toNat rest = 0 then some us else none := by
  have hempty : ([] : List Bool).length < tobits := hto
  obtain ⟨acc, us, rest, hloop, hcut, hleft⟩ :=
    convertbitsLoop_spec hto hdata hempty (Nat.mod_one 0) []
  rw [List.nil_append] at hcut hloop
  rw [List.length_nil] at hloop
  have hpad := padding hcut.short hleft
  have hzero : toNat (rest ++ List.replicate (tobits - rest.length) false) = 0 ↔
      toNat rest = 0 := by
    rw [toNat_append, toNat_replicate, Nat.add_zero, Nat.mul_eq_zero]
    simp
  refine ⟨us, rest, hcut, ?_, ?_⟩
  · simp only [convertbits, hloop, Option.bind_eq_bind, Option.bind_some, if_true, hpad]
    by_cases hrest : rest = []
    · simp [hrest]
    · have hlen : rest.length ≠ 0 := fun h => hrest (List.length_eq_zero_iff.mp h)
      rw [if_pos hlen, if_neg hrest]
  · simp only [convertbits, hloop, Option.bind_eq_bind, Option.bind_some, hpad,
      Bool.false_eq_true, if_false]
    by_cases hfits : rest.length < frombits ∧ toNat rest = 0
    · rw [if_pos hfits, if_neg]
      rw [not_or, not_not, hzero]
      exact ⟨Nat.not_le.mpr hfits.1, hfits.2⟩
    · rw [if_neg hfits, if_pos]
      by_contra hno
      rw [not_or, not_not, hzero] at hno
      exact hfits ⟨Nat.lt_of_not_le hno.1, hno.2⟩

theorem convertbits_none {pad : Bool} (hdata : ∃ v ∈ data, ¬ v < 2 ^ frombits) :
    convertbits data frombits tobits pad = none := by
  simp only [convertbits, convertbitsLoop_none hdata, Option.bind_eq_bind, Option.bind_none]

theorem convertbits_fits {pad : Bool} {out : List Nat}
    (h : convertbits data frombits tobits pad = some out) : ∀ v ∈ data, v < 2 ^ frombits := by
  intro v hv
  by_contra hlarge
  rw [convertbits_none ⟨v, hv, hlarge⟩] at h
  simp at h

/-- With padding: the bits that went in and less than a word of zeros. -/
theorem padded_spec (hto : 0 < tobits) (hdata : ∀ v ∈ data, v < 2 ^ frombits) :
    ∃ out, convertbits data frombits tobits true = some out ∧ (∀ v ∈ out, v < 2 ^ tobits) ∧
      ∃ k < tobits, ofWords tobits out = ofWords frombits data ++ List.replicate k false := by
  obtain ⟨us, rest, hcut, hpadded, -⟩ := convertbits_spec hto hdata
  refine ⟨_, hpadded, ?_⟩
  by_cases hrest : rest = []
  · subst hrest
    rw [if_pos rfl]
    refine ⟨hcut.words, 0, hto, ?_⟩
    rw [hcut.eq, List.append_nil, List.replicate_zero, List.append_nil]
  · rw [if_neg hrest]
    have hpos := List.length_pos_iff.mpr hrest
    have hshort := hcut.short
    have hlen : rest.length +
        (List.replicate (tobits - rest.length) false).length = tobits := by
      rw [List.length_replicate]
      omega
    refine ⟨fun v hv => ?_, tobits - rest.length, by omega, ?_⟩
    · rcases List.mem_append.mp hv with hv | hv
      · exact hcut.words v hv
      · have hlt := toNat_lt (rest ++ List.replicate (tobits - rest.length) false)
        rw [List.length_append, hlen] at hlt
        rwa [List.mem_singleton.mp hv]
    · rw [ofWords_append, ofWords_cons, ofWords_nil, List.append_nil, ofWord_append hlen,
        hcut.eq, List.append_assoc]

/-- Without padding: accepted are words whose bits are those of the answer and a
few zeros, and there is only one answer. -/
theorem unpadded_iff {out : List Nat} (hto : 0 < tobits) :
    convertbits data frombits tobits false = some out ↔
      (∀ v ∈ data, v < 2 ^ frombits) ∧ (∀ v ∈ out, v < 2 ^ tobits) ∧
      ∃ k < tobits, k < frombits ∧
        ofWords frombits data = ofWords tobits out ++ List.replicate k false := by
  constructor
  · intro h
    have hdata := convertbits_fits h
    obtain ⟨us, rest, hcut, -, hunpadded⟩ := convertbits_spec hto hdata
    rw [hunpadded] at h
    split at h
    · next hfits =>
        obtain rfl := Option.some.inj h
        refine ⟨hdata, hcut.words, rest.length, hcut.short, hfits.1, ?_⟩
        rw [← toNat_eq_zero.mp hfits.2]
        exact hcut.eq
    · simp at h
  · rintro ⟨hdata, hout, k, hk, hkf, hbits⟩
    obtain ⟨us, rest, hcut, -, hunpadded⟩ := convertbits_spec hto hdata
    have hcut' : Splits tobits (ofWords frombits data) out (List.replicate k false) :=
      ⟨hbits, hout, by rwa [List.length_replicate]⟩
    obtain ⟨rfl, rfl⟩ := hcut.unique hcut'
    rw [hunpadded, if_pos]
    rw [List.length_replicate, toNat_replicate]
    exact ⟨hkf, rfl⟩

section Inverse

variable {narrow wide : Nat} {xs ys : List Nat}

theorem convertbits_narrow (hpos : 0 < narrow) (hle : narrow ≤ wide)
    (h : convertbits xs narrow wide false = some ys) :
    convertbits ys wide narrow true = some xs := by
  obtain ⟨hxs, hys, k, -, hk, hbits⟩ := (unpadded_iff (Nat.lt_of_lt_of_le hpos hle)).mp h
  obtain ⟨xs', hpadded, hxs', k', hk', hbits'⟩ := padded_spec hpos hys
  -- both have the bits of `ys` and fewer zeros than a narrow word
  have hlen := congrArg List.length hbits
  have hlen' := congrArg List.length hbits'
  simp only [length_ofWords, List.length_append, List.length_replicate] at hlen hlen'
  have hmod : k % narrow = k' % narrow := by
    have h₁ : (wide * ys.length + k) % narrow = 0 := by
      rw [← hlen, Nat.mul_mod_right]
    have h₂ : (wide * ys.length + k') % narrow = 0 := by
      rw [← hlen', Nat.mul_mod_right]
    exact Nat.ModEq.add_left_cancel' (wide * ys.length) (h₁.trans h₂.symm)
  rw [Nat.mod_eq_of_lt hk, Nat.mod_eq_of_lt hk'] at hmod
  have hcut : Splits narrow (ofWords narrow xs) xs [] := ⟨by rw [List.append_nil], hxs, hpos⟩
  have hcut' : Splits narrow (ofWords narrow xs) xs' [] :=
    ⟨by rw [List.append_nil, hbits, hbits', hmod], hxs', hpos⟩
  rw [hpadded, (hcut.unique hcut').1]

theorem convertbits_widen (hpos : 0 < narrow) (hle : narrow ≤ wide)
    (h : convertbits ys wide narrow true = some xs) :
    convertbits xs narrow wide false = some ys := by
  have hys := convertbits_fits h
  obtain ⟨xs', hpadded, hxs, k, hk, hbits⟩ := padded_spec hpos hys
  obtain rfl := Option.some.inj (hpadded.symm.trans h)
  exact (unpadded_iff (Nat.lt_of_lt_of_le hpos hle)).mpr
    ⟨hxs, hys, k, Nat.lt_of_lt_of_le hk hle, hk, hbits⟩

/-- Regrouping to narrower words with padding and regrouping to wider words
without it are inverse to each other, and the latter accepts only what the former
produces. -/
theorem convertbits_inverse (hpos : 0 < narrow) (hle : narrow ≤ wide) (xs ys : List Nat) :
    convertbits xs narrow wide false = some ys ↔ convertbits ys wide narrow true = some xs :=
  ⟨convertbits_narrow hpos hle, convertbits_widen hpos hle⟩

end Inverse

theorem convertbits_inverse_bytes :
    convertbits [31, 28, 0, 16] 5 8 false = some [255, 1] ↔
      convertbits [255, 1] 8 5 true = some [31, 28, 0, 16] :=
  convertbits_inverse (by decide) (by decide) [31, 28, 0, 16] [255, 1]

end ElrondMint
