import ElrondMint.Lib.BigEndian

/-!
# Bytes as hexadecimal digits

Writing is in small letters, two digits a byte, the high one first. Reading
takes either case and skips white space between two bytes, but not inside one.

Reading undoes writing (`decode_encode`); the other way round, a text that reads
is what its bytes are written as, up to case and white space (`encode_decode`),
so that a text without white space has two digits a byte. Where no white space is
to be skipped, reading and writing are inverse up to case (`decodeStrict_eq_some`).

The digits of a number, brought to an even count, are those of its big-endian
bytes (`padded_toDigits`).
-/

namespace Hex

def digits : List Char :=
  ['0', '1', '2', '3', '4', '5', '6', '7', '8', '9', 'a', 'b', 'c', 'd', 'e', 'f']

/-- The digit of a value below 16. -/
def digit (n : Nat) : Char := digits.getD n '0'

/-- The value of a digit. -/
def value (c : Char) : Option Nat := digits.idxOf? c.toLower

/-- ASCII white space. -/
def spaces : List Char := [' ', '\t', '\n', '\x0b', '\x0c', '\r']

def isSpace (c : Char) : Bool := c ∈ spaces

/-- The two digits of a byte. -/
def ofByte (b : UInt8) : List Char := [digit (b.toNat / 16), digit (b.toNat % 16)]

def encode (bytes : List UInt8) : List Char := bytes.flatMap ofByte

def decode : List Char → Option (List UInt8)
  | [] => some []
  | [c] => if isSpace c then some [] else none
  | c :: d :: s =>
      if isSpace c then decode (d :: s)
      else
        match value c, value d, decode s with
        | some high, some low, some bytes => some (UInt8.ofNat (16 * high + low) :: bytes)
        | _, _, _ => none

/-- Reading without skipping anything. -/
def decodeStrict (s : List Char) : Option (List UInt8) :=
  if s.all fun c => !isSpace c then decode s else none

variable {c d : Char} {n : Nat} {s : List Char} {b : UInt8} {bytes : List UInt8}

/-! ## Digits -/

theorem value_digit : n < 16 → value (digit n) = some n := by
  have hall : (List.range 16).all (fun n => value (digit n) = some n) = true := by decide
  intro hn
  have hat := List.all_eq_true.mp hall n (List.mem_range.mpr hn)
  simpa using hat

theorem digit_mem : n < 16 → digit n ∈ digits := by
  have hall : (List.range 16).all (fun n => digit n ∈ digits) = true := by decide
  intro hn
  have hat := List.all_eq_true.mp hall n (List.mem_range.mpr hn)
  simpa using hat

theorem digits_lower : ∀ c ∈ digits, c.toLower = c := by
  have hall : digits.all (fun c => c.toLower = c) = true := by decide
  simpa using hall

theorem digits_not_space : ∀ c ∈ digits, isSpace c = false := by
  have hall : digits.all (fun c => isSpace c = false) = true := by decide
  simpa using hall

theorem value_eq_some : value c = some n ↔ n < 16 ∧ digit n = c.toLower := by
  constructor
  · intro h
    obtain ⟨hlt, heq, -⟩ := List.findIdx?_eq_some_iff_getElem.mp h
    refine ⟨hlt, ?_⟩
    rw [digit, List.getD_eq_getElem?_getD, List.getElem?_eq_getElem hlt]
    simpa using heq
  · rintro ⟨hlt, heq⟩
    have hvalue := value_digit hlt
    rw [value, heq] at hvalue
    have hidem : c.toLower.toLower = c.toLower := by
      rw [← heq]
      exact digits_lower _ (digit_mem hlt)
    rwa [hidem] at hvalue

theorem value_isSome : (value c).isSome ↔ c.toLower ∈ digits := by
  rw [Option.isSome_iff_exists]
  constructor
  · rintro ⟨n, hn⟩
    obtain ⟨hlt, heq⟩ := value_eq_some.mp hn
    rw [← heq]
    exact digit_mem hlt
  · intro h
    have hlt := List.idxOf_lt_length_of_mem h
    refine ⟨digits.idxOf c.toLower, value_eq_some.mpr ⟨hlt, ?_⟩⟩
    rw [digit, List.getD_eq_getElem?_getD, List.getElem?_eq_getElem hlt, List.getElem_idxOf hlt,
      Option.getD_some]

/-! ## Bytes -/

@[simp] theorem encode_nil : encode [] = [] := rfl

@[simp] theorem encode_cons (b : UInt8) (bytes : List UInt8) :
    encode (b :: bytes) = digit (b.toNat / 16) :: digit (b.toNat % 16) :: encode bytes := rfl

@[simp] theorem encode_append (xs ys : List UInt8) :
    encode (xs ++ ys) = encode xs ++ encode ys := List.flatMap_append

@[simp] theorem length_encode (bytes : List UInt8) : (encode bytes).length = 2 * bytes.length := by
  induction bytes with
  | nil => rfl
  | cons b bytes ih =>
      rw [encode_cons, List.length_cons, List.length_cons, ih, List.length_cons]
      omega

theorem high_lt (b : UInt8) : b.toNat / 16 < 16 := by
  have hlt := b.toNat_lt
  omega

theorem low_lt (b : UInt8) : b.toNat % 16 < 16 := Nat.mod_lt _ (by omega)

theorem encode_mem : ∀ c ∈ encode bytes, c ∈ digits := by
  induction bytes with
  | nil => exact fun _ hc => absurd hc List.not_mem_nil
  | cons b bytes ih =>
      rw [encode_cons, List.forall_mem_cons, List.forall_mem_cons]
      exact ⟨digit_mem (high_lt b), digit_mem (low_lt b), ih⟩

theorem ofNat_halves (b : UInt8) : UInt8.ofNat (16 * (b.toNat / 16) + b.toNat % 16) = b := by
  rw [Nat.div_add_mod, UInt8.ofNat_toNat]

theorem digits_ofNat {high low : Nat} (hhigh : high < 16) (hlow : low < 16) :
    (UInt8.ofNat (16 * high + low)).toNat / 16 = high ∧
      (UInt8.ofNat (16 * high + low)).toNat % 16 = low := by
  rw [UInt8.toNat_ofNat']
  omega

/-! ## Reading -/

theorem decode_encode (bytes : List UInt8) : decode (encode bytes) = some bytes := by
  induction bytes with
  | nil => rfl
  | cons b bytes ih =>
      have hspace := digits_not_space _ (digit_mem (high_lt b))
      rw [encode_cons, decode, if_neg (by rw [hspace]; exact Bool.false_ne_true),
        value_digit (high_lt b), value_digit (low_lt b), ih]
      simp only [ofNat_halves]

theorem encode_injective {xs ys : List UInt8} (h : encode xs = encode ys) : xs = ys :=
  Option.some.inj ((decode_encode xs).symm.trans (h ▸ decode_encode ys))

/-- Digits are no white space, in either case. -/
theorem not_space_of_value (h : value c = some n) : isSpace c = false := by
  have hall : spaces.all (fun c => value c = none) = true := by decide
  by_contra hspace
  rw [Bool.not_eq_false, isSpace, decide_eq_true_eq] at hspace
  have hnone : value c = none := by simpa using List.all_eq_true.mp hall c hspace
  simp [hnone] at h

theorem encode_prefix {xs ys : List UInt8} : encode xs <+: encode ys ↔ xs <+: ys := by
  constructor
  · intro h
    induction xs generalizing ys with
    | nil => exact List.nil_prefix
    | cons x xs ih =>
        cases ys with
        | nil =>
            rw [encode_nil, List.prefix_nil] at h
            simp at h
        | cons y ys =>
            simp only [encode_cons, List.cons_prefix_cons] at h
            obtain ⟨hhigh, hlow, htail⟩ := h
            have hbyte : encode [x] = encode [y] := by
              rw [encode_cons, encode_cons, hhigh, hlow]
            obtain rfl := List.singleton_inj.mp (encode_injective hbyte)
            exact List.cons_prefix_cons.mpr ⟨rfl, ih htail⟩
  · rintro ⟨zs, rfl⟩
    rw [encode_append]
    exact List.prefix_append _ _

/-- What a text is read as is what it says, but for case and white space. -/
theorem encode_decode (h : decode s = some bytes) :
    (s.filter fun c => !isSpace c).map Char.toLower = encode bytes := by
  fun_induction decode s generalizing bytes with
  | case1 =>
      obtain rfl := Option.some.inj h
      rfl
  | case2 c hc =>
      obtain rfl := Option.some.inj h
      simp [hc]
  | case3 c hc => simp at h
  | case4 c d s hc ih => simpa [hc] using ih h
  | case5 c d s hc high low rest hrest hlow hhigh ih =>
      obtain rfl := Option.some.inj h
      obtain ⟨hlt, heq⟩ := value_eq_some.mp hhigh
      obtain ⟨hlt', heq'⟩ := value_eq_some.mp hlow
      obtain ⟨hdiv, hmod⟩ := digits_ofNat hlt hlt'
      rw [encode_cons, hdiv, hmod, heq, heq', ← ih hrest]
      simp [not_space_of_value hhigh, not_space_of_value hlow]
  | case6 => simp at h

/-- How long a text is that reads. -/
theorem length_of_decode (h : decode s = some bytes) :
    s.length = 2 * bytes.length + s.countP isSpace := by
  have hlen := congrArg List.length (encode_decode h)
  rw [List.length_map, length_encode, ← List.countP_eq_length_filter] at hlen
  have hsplit := List.length_eq_countP_add_countP isSpace (l := s)
  simp only [Bool.not_eq_true, Bool.decide_eq_false] at hsplit
  omega

/-- A text without white space. -/
theorem decode_eq_some (hspace : ∀ c ∈ s, isSpace c = false) :
    decode s = some bytes ↔ s.map Char.toLower = encode bytes := by
  have hfilter : (s.filter fun c => !isSpace c) = s := by
    rw [List.filter_eq_self]
    intro c hc
    rw [hspace c hc]
    rfl
  constructor
  · intro h
    rw [← encode_decode h, hfilter]
  · intro h
    induction bytes generalizing s with
    | nil =>
        obtain rfl := List.map_eq_nil_iff.mp h
        rfl
    | cons b bytes ih =>
        match s with
        | [] | [_] => simp at h
        | c :: d :: s =>
            simp only [encode_cons, List.map_cons, List.cons.injEq] at h
            obtain ⟨hc, hd, hs⟩ := h
            simp only [List.forall_mem_cons] at hspace
            rw [decode, if_neg (by rw [hspace.1]; exact Bool.false_ne_true),
              value_eq_some.mpr ⟨high_lt b, hc.symm⟩, value_eq_some.mpr ⟨low_lt b, hd.symm⟩,
              ih hspace.2.2 (by simpa using hspace.2.2) hs]
            simp only [ofNat_halves]

theorem decodeStrict_eq_some : decodeStrict s = some bytes ↔ s.map Char.toLower = encode bytes := by
  have hall : (s.all fun c => !isSpace c) = true ↔ ∀ c ∈ s, isSpace c = false := by simp
  rw [decodeStrict]
  split
  · next h => exact decode_eq_some (hall.mp h)
  · next h =>
    constructor
    · intro hnone
      simp at hnone
    · intro heq
      refine absurd (hall.mpr fun c hc => ?_) h
      have hmem : c.toLower ∈ encode bytes := by
        rw [← heq]
        exact List.mem_map_of_mem hc
      have hdigit := encode_mem _ hmem
      obtain ⟨n, hn⟩ := Option.isSome_iff_exists.mp (value_isSome.mpr hdigit)
      exact not_space_of_value hn

theorem decodeStrict_encode (bytes : List UInt8) : decodeStrict (encode bytes) = some bytes := by
  rw [decodeStrict_eq_some]
  conv_rhs => rw [← List.map_id (encode bytes)]
  refine List.map_congr_left fun c hc => ?_
  exact digits_lower c (encode_mem c hc)

/-! ## Numbers -/

/-- One more digit in front if there is an odd number of them. -/
def padEven (s : List Char) : List Char := if s.length % 2 = 1 then '0' :: s else s

theorem digit_eq : n < 16 → digit n = n.digitChar := by
  have hall : (List.range 16).all (fun n => digit n = n.digitChar) = true := by decide
  intro hn
  have hat := List.all_eq_true.mp hall n (List.mem_range.mpr hn)
  simpa using hat

theorem padEven_append_pair (s : List Char) (c d : Char) :
    padEven (s ++ [c] ++ [d]) = padEven s ++ [c, d] := by
  unfold padEven
  simp only [List.length_append, List.length_cons, List.length_nil]
  have hmod : (s.length + (0 + 1) + (0 + 1)) % 2 = s.length % 2 := by omega
  rw [hmod]
  split <;> simp

/-- The digits of a number are those of its bytes. -/
theorem padded_toDigits (hn : 0 < n) :
    padEven (Nat.toDigits 16 n) = encode (BigEndian.encode n) := by
  induction n using Nat.strongRecOn with
  | _ n ih =>
      by_cases hsmall : n < 256
      · have hbytes : BigEndian.encode n = [UInt8.ofNat n] := by
          rw [BigEndian.encode, Nat.digits_of_lt 256 n (by omega) hsmall]
          rfl
        have hbyte : (UInt8.ofNat n).toNat = n := by
          rw [UInt8.toNat_ofNat']
          omega
        rw [hbytes, encode_cons, hbyte, encode_nil, digit_eq (by omega), digit_eq (by omega)]
        by_cases hdigit : n < 16
        · rw [Nat.toDigits_of_lt_base hdigit, Nat.div_eq_of_lt hdigit, Nat.mod_eq_of_lt hdigit]
          rfl
        · rw [Nat.toDigits_of_base_le (by omega) (by omega),
            Nat.toDigits_of_lt_base (show n / 16 < 16 by omega)]
          simp [padEven]
      · have hbyte : (UInt8.ofNat (n % 256)).toNat = n % 256 := by
          rw [UInt8.toNat_ofNat']
          omega
        have hdiv : n / 16 / 16 = n / 256 := by omega
        have hhigh : n % 256 / 16 = n / 16 % 16 := by omega
        have hlow : n % 256 % 16 = n % 16 := by omega
        rw [BigEndian.encode_of_pos hn, encode_append, encode_cons, encode_nil, hbyte, hhigh,
          hlow, digit_eq (by omega), digit_eq (by omega), ← ih (n / 256) (by omega) (by omega),
          Nat.toDigits_of_base_le (by omega) (show 16 ≤ n by omega),
          Nat.toDigits_of_base_le (by omega) (show 16 ≤ n / 16 by omega), hdiv,
          padEven_append_pair]

end Hex
