import Mathlib.Data.Nat.Digits.Lemmas

/-!
# Minimal big-endian byte strings

A number is written in base 256, most significant byte first, with no
leading zero byte, so that zero is the empty string. Reading takes any byte
string, leading zeros included, and undoes the writing. The digits are
Mathlib's `Nat.digits`, least significant first; both directions reverse.
-/

namespace BigEndian

/-- The shortest big-endian byte string of `n`. -/
def encode (n : Nat) : List UInt8 :=
  ((Nat.digits 256 n).map UInt8.ofNat).reverse

/-- The number a big-endian byte string stands for. -/
def decode (bytes : List UInt8) : Nat :=
  Nat.ofDigits 256 (bytes.reverse.map UInt8.toNat)

theorem decode_encode (n : Nat) : decode (encode n) = n := by
  have hdigits : ((Nat.digits 256 n).map UInt8.ofNat).map UInt8.toNat =
      Nat.digits 256 n := by
    rw [List.map_map]
    conv_rhs => rw [← List.map_id (Nat.digits 256 n)]
    refine List.map_congr_left fun d hd => ?_
    have hlt : d < 256 := Nat.digits_lt_base (by omega) hd
    simp only [Function.comp_apply, id_eq, UInt8.toNat_ofNat']
    omega
  rw [decode, encode, List.reverse_reverse, hdigits, Nat.ofDigits_digits]

/-- A number below `256 ^ k` needs at most `k` bytes. -/
theorem length_encode_le {n k : Nat} (h : n < 256 ^ k) :
    (encode n).length ≤ k := by
  rw [encode, List.length_reverse, List.length_map]
  exact (Nat.digits_length_le_iff (by omega) n).mpr h

theorem length_encode_le_iff {n k : Nat} : (encode n).length ≤ k ↔ n < 256 ^ k := by
  rw [encode, List.length_reverse, List.length_map]
  exact Nat.digits_length_le_iff (by omega) n

/-- Leading zeros are nothing. -/
theorem decode_zeros (k : Nat) (bytes : List UInt8) :
    decode (List.replicate k 0 ++ bytes) = decode bytes := by
  rw [decode, decode, List.reverse_append, List.map_append, List.reverse_replicate,
    List.map_replicate]
  exact Nat.ofDigits_append_replicate_zero _

/-- A number above zero ends in its lowest byte. -/
theorem encode_of_pos {n : Nat} (hn : 0 < n) :
    encode n = encode (n / 256) ++ [UInt8.ofNat (n % 256)] := by
  rw [encode, encode, Nat.digits_def' (by omega) hn, List.map_cons, List.reverse_cons]

end BigEndian
