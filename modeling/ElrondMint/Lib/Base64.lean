import Mathlib.Data.List.Basic

/-!
# Base64

Writing takes three bytes at a time to four characters and fills the last group up
with `=`. Reading is the lenient kind: what is not in the alphabet is skipped, and
the text may end only where a group does, or at the `=` that fills one up.

The state of the reader is its place in the group and the bits it has not given
away yet. After a whole group it is back where it began (`decodeLoop_group`), which
is the induction that reading undoes writing by (`decode_encode`).
-/

namespace Base64

def alphabet : List Char :=
  ['A', 'B', 'C', 'D', 'E', 'F', 'G', 'H', 'I', 'J', 'K', 'L', 'M', 'N', 'O', 'P',
   'Q', 'R', 'S', 'T', 'U', 'V', 'W', 'X', 'Y', 'Z', 'a', 'b', 'c', 'd', 'e', 'f',
   'g', 'h', 'i', 'j', 'k', 'l', 'm', 'n', 'o', 'p', 'q', 'r', 's', 't', 'u', 'v',
   'w', 'x', 'y', 'z', '0', '1', '2', '3', '4', '5', '6', '7', '8', '9', '+', '/']

/-- The character of a value below 64. -/
def char (n : Nat) : Char := alphabet.getD n 'A'

/-- The value of a character of the alphabet. -/
def value (c : Char) : Option Nat := alphabet.idxOf? c

def encode : List UInt8 → List Char
  | [] => []
  | [a] => [char (a.toNat / 4), char (a.toNat % 4 * 16), '=', '=']
  | [a, b] =>
      [char (a.toNat / 4), char (a.toNat % 4 * 16 + b.toNat / 16),
        char (b.toNat % 16 * 4), '=']
  | a :: b :: c :: bytes =>
      char (a.toNat / 4) :: char (a.toNat % 4 * 16 + b.toNat / 16) ::
        char (b.toNat % 16 * 4 + c.toNat / 64) :: char (c.toNat % 64) :: encode bytes

/-- The reader, with its place in the group, the bits left over and how many `=`
came last. -/
def decodeLoop : List Char → Nat → Nat → Nat → Option (List UInt8)
  | [], place, _, _ => if place = 0 then some [] else none
  | '=' :: s, place, left, pads =>
      if 2 ≤ place ∧ 4 ≤ place + (pads + 1) then some []
      else decodeLoop s place left (if 2 ≤ place then pads + 1 else pads)
  | c :: s, place, left, pads =>
      match value c with
      | none => decodeLoop s place left pads
      | some v =>
          match place with
          | 0 => decodeLoop s 1 v 0
          | 1 => (decodeLoop s 2 (v % 16) 0).map (UInt8.ofNat (left * 4 + v / 16) :: ·)
          | 2 => (decodeLoop s 3 (v % 4) 0).map (UInt8.ofNat (left * 16 + v / 4) :: ·)
          | _ => (decodeLoop s 0 0 0).map (UInt8.ofNat (left * 64 + v) :: ·)

def decode (s : List Char) : Option (List UInt8) := decodeLoop s 0 0 0

variable {n place left pads : Nat} {s : List Char}

theorem value_char : n < 64 → value (char n) = some n := by
  have hall : (List.range 64).all (fun n => value (char n) = some n) = true := by decide
  intro hn
  have hat := List.all_eq_true.mp hall n (List.mem_range.mpr hn)
  simpa using hat

theorem char_mem : n < 64 → char n ∈ alphabet := by
  have hall : (List.range 64).all (fun n => char n ∈ alphabet) = true := by decide
  intro hn
  have hat := List.all_eq_true.mp hall n (List.mem_range.mpr hn)
  simpa using hat

theorem char_ne_pad (hn : n < 64) : char n ≠ '=' := by
  intro h
  have hmem := char_mem hn
  rw [h] at hmem
  exact absurd hmem (by decide)

/-- A character of the alphabet is one step of the reader. -/
theorem decodeLoop_char (hn : n < 64) : decodeLoop (char n :: s) place left pads =
    match place with
    | 0 => decodeLoop s 1 n 0
    | 1 => (decodeLoop s 2 (n % 16) 0).map (UInt8.ofNat (left * 4 + n / 16) :: ·)
    | 2 => (decodeLoop s 3 (n % 4) 0).map (UInt8.ofNat (left * 16 + n / 4) :: ·)
    | _ => (decodeLoop s 0 0 0).map (UInt8.ofNat (left * 64 + n) :: ·) := by
  rw [decodeLoop]
  · rw [value_char hn]
  · exact char_ne_pad hn

theorem decodeLoop_first (hn : n < 64) :
    decodeLoop (char n :: s) 0 left pads = decodeLoop s 1 n 0 :=
  decodeLoop_char hn

/-- A byte is out as soon as the reader has all of it. -/
theorem decodeLoop_second {b : UInt8} (hn : n < 64) (hb : left * 4 + n / 16 = b.toNat) :
    decodeLoop (char n :: s) 1 left pads = (decodeLoop s 2 (n % 16) 0).map (b :: ·) := by
  rw [← UInt8.ofNat_toNat (x := b), ← hb]
  exact decodeLoop_char hn

theorem decodeLoop_third {b : UInt8} (hn : n < 64) (hb : left * 16 + n / 4 = b.toNat) :
    decodeLoop (char n :: s) 2 left pads = (decodeLoop s 3 (n % 4) 0).map (b :: ·) := by
  rw [← UInt8.ofNat_toNat (x := b), ← hb]
  exact decodeLoop_char hn

theorem decodeLoop_fourth {b : UInt8} (hn : n < 64) (hb : left * 64 + n = b.toNat) :
    decodeLoop (char n :: s) 3 left pads = (decodeLoop s 0 0 0).map (b :: ·) := by
  rw [← UInt8.ofNat_toNat (x := b), ← hb]
  exact decodeLoop_char hn

/-- A whole group is three bytes, and after it the reader is back where it began. -/
theorem decodeLoop_group (a b c : UInt8) (s : List Char) :
    decodeLoop (char (a.toNat / 4) :: char (a.toNat % 4 * 16 + b.toNat / 16) ::
      char (b.toNat % 16 * 4 + c.toNat / 64) :: char (c.toNat % 64) :: s) 0 0 0 =
      (decodeLoop s 0 0 0).map (a :: b :: c :: ·) := by
  have ha := a.toNat_lt
  have hb := b.toNat_lt
  have hc := c.toNat_lt
  rw [decodeLoop_first (by omega), decodeLoop_second (b := a) (by omega) (by omega),
    decodeLoop_third (b := b) (by omega) (by omega),
    decodeLoop_fourth (b := c) (by omega) (by omega), Option.map_map, Option.map_map]
  rfl

theorem decode_encode (bytes : List UInt8) : decode (encode bytes) = some bytes := by
  rw [decode]
  fun_induction encode bytes with
  | case1 => rfl
  | case2 a =>
      have ha := a.toNat_lt
      rw [decodeLoop_first (by omega), decodeLoop_second (b := a) (by omega) (by omega)]
      rfl
  | case3 a b =>
      have ha := a.toNat_lt
      have hb := b.toNat_lt
      rw [decodeLoop_first (by omega), decodeLoop_second (b := a) (by omega) (by omega),
        decodeLoop_third (b := b) (by omega) (by omega)]
      rfl
  | case4 a b c bytes ih =>
      rw [decodeLoop_group, ih]
      rfl

theorem encode_injective {xs ys : List UInt8} (h : encode xs = encode ys) : xs = ys :=
  Option.some.inj ((decode_encode xs).symm.trans (h ▸ decode_encode ys))

/-- Four characters for every three bytes, rounded up. -/
theorem length_encode (bytes : List UInt8) :
    (encode bytes).length = 4 * ((bytes.length + 2) / 3) := by
  fun_induction encode bytes with
  | case1 => rfl
  | case2 a => simp
  | case3 a b => simp
  | case4 a b c bytes ih =>
      simp only [List.length_cons, ih]
      omega

/-- What is written with. -/
theorem encode_mem (bytes : List UInt8) : ∀ c ∈ encode bytes, c ∈ '=' :: alphabet := by
  fun_induction encode bytes with
  | case1 => exact fun _ hc => absurd hc List.not_mem_nil
  | case2 a =>
      have ha := a.toNat_lt
      simp only [List.forall_mem_cons]
      exact ⟨List.mem_cons_of_mem _ (char_mem (by omega)),
        List.mem_cons_of_mem _ (char_mem (by omega)), List.mem_cons_self, List.mem_cons_self,
        fun _ hc => absurd hc List.not_mem_nil⟩
  | case3 a b =>
      have ha := a.toNat_lt
      have hb := b.toNat_lt
      simp only [List.forall_mem_cons]
      exact ⟨List.mem_cons_of_mem _ (char_mem (by omega)),
        List.mem_cons_of_mem _ (char_mem (by omega)),
        List.mem_cons_of_mem _ (char_mem (by omega)), List.mem_cons_self,
        fun _ hc => absurd hc List.not_mem_nil⟩
  | case4 a b c bytes ih =>
      have ha := a.toNat_lt
      have hb := b.toNat_lt
      have hc := c.toNat_lt
      simp only [List.forall_mem_cons]
      exact ⟨List.mem_cons_of_mem _ (char_mem (by omega)),
        List.mem_cons_of_mem _ (char_mem (by omega)),
        List.mem_cons_of_mem _ (char_mem (by omega)),
        List.mem_cons_of_mem _ (char_mem (by omega)), ih⟩

end Base64
