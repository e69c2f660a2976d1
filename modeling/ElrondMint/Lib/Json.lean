import ElrondMint.Lib.Hex
import ElrondMint.Lib.Unambiguous

/-!
# Flat JSON objects

Objects whose members are integers and strings, written without white space and in
ASCII: what is not printable ASCII is escaped, beyond the basic plane as a pair of
surrogates.

Every layer of the writer is unambiguous in the sense of `Lib/Unambiguous.lean`: an
escaped character because it can be read back, an integer because it consists of
digits and a sign, a string and an object because of the marks at their ends. So two
objects with the same members in the same order are all that one text can be
(`writeObject_injective`).
-/

namespace Json

open Unambiguous

inductive Value where
  | int (n : Int)
  | str (s : List Char)
  deriving DecidableEq, Repr

/-- A unit of sixteen bits, in four digits. -/
def hexUnit (n : Nat) : List Char :=
  [Hex.digit (n / 4096), Hex.digit (n / 256 % 16), Hex.digit (n / 16 % 16), Hex.digit (n % 16)]

/-- The letters of the short escapes. -/
def short : List (Char × Char) :=
  [('"', '"'), ('\\', '\\'), ('\n', 'n'), ('\r', 'r'), ('\t', 't'), ('\x08', 'b'), ('\x0c', 'f')]

def escape (c : Char) : List Char :=
  match short.find? fun p => p.1 = c with
  | some p => ['\\', p.2]
  | none =>
      let n := c.toNat
      if 32 ≤ n ∧ n ≤ 126 then [c]
      else if n < 0x10000 then '\\' :: 'u' :: hexUnit n
      else
        '\\' :: 'u' :: hexUnit (0xd800 + (n - 0x10000) / 1024) ++
          '\\' :: 'u' :: hexUnit (0xdc00 + (n - 0x10000) % 1024)

def writeString (s : List Char) : List Char := '"' :: (s.flatMap escape ++ ['"'])

def writeInt : Int → List Char
  | .ofNat n => Nat.toDigits 10 n
  | .negSucc n => '-' :: Nat.toDigits 10 (n + 1)

def writeValue : Value → List Char
  | .int n => writeInt n
  | .str s => writeString s

def writeMember (member : List Char × Value) : List Char :=
  writeString member.1 ++ ':' :: writeValue member.2

def writeObject (members : List (List Char × Value)) : List Char :=
  '{' :: ([','].intercalate (members.map writeMember) ++ ['}'])

/-! ## Escaped characters -/

/-- Reads a unit of sixteen bits. -/
def readUnit : List Char → Option (Nat × List Char)
  | a :: b :: c :: d :: s =>
      match Hex.value a, Hex.value b, Hex.value c, Hex.value d with
      | some a, some b, some c, some d => some (4096 * a + 256 * b + 16 * c + d, s)
      | _, _, _, _ => none
  | _ => none

theorem readUnit_hexUnit {n : Nat} (hn : n < 65536) (s : List Char) :
    readUnit (hexUnit n ++ s) = some (n, s) := by
  have hdigits : hexUnit n ++ s = Hex.digit (n / 4096) :: Hex.digit (n / 256 % 16) ::
      Hex.digit (n / 16 % 16) :: Hex.digit (n % 16) :: s := rfl
  rw [hdigits, readUnit, Hex.value_digit (by omega), Hex.value_digit (by omega),
    Hex.value_digit (by omega), Hex.value_digit (by omega)]
  simp only [Option.some.injEq, Prod.mk.injEq, and_true]
  omega

/-- Reads an escape that is not a short one. -/
def readUnits (s : List Char) : Option (Char × List Char) := do
  let (n, s) ← readUnit s
  if 0xd800 ≤ n ∧ n < 0xdc00 then
    let (m, s) ← readUnit (s.drop 2)
    return (Char.ofNat (0x10000 + (n - 0xd800) * 1024 + (m - 0xdc00)), s)
  else return (Char.ofNat n, s)

/-- Reads one escaped character. -/
def unescape : List Char → Option (Char × List Char)
  | [] => none
  | c :: s =>
      if c ≠ '\\' then some (c, s)
      else
        match s with
        | [] => none
        | letter :: s =>
            if letter = 'u' then readUnits s
            else (short.find? fun p => p.2 = letter).map fun p => (p.1, s)

theorem unescape_long (s : List Char) : unescape ('\\' :: 'u' :: s) = readUnits s := rfl

theorem unescape_short {letter : Char} (hu : letter ≠ 'u') (s : List Char) :
    unescape ('\\' :: letter :: s) =
      (short.find? fun p => p.2 = letter).map fun p => (p.1, s) :=
  if_neg hu

theorem unescape_plain {c : Char} (hc : c ≠ '\\') (s : List Char) :
    unescape (c :: s) = some (c, s) :=
  if_pos hc

theorem unescape_unit (c : Char) (s : List Char) (hsmall : c.toNat < 0x10000) :
    unescape ('\\' :: 'u' :: hexUnit c.toNat ++ s) = some (c, s) := by
  have hvalid : c.toNat < 0xd800 ∨ 0xdfff < c.toNat ∧ c.toNat < 0x110000 := c.valid
  have hread : readUnits (hexUnit c.toNat ++ s) = some (c, s) := by
    rw [readUnits, readUnit_hexUnit hsmall]
    simp only [Option.bind_eq_bind, Option.bind_some]
    rw [if_neg (by omega), Char.ofNat_toNat]
    rfl
  rw [List.cons_append, List.cons_append, unescape_long, hread]

/-- Two surrogates are read together. -/
theorem readUnits_surrogates (hi lo : Nat) (hhi : 0xd800 ≤ hi ∧ hi < 0xdc00) (hlo : lo < 65536)
    (s : List Char) :
    readUnits (hexUnit hi ++ '\\' :: 'u' :: (hexUnit lo ++ s)) =
      some (Char.ofNat (0x10000 + (hi - 0xd800) * 1024 + (lo - 0xdc00)), s) := by
  rw [readUnits, readUnit_hexUnit (by omega)]
  simp only [Option.bind_eq_bind, Option.bind_some]
  rw [if_pos hhi, List.drop_succ_cons, List.drop_succ_cons, List.drop_zero,
    readUnit_hexUnit hlo]
  rfl

theorem unescape_surrogates (c : Char) (s : List Char) (hlarge : 0x10000 ≤ c.toNat) :
    unescape ('\\' :: 'u' :: hexUnit (0xd800 + (c.toNat - 0x10000) / 1024) ++
      '\\' :: 'u' :: hexUnit (0xdc00 + (c.toNat - 0x10000) % 1024) ++ s) = some (c, s) := by
  have hvalid : c.toNat < 0xd800 ∨ 0xdfff < c.toNat ∧ c.toNat < 0x110000 := c.valid
  have hcode : 0x10000 + (0xd800 + (c.toNat - 0x10000) / 1024 - 0xd800) * 1024 +
      (0xdc00 + (c.toNat - 0x10000) % 1024 - 0xdc00) = c.toNat := by omega
  have hread := readUnits_surrogates (0xd800 + (c.toNat - 0x10000) / 1024)
    (0xdc00 + (c.toNat - 0x10000) % 1024) (by omega) (by omega) s
  rw [hcode, Char.ofNat_toNat] at hread
  simp only [List.cons_append, List.append_assoc]
  rw [unescape_long, hread]

theorem unescape_escape (c : Char) (s : List Char) : unescape (escape c ++ s) = some (c, s) := by
  rw [escape]
  split
  · next p hp =>
    have hall : short.all (fun p => p.2 ≠ 'u' && (short.find? fun q => q.2 = p.2) = some p) =
        true := by
      decide
    have hat := List.all_eq_true.mp hall p (List.mem_of_find?_eq_some hp)
    rw [Bool.and_eq_true, decide_eq_true_eq, decide_eq_true_eq] at hat
    obtain ⟨hu, hfind⟩ := hat
    have hc : p.1 = c := by simpa using List.find?_some hp
    rw [List.cons_append, List.singleton_append, unescape_short hu, hfind, ← hc]
    rfl
  · next hnone =>
    simp only []
    split
    · have hslash : c ≠ '\\' := by
        rintro rfl
        exact absurd hnone (by decide)
      exact unescape_plain hslash s
    · split
      · next hsmall => exact unescape_unit c s hsmall
      · next hlarge => exact unescape_surrogates c s (by omega)

theorem writes_escape : Writes anything escape := Writes.of_reader unescape_escape

/-- An escape begins with a backslash, or with the character itself. -/
theorem escape_begin (c : Char) : ∃ d t, escape c = d :: t ∧ d ≠ '"' := by
  rw [escape]
  split
  · exact ⟨'\\', _, rfl, by decide⟩
  · next hnone =>
    simp only []
    split
    · refine ⟨c, [], rfl, ?_⟩
      rintro rfl
      exact absurd hnone (by decide)
    · split
      · exact ⟨'\\', _, rfl, by decide⟩
      · exact ⟨'\\', _, rfl, by decide⟩

/-! ## Strings, integers and objects -/

theorem writes_string : Writes anything writeString := by
  have hlist : Writes anything fun s : List Char => s.flatMap escape ++ ['"'] :=
    Writes.list writes_escape trivial fun c => by
      obtain ⟨d, t, heq, hd⟩ := escape_begin c
      exact ⟨d, t, heq, hd, trivial⟩
  exact hlist.prepend ['"']

/-- What an integer is written with. -/
def isNumeral (c : Char) : Bool := c.isDigit || c = '-'

theorem toDigits_injective : Function.Injective (Nat.toDigits 10) := by
  intro m n h
  have hm := Nat.ofDigitChars_ten_toDigits (n := m)
  rw [h, Nat.ofDigitChars_ten_toDigits] at hm
  exact hm.symm

theorem toDigits_isDigit (n : Nat) : ∀ c ∈ Nat.toDigits 10 n, c.isDigit = true := by
  intro c hc
  exact Nat.isDigit_of_mem_toDigits (by omega) (by omega) hc

theorem toDigits_begin (n : Nat) : ∃ c t, Nat.toDigits 10 n = c :: t ∧ c.isDigit = true := by
  obtain ⟨c, t, heq⟩ := List.exists_cons_of_ne_nil (Nat.toDigits_ne_nil (n := n) (b := 10))
  exact ⟨c, t, heq, toDigits_isDigit n c (heq ▸ List.mem_cons_self)⟩

theorem writeInt_injective : Function.Injective writeInt := by
  intro m n h
  have hsign : ∀ k l : Nat, Nat.toDigits 10 k ≠ '-' :: Nat.toDigits 10 l := by
    intro k l heq
    obtain ⟨c, t, hc, hdigit⟩ := toDigits_begin k
    rw [hc] at heq
    rw [(List.cons.inj heq).1] at hdigit
    exact absurd hdigit (by decide)
  match m, n with
  | .ofNat k, .ofNat l => rw [toDigits_injective h]
  | .ofNat k, .negSucc l => exact absurd h (hsign k (l + 1))
  | .negSucc k, .ofNat l => exact absurd h.symm (hsign l (k + 1))
  | .negSucc k, .negSucc l =>
      have hdigits := toDigits_injective (List.cons.inj h).2
      rw [Nat.add_right_cancel hdigits]

theorem writes_int : Writes (fun c => isNumeral c = false) writeInt := by
  refine Writes.of_class writeInt_injective fun n c hc => ?_
  cases n with
  | ofNat n => rw [isNumeral, toDigits_isDigit n c hc, Bool.true_or]
  | negSucc n =>
      rcases List.mem_cons.mp hc with rfl | hc
      · decide
      · rw [isNumeral, toDigits_isDigit (n + 1) c hc, Bool.true_or]

theorem writeInt_begin (n : Int) : ∃ c t, writeInt n = c :: t ∧ isNumeral c = true := by
  cases n with
  | ofNat n =>
      obtain ⟨c, t, heq, hdigit⟩ := toDigits_begin n
      exact ⟨c, t, heq, by rw [isNumeral, hdigit, Bool.true_or]⟩
  | negSucc n => exact ⟨'-', _, rfl, by decide⟩

theorem writes_value : Writes (fun c => isNumeral c = false) writeValue := by
  have hquote : ∀ (n : Int) (s t u : List Char), writeInt n ++ s ≠ writeString t ++ u := by
    intro n s t u heq
    obtain ⟨c, v, hc, hnumeral⟩ := writeInt_begin n
    rw [hc] at heq
    rw [(List.cons.inj heq).1] at hnumeral
    exact absurd hnumeral (by decide)
  intro a b s t hs ht heq
  match a, b with
  | .int m, .int n =>
      obtain ⟨rfl, hst⟩ := writes_int hs ht heq
      exact ⟨rfl, hst⟩
  | .str x, .str y =>
      obtain ⟨rfl, hst⟩ := writes_string (ends_anything s) (ends_anything t) heq
      exact ⟨rfl, hst⟩
  | .int m, .str y => exact absurd heq (hquote m s y t)
  | .str x, .int n => exact absurd heq.symm (hquote n t x s)

theorem writes_member : Writes (fun c => isNumeral c = false) writeMember :=
  writes_string.pair (writes_value.prepend [':']) fun v => ⟨':', writeValue v, rfl, trivial⟩

theorem writes_object : Writes anything writeObject := by
  have hbegin : ∀ m, ∃ c t, writeMember m = c :: t ∧ c ≠ '}' := fun m =>
    ⟨'"', _, rfl, by decide⟩
  have hcomma : isNumeral ',' = false := by decide
  have hbrace : isNumeral '}' = false := by decide
  exact (writes_member.separated hcomma hbrace (by decide) hbegin).prepend ['{']

/-- One text is one object. -/
theorem writeObject_injective : Function.Injective writeObject := writes_object.injective

end Json
