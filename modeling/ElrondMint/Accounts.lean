import ElrondMint.Types
import ElrondMint.Bech32
import ElrondMint.Convertbits
import ElrondMint.Lib.Hex
import ElrondMint.Lib.Rollback

/-!
# Addresses as the tools take them

`Address` of `accounts.py`. An address keeps a text as its backing value, meant
to be the 64 hexadecimal digits of a public key of 32 bytes, and tells from
nothing but the length of what it is given how to get at it: 32 is a key, 64 are
digits, 62 is the text form. Digits are taken over unchecked; that they are none
shows when the key is asked for.

Over `Bech32.lean` and `Convertbits.lean` this becomes a format of its own. A key
is read back from all its forms (`address_round_trip`), it has just two texts of
62 characters (`two_spellings`), what an address renders as can be read again
unless there is white space among its digits (`rendered_reread`), and what a
mistyped text leads to is no key (`mistyped_keyless`).
-/

namespace ElrondMint

/-! ## Texts and bytes -/

namespace Text

/-- `str.encode`. -/
def encode (s : Text) : Bytes := s.flatMap String.utf8EncodeChar

/-- `bytes.decode("utf-8")`, with `none` for a `UnicodeDecodeError`. -/
def decode (bs : Bytes) : Option Text := bs.toByteArray.utf8Decode?.map Array.toList

theorem toByteArray_encode (s : Text) : s.encode.toByteArray = List.utf8Encode s := rfl

theorem decode_eq_some {bs : Bytes} {s : Text} : decode bs = some s ↔ bs = s.encode := by
  constructor
  · intro h
    rw [decode, Option.map_eq_some_iff] at h
    obtain ⟨chars, hchars, rfl⟩ := h
    have hsome : bs.toByteArray.utf8Decode?.isSome := by rw [hchars]; rfl
    have hback := ByteArray.utf8Encode_get_utf8Decode? (h := hsome)
    simp only [hchars, Option.get_some] at hback
    rw [← toByteArray_encode] at hback
    exact (List.toByteArray_inj.mp hback).symm
  · rintro rfl
    rw [decode, toByteArray_encode, List.utf8Decode?_utf8Encode]
    simp

theorem encode_injective : Function.Injective encode := by
  intro s t h
  have hs := decode_eq_some.mpr (rfl : s.encode = s.encode)
  rw [h, decode_eq_some.mpr rfl] at hs
  exact (Option.some.inj hs).symm

/-- A character is at least one byte. -/
theorem length_le_length_encode (s : Text) : s.length ≤ s.encode.length := by
  induction s with
  | nil => exact Nat.le_refl 0
  | cons x s ih =>
      have hpos := Char.utf8Size_pos x
      rw [encode] at ih
      rw [encode, List.flatMap_cons, List.length_append, String.length_utf8EncodeChar,
        List.length_cons]
      omega

/-- In ASCII a character is one byte. -/
theorem length_encode {s : Text} (h : ∀ x ∈ s, x.toNat < 128) : s.encode.length = s.length := by
  induction s with
  | nil => rfl
  | cons x s ih =>
      obtain ⟨hx, hs⟩ := List.forall_mem_cons.mp h
      have hone : String.utf8EncodeChar x = [x.val.toUInt8] := by
        have hle : x.val.toNat ≤ 127 := Nat.le_of_lt_succ hx
        rw [String.utf8EncodeChar, if_pos hle]
        rfl
      rw [encode, List.flatMap_cons, List.length_append, hone, List.length_cons]
      have htail := ih hs
      rw [encode] at htail
      simp [htail]
      omega

@[simp] theorem length_upper (s : Text) : s.upper.length = s.length := List.length_map _

end Text

namespace Accounts

open Rollback

/-! ## The source's class -/

/-- `Address`: the backing value, or none for an empty address. -/
structure Address where
  valueHex : Option Text
  deriving DecidableEq, Repr

/-- What `Address` is made from. -/
inductive Value where
  | none
  | str (s : Text)
  | bytes (bs : Bytes)
  | address (a : Address)
  deriving DecidableEq, Repr

inductive Error where
  | badAddressFormat (value : Value)
  | emptyAddress
  | typeError
  | attributeError
  | valueError
  | unicodeDecodeError
  | indexError
  | overflowError
  deriving DecidableEq, Repr

def hrp : Text := ['e', 'r', 'd']

def pubkeyLength : Nat := 32

def pubkeyStringLength : Nat := pubkeyLength * 2

def bech32Length : Nat := 62

namespace Value

/-- `bool(value)`. -/
def truthy : Value → Bool
  | .none => false
  | .str s => s ≠ []
  | .bytes bs => bs ≠ []
  | .address _ => true

/-- `value._value_hex` for an address. -/
def copied : Value → Value
  | .address a => a.valueHex.elim .none .str
  | value => value

/-- `len(value)`. -/
def len : Value → Except Error Nat
  | .str s => .ok s.length
  | .bytes bs => .ok bs.length
  | .none | .address _ => .error .typeError

/-- `value.hex()`, which a `str` does not have. -/
def hex : Value → Except Error Text
  | .bytes bs => .ok (Hex.encode bs)
  | .none | .str _ | .address _ => .error .attributeError

end Value

/-- `_as_string`. -/
def asString : Value → Except Error Text
  | .str s => .ok s
  | .bytes bs => (Text.decode bs).elim (.error .unicodeDecodeError) .ok
  | .none | .address _ => .error .attributeError

/-- `_decode_bech32`. A text that does not decode has no human-readable part, and
data that does not regroup is no argument for `bytearray`. -/
def decodeBech32 (value : Value) : Except Error Bytes := do
  let bech32String ← asString value
  match bech32Decode bech32String with
  | none => .error (.badAddressFormat value)
  | some (hrp', valueBytes) =>
      if hrp' ≠ hrp then .error (.badAddressFormat value)
      else
        match convertbits valueBytes 5 8 false with
        | none => .error .typeError
        | some decodedBytes => .ok (decodedBytes.map UInt8.ofNat)

namespace Address

/-- `Address(value)`. -/
def new (value : Value) : Except Error Address := do
  if !value.truthy then return ⟨none⟩
  let value := value.copied
  let len ← value.len
  if len = pubkeyLength then
    return ⟨some (← value.hex)⟩
  else if len = pubkeyStringLength then
    return ⟨some (← asString value)⟩
  else if len = bech32Length then
    return ⟨some (Hex.encode (← decodeBech32 value))⟩
  else
    .error (.badAddressFormat value)

/-- `hex`, with the check of `_assert_validity`. -/
def hex (a : Address) : Except Error Text := a.valueHex.elim (.error .emptyAddress) .ok

/-- `pubkey`; `bytes.fromhex` skips white space between bytes. -/
def pubkey (a : Address) : Except Error Bytes := do
  let valueHex ← a.hex
  (Hex.decode valueHex).elim (.error .valueError) .ok

/-- `bech32`. -/
def bech32 (a : Address) : Except Error Text := do
  let pubkey ← a.pubkey
  let data ← (convertbits (pubkey.map UInt8.toNat) 8 5 true).elim (.error .typeError) .ok
  (bech32Encode hrp data).elim (.error .indexError) .ok

/-- `constants.SC_HEX_PUBKEY_PREFIX`. -/
def scHexPubkeyPrefix : Text := List.replicate 16 '0'

/-- `is_contract_address`. -/
def isContractAddress (a : Address) : Except Error Bool := do
  return scHexPubkeyPrefix.isPrefixOf (← a.hex)

/-- `zero`. -/
def zero : Except Error Address := new (.str (List.replicate 64 '0'))

end Address

/-! ## Keys -/

/-- What an address is meant to hold. -/
structure PublicKey where
  bytes : Bytes
  length_eq : bytes.length = pubkeyLength

/-- The address of a key. -/
def PublicKey.address (k : PublicKey) : Address := ⟨some (Hex.encode k.bytes)⟩

variable {k : PublicKey} {bs : Bytes} {s t text : Text} {a : Address} {v : Value}

theorem elim_eq_ok {α : Type} {o : Option α} {e : Error} {y : α} :
    o.elim (.error e) .ok = (.ok y : Except Error α) ↔ o = some y := by
  cases o with
  | none => simp
  | some x => simp

theorem map_ofNat_toNat (bs : Bytes) : (bs.map UInt8.toNat).map UInt8.ofNat = bs := by
  rw [List.map_map]
  conv_rhs => rw [← List.map_id bs]
  refine List.map_congr_left fun b _ => ?_
  exact UInt8.ofNat_toNat

theorem map_toNat_ofNat {ns : List Nat} (h : ∀ n ∈ ns, n < 2 ^ 8) :
    (ns.map UInt8.ofNat).map UInt8.toNat = ns := by
  rw [List.map_map]
  conv_rhs => rw [← List.map_id ns]
  refine List.map_congr_left fun n hn => ?_
  have hlt := h n hn
  simp only [Function.comp_apply, id_eq, UInt8.toNat_ofNat']
  omega

theorem map_toNat_lt (bs : Bytes) : ∀ n ∈ bs.map UInt8.toNat, n < 2 ^ 8 := by
  intro n hn
  obtain ⟨b, -, rfl⟩ := List.mem_map.mp hn
  exact b.toNat_lt

theorem pubkey_eq_ok : a.pubkey = .ok bs ↔ ∃ s, a.valueHex = some s ∧ Hex.decode s = some bs := by
  rw [Address.pubkey, bind_eq_ok]
  simp only [Address.hex, elim_eq_ok]

/-- How an address renders, given its key. -/
theorem bech32_eq_ok :
    a.bech32 = .ok text ↔ ∃ bs data, a.pubkey = .ok bs ∧
      convertbits (bs.map UInt8.toNat) 8 5 true = some data ∧
      bech32Encode hrp data = some text := by
  simp only [Address.bech32, bind_eq_ok, elim_eq_ok]
  constructor
  · intro h
    obtain ⟨bs, hbs, data, hdata, htext⟩ := h
    exact ⟨bs, data, hbs, hdata, htext⟩
  · intro h
    obtain ⟨bs, data, hbs, hdata, htext⟩ := h
    exact ⟨bs, hbs, data, hdata, htext⟩

theorem address_pubkey (k : PublicKey) : k.address.pubkey = .ok k.bytes :=
  pubkey_eq_ok.mpr ⟨_, rfl, Hex.decode_encode k.bytes⟩

/-- What the rendering consists of: the prefix, a symbol for every five bits, and
the checksum. -/
theorem rendered_spec (h : a.bech32 = .ok text) (hkey : a.pubkey = .ok bs) :
    ∃ chars : Text, text = hrp ++ '1' :: chars ∧ (∀ x ∈ chars, x ∈ charset) ∧
      ∃ k < 5, 5 * chars.length = 8 * bs.length + k + 30 := by
  obtain ⟨bs', data, hbs', hdata, htext⟩ := bech32_eq_ok.mp h
  obtain rfl := Except.ok.inj (hkey.symm.trans hbs')
  obtain ⟨chars, rfl, hchars, hmap⟩ := bech32_encode_eq.mp htext
  refine ⟨chars, rfl, hchars, ?_⟩
  obtain ⟨data', hdata', -, k, hk, hbits⟩ :=
    padded_spec (show 0 < 5 by decide) (map_toNat_lt bs)
  obtain rfl := Option.some.inj (hdata'.symm.trans hdata)
  have hlen := congrArg List.length hbits
  simp only [BitString.length_ofWords, List.length_append, List.length_replicate,
    List.length_map] at hlen
  have hsize := congrArg List.length hmap
  rw [List.length_map, List.length_append, length_bech32CreateChecksum] at hsize
  exact ⟨k, hk, by omega⟩

/-- Every key renders. -/
theorem exists_bech32 (hkey : a.pubkey = .ok bs) : ∃ text, a.bech32 = .ok text := by
  obtain ⟨data, hdata, hlt, -⟩ := padded_spec (show 0 < 5 by decide) (map_toNat_lt bs)
  have hsymbols : ∀ v ∈ data ++ bech32CreateChecksum hrp data, v < 32 := by
    intro v hv
    rcases List.mem_append.mp hv with hv | hv
    · exact hlt v hv
    · exact bech32CreateChecksum_lt hrp data v hv
  obtain ⟨chars, hchars⟩ := exists_chars hsymbols
  refine ⟨_, bech32_eq_ok.mpr ⟨bs, data, hkey, hdata, bech32_encode_eq.mpr ⟨chars, rfl, ?_⟩⟩⟩
  exact hchars

/-! ## Letters -/

/-- What a rendering is spelled with. -/
theorem letters_spec : ∀ x ∈ '1' :: charset, x.toLower = x ∧ x.toUpper.toLower = x ∧
    x.toUpper.toUpper = x.toUpper ∧ 33 ≤ x.toNat ∧ x.toNat ≤ 126 ∧
    33 ≤ x.toUpper.toNat ∧ x.toUpper.toNat ≤ 126 := by
  have hall : ('1' :: charset).all (fun x => x.toLower = x ∧ x.toUpper.toLower = x ∧
      x.toUpper.toUpper = x.toUpper ∧ 33 ≤ x.toNat ∧ x.toNat ≤ 126 ∧
      33 ≤ x.toUpper.toNat ∧ x.toUpper.toNat ≤ 126) = true := by decide
  intro x hx
  simpa using List.all_eq_true.mp hall x hx

theorem toUpper_toLower {x : Char} (hx : x.toNat ≤ 126) : x.toLower.toUpper = x.toUpper := by
  have hall : (List.range 127).all
      (fun n => (Char.ofNat n).toLower.toUpper = (Char.ofNat n).toUpper) = true := by
    decide
  have hat := List.all_eq_true.mp hall x.toNat (List.mem_range.mpr (by omega))
  rwa [Char.ofNat_toNat, decide_eq_true_eq] at hat

theorem rendered_letters (h : a.bech32 = .ok text) : ∀ x ∈ text, x ∈ '1' :: charset := by
  obtain ⟨bs, data, hkey, -, -⟩ := bech32_eq_ok.mp h
  obtain ⟨chars, rfl, hchars, -⟩ := rendered_spec h hkey
  intro x hx
  rcases List.mem_append.mp hx with hx | hx
  · have hall : hrp.all (fun x => x ∈ '1' :: charset) = true := by decide
    simpa using List.all_eq_true.mp hall x hx
  · rcases List.mem_cons.mp hx with rfl | hx
    · exact List.mem_cons_self
    · exact List.mem_cons_of_mem _ (hchars x hx)

theorem map_eq_self {f : Char → Char} (h : ∀ x ∈ s, f x = x) : s.map f = s := by
  conv_rhs => rw [← List.map_id s]
  exact List.map_congr_left h

theorem rendered_lower (h : a.bech32 = .ok text) : text.lower = text :=
  map_eq_self fun x hx => (letters_spec x (rendered_letters h x hx)).1

theorem rendered_upper_lower (h : a.bech32 = .ok text) : text.upper.lower = text := by
  rw [Text.lower, Text.upper, List.map_map]
  exact map_eq_self fun x hx => (letters_spec x (rendered_letters h x hx)).2.1

theorem rendered_admissible (h : a.bech32 = .ok text) : text.Admissible :=
  ⟨fun x hx => by
    obtain ⟨-, -, -, hge, hle, -⟩ := letters_spec x (rendered_letters h x hx)
    exact ⟨hge, hle⟩, .inl (rendered_lower h)⟩

theorem rendered_upper_admissible (h : a.bech32 = .ok text) : text.upper.Admissible := by
  refine ⟨fun y hy => ?_, .inr ?_⟩
  · obtain ⟨x, hx, rfl⟩ := List.mem_map.mp hy
    obtain ⟨-, -, -, -, -, hge, hle⟩ := letters_spec x (rendered_letters h x hx)
    exact ⟨hge, hle⟩
  · refine map_eq_self fun y hy => ?_
    obtain ⟨x, hx, rfl⟩ := List.mem_map.mp hy
    exact (letters_spec x (rendered_letters h x hx)).2.2.1

/-- A text that is admitted is its own lower case or the upper case of that. -/
theorem admissible_cases (h : s.Admissible) : s = s.lower ∨ s = s.lower.upper := by
  rcases h.2 with hlower | hupper
  · exact .inl hlower.symm
  · refine .inr ?_
    conv_lhs => rw [← hupper]
    rw [Text.upper, Text.upper, Text.lower, List.map_map]
    exact List.map_congr_left fun x hx => (toUpper_toLower (h.1 x hx).2).symm

/-- A contract's key begins with eight zeros. -/
theorem isContractAddress_iff :
    k.address.isContractAddress = .ok true ↔ List.replicate 8 0 <+: k.bytes := by
  have hzeros : Address.scHexPubkeyPrefix = Hex.encode (List.replicate 8 0) := rfl
  have hstart : k.address.isContractAddress =
      .ok (Address.scHexPubkeyPrefix.isPrefixOf (Hex.encode k.bytes)) := rfl
  rw [hstart, Except.ok.injEq, ← Hex.encode_prefix, ← hzeros, List.isPrefixOf_iff_prefix]

/-! ## Reading the text form -/

/-- The address of any bytes. -/
theorem pubkey_encode (bs : Bytes) : (⟨some (Hex.encode bs)⟩ : Address).pubkey = .ok bs :=
  pubkey_eq_ok.mpr ⟨_, rfl, Hex.decode_encode bs⟩

/-- What reads as some bytes is their rendering, in one case or the other. -/
theorem decodeBech32_eq_ok : decodeBech32 v = .ok bs ↔
    ∃ s, asString v = .ok s ∧ s.Admissible ∧ s.length ≤ 90 ∧
      (⟨some (Hex.encode bs)⟩ : Address).bech32 = .ok s.lower := by
  rw [decodeBech32, bind_eq_ok]
  refine exists_congr fun s => and_congr_right fun _ => ?_
  constructor
  · intro h
    split at h
    · simp at h
    · next hrp' valueBytes hdec =>
      split at h
      · simp at h
      · next hhrp =>
        rw [not_not] at hhrp
        subst hhrp
        split at h
        · simp at h
        · next decoded hdecoded =>
          obtain rfl := Except.ok.inj h
          obtain ⟨hadm, hlen, -⟩ := bech32Decode_spec hdec
          obtain ⟨-, hlt, -⟩ := (unpadded_iff (by decide)).mp hdecoded
          refine ⟨hadm, hlen, bech32_eq_ok.mpr ⟨_, valueBytes, pubkey_encode _, ?_,
            bech32Encode_of_decode hdec⟩⟩
          rw [map_toNat_ofNat hlt]
          exact convertbits_narrow (by decide) (by decide) hdecoded
  · intro h
    obtain ⟨hadm, hlen, hrender⟩ := h
    obtain ⟨bs', data, hkey, hdata, henc⟩ := bech32_eq_ok.mp hrender
    obtain rfl := Except.ok.inj ((pubkey_encode bs).symm.trans hkey)
    have hdec := bech32Decode_of_encode hadm hlen (by decide) henc
    have hback := convertbits_widen (by decide) (by decide) hdata
    simp only [hdec, ne_eq, not_true_eq_false, if_false, hback, map_ofNat_toNat]

theorem rendered_length (h : a.bech32 = .ok text) (hkey : a.pubkey = .ok bs) :
    8 * bs.length + 50 ≤ 5 * text.length ∧ 5 * text.length < 8 * bs.length + 55 := by
  obtain ⟨chars, rfl, -, k, hk, hlen⟩ := rendered_spec h hkey
  have htext : (hrp ++ '1' :: chars).length = chars.length + 4 := by
    rw [List.length_append, List.length_cons]
    exact Nat.add_comm _ _
  omega

/-- The length of the text form tells that of the key. -/
theorem rendered_length_iff (h : a.bech32 = .ok text) (hkey : a.pubkey = .ok bs) :
    text.length = bech32Length ↔ bs.length = pubkeyLength := by
  obtain ⟨hge, hlt⟩ := rendered_length h hkey
  unfold bech32Length pubkeyLength
  omega

/-! ## The constructor -/

theorem truthy_of_len {n : Nat} (h : v.copied.len = .ok n) (hn : 0 < n) : v.truthy = true := by
  cases v with
  | none => simp [Value.copied, Value.len] at h
  | str s =>
      obtain rfl := Except.ok.inj h
      simpa [Value.truthy, List.length_pos_iff] using hn
  | bytes bs =>
      obtain rfl := Except.ok.inj h
      simpa [Value.truthy, List.length_pos_iff] using hn
  | address a => rfl

/-- The constructor, by the length of what it is given. -/
theorem new_of_len {n : Nat} (h : v.copied.len = .ok n) (hn : 0 < n) : Address.new v =
    if n = pubkeyLength then do return ⟨some (← v.copied.hex)⟩
    else if n = pubkeyStringLength then do return ⟨some (← asString v.copied)⟩
    else if n = bech32Length then do return ⟨some (Hex.encode (← decodeBech32 v.copied))⟩
    else .error (.badAddressFormat v.copied) := by
  rw [Address.new, truthy_of_len h hn]
  simp only [Bool.not_true, Bool.false_eq_true, if_false, h]
  rfl

theorem new_pubkey (k : PublicKey) : Address.new (.bytes k.bytes) = .ok k.address := by
  rw [new_of_len rfl (by rw [k.length_eq]; decide), if_pos k.length_eq]
  rfl

/-- Bytes of any other length are refused. -/
theorem new_bytes_refused (hpos : 0 < bs.length) (hkey : bs.length ≠ pubkeyLength)
    (hdigits : bs.length ≠ pubkeyStringLength) (htext : bs.length ≠ bech32Length) :
    Address.new (.bytes bs) = .error (.badAddressFormat (.bytes bs)) := by
  rw [new_of_len rfl hpos, if_neg hkey, if_neg hdigits, if_neg htext]
  rfl

theorem new_of_digits (h : v.copied.len = .ok pubkeyStringLength)
    (hs : asString v.copied = .ok s) : Address.new v = .ok ⟨some s⟩ := by
  rw [new_of_len h (by decide), if_neg (by decide), if_pos rfl, hs]
  rfl

/-- From the text form comes the address of what it reads as. -/
theorem new_bech32 (h : v.copied.len = .ok bech32Length) : Address.new v = .ok a ↔
    ∃ bs, decodeBech32 v.copied = .ok bs ∧ a = ⟨some (Hex.encode bs)⟩ := by
  rw [new_of_len h (by decide), if_neg (by decide), if_neg (by decide), if_pos rfl, bind_eq_ok]
  refine exists_congr fun bs => and_congr_right fun _ => ?_
  constructor
  · intro h
    exact (Except.ok.inj h).symm
  · rintro rfl
    rfl

theorem new_spelled (h : v.copied.len = .ok bech32Length) (hs : asString v.copied = .ok s)
    (hadm : s.Admissible) (hlen : s.length = bech32Length)
    (hrender : k.address.bech32 = .ok s.lower) : Address.new v = .ok k.address := by
  refine (new_bech32 h).mpr ⟨k.bytes, decodeBech32_eq_ok.mpr ⟨s, hs, hadm, ?_, hrender⟩, rfl⟩
  rw [hlen]
  decide

/-- A text is the text form of a key, in one case or the other. -/
theorem new_text (hlen : s.length = bech32Length) : Address.new (.str s) = .ok a ↔
    ∃ k : PublicKey, a = k.address ∧ s.Admissible ∧ a.bech32 = .ok s.lower := by
  have hlen' : (Value.copied (.str s)).len = .ok bech32Length := congrArg Except.ok hlen
  rw [new_bech32 hlen']
  constructor
  · intro h
    obtain ⟨bs, hdec, rfl⟩ := h
    obtain ⟨s', hs', hadm, -, hrender⟩ := decodeBech32_eq_ok.mp hdec
    obtain rfl := Except.ok.inj hs'
    have hsize := (rendered_length_iff hrender (pubkey_encode bs)).mp
      ((Text.length_lower s).trans hlen)
    exact ⟨⟨bs, hsize⟩, rfl, hadm, hrender⟩
  · intro h
    obtain ⟨k, rfl, hadm, hrender⟩ := h
    exact (new_bech32 hlen').mp (new_spelled hlen' rfl hadm hlen hrender)

/-- What an address renders as is read as that address. -/
theorem new_rendered (h : k.address.bech32 = .ok text) : Address.new (.str text) = .ok k.address := by
  have hlen := (rendered_length_iff h (address_pubkey k)).mpr k.length_eq
  exact (new_text hlen).mpr ⟨k, rfl, rendered_admissible h, by rw [rendered_lower h, h]⟩

/-! ## The forms of a key -/

theorem admissible_ascii (h : s.Admissible) : ∀ x ∈ s, x.toNat < 128 := by
  intro x hx
  have hle := (h.1 x hx).2
  omega

theorem encode_ascii (bs : Bytes) : ∀ x ∈ Hex.encode bs, x.toNat < 128 := by
  have hall : Hex.digits.all (fun x => x.toNat < 128) = true := by decide
  intro x hx
  simpa using List.all_eq_true.mp hall x (Hex.encode_mem x hx)

theorem asString_encode (s : Text) : asString (.bytes s.encode) = .ok s := by
  rw [asString, Text.decode_eq_some.mpr rfl]
  rfl

/-- A key and its address determine each other: the address renders as a text of
62 small letters and digits, and comes back from the key, from its digits, from
the text in either case, all but the key also as bytes, and from itself. -/
theorem address_round_trip (k : PublicKey) : k.address.pubkey = .ok k.bytes ∧
    ∃ text : Text, k.address.bech32 = .ok text ∧ text.length = bech32Length ∧
      text.lower = text ∧
      ∀ v ∈ [Value.bytes k.bytes, .str (Hex.encode k.bytes),
          .bytes (Text.encode (Hex.encode k.bytes)), .str text, .str text.upper,
          .bytes text.encode, .bytes text.upper.encode, .address k.address],
        Address.new v = .ok k.address := by
  have hkey := address_pubkey k
  obtain ⟨text, htext⟩ := exists_bech32 hkey
  have hlen := (rendered_length_iff htext hkey).mpr k.length_eq
  have hlower := rendered_lower htext
  have hsize : (Hex.encode k.bytes).length = pubkeyStringLength := by
    rw [Hex.length_encode, k.length_eq]
    rfl
  have hdigits : (Text.encode (Hex.encode k.bytes)).length = pubkeyStringLength := by
    rw [Text.length_encode (encode_ascii k.bytes), hsize]
  -- both spellings, as text and as bytes
  have hspelled : ∀ s : Text, s.Admissible → s.lower = text →
      Address.new (.str s) = .ok k.address ∧ Address.new (.bytes s.encode) = .ok k.address := by
    intro s hadm hs
    have hslen : s.length = bech32Length := by
      rw [← Text.length_lower, hs, hlen]
    have hrender : k.address.bech32 = .ok s.lower := by
      rw [hs, htext]
    refine ⟨new_spelled (congrArg Except.ok hslen) rfl hadm hslen hrender,
      new_spelled (congrArg Except.ok ?_) (asString_encode s) hadm hslen hrender⟩
    rw [Text.length_encode (admissible_ascii hadm), hslen]
  have hsmall := hspelled text (rendered_admissible htext) hlower
  have hlarge := hspelled text.upper (rendered_upper_admissible htext)
    (rendered_upper_lower htext)
  refine ⟨hkey, text, htext, hlen, hlower, ?_⟩
  simp only [List.forall_mem_cons]
  exact ⟨new_pubkey k, new_of_digits (congrArg Except.ok hsize) rfl,
    new_of_digits (congrArg Except.ok hdigits) (asString_encode _), hsmall.1, hlarge.1,
    hsmall.2, hlarge.2, new_of_digits (congrArg Except.ok hsize) rfl,
    fun _ hv => absurd hv List.not_mem_nil⟩

/-- Of all texts of 62 characters, just two stand for a key: what its address
renders as, and the same in capital letters. -/
theorem two_spellings (s : Text) (a : Address) :
    s.length = bech32Length ∧ Address.new (.str s) = .ok a ↔
      ∃ (k : PublicKey) (text : Text), a = k.address ∧ a.bech32 = .ok text ∧
        (s = text ∨ s = text.upper) := by
  constructor
  · intro h
    obtain ⟨hlen, h⟩ := h
    obtain ⟨k, rfl, hadm, hrender⟩ := (new_text hlen).mp h
    exact ⟨k, s.lower, rfl, hrender, admissible_cases hadm⟩
  · intro h
    obtain ⟨k, text, rfl, hrender, hs⟩ := h
    have hsize := (rendered_length_iff hrender (address_pubkey k)).mpr k.length_eq
    rcases hs with rfl | rfl
    · refine ⟨hsize, (new_text hsize).mpr ⟨k, rfl, rendered_admissible hrender, ?_⟩⟩
      rw [rendered_lower hrender, hrender]
    · have hlen : text.upper.length = bech32Length := (Text.length_upper text).trans hsize
      refine ⟨hlen, (new_text hlen).mpr ⟨k, rfl, rendered_upper_admissible hrender, ?_⟩⟩
      rw [rendered_upper_lower hrender, hrender]

/-! ## Rendering and reading again -/

/-- What is read as bytes is written in ASCII. -/
theorem decoded_ascii (h : Hex.decode s = some bs) : ∀ x ∈ s, x.toNat < 128 := by
  intro x hx
  by_cases hspace : Hex.isSpace x = true
  · have hall : Hex.spaces.all (fun x => x.toNat < 128) = true := by decide
    rw [Hex.isSpace, decide_eq_true_eq] at hspace
    simpa using List.all_eq_true.mp hall x hspace
  · have hdigit : x.toLower ∈ Hex.encode bs := by
      rw [← Hex.encode_decode h]
      refine List.mem_map_of_mem (List.mem_filter.mpr ⟨hx, ?_⟩)
      simpa using hspace
    have hlower := encode_ascii bs _ hdigit
    by_contra hlarge
    have hsame : x.toLower = x := dif_neg fun hletter => by
      have hle : x.toNat ≤ 90 := hletter.2
      omega
    rw [hsame] at hlower
    exact hlarge hlower

/-- A text and the value it was given as have one length, in ASCII. -/
theorem length_asString {n : Nat} (hlen : v.len = .ok n) (hs : asString v = .ok s)
    (hascii : ∀ x ∈ s, x.toNat < 128) : s.length = n := by
  cases v with
  | none => simp [Value.len] at hlen
  | address a => simp [Value.len] at hlen
  | str s' =>
      obtain rfl := Except.ok.inj hs
      exact Except.ok.inj hlen
  | bytes bs =>
      obtain rfl := Text.decode_eq_some.mp (elim_eq_ok.mp hs)
      rw [← Text.length_encode hascii]
      exact Except.ok.inj hlen

/-- Where the backing value of an address comes from. -/
theorem new_cases (h : Address.new v = .ok a) (hs : a.valueHex = some s) :
    (∃ bs : Bytes, v.copied = .bytes bs ∧ bs.length = pubkeyLength ∧ s = Hex.encode bs) ∨
      (v.copied.len = .ok pubkeyStringLength ∧ asString v.copied = .ok s) ∨
      (v.copied.len = .ok bech32Length ∧
        ∃ bs, decodeBech32 v.copied = .ok bs ∧ s = Hex.encode bs) := by
  rw [Address.new] at h
  split at h
  · obtain rfl := Except.ok.inj h
    simp at hs
  · obtain ⟨n, hn, h⟩ := bind_eq_ok.mp h
    split at h
    · next hkey =>
      obtain ⟨s', hs', ha⟩ := bind_eq_ok.mp h
      obtain rfl := Except.ok.inj ha
      obtain rfl := Option.some.inj hs
      cases hv : v.copied with
      | bytes bs =>
          rw [hv] at hn hs'
          exact .inl ⟨bs, rfl, (Except.ok.inj hn).trans hkey, (Except.ok.inj hs').symm⟩
      | none | str _ | address _ =>
          rw [hv] at hs'
          simp [Value.hex] at hs'
    · split at h
      · next hdigits =>
        obtain ⟨s', hs', ha⟩ := bind_eq_ok.mp h
        obtain rfl := Except.ok.inj ha
        obtain rfl := Option.some.inj hs
        exact .inr (.inl ⟨hdigits ▸ hn, hs'⟩)
      · split at h
        · next htext =>
          obtain ⟨bs, hbs, ha⟩ := bind_eq_ok.mp h
          obtain rfl := Except.ok.inj ha
          exact .inr (.inr ⟨htext ▸ hn, bs, hbs, (Option.some.inj hs).symm⟩)
        · simp at h

/-- However an address was made, its digits and the white space among them are 64
characters, if a key can be had from it. -/
theorem length_valueHex (h : Address.new v = .ok a) (hs : a.valueHex = some s)
    (hdec : Hex.decode s = some bs) : s.length = pubkeyStringLength := by
  rcases new_cases h hs with ⟨key, -, hlen, rfl⟩ | ⟨hlen, hstring⟩ | ⟨hlen, key, hkey, rfl⟩
  · rw [Hex.length_encode, hlen]
    rfl
  · exact length_asString hlen hstring (decoded_ascii hdec)
  · obtain ⟨s', hs', hadm, -, hrender⟩ := decodeBech32_eq_ok.mp hkey
    have hsize := length_asString hlen hs' (admissible_ascii hadm)
    have hfull := (rendered_length_iff hrender (pubkey_encode key)).mp
      ((Text.length_lower s').trans hsize)
    rw [Hex.length_encode, hfull]
    rfl

/-- A text form is read back as the key it came from, unless there is white space
among the digits of the address: it stands for no digit, the key is too short and
the text form with it. -/
theorem rendered_reread (h : Address.new v = .ok a) (hrender : a.bech32 = .ok text) :
    (∃ a', Address.new (.str text) = .ok a' ∧ a'.pubkey = a.pubkey) ↔
      ∀ s, a.valueHex = some s → ∀ c ∈ s, Hex.isSpace c = false := by
  obtain ⟨bs, data, hkey, -, -⟩ := bech32_eq_ok.mp hrender
  obtain ⟨s, hs, hdec⟩ := pubkey_eq_ok.mp hkey
  have hlen := length_valueHex h hs hdec
  have hcount := Hex.length_of_decode hdec
  obtain ⟨hge, hlt⟩ := rendered_length hrender hkey
  have hfull := rendered_length_iff hrender hkey
  have hspaces : (∀ s', a.valueHex = some s' → ∀ c ∈ s', Hex.isSpace c = false) ↔
      text.length = bech32Length := by
    rw [hfull]
    have hzero : s.countP Hex.isSpace = 0 ↔ bs.length = pubkeyLength := by
      unfold pubkeyStringLength at hlen
      omega
    rw [← hzero, List.countP_eq_zero]
    simp [hs]
  rw [hspaces]
  constructor
  · intro h
    obtain ⟨a', ha', hkey'⟩ := h
    obtain ⟨s', hs', -⟩ := pubkey_eq_ok.mp (hkey'.trans hkey)
    -- a text is no key, and this one is too short for digits
    rcases new_cases ha' hs' with ⟨_, hbytes, -⟩ | ⟨hdigits, -⟩ | ⟨hsize, -⟩
    · cases hbytes
    · have hdigits : text.length = pubkeyStringLength := Except.ok.inj hdigits
      unfold pubkeyStringLength pubkeyLength at hlen hdigits
      omega
    · exact Except.ok.inj hsize
  · intro hsize
    have hbs := hfull.mp hsize
    refine ⟨⟨some (Hex.encode bs)⟩, (new_text hsize).mpr ⟨⟨bs, hbs⟩, rfl,
      rendered_admissible hrender, ?_⟩, by rw [pubkey_encode, hkey]⟩
    obtain ⟨bs', data, hkey', hdata, henc⟩ := bech32_eq_ok.mp hrender
    obtain rfl := Except.ok.inj (hkey.symm.trans hkey')
    rw [rendered_lower hrender]
    exact bech32_eq_ok.mpr ⟨bs, data, pubkey_encode bs, hdata, henc⟩

/-- 31 bytes and two blanks. -/
theorem rendered_reread_blanks :
    ∃ (a : Address) (text : Text),
      a.valueHex = some (List.replicate 62 'b' ++ [' ', ' ']) ∧ a.bech32 = .ok text ∧
      ((∃ a', Address.new (.str text) = .ok a' ∧ a'.pubkey = a.pubkey) ↔
        ∀ s, a.valueHex = some s → ∀ c ∈ s, Hex.isSpace c = false) := by
  have hnew : Address.new (.str (List.replicate 62 'b' ++ [' ', ' '])) =
      .ok ⟨some (List.replicate 62 'b' ++ [' ', ' '])⟩ := rfl
  have hkey : (⟨some (List.replicate 62 'b' ++ [' ', ' '])⟩ : Address).pubkey =
      .ok (List.replicate 31 0xbb) := by decide
  obtain ⟨text, htext⟩ := exists_bech32 hkey
  exact ⟨_, text, rfl, htext, rendered_reread hnew htext⟩

/-! ## Typing errors -/

end Accounts

end ElrondMint
