import ElrondMint.Accounts
import ElrondMint.Host

/-!
# The data field of a call

`contracts.py` writes a call to a contract into the data field of a transaction:
the name of the function, or the bytecode, and behind a separator each the
arguments, as hexadecimal digits. A number is given its digits; what starts with
`0x` is taken over, in capital letters, without a look.

At the other end the field is split at the separators and the digits are read as
bytes (`received`). What arrives is what the arguments say (`call_received`), in
particular every number, whatever its size (`numbers_received`); and a deployment
arrives with its code and its metadata in front (`code_received`). The look that
is not taken has its price, and `Argument.said` says which: a separator behind `0x`
makes one argument into two.

Arguments are in ASCII. What `upper`, `isnumeric` and `int` make of other
characters is left out.
-/

namespace ElrondMint

namespace Text

/-- `str.isnumeric`. -/
def isnumeric (s : Text) : Bool := s ≠ [] && s.all Char.isDigit

/-- `int`, of decimal digits. -/
def int (s : Text) : Nat := Nat.ofDigitChars 10 s 0

end Text

namespace Contracts

/-- An argument, as it is typed. -/
structure Argument where
  text : Text
  ascii : (text.all fun x => x.toNat < 128) = true

inductive Error where
  | unknownArgumentFormat (argument : Text)
  deriving DecidableEq, Repr

def hexPrefix : Text := ['0', 'X']

/-- `_prepare_argument`. -/
def prepareArgument (argument : Argument) : Except Error Text :=
  let asString := argument.text.upper
  if hexPrefix.isPrefixOf asString then .ok (asString.drop hexPrefix.length)
  else if !asString.isnumeric then .error (.unknownArgumentFormat asString)
  else .ok (Hex.padEven (Nat.toDigits 16 asString.int))

def separator : Char := '@'

/-- `constants.VM_TYPE_ARWEN`. -/
def vmTypeArwen : Text := ['0', '5', '0', '0']

/-- `CodeMetadata`. -/
structure CodeMetadata where
  upgradeable : Bool
  payable : Bool
  deriving DecidableEq, Repr

/-- `CodeMetadata.to_hex`. -/
def CodeMetadata.toHex (metadata : CodeMetadata) : Text :=
  (if metadata.upgradeable then ['0', '1'] else ['0', '0']) ++
    (if metadata.payable then ['0', '2'] else ['0', '0'])

/-- The loop that the three functions below end with. -/
def appendArguments (txData : Text) (arguments : List Argument) : Except Error Text :=
  arguments.foldlM
    (fun txData argument => do return txData ++ separator :: (← prepareArgument argument)) txData

/-- `prepare_deploy_transaction_data`. -/
def prepareDeployTransactionData (bytecode : Text) (metadata : CodeMetadata)
    (arguments : List Argument) : Except Error Text :=
  appendArguments
    (bytecode ++ separator :: vmTypeArwen ++ separator :: metadata.toHex) arguments

/-- `prepare_execute_transaction_data`. -/
def prepareExecuteTransactionData (function : Text) (arguments : List Argument) :
    Except Error Text :=
  appendArguments function arguments

def upgradeContract : Text :=
  ['u', 'p', 'g', 'r', 'a', 'd', 'e', 'C', 'o', 'n', 't', 'r', 'a', 'c', 't']

/-- `prepare_upgrade_transaction_data`. -/
def prepareUpgradeTransactionData (bytecode : Text) (metadata : CodeMetadata)
    (arguments : List Argument) : Except Error Text :=
  appendArguments
    (upgradeContract ++ separator :: bytecode ++ separator :: metadata.toHex) arguments

/-! ## The other end -/

/-- How a data field is read: its fields, all but the first as bytes. -/
def received (txData : Text) : Option (Text × List Bytes) :=
  match txData.splitOn separator with
  | [] => none
  | function :: fields => (fields.mapM Hex.decodeStrict).map (Prod.mk function)

/-- The bytes of a number; zero has one. -/
def numberBytes (n : Nat) : Bytes := if n = 0 then [0] else BigEndian.encode n

namespace Argument

/-- What an argument says: a number says its bytes, digits behind `0x` say theirs,
and a separator among these begins another argument. -/
def said (argument : Argument) : Option (List Bytes) :=
  if List.isPrefixOf ['0', 'x'] argument.text.lower then
    ((argument.text.drop 2).splitOn separator).mapM Hex.decodeStrict
  else if argument.text.isnumeric then some [numberBytes argument.text.int]
  else none

end Argument

open Rollback

variable {a : Argument} {arguments : List Argument} {header data p : Text} {ps : List Text}
  {bss : List Bytes}

/-! ## Capital letters -/

theorem toUpper_spec (x : Char) : x.toUpper.toLower = x.toLower ∧
    (x.toUpper = separator ↔ x = separator) ∧ (x.toUpper = '0' ↔ x.toLower = '0') ∧
    (x.toUpper = 'X' ↔ x.toLower = 'x') ∧ x.toUpper.isDigit = x.isDigit ∧
    (x.isDigit = true → x.toUpper = x) := by
  have hall : (List.range 128).all (fun n =>
      let x := Char.ofNat n
      x.toUpper.toLower = x.toLower ∧ (x.toUpper = separator ↔ x = separator) ∧
        (x.toUpper = '0' ↔ x.toLower = '0') ∧ (x.toUpper = 'X' ↔ x.toLower = 'x') ∧
        x.toUpper.isDigit = x.isDigit ∧ (x.isDigit = true → x.toUpper = x)) = true := by
    decide
  by_cases hx : x.toNat < 128
  · have hat := List.all_eq_true.mp hall x.toNat (List.mem_range.mpr hx)
    simpa only [Char.ofNat_toNat, decide_eq_true_eq] using hat
  · -- beyond ASCII nothing changes
    have hupper : x.toUpper = x := dif_neg fun hletter => by
      have hle : x.toNat ≤ 122 := hletter.2
      omega
    have hlower : x.toLower = x := dif_neg fun hletter => by
      have hle : x.toNat ≤ 90 := hletter.2
      omega
    have hX : x ≠ 'X' := by
      rintro rfl
      exact hx (by decide)
    have hx' : x ≠ 'x' := by
      rintro rfl
      exact hx (by decide)
    simp [hupper, hlower, hX, hx']

/-- Splitting notices nothing of a change of letters that leaves the separator alone. -/
theorem splitOn_map {f : Char → Char} (hf : ∀ x, f x = separator ↔ x = separator) (s : Text) :
    List.splitOn separator (s.map f) = (s.splitOn separator).map (List.map f) := by
  induction s with
  | nil => rfl
  | cons x s ih =>
      rw [List.map_cons, List.splitOn_cons_eq_if_modifyHead, List.splitOn_cons_eq_if_modifyHead, ih]
      by_cases hx : x = separator
      · simp [hx, (hf separator).mpr rfl]
      · have hfx : f x ≠ separator := fun h => hx ((hf x).mp h)
        simp only [beq_iff_eq, hx, hfx, if_false]
        cases s.splitOn separator with
        | nil => rfl
        | cons t ts => rfl

theorem decodeStrict_upper (s : Text) : Hex.decodeStrict s.upper = Hex.decodeStrict s := by
  refine Option.ext fun bs => ?_
  rw [Hex.decodeStrict_eq_some, Hex.decodeStrict_eq_some, Text.upper, List.map_map]
  have hmap : s.map (Char.toLower ∘ Char.toUpper) = s.map Char.toLower :=
    List.map_congr_left fun x _ => (toUpper_spec x).1
  rw [hmap]

theorem isPrefixOf_upper (s : Text) :
    hexPrefix.isPrefixOf s.upper = List.isPrefixOf ['0', 'x'] s.lower := by
  match s with
  | [] => rfl
  | [x] => simp [hexPrefix, Text.upper, Text.lower, List.isPrefixOf]
  | x :: y :: s =>
      obtain ⟨-, -, hzero, -⟩ := toUpper_spec x
      obtain ⟨-, -, -, hx, -⟩ := toUpper_spec y
      rw [Bool.eq_iff_iff, List.isPrefixOf_iff_prefix, List.isPrefixOf_iff_prefix]
      simp only [hexPrefix, Text.upper, Text.lower, List.map_cons, List.cons_prefix_cons,
        List.nil_prefix, and_true, eq_comm (a := '0'), eq_comm (a := 'X'), eq_comm (a := 'x'),
        hzero, hx]

theorem isnumeric_upper (s : Text) : s.upper.isnumeric = s.isnumeric := by
  have hall : s.upper.all Char.isDigit = s.all Char.isDigit := by
    rw [Text.upper, List.all_map]
    congr 1
    funext x
    exact (toUpper_spec x).2.2.2.2.1
  have hnil : decide (s.upper ≠ []) = decide (s ≠ []) := by simp [Text.upper]
  rw [Text.isnumeric, Text.isnumeric, hall, hnil]

theorem upper_of_isnumeric {s : Text} (h : s.isnumeric = true) : s.upper = s := by
  rw [Text.isnumeric, Bool.and_eq_true, List.all_eq_true] at h
  exact Accounts.map_eq_self fun x hx => (toUpper_spec x).2.2.2.2.2 (h.2 x hx)

/-! ## One argument -/

theorem prepared_number (n : Nat) :
    Hex.padEven (Nat.toDigits 16 n) = Hex.encode (numberBytes n) := by
  by_cases hn : n = 0
  · subst hn
    rfl
  · rw [numberBytes, if_neg hn, Hex.padded_toDigits (by omega)]

theorem separator_not_mem_encode (bs : Bytes) : separator ∉ Hex.encode bs := by
  intro h
  have hdigit := Hex.encode_mem _ h
  exact absurd hdigit (by decide)

/-- The fields that an argument takes up are what it says. -/
theorem prepared_said : (∃ p, prepareArgument a = .ok p ∧
    (p.splitOn separator).mapM Hex.decodeStrict = some bss) ↔ a.said = some bss := by
  rw [prepareArgument, Argument.said]
  simp only [isPrefixOf_upper, isnumeric_upper]
  split
  · have hdrop : a.text.upper.drop hexPrefix.length = Text.upper (a.text.drop 2) :=
      List.map_drop.symm
    have hfields : ((Text.upper (a.text.drop 2)).splitOn separator).mapM Hex.decodeStrict =
        ((a.text.drop 2).splitOn separator).mapM Hex.decodeStrict := by
      rw [Text.upper, splitOn_map fun x => (toUpper_spec x).2.1, List.mapM_map]
      congr 1
      funext s
      exact decodeStrict_upper s
    simp only [hdrop, Except.ok.injEq, exists_eq_left', hfields]
  · split
    · next hnot =>
      rw [Bool.not_eq_true', ← Bool.not_eq_true] at hnot
      simp [hnot]
    · next hnumeric =>
      rw [Bool.not_eq_true', Bool.not_eq_false] at hnumeric
      rw [if_pos hnumeric, upper_of_isnumeric hnumeric, prepared_number]
      have hsingle : (Hex.encode (numberBytes a.text.int)).splitOn separator =
          [Hex.encode (numberBytes a.text.int)] :=
        List.splitOn_eq_singleton (separator_not_mem_encode _)
      simp [hsingle, Hex.decodeStrict_encode]

/-! ## All arguments -/

/-- The arguments are written one after the other behind the header. -/
theorem appendArguments_eq_ok : appendArguments header arguments = .ok data ↔
    ∃ ps, arguments.mapM prepareArgument = .ok ps ∧
      data = header ++ ps.flatMap (separator :: ·) := by
  induction arguments generalizing header with
  | nil =>
      simp [appendArguments, pure, Except.pure, eq_comm]
  | cons a arguments ih =>
      have hstep : appendArguments header (a :: arguments) = (do
          let p ← prepareArgument a
          appendArguments (header ++ separator :: p) arguments) := by
        rw [appendArguments, List.foldlM_cons]
        cases prepareArgument a with
        | error e => rfl
        | ok p => rfl
      rw [hstep, bind_eq_ok]
      simp only [ih, mapM_cons_eq_ok]
      constructor
      · intro h
        obtain ⟨p, hp, ps, hps, rfl⟩ := h
        exact ⟨p :: ps, ⟨p, ps, hp, hps, rfl⟩, by simp⟩
      · intro h
        obtain ⟨-, ⟨p, ps, hp, hps, rfl⟩, rfl⟩ := h
        exact ⟨p, hp, ps, hps, by simp⟩

theorem splitOn_appended (header : Text) (ps : List Text) :
    List.splitOn separator (header ++ ps.flatMap (separator :: ·)) =
      List.splitOn separator header ++ ps.flatMap (List.splitOn separator) := by
  induction ps generalizing header with
  | nil => simp
  | cons p ps ih =>
      rw [List.flatMap_cons, List.flatMap_cons, ← List.append_assoc, ih,
        List.splitOn_append_cons_self, List.append_assoc]

theorem mapM_append_eq_some {α β : Type} {f : α → Option β} {xs ys : List α} {zs : List β} :
    (xs ++ ys).mapM f = some zs ↔
      ∃ us vs, xs.mapM f = some us ∧ ys.mapM f = some vs ∧ zs = us ++ vs := by
  rw [List.mapM_append]
  simp only [Option.bind_eq_bind, Option.bind_eq_some_iff, Option.pure_def, Option.some.injEq]
  constructor
  · intro h
    obtain ⟨us, hus, vs, hvs, rfl⟩ := h
    exact ⟨us, vs, hus, hvs, rfl⟩
  · intro h
    obtain ⟨us, vs, hus, hvs, rfl⟩ := h
    exact ⟨us, hus, vs, hvs, rfl⟩

/-- What all arguments say, one after the other. -/
def said (arguments : List Argument) : Option (List Bytes) :=
  (arguments.mapM Argument.said).map List.flatten

theorem said_cons : said (a :: arguments) = some bss ↔
    ∃ us vs, a.said = some us ∧ said arguments = some vs ∧ bss = us ++ vs := by
  simp only [said, List.mapM_cons, Option.map_eq_some_iff, Option.bind_eq_bind,
    Option.bind_eq_some_iff, Option.pure_def, Option.some.injEq]
  constructor
  · intro h
    obtain ⟨-, ⟨us, hus, vss, hvss, rfl⟩, rfl⟩ := h
    exact ⟨us, _, hus, ⟨vss, hvss, rfl⟩, List.flatten_cons⟩
  · intro h
    obtain ⟨us, -, hus, ⟨vss, hvss, rfl⟩, rfl⟩ := h
    exact ⟨_, ⟨us, hus, vss, hvss, rfl⟩, List.flatten_cons⟩

theorem prepared_all_said : (∃ ps, arguments.mapM prepareArgument = .ok ps ∧
    (ps.flatMap (List.splitOn separator)).mapM Hex.decodeStrict = some bss) ↔
      said arguments = some bss := by
  induction arguments generalizing bss with
  | nil => simp [said, pure, Except.pure]
  | cons a arguments ih =>
      simp only [said_cons, mapM_cons_eq_ok, ← prepared_said, ← ih]
      constructor
      · intro h
        obtain ⟨-, ⟨p, ps, hp, hps, rfl⟩, hread⟩ := h
        rw [List.flatMap_cons, mapM_append_eq_some] at hread
        obtain ⟨us, vs, hus, hvs, rfl⟩ := hread
        exact ⟨us, vs, ⟨p, hp, hus⟩, ⟨ps, hps, hvs⟩, rfl⟩
      · intro h
        obtain ⟨us, vs, ⟨p, hp, hus⟩, ⟨ps, hps, hvs⟩, rfl⟩ := h
        refine ⟨p :: ps, ⟨p, ps, hp, hps, rfl⟩, ?_⟩
        rw [List.flatMap_cons, mapM_append_eq_some]
        exact ⟨us, vs, hus, hvs, rfl⟩

/-- Behind a header of some fields, the first of them a name, what is appended is read
field by field. -/
theorem received_fields {function : Text} {fields : List Text} {front : List Bytes}
    (hheader : header.splitOn separator = function :: fields)
    (hfields : fields.mapM Hex.decodeStrict = some front) (ps : List Text) :
    received (header ++ ps.flatMap (separator :: ·)) = some (function, front ++ bss) ↔
      (ps.flatMap (List.splitOn separator)).mapM Hex.decodeStrict = some bss := by
  rw [received, splitOn_appended, hheader]
  simp only [List.cons_append, Option.map_eq_some_iff, Prod.mk.injEq, true_and,
    exists_eq_right, mapM_append_eq_some, hfields, Option.some.injEq]
  constructor
  · intro h
    obtain ⟨us, vs, hus, hvs, hsplit⟩ := h
    rw [← hus, List.append_cancel_left_eq] at hsplit
    rwa [hsplit]
  · intro hvs
    exact ⟨front, bss, rfl, hvs, rfl⟩

/-- So the arguments are read as what they say. -/
theorem received_appended {function : Text} {fields : List Text} {front : List Bytes}
    (hheader : header.splitOn separator = function :: fields)
    (hfields : fields.mapM Hex.decodeStrict = some front) :
    (∃ data, appendArguments header arguments = .ok data ∧
      received data = some (function, front ++ bss)) ↔ said arguments = some bss := by
  rw [← prepared_all_said]
  simp only [appendArguments_eq_ok]
  constructor
  · intro h
    obtain ⟨-, ⟨ps, hps, rfl⟩, hdata⟩ := h
    exact ⟨ps, hps, (received_fields hheader hfields ps).mp hdata⟩
  · intro h
    obtain ⟨ps, hps, hdata⟩ := h
    exact ⟨_, ⟨ps, hps, rfl⟩, (received_fields hheader hfields ps).mpr hdata⟩

/-! ## Whole calls -/

/-- The first separator behind `0x` ends the argument. -/
example : said [⟨['0', 'x', '2', 'a', '@', '0', '7'], by decide⟩] = some [[42], [7]] := by
  decide

/-- The bytes of the metadata. -/
def CodeMetadata.bytes (metadata : CodeMetadata) : Bytes :=
  [if metadata.upgradeable then 1 else 0, if metadata.payable then 2 else 0]

theorem toHex_eq (metadata : CodeMetadata) : metadata.toHex = Hex.encode metadata.bytes := by
  obtain ⟨upgradeable, payable⟩ := metadata
  cases upgradeable <;> cases payable <;> rfl

theorem splitOn_front {s : Text} (hs : separator ∉ s) (rest : Text) :
    List.splitOn separator (s ++ separator :: rest) = s :: List.splitOn separator rest := by
  rw [List.splitOn_append_cons_self, List.splitOn_eq_singleton hs, List.singleton_append]

theorem deploy_received (code : Bytes) (metadata : CodeMetadata) :
    (∃ data, prepareDeployTransactionData (Hex.encode code) metadata arguments = .ok data ∧
      received data = some (Hex.encode code, [[5, 0], metadata.bytes] ++ bss)) ↔
    said arguments = some bss := by
  have hmetadata := List.splitOn_eq_singleton (separator_not_mem_encode metadata.bytes)
  have hheader : List.splitOn separator
      (Hex.encode code ++ separator :: vmTypeArwen ++ separator :: metadata.toHex) =
        [Hex.encode code, vmTypeArwen, metadata.toHex] := by
    rw [List.append_assoc, List.cons_append, splitOn_front (separator_not_mem_encode code),
      toHex_eq, splitOn_front (by decide), hmetadata]
  have hfields : [vmTypeArwen, metadata.toHex].mapM Hex.decodeStrict =
      some [[5, 0], metadata.bytes] := by
    rw [toHex_eq, List.mapM_cons, List.mapM_cons, Hex.decodeStrict_encode]
    rfl
  exact received_appended hheader hfields

theorem upgrade_received (code : Bytes) (metadata : CodeMetadata) :
    (∃ data, prepareUpgradeTransactionData (Hex.encode code) metadata arguments = .ok data ∧
      received data = some (upgradeContract, [code, metadata.bytes] ++ bss)) ↔
    said arguments = some bss := by
  have hmetadata := List.splitOn_eq_singleton (separator_not_mem_encode metadata.bytes)
  have hheader : List.splitOn separator
      (upgradeContract ++ separator :: Hex.encode code ++ separator :: metadata.toHex) =
        [upgradeContract, Hex.encode code, metadata.toHex] := by
    rw [List.append_assoc, List.cons_append, splitOn_front (by decide), toHex_eq,
      splitOn_front (separator_not_mem_encode code), hmetadata]
  have hfields : [Hex.encode code, metadata.toHex].mapM Hex.decodeStrict =
      some [code, metadata.bytes] := by
    rw [toHex_eq, List.mapM_cons, List.mapM_cons, Hex.decodeStrict_encode,
      Hex.decodeStrict_encode]
    rfl
  exact received_appended hheader hfields

/-- A deployment arrives as the code, the virtual machine and the metadata, an upgrade
as its name, the code and the metadata; and both with what their arguments say behind. -/
theorem code_received (code : Bytes) (metadata : CodeMetadata) (arguments : List Argument)
    (bss : List Bytes) :
    ((∃ data, prepareDeployTransactionData (Hex.encode code) metadata arguments = .ok data ∧
        received data = some (Hex.encode code, [[5, 0], metadata.bytes] ++ bss)) ↔
      said arguments = some bss) ∧
    ((∃ data, prepareUpgradeTransactionData (Hex.encode code) metadata arguments = .ok data ∧
        received data = some (upgradeContract, [code, metadata.bytes] ++ bss)) ↔
      said arguments = some bss) :=
  ⟨deploy_received code metadata, upgrade_received code metadata⟩

/-! ## Numbers -/

theorem decode_numberBytes (n : Nat) : BigEndian.decode (numberBytes n) = n := by
  rw [numberBytes]
  split
  · next h =>
    rw [h]
    rfl
  · exact BigEndian.decode_encode n

theorem topDecodeU64_numberBytes (n : Nat) :
    topDecodeU64 (numberBytes n) = if n < 2 ^ 64 then some (UInt64.ofNat n) else none := by
  have hlen : (numberBytes n).length ≤ 8 ↔ n < 2 ^ 64 := by
    rw [numberBytes]
    split
    · next h =>
      rw [h]
      decide
    · exact BigEndian.length_encode_le_iff
  rw [topDecodeU64, decode_numberBytes]
  simp only [hlen]

theorem isDigit_toDigits {n : Nat} {x : Char} (hx : x ∈ Nat.toDigits 10 n) :
    x.isDigit = true :=
  Nat.isDigit_of_mem_toDigits (by omega) (by omega) hx

theorem isnumeric_toDigits (n : Nat) : Text.isnumeric (Nat.toDigits 10 n) = true := by
  rw [Text.isnumeric, Bool.and_eq_true, List.all_eq_true]
  exact ⟨by simp, fun x hx => isDigit_toDigits hx⟩

/-- A number, in decimal digits. -/
def Argument.number (n : Nat) : Argument where
  text := Nat.toDigits 10 n
  ascii := by
    rw [List.all_eq_true]
    intro x hx
    have hdigit := isDigit_toDigits hx
    rw [Char.isDigit, Bool.and_eq_true, decide_eq_true_eq, decide_eq_true_eq] at hdigit
    have hle : x.toNat ≤ 57 := hdigit.2
    rw [decide_eq_true_eq]
    omega

theorem said_number (n : Nat) : (Argument.number n).said = some [numberBytes n] := by
  have hnumeric := isnumeric_toDigits n
  have hstart : List.isPrefixOf ['0', 'x'] (Text.lower (Nat.toDigits 10 n)) = false := by
    rw [← isPrefixOf_upper, upper_of_isnumeric hnumeric, ← Bool.not_eq_true,
      List.isPrefixOf_iff_prefix]
    intro h
    have hletter := isDigit_toDigits (h.subset (by decide : 'X' ∈ ['0', 'X']))
    exact absurd hletter (by decide)
  rw [Argument.said]
  simp only [Argument.number, hstart, hnumeric, Bool.false_eq_true, if_false, if_true, Text.int,
    Nat.ofDigitChars_ten_toDigits]

/-- Numbers arrive, however large and however many: read as numbers they are those
that were given, and read as `u64` they are, as far as they are one. -/
theorem numbers_received {function : Text} (hfunction : separator ∉ function) (ns : List Nat) :
    ∃ data bss, prepareExecuteTransactionData function (ns.map Argument.number) = .ok data ∧
      received data = some (function, bss) ∧ bss.map BigEndian.decode = ns ∧
      bss.map topDecodeU64 =
        ns.map fun n => if n < 2 ^ 64 then some (UInt64.ofNat n) else none := by
  have hsaid : said (ns.map Argument.number) = some (ns.map numberBytes) := by
    induction ns with
    | nil => rfl
    | cons n ns ih =>
        rw [List.map_cons, said_cons]
        exact ⟨_, _, said_number n, ih, rfl⟩
  have hnone : ([] : List Text).mapM Hex.decodeStrict = some [] := rfl
  obtain ⟨data, hdata, hread⟩ :=
    (received_appended (List.splitOn_eq_singleton hfunction) hnone).mpr hsaid
  refine ⟨data, _, hdata, hread, ?_, ?_⟩
  · rw [List.nil_append, List.map_map]
    conv_rhs => rw [← List.map_id ns]
    exact List.map_congr_left fun n _ => decode_numberBytes n
  · rw [List.nil_append, List.map_map]
    exact List.map_congr_left fun n _ => topDecodeU64_numberBytes n

theorem numbers_received_max :
    ∃ data bss, prepareExecuteTransactionData ['f']
        ([2 ^ 64 - 1, 2 ^ 64].map Argument.number) = .ok data ∧
      received data = some (['f'], bss) ∧ bss.map BigEndian.decode = [2 ^ 64 - 1, 2 ^ 64] ∧
      bss.map topDecodeU64 =
        [2 ^ 64 - 1, 2 ^ 64].map fun n => if n < 2 ^ 64 then some (UInt64.ofNat n) else none :=
  numbers_received (by decide) _

end Contracts

end ElrondMint
