import Nolik.Library.Effects
import Nolik.Library.Bytes
import Mathlib.Data.Nat.Digits.Defs

/-! JSON documents, and their compact text. An object keeps its entries in order and repeated
keys as they are. The text is read down to a given depth; negative and fractional numbers and
escapes beyond ASCII are refused here. -/
namespace JsonText
open ByteString Effects

inductive Json where
  | null
  | bool (value : Bool)
  | number (value : UInt64)
  | string (value : String)
  | array (items : List Json)
  | object (entries : List (String × Json))
  /-- Any other token tree, such as a negative or a fractional number. -/
  | other (id : Nat)

/-- Nested at most so deep, and without a token tree that has no constructor here. -/
def Json.Fits : Nat → Json → Prop
  | 0, _ => False
  | depth + 1, array items => ∀ item ∈ items, item.Fits depth
  | depth + 1, object entries => ∀ entry ∈ entries, entry.2.Fits depth
  | _ + 1, other _ => False
  | _ + 1, _ => True

theorem Json.Fits.mono {depth depth' : Nat} {doc : Json} (fits : doc.Fits depth)
    (le : depth ≤ depth') : doc.Fits depth' := by
  induction depth generalizing depth' doc with
  | zero => cases fits
  | succ depth ih =>
      obtain ⟨depth', rfl⟩ := Nat.exists_eq_add_one_of_ne_zero (Nat.ne_zero_of_lt le)
      have le : depth ≤ depth' := Nat.le_of_succ_le_succ le
      cases doc with
      | null => trivial
      | bool value => trivial
      | number n => trivial
      | string s => trivial
      | array items => exact fun item member => ih (fits item member) le
      | object entries => exact fun entry member => ih (fits entry member) le
      | other id => cases fits

/-- `String::into_bytes`. -/
def utf8Bytes (s : String) : Bytes := s.toByteArray.data.toList

/-- `String::from_utf8`. -/
def fromUtf8 (bytes : Bytes) : Option String := String.fromUTF8? ⟨bytes.toArray⟩

@[simp] theorem fromUtf8_utf8Bytes (s : String) : fromUtf8 (utf8Bytes s) = some s := by
  have whole : (⟨(utf8Bytes s).toArray⟩ : ByteArray) = s.toByteArray := by
    rw [utf8Bytes, Array.toArray_toList]
  rw [fromUtf8, whole, String.fromUTF8?, dif_pos s.isValidUTF8]
  rfl

abbrev quote : UInt8 := 0x22
abbrev backslash : UInt8 := 0x5c
abbrev comma : UInt8 := 0x2c
abbrev colon : UInt8 := 0x3a
abbrev openArray : UInt8 := 0x5b
abbrev closeArray : UInt8 := 0x5d
abbrev openObject : UInt8 := 0x7b
abbrev closeObject : UInt8 := 0x7d

/-- The control bytes with an escape of one letter. -/
def letterOf (b : UInt8) : Option UInt8 :=
  if b = quote then some quote
  else if b = backslash then some backslash
  else if b = 8 then some 0x62
  else if b = 9 then some 0x74
  else if b = 10 then some 0x6e
  else if b = 12 then some 0x66
  else if b = 13 then some 0x72
  else none

def ofLetter (letter : UInt8) : Option UInt8 :=
  if letter = quote then some quote
  else if letter = backslash then some backslash
  else if letter = 0x2f then some 0x2f
  else if letter = 0x62 then some 8
  else if letter = 0x74 then some 9
  else if letter = 0x6e then some 10
  else if letter = 0x66 then some 12
  else if letter = 0x72 then some 13
  else none

def hexDigit (n : UInt8) : UInt8 := if n < 10 then 0x30 + n else 0x57 + n

def hexValue (b : UInt8) : Option UInt8 :=
  if 0x30 ≤ b ∧ b < 0x3a then some (b - 0x30)
  else if 0x61 ≤ b ∧ b < 0x67 then some (b - 0x57)
  else if 0x41 ≤ b ∧ b < 0x47 then some (b - 0x37)
  else none

def escape (b : UInt8) : Bytes :=
  match letterOf b with
  | some letter => [backslash, letter]
  | none =>
      if b < 0x20 then [backslash, 0x75, 0x30, 0x30, hexDigit (b / 16), hexDigit (b % 16)] else [b]

/-- One byte of a string, or `none` for the closing quote. -/
def readUnit : Bytes → Option (Option UInt8 × Bytes)
  | [] => none
  | b :: rest =>
      if b = quote then some (none, rest)
      else if b = backslash then
        match rest with
        | [] => none
        | letter :: rest =>
            if letter = 0x75 then
              match rest with
              | 0x30 :: 0x30 :: high :: low :: rest => do
                  let high ← hexValue high
                  let low ← hexValue low
                  if high < 8 then some (some (16 * high + low), rest) else none
              | _ => none
            else (ofLetter letter).map fun b => (some b, rest)
      else if b < 0x20 then none
      else some (some b, rest)

def readUnits : Nat → Bytes → Option (Bytes × Bytes)
  | 0, _ => none
  | fuel + 1, bytes => do
      match ← readUnit bytes with
      | (none, rest) => some ([], rest)
      | (some b, rest) =>
          let (units, rest) ← readUnits fuel rest
          some (b :: units, rest)

def quoted (s : String) : Bytes := quote :: ((utf8Bytes s).flatMap escape ++ [quote])

/-- What follows an opening quote. -/
def readString (bytes : Bytes) : Option (String × Bytes) := do
  let (units, rest) ← readUnits bytes.length bytes
  let s ← fromUtf8 units
  some (s, rest)

theorem ofLetter_letterOf {b letter : UInt8} (found : letterOf b = some letter) :
    ofLetter letter = some b ∧ letter ≠ 0x75 := by
  unfold letterOf at found
  split_ifs at found with h₁ h₂ h₃ h₄ h₅ h₆ h₇
  all_goals
    subst b
    cases found
    decide

theorem hex_control {b : UInt8} (control : b < 0x20) :
    hexValue (hexDigit (b / 16)) = some (b / 16) ∧ hexValue (hexDigit (b % 16)) = some (b % 16) ∧
      b / 16 < 8 ∧ 16 * (b / 16) + b % 16 = b := by
  have every : ∀ n : Fin 256, UInt8.ofFin n < 0x20 →
      hexValue (hexDigit (UInt8.ofFin n / 16)) = some (UInt8.ofFin n / 16) ∧
      hexValue (hexDigit (UInt8.ofFin n % 16)) = some (UInt8.ofFin n % 16) ∧
      UInt8.ofFin n / 16 < 8 ∧
      16 * (UInt8.ofFin n / 16) + UInt8.ofFin n % 16 = UInt8.ofFin n := by
    decide +kernel
  exact every b.toFin control

theorem letterOf_none {b : UInt8} (plain : letterOf b = none) : b ≠ quote ∧ b ≠ backslash := by
  constructor
  · rintro rfl
    cases plain
  · rintro rfl
    cases plain

theorem readUnit_escape (b : UInt8) (rest : Bytes) :
    readUnit (escape b ++ rest) = some (some b, rest) := by
  cases letter : letterOf b with
  | some l =>
      obtain ⟨back, other⟩ := ofLetter_letterOf letter
      simp only [escape, letter, List.cons_append, List.nil_append, readUnit, if_neg other, back]
      rfl
  | none =>
      obtain ⟨notQuote, notBackslash⟩ := letterOf_none letter
      by_cases control : b < 0x20
      · obtain ⟨high, low, ascii, same⟩ := hex_control control
        simp only [escape, letter, if_pos control, List.cons_append, List.nil_append, readUnit,
          reduceIte, high, low, ascii, same, Option.bind_eq_bind, Option.bind_some]
        rfl
      · simp only [escape, letter, if_neg control, List.cons_append, List.nil_append, readUnit,
          if_neg notQuote, if_neg notBackslash]

theorem readUnits_escape (units rest : Bytes) {fuel : Nat} (enough : units.length < fuel) :
    readUnits fuel (units.flatMap escape ++ quote :: rest) = some (units, rest) := by
  induction units generalizing fuel with
  | nil =>
      cases fuel with
      | zero => cases enough
      | succ fuel => rfl
  | cons b units ih =>
      cases fuel with
      | zero => cases enough
      | succ fuel =>
          have later : units.length < fuel := Nat.lt_of_succ_lt_succ enough
          rw [List.flatMap_cons, List.append_assoc, readUnits, readUnit_escape]
          simp only [Option.bind_eq_bind, Option.bind_some, ih later]

theorem escape_length_pos (b : UInt8) : 0 < (escape b).length := by
  unfold escape
  split
  · exact Nat.succ_pos _
  · split <;> exact Nat.succ_pos _

theorem length_le_flatMap_escape (units : Bytes) :
    units.length ≤ (units.flatMap escape).length := by
  induction units with
  | nil => exact Nat.le_refl 0
  | cons b units ih =>
      have first := escape_length_pos b
      rw [List.flatMap_cons, List.length_append, List.length_cons]
      omega

theorem readString_quoted (s : String) (rest : Bytes) :
    readString ((utf8Bytes s).flatMap escape ++ quote :: rest) = some (s, rest) := by
  have enough : (utf8Bytes s).length <
      ((utf8Bytes s).flatMap escape ++ quote :: rest).length := by
    have size := length_le_flatMap_escape (utf8Bytes s)
    rw [List.length_append, List.length_cons]
    omega
  rw [readString, readUnits_escape _ _ enough]
  simp only [Option.bind_eq_bind, Option.bind_some, fromUtf8_utf8Bytes]

def isDigit (b : UInt8) : Bool := 0x30 ≤ b ∧ b < 0x3a

def decimal (n : Nat) : Bytes :=
  if n = 0 then [0x30] else (Nat.digits 10 n).reverse.map fun d => UInt8.ofNat (0x30 + d)

/-- Digits that are not the decimal form of a number below `2 ^ 64` are refused. -/
def readNumber (bytes : Bytes) : Option (UInt64 × Bytes) :=
  let digits := bytes.takeWhile isDigit
  let value := digits.foldl (fun n b => 10 * n + (b.toNat - 0x30)) 0
  if value < 2 ^ 64 ∧ decimal value = digits then
    some (UInt64.ofNat value, bytes.drop digits.length)
  else none

/-- Nothing that a number could go on with. -/
def Stops (rest : Bytes) : Prop := ∀ b tail, rest = b :: tail → isDigit b = false

theorem stops_cons {b : UInt8} (tail : Bytes) (stop : isDigit b = false) : Stops (b :: tail) := by
  intro b' tail' same
  cases same
  exact stop

theorem digit_spec {d : Nat} (small : d < 10) : isDigit (UInt8.ofNat (0x30 + d)) = true ∧
    (UInt8.ofNat (0x30 + d)).toNat - 0x30 = d := by
  have every : ∀ d : Fin 10, isDigit (UInt8.ofNat (0x30 + d)) = true ∧
      (UInt8.ofNat (0x30 + d)).toNat - 0x30 = d := by
    decide
  exact every ⟨d, small⟩

theorem decimal_isDigit (n : Nat) : ∀ b ∈ decimal n, isDigit b = true := by
  unfold decimal
  split_ifs with zero
  · exact List.forall_mem_singleton.mpr rfl
  · simp only [List.mem_map, List.mem_reverse]
    rintro b ⟨d, member, rfl⟩
    exact (digit_spec (Nat.digits_lt_base (by decide) member)).1

theorem decimal_value (n : Nat) :
    (decimal n).foldl (fun n b => 10 * n + (b.toNat - 0x30)) 0 = n := by
  unfold decimal
  split_ifs with zero
  · rw [zero]
    rfl
  · have back : ∀ digits : List Nat, (∀ d ∈ digits, d < 10) →
        ((digits.reverse.map fun d => UInt8.ofNat (0x30 + d)).foldl
          (fun n b => 10 * n + (b.toNat - 0x30)) 0) = Nat.ofDigits 10 digits := by
      intro digits small
      induction digits with
      | nil => rfl
      | cons d digits ih =>
          obtain ⟨first, rest⟩ := List.forall_mem_cons.mp small
          rw [List.reverse_cons, List.map_append, List.foldl_append, ih rest, Nat.ofDigits_cons]
          simp only [List.map_cons, List.map_nil, List.foldl_cons, List.foldl_nil,
            (digit_spec first).2]
          exact Nat.add_comm _ _
    rw [back _ fun d member => Nat.digits_lt_base (by decide) member, Nat.ofDigits_digits]

theorem takeWhile_digits {digits rest : Bytes} (all : ∀ b ∈ digits, isDigit b = true)
    (stops : Stops rest) : (digits ++ rest).takeWhile isDigit = digits := by
  induction digits with
  | nil =>
      cases rest with
      | nil => rfl
      | cons b tail => exact List.takeWhile_cons_of_neg (by rw [stops b tail rfl]; decide)
  | cons b digits ih =>
      obtain ⟨first, others⟩ := List.forall_mem_cons.mp all
      rw [List.cons_append, List.takeWhile_cons_of_pos first, ih others]

theorem readNumber_decimal (n : UInt64) {rest : Bytes} (stops : Stops rest) :
    readNumber (decimal n.toNat ++ rest) = some (n, rest) := by
  have digits := takeWhile_digits (decimal_isDigit n.toNat) stops
  simp only [readNumber, digits, decimal_value, n.toNat_lt, and_self, if_true, List.drop_left,
    UInt64.ofNat_toNat]

def isSpace (b : UInt8) : Bool := b = 0x20 ∨ b = 0x09 ∨ b = 0x0a ∨ b = 0x0d

def skipSpace (bytes : Bytes) : Bytes := bytes.dropWhile isSpace

def joined : List Bytes → Bytes
  | [] => []
  | [text] => text
  | text :: texts => text ++ comma :: joined texts

section Sequences
variable {α : Type}

/-- One item, and then further items up to the closing byte. -/
def readMany (read : Bytes → Option (α × Bytes)) (close : UInt8) :
    Nat → Bytes → Option (List α × Bytes)
  | 0, _ => none
  | fuel + 1, bytes => do
      let (item, rest) ← read bytes
      match skipSpace rest with
      | [] => none
      | b :: rest =>
          if b = comma then do
            let (items, rest) ← readMany read close fuel rest
            some (item :: items, rest)
          else if b = close then some ([item], rest)
          else none

def readSequence (read : Bytes → Option (α × Bytes)) (close : UInt8) (bytes : Bytes) :
    Option (List α × Bytes) :=
  match skipSpace bytes with
  | [] => none
  | b :: rest => if b = close then some ([], rest) else readMany read close bytes.length (b :: rest)

/-- The text of an item starts with a byte that is neither space nor a closing byte, and
is read back in front of anything a number does not go on with. -/
structure Reads (read : Bytes → Option (α × Bytes)) (item : α) (text : Bytes) : Prop where
  starts : ∃ b tail, text = b :: tail ∧ isSpace b = false ∧ b ≠ closeArray ∧ b ≠ closeObject
  reads : ∀ rest, Stops rest → read (text ++ rest) = some (item, rest)

variable {read : Bytes → Option (α × Bytes)} {close : UInt8}

theorem skipSpace_cons {b : UInt8} (rest : Bytes) (solid : isSpace b = false) :
    skipSpace (b :: rest) = b :: rest := List.dropWhile_cons_of_neg (by rw [solid]; decide)

theorem readMany_joined {items : List α} {texts : List Bytes}
    (each : List.Forall₂ (Reads read) items texts) (some : items ≠ [])
    (solid : isSpace close = false) (noComma : close ≠ comma) (stop : isDigit close = false)
    {fuel : Nat} (enough : items.length ≤ fuel) (rest : Bytes) :
    readMany read close fuel (joined texts ++ close :: rest) = .some (items, rest) := by
  induction each generalizing fuel with
  | nil => exact absurd rfl some
  | @cons item text items texts first others ih =>
      cases fuel with
      | zero => cases enough
      | succ fuel =>
          cases others with
          | nil =>
              rw [joined, readMany, first.reads _ (stops_cons rest stop)]
              simp only [Option.bind_eq_bind, Option.bind_some, skipSpace_cons rest solid,
                if_neg noComma, if_true]
          | @cons item' text' items' texts' second others =>
              have later := ih (List.cons_ne_nil _ _) (Nat.le_of_succ_le_succ enough)
              rw [joined, List.append_assoc, List.cons_append, readMany,
                first.reads _ (stops_cons _ (by decide))]
              · simp only [Option.bind_eq_bind, Option.bind_some,
                  skipSpace_cons _ (show isSpace comma = false by decide), if_true, later]
              · exact fun empty => List.cons_ne_nil _ _ empty

theorem Reads.length_le_joined {items : List α} {texts : List Bytes}
    (each : List.Forall₂ (Reads read) items texts) : items.length ≤ (joined texts).length := by
  induction each with
  | nil => exact Nat.le_refl 0
  | cons first others ih =>
      obtain ⟨b, tail, rfl, -⟩ := first.starts
      cases others with
      | nil => exact Nat.succ_le_succ (Nat.zero_le _)
      | cons second others =>
          rw [joined, List.length_append]
          · simp only [List.length_cons] at ih ⊢
            omega
          · exact fun empty => List.cons_ne_nil _ _ empty

theorem readSequence_joined {items : List α} {texts : List Bytes}
    (each : List.Forall₂ (Reads read) items texts)
    (closing : close = closeArray ∨ close = closeObject) (rest : Bytes) :
    readSequence read close (joined texts ++ close :: rest) = some (items, rest) := by
  have closed : isSpace close = false ∧ close ≠ comma ∧ isDigit close = false := by
    rcases closing with rfl | rfl <;> decide
  obtain ⟨solid, noComma, stop⟩ := closed
  have size : items.length ≤ (joined texts ++ close :: rest).length := by
    rw [List.length_append]
    exact Nat.le_add_right_of_le (Reads.length_le_joined each)
  unfold readSequence
  cases each with
  | nil =>
      rw [joined, List.nil_append, skipSpace_cons rest solid]
      exact if_pos rfl
  | @cons item text items texts first others =>
      obtain ⟨b, tail, rfl, firstSolid, noArray, noObject⟩ := first.starts
      have shape : ∃ more, joined ((b :: tail) :: texts) ++ close :: rest = b :: more := by
        cases others with
        | nil => exact ⟨_, rfl⟩
        | cons second others => exact ⟨_, rfl⟩
      obtain ⟨more, shape⟩ := shape
      have other : b ≠ close := by
        rcases closing with rfl | rfl
        · exact noArray
        · exact noObject
      have read := readMany_joined (.cons first others) (List.cons_ne_nil _ _) solid noComma stop
        size rest
      rw [shape] at read ⊢
      rw [skipSpace_cons more firstSolid]
      exact (if_neg other).trans read

end Sequences

def print : Nat → Json → Option Bytes
  | 0, _ => none
  | _ + 1, .null => some [0x6e, 0x75, 0x6c, 0x6c]
  | _ + 1, .bool true => some [0x74, 0x72, 0x75, 0x65]
  | _ + 1, .bool false => some [0x66, 0x61, 0x6c, 0x73, 0x65]
  | _ + 1, .number n => some (decimal n.toNat)
  | _ + 1, .string s => some (quoted s)
  | depth + 1, .array items => do
      let texts ← items.mapM (print depth)
      some (openArray :: (joined texts ++ [closeArray]))
  | depth + 1, .object entries => do
      let texts ← entries.mapM fun entry => do
        let value ← print depth entry.2
        some (quoted entry.1 ++ colon :: value)
      some (openObject :: (joined texts ++ [closeObject]))
  | _ + 1, .other _ => none

def readLiteral (literal : Bytes) (value : Json) (bytes : Bytes) : Option (Json × Bytes) :=
  if literal.isPrefixOf bytes then some (value, bytes.drop literal.length) else none

def readEntry (read : Bytes → Option (Json × Bytes)) (bytes : Bytes) :
    Option ((String × Json) × Bytes) :=
  match skipSpace bytes with
  | [] => none
  | b :: rest =>
      if b = quote then do
        let (key, rest) ← readString rest
        match skipSpace rest with
        | [] => none
        | b :: rest =>
            if b = colon then do
              let (value, rest) ← read rest
              some ((key, value), rest)
            else none
      else none

def readValue : Nat → Bytes → Option (Json × Bytes)
  | 0, _ => none
  | depth + 1, bytes =>
      match skipSpace bytes with
      | [] => none
      | b :: rest =>
          if b = quote then (readString rest).map fun (s, rest) => (.string s, rest)
          else if b = openArray then
            (readSequence (readValue depth) closeArray rest).map fun (items, rest) =>
              (.array items, rest)
          else if b = openObject then
            (readSequence (readEntry (readValue depth)) closeObject rest).map
              fun (entries, rest) => (.object entries, rest)
          else if b = 0x6e then readLiteral [0x75, 0x6c, 0x6c] .null rest
          else if b = 0x74 then readLiteral [0x72, 0x75, 0x65] (.bool true) rest
          else if b = 0x66 then readLiteral [0x61, 0x6c, 0x73, 0x65] (.bool false) rest
          else (readNumber (b :: rest)).map fun (n, rest) => (.number n, rest)

theorem decimal_starts (n : Nat) : ∃ b tail, decimal n = b :: tail ∧ isDigit b = true := by
  have some : decimal n ≠ [] := by
    unfold decimal
    split_ifs with zero
    · exact List.cons_ne_nil _ _
    · simp only [ne_eq, List.map_eq_nil_iff, List.reverse_eq_nil_iff, Nat.digits_eq_nil_iff_eq_zero]
      exact zero
  obtain ⟨b, tail, shape⟩ := List.exists_cons_of_ne_nil some
  refine ⟨b, tail, shape, decimal_isDigit n b ?_⟩
  rw [shape]
  exact List.mem_cons_self

/-- A digit starts nothing but a number. -/
theorem digit_other {b : UInt8} (digit : isDigit b = true) : isSpace b = false ∧
    b ≠ closeArray ∧ b ≠ closeObject ∧ b ≠ quote ∧ b ≠ openArray ∧ b ≠ openObject ∧
    b ≠ 0x6e ∧ b ≠ 0x74 ∧ b ≠ 0x66 := by
  have every : ∀ n : Fin 256, isDigit (UInt8.ofFin n) = true → isSpace (UInt8.ofFin n) = false ∧
      UInt8.ofFin n ≠ closeArray ∧ UInt8.ofFin n ≠ closeObject ∧ UInt8.ofFin n ≠ quote ∧
      UInt8.ofFin n ≠ openArray ∧ UInt8.ofFin n ≠ openObject ∧ UInt8.ofFin n ≠ 0x6e ∧
      UInt8.ofFin n ≠ 0x74 ∧ UInt8.ofFin n ≠ 0x66 := by
    decide +kernel
  exact every b.toFin digit

theorem quoted_append (s : String) (rest : Bytes) :
    quoted s ++ rest = quote :: ((utf8Bytes s).flatMap escape ++ quote :: rest) := by
  rw [quoted, List.cons_append, List.append_assoc]
  rfl

theorem readEntry_reads {read : Bytes → Option (Json × Bytes)} {key : String} {value : Json}
    {text : Bytes} (reads : Reads read value text) :
    Reads (readEntry read) (key, value) (quoted key ++ colon :: text) := by
  constructor
  · exact ⟨quote, _, rfl, by decide, by decide, by decide⟩
  · intro rest stops
    rw [List.append_assoc, quoted_append, readEntry, skipSpace_cons _ (by decide)]
    simp only [if_true, readString_quoted, Option.bind_eq_bind, Option.bind_some]
    rw [List.cons_append, skipSpace_cons _ (by decide)]
    simp only [if_true, reads.reads rest stops, Option.bind_some]

theorem forall₂_of_mapM_some {α β : Type} {f : α → Option β} {xs : List α} {ys : List β}
    (traversed : xs.mapM f = some ys) : List.Forall₂ (fun x y => f x = some y) xs ys := by
  induction xs generalizing ys with
  | nil =>
      cases traversed
      exact .nil
  | cons x xs ih =>
      rw [List.mapM_cons] at traversed
      simp only [Option.bind_eq_bind, Option.bind_eq_some_iff] at traversed
      obtain ⟨y, first, rest, later, same⟩ := traversed
      cases same
      exact .cons first (ih later)

/-- What is printed is read back, down to the same depth. -/
theorem readValue_print {depth : Nat} {value : Json} {text : Bytes}
    (printed : print depth value = some text) : Reads (readValue depth) value text := by
  induction depth generalizing value text with
  | zero => cases printed
  | succ depth ih =>
      cases value with
      | null =>
          cases printed
          exact ⟨⟨_, _, rfl, by decide, by decide, by decide⟩, fun rest _ => rfl⟩
      | bool value =>
          cases value with
          | true =>
              cases printed
              exact ⟨⟨_, _, rfl, by decide, by decide, by decide⟩, fun rest _ => rfl⟩
          | false =>
              cases printed
              exact ⟨⟨_, _, rfl, by decide, by decide, by decide⟩, fun rest _ => rfl⟩
      | number n =>
          cases printed
          obtain ⟨b, tail, shape, digit⟩ := decimal_starts n.toNat
          obtain ⟨solid, h₁, h₂, h₃, h₄, h₅, h₆, h₇, h₈⟩ := digit_other digit
          refine ⟨⟨b, tail, shape, solid, h₁, h₂⟩, fun rest stops => ?_⟩
          have read := readNumber_decimal n stops
          rw [shape, List.cons_append] at read ⊢
          rw [readValue, skipSpace_cons _ solid]
          simp only [if_neg h₃, if_neg h₄, if_neg h₅, if_neg h₆, if_neg h₇, if_neg h₈, read,
            Option.map_some]
      | string s =>
          cases printed
          refine ⟨⟨_, _, rfl, by decide, by decide, by decide⟩, fun rest _ => ?_⟩
          rw [quoted_append, readValue, skipSpace_cons _ (by decide)]
          simp only [if_true, readString_quoted, Option.map_some]
      | array items =>
          simp only [print, Option.bind_eq_bind, Option.bind_eq_some_iff] at printed
          obtain ⟨texts, traversed, same⟩ := printed
          cases same
          have each : List.Forall₂ (Reads (readValue depth)) items texts :=
            (forall₂_of_mapM_some traversed).imp fun item text => ih
          refine ⟨⟨_, _, rfl, by decide, by decide, by decide⟩, fun rest _ => ?_⟩
          rw [List.cons_append, List.append_assoc, readValue, skipSpace_cons _ (by decide)]
          simp only [List.cons_append, List.nil_append, readSequence_joined each (.inl rfl)]
          rfl
      | object entries =>
          simp only [print, Option.bind_eq_bind, Option.bind_eq_some_iff] at printed
          obtain ⟨texts, traversed, same⟩ := printed
          cases same
          have each : List.Forall₂ (Reads (readEntry (readValue depth))) entries texts := by
            refine (forall₂_of_mapM_some traversed).imp fun entry text written => ?_
            rw [Option.bind_eq_some_iff] at written
            obtain ⟨value, inner, same⟩ := written
            cases same
            exact readEntry_reads (ih inner)
          refine ⟨⟨_, _, rfl, by decide, by decide, by decide⟩, fun rest _ => ?_⟩
          rw [List.cons_append, List.append_assoc, readValue, skipSpace_cons _ (by decide)]
          simp only [List.cons_append, List.nil_append, readSequence_joined each (.inr rfl)]
          rfl
      | other id => cases printed

theorem mapM_some_of_forall {α β : Type} {f : α → Option β} {xs : List α}
    (each : ∀ x ∈ xs, ∃ y, f x = some y) : ∃ ys, xs.mapM f = some ys := by
  induction xs with
  | nil => exact ⟨[], rfl⟩
  | cons x xs ih =>
      obtain ⟨first, rest⟩ := List.forall_mem_cons.mp each
      obtain ⟨y, first⟩ := first
      obtain ⟨ys, later⟩ := ih rest
      exact ⟨y :: ys, by rw [List.mapM_cons, first, later]; rfl⟩

theorem print_total {depth : Nat} {value : Json} (fits : value.Fits depth) :
    ∃ text, print depth value = some text := by
  induction depth generalizing value with
  | zero => cases fits
  | succ depth ih =>
      cases value with
      | null => exact ⟨_, rfl⟩
      | bool value => cases value <;> exact ⟨_, rfl⟩
      | number n => exact ⟨_, rfl⟩
      | string s => exact ⟨_, rfl⟩
      | array items =>
          obtain ⟨texts, traversed⟩ := mapM_some_of_forall fun item member => ih (fits item member)
          exact ⟨_, by rw [print, traversed]; rfl⟩
      | object entries =>
          have each : ∀ entry ∈ entries, ∃ text, (do
              let value ← print depth entry.2
              some (quoted entry.1 ++ colon :: value)) = some text := by
            intro entry member
            obtain ⟨text, inner⟩ := ih (fits entry member)
            exact ⟨_, by rw [inner]; rfl⟩
          obtain ⟨texts, traversed⟩ := mapM_some_of_forall each
          exact ⟨_, by rw [print, traversed]; rfl⟩
      | other id => cases fits

theorem nul_notMem_escape (b : UInt8) : 0 ∉ escape b := by
  have every : ∀ n : Fin 256, 0 ∉ escape (UInt8.ofFin n) := by decide +kernel
  exact every b.toFin

theorem nul_notMem_quoted (s : String) : 0 ∉ quoted s := by
  simp only [quoted, List.mem_cons, List.mem_append, List.mem_flatMap, List.not_mem_nil, or_false,
    not_or, not_exists, not_and]
  exact ⟨by decide, fun b _ => nul_notMem_escape b, by decide⟩

theorem nul_notMem_joined {texts : List Bytes} (each : ∀ text ∈ texts, 0 ∉ text) :
    0 ∉ joined texts := by
  induction texts with
  | nil => exact List.not_mem_nil
  | cons text texts ih =>
      obtain ⟨first, rest⟩ := List.forall_mem_cons.mp each
      cases texts with
      | nil => exact first
      | cons text' texts =>
          rw [joined]
          · simp only [List.mem_append, List.mem_cons, not_or]
            exact ⟨first, by decide, ih rest⟩
          · exact fun empty => List.cons_ne_nil _ _ empty

theorem nul_notMem_decimal (n : Nat) : 0 ∉ decimal n := by
  intro member
  cases decimal_isDigit n 0 member

theorem nul_notMem_print {depth : Nat} {value : Json} {text : Bytes}
    (printed : print depth value = some text) : 0 ∉ text := by
  induction depth generalizing value text with
  | zero => cases printed
  | succ depth ih =>
      cases value with
      | null => cases printed; decide
      | bool value =>
          cases value with
          | true => cases printed; decide
          | false => cases printed; decide
      | number n =>
          cases printed
          exact nul_notMem_decimal n.toNat
      | string s =>
          cases printed
          exact nul_notMem_quoted s
      | array items =>
          simp only [print, Option.bind_eq_bind, Option.bind_eq_some_iff] at printed
          obtain ⟨texts, traversed, same⟩ := printed
          cases same
          have each := forall_mem_of_forall₂ (forall₂_of_mapM_some traversed) fun item text => ih
          simp only [List.mem_cons, List.mem_append, List.not_mem_nil, or_false, not_or]
          exact ⟨by decide, nul_notMem_joined each, by decide⟩
      | object entries =>
          simp only [print, Option.bind_eq_bind, Option.bind_eq_some_iff] at printed
          obtain ⟨texts, traversed, same⟩ := printed
          cases same
          have each : ∀ text ∈ texts, 0 ∉ text := by
            have related := forall₂_of_mapM_some traversed
            refine forall_mem_of_forall₂ related fun entry text written => ?_
            rw [Option.bind_eq_some_iff] at written
            obtain ⟨value, inner, same⟩ := written
            cases same
            simp only [List.mem_append, List.mem_cons, not_or]
            exact ⟨nul_notMem_quoted entry.1, by decide, ih inner⟩
          simp only [List.mem_cons, List.mem_append, List.not_mem_nil, or_false, not_or]
          exact ⟨by decide, nul_notMem_joined each, by decide⟩
      | other id => cases printed

/-- The nesting a text may have. The level after it is refused. -/
abbrev depthLimit : Nat := 127

def readText (bytes : Bytes) : Option Json :=
  (readValue depthLimit bytes).bind fun (value, rest) =>
    if (skipSpace rest).isEmpty then some value else none

theorem readText_print {value : Json} {text : Bytes}
    (printed : print depthLimit value = some text) : readText text = some value := by
  have read := (readValue_print printed).reads [] fun b tail same => (by cases same)
  rw [List.append_nil] at read
  rw [readText, read]
  rfl

end JsonText
