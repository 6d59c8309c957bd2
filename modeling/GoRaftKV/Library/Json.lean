import Mathlib.Data.List.TakeWhile
import Mathlib.Data.String.Basic
import Mathlib.Tactic.IntervalCases

/-! JSON texts over UTF-8: values, a writer for a choice of escapes, a reader for the whole grammar
that takes back what any such writer wrote, and the assignment of an object's members to a
record. -/

namespace GoRaftKV.Library.Json

/-! ### Bytes -/

def encodeUtf8 (text : List Char) : List UInt8 := text.flatMap String.utf8EncodeChar

/-- The characters of some bytes. A byte that starts no character stands for itself. -/
def scanUtf8 : List UInt8 → List (Option Char)
  | [] => []
  | byte :: bytes =>
      match (byte :: bytes).toByteArray.utf8DecodeChar? 0 with
      | some c => some c :: scanUtf8 (bytes.drop (c.utf8Size - 1))
      | none => none :: scanUtf8 bytes
termination_by bytes => bytes.length
decreasing_by all_goals simp; try omega

theorem scanUtf8_cons (c : Char) (bytes : List UInt8) :
    scanUtf8 (String.utf8EncodeChar c ++ bytes) = some c :: scanUtf8 bytes := by
  have size : (String.utf8EncodeChar c).length = c.utf8Size := String.length_utf8EncodeChar c
  have positive := c.utf8Size_pos
  have read : (String.utf8EncodeChar c ++ bytes).toByteArray.utf8DecodeChar? 0 = some c := by
    have found := @List.utf8DecodeChar?_utf8Encode_singleton_append bytes.toByteArray c
    simpa [List.utf8Encode] using found
  cases encoded : String.utf8EncodeChar c with
  | nil => simp [encoded] at size; omega
  | cons byte more =>
      rw [encoded, List.cons_append] at read
      rw [encoded, List.length_cons] at size
      rw [List.cons_append, scanUtf8, read]
      have rest : c.utf8Size - 1 = more.length := by omega
      simp [rest]

theorem scanUtf8_encodeUtf8 (text : List Char) : scanUtf8 (encodeUtf8 text) = text.map some := by
  induction text with
  | nil => simp [encodeUtf8, scanUtf8]
  | cons c text ih =>
      rw [encodeUtf8, List.flatMap_cons, scanUtf8_cons]
      exact congrArg _ ih

/-- A byte that starts no character is read as U+FFFD. -/
def decodeUtf8 (bytes : List UInt8) : List Char :=
  (scanUtf8 bytes).map fun found => found.getD (Char.ofNat 0xFFFD)

theorem decodeUtf8_encodeUtf8 (text : List Char) : decodeUtf8 (encodeUtf8 text) = text := by
  rw [decodeUtf8, scanUtf8_encodeUtf8, List.map_map]
  exact List.map_id text

theorem mem_utf8EncodeChar {byte : UInt8} {c : Char} (ascii : byte.toNat < 128)
    (member : byte ∈ String.utf8EncodeChar c) : c.toNat = byte.toNat := by
  have high : ∀ value, 128 ≤ value → value < 256 → byte ≠ UInt8.ofNat value := by
    rintro value low top rfl
    rw [UInt8.toNat_ofNat'] at ascii
    omega
  simp only [String.utf8EncodeChar] at member
  split at member
  · rename_i small
    rw [List.mem_singleton] at member
    rw [member, UInt8.toNat_ofNat']
    simp only [Char.toNat] at small ⊢
    omega
  -- every byte of a longer character has its top bit set
  exfalso
  split at member
  · rcases List.mem_pair.mp member with same | same
    · exact high _ (by omega) (by omega) same
    · exact high _ (by omega) (by omega) same
  split at member <;> simp only [List.mem_cons, List.not_mem_nil, or_false] at member
  · rcases member with same | same | same <;> exact high _ (by omega) (by omega) same
  · rcases member with same | same | same | same <;> exact high _ (by omega) (by omega) same

theorem mem_encodeUtf8 {byte : UInt8} {text : List Char} (ascii : byte.toNat < 128)
    (member : byte ∈ encodeUtf8 text) : ∃ c ∈ text, c.toNat = byte.toNat := by
  obtain ⟨c, present, within⟩ := List.mem_flatMap.mp member
  exact ⟨c, present, mem_utf8EncodeChar ascii within⟩

/-! ### Strings -/

/-- A string is read as characters and `\u` units; the units are joined afterwards. -/
inductive Piece where
  | plain (c : Char)
  | unit (code : Nat)

def Piece.Means : Piece → Char → Prop
  | .plain written, c => written = c
  | .unit code, c => code = c.toNat

def hexValue (c : Char) : Option Nat :=
  if 48 ≤ c.toNat ∧ c.toNat ≤ 57 then some (c.toNat - 48)
  else if 97 ≤ c.toNat ∧ c.toNat ≤ 102 then some (c.toNat - 87)
  else if 65 ≤ c.toNat ∧ c.toNat ≤ 70 then some (c.toNat - 55)
  else none

def hexCode (digits : List Char) : Option Nat :=
  digits.foldlM (fun code digit => (hexValue digit).map (code * 16 + ·)) 0

def shortEscape (letter : Char) : Option Char :=
  match letter with
  | '"' => some '"'
  | '\\' => some '\\'
  | '/' => some '/'
  | 'b' => some (Char.ofNat 8)
  | 'f' => some (Char.ofNat 12)
  | 'n' => some '\n'
  | 'r' => some '\r'
  | 't' => some '\t'
  | _ => none

/-- The pieces up to the closing quote, and what follows it. -/
def readPieces : List Char → Option (List Piece × List Char)
  | [] => none
  | '"' :: rest => some ([], rest)
  | '\\' :: 'u' :: a :: b :: c :: d :: rest =>
      match hexCode [a, b, c, d] with
      | none => none
      | some code => (readPieces rest).map fun (pieces, rest) => (.unit code :: pieces, rest)
  | '\\' :: letter :: rest =>
      match shortEscape letter with
      | none => none
      | some c => (readPieces rest).map fun (pieces, rest) => (.plain c :: pieces, rest)
  | c :: rest =>
      if c.toNat < 32 then none
      else (readPieces rest).map fun (pieces, rest) => (.plain c :: pieces, rest)

def Surrogate (code : Nat) : Prop := 0xD800 ≤ code ∧ code < 0xE000

instance (code : Nat) : Decidable (Surrogate code) := inferInstanceAs (Decidable (_ ∧ _))

/-- The character that two units stand for together. -/
def surrogatePair (high low : Nat) : Option Char :=
  if 0xD800 ≤ high ∧ high < 0xDC00 ∧ 0xDC00 ≤ low ∧ low < 0xE000 then
    some (Char.ofNat (0x10000 + (high - 0xD800) * 0x400 + (low - 0xDC00)))
  else none

/-- A surrogate on its own is read as U+FFFD. -/
def single (code : Nat) : Char := if Surrogate code then Char.ofNat 0xFFFD else Char.ofNat code

def joinPieces : List Piece → List Char
  | [] => []
  | .plain c :: pieces => c :: joinPieces pieces
  | .unit high :: .unit low :: pieces =>
      match surrogatePair high low with
      | some c => c :: joinPieces pieces
      | none => single high :: joinPieces (.unit low :: pieces)
  | .unit code :: pieces => single code :: joinPieces pieces

theorem not_surrogate (c : Char) : ¬ Surrogate c.toNat := by
  rintro ⟨low, high⟩
  have valid := c.valid
  simp only [UInt32.isValidChar, Nat.isValidChar, Char.toNat] at valid low high
  omega

theorem joinPieces_means (c : Char) {piece : Piece} (means : piece.Means c) (pieces : List Piece) :
    joinPieces (piece :: pieces) = c :: joinPieces pieces := by
  cases piece with
  | plain written =>
      cases means
      rfl
  | unit code =>
      cases means
      have whole : single c.toNat = c := by
        rw [single, if_neg (not_surrogate c), Char.ofNat_toNat]
      have alone : ∀ low, surrogatePair c.toNat low = none := by
        intro low
        refine if_neg fun pair => not_surrogate c ?_
        exact ⟨pair.1, by omega⟩
      cases pieces with
      | nil => simp [joinPieces, whole]
      | cons next pieces =>
          cases next with
          | plain written => simp [joinPieces, whole]
          | unit low => simp [joinPieces, whole, alone]

/-- No control character. -/
def Printed (text : List Char) : Prop := ∀ c ∈ text, 32 ≤ c.toNat

instance (text : List Char) : Decidable (Printed text) := List.decidableBAll _ _

/-- How a writer escapes the characters of a string. -/
structure Escaping where
  escape : Char → List Char
  printed : ∀ c, Printed (escape c)
  reads : ∀ c, ∃ piece : Piece, piece.Means c ∧ ∀ rest,
    readPieces (escape c ++ rest) = (readPieces rest).map fun (pieces, rest) =>
      (piece :: pieces, rest)

def Escaping.quote (escaping : Escaping) (text : List Char) : List Char :=
  '"' :: text.flatMap escaping.escape ++ ['"']

def readText (text : List Char) : Option (String × List Char) :=
  (readPieces text).map fun (pieces, rest) => (String.ofList (joinPieces pieces), rest)

theorem readText_quoted (escaping : Escaping) (text : String) (rest : List Char) :
    readText (text.toList.flatMap escaping.escape ++ '"' :: rest) = some (text, rest) := by
  have read : ∀ text : List Char, ∃ pieces, joinPieces pieces = text ∧
      readPieces (text.flatMap escaping.escape ++ '"' :: rest) = some (pieces, rest) := by
    intro text
    induction text with
    | nil => exact ⟨[], rfl, by simp [readPieces]⟩
    | cons c text ih =>
        rcases ih with ⟨pieces, joined, read⟩
        rcases escaping.reads c with ⟨piece, means, reads⟩
        refine ⟨piece :: pieces, ?_, ?_⟩
        · rw [joinPieces_means c means, joined]
        · rw [List.flatMap_cons, List.append_assoc, reads, read]
          rfl
  rcases read text.toList with ⟨pieces, joined, read⟩
  rw [readText, read]
  simp [joined]

/-! ### Numbers -/

def numberChar (c : Char) : Bool :=
  c.isDigit || c = '-' || c = '+' || c = '.' || c = 'e' || c = 'E'

def wholePart (digits : List Char) : Bool :=
  digits = ['0'] || (digits ≠ [] && digits.head? ≠ some '0')

def digitsPart (digits : List Char) : Bool := digits ≠ [] && digits.all Char.isDigit

def exponentPart : List Char → Bool
  | [] => true
  | mark :: rest =>
      (mark = 'e' || mark = 'E') &&
        match rest with
        | '+' :: digits => digitsPart digits
        | '-' :: digits => digitsPart digits
        | digits => digitsPart digits

def fractionPart : List Char → Bool
  | '.' :: rest =>
      digitsPart (rest.takeWhile Char.isDigit) && exponentPart (rest.dropWhile Char.isDigit)
  | rest => exponentPart rest

def unsignedNumber (literal : List Char) : Bool :=
  wholePart (literal.takeWhile Char.isDigit) && fractionPart (literal.dropWhile Char.isDigit)

def withoutSign : List Char → List Char
  | '-' :: rest => rest
  | literal => literal

def isNumber (literal : List Char) : Bool :=
  literal.all numberChar && unsignedNumber (withoutSign literal)

/-- A number as it is written. -/
structure Numeral where
  literal : List Char
  valid : isNumber literal = true

theorem Numeral.chars (numeral : Numeral) : ∀ c ∈ numeral.literal, numberChar c = true := by
  have valid := numeral.valid
  rw [isNumber, Bool.and_eq_true] at valid
  exact List.all_eq_true.mp valid.1

theorem Numeral.ne_nil (numeral : Numeral) : numeral.literal ≠ [] := by
  intro empty
  have valid := numeral.valid
  rw [empty] at valid
  exact absurd valid (by decide)

theorem toDigits_head (n : Nat) : Nat.toDigits 10 n = ['0'] ∨
    (Nat.toDigits 10 n ≠ [] ∧ (Nat.toDigits 10 n).head? ≠ some '0') := by
  induction n using Nat.strongRecOn with
  | ind n ih =>
      rw [Nat.toDigits_eq_if (by decide)]
      split
      · rename_i small
        interval_cases n <;> decide
      · rename_i large
        right
        refine ⟨by simp, ?_⟩
        rcases ih (n / 10) (by omega) with zero | ⟨some, first⟩
        · have recovered :=
            Nat.ofDigitChars_toDigits (b := 10) (n := n / 10) (by decide) (by decide)
          rw [zero] at recovered
          have : n / 10 = 0 := recovered.symm
          omega
        · rwa [List.head?_append_of_ne_nil _ some]

/-- The decimal digits of a natural number. -/
def Numeral.ofNat (n : Nat) : Numeral where
  literal := Nat.toDigits 10 n
  valid := by
    have digits : ∀ c ∈ Nat.toDigits 10 n, c.isDigit = true :=
      fun c member => Nat.isDigit_of_mem_toDigits (by decide) (by decide) member
    have taken : (Nat.toDigits 10 n).takeWhile Char.isDigit = Nat.toDigits 10 n :=
      List.takeWhile_eq_self_iff.mpr digits
    have dropped : (Nat.toDigits 10 n).dropWhile Char.isDigit = [] :=
      List.dropWhile_eq_nil_iff.mpr digits
    have whole : wholePart (Nat.toDigits 10 n) = true := by
      simpa [wholePart] using toDigits_head n
    have unsigned : unsignedNumber (Nat.toDigits 10 n) = true := by
      rw [unsignedNumber, taken, dropped, whole]
      rfl
    have allowed : (Nat.toDigits 10 n).all numberChar = true := by
      refine List.all_eq_true.mpr fun c member => ?_
      simp [numberChar, digits c member]
    have signless : withoutSign (Nat.toDigits 10 n) = Nat.toDigits 10 n := by
      refine withoutSign.eq_2 _ fun rest minus => ?_
      exact absurd (digits '-' (by simp [minus])) (by decide)
    rw [isNumber, allowed, signless, unsigned, Bool.true_and]

/-- `strconv.ParseUint` in base ten. -/
def parseUint (bits : Nat) (literal : List Char) : Option Nat :=
  if digitsPart literal ∧ Nat.ofDigitChars 10 literal 0 < 2 ^ bits then
    some (Nat.ofDigitChars 10 literal 0)
  else none

theorem parseUint_ofNat {bits n : Nat} (fits : n < 2 ^ bits) :
    parseUint bits (Numeral.ofNat n).literal = some n := by
  have recovered : Nat.ofDigitChars 10 (Nat.toDigits 10 n) 0 = n :=
    Nat.ofDigitChars_toDigits (by decide) (by decide)
  have digits : digitsPart (Nat.toDigits 10 n) = true := by
    have all : (Nat.toDigits 10 n).all Char.isDigit = true :=
      List.all_eq_true.mpr fun c member =>
        Nat.isDigit_of_mem_toDigits (by decide) (by decide) member
    simp [digitsPart, all]
  rw [parseUint, Numeral.ofNat, recovered, if_pos ⟨digits, fits⟩]

/-! ### Values -/

inductive Value where
  | null
  | bool (value : Bool)
  | number (numeral : Numeral)
  | text (content : String)
  | array (items : List Value)
  | object (members : List (String × Value))

def nullWord : List Char := ['n', 'u', 'l', 'l']
def trueWord : List Char := ['t', 'r', 'u', 'e']
def falseWord : List Char := ['f', 'a', 'l', 's', 'e']

section

variable (escaping : Escaping)

mutual

def write : Value → List Char
  | .null => nullWord
  | .bool true => trueWord
  | .bool false => falseWord
  | .number numeral => numeral.literal
  | .text content => escaping.quote content.toList
  | .array items => '[' :: (writeItems items ++ [']'])
  | .object members => '{' :: (writeMembers members ++ ['}'])

def writeItems : List Value → List Char
  | [] => []
  | [item] => write item
  | item :: next :: items => write item ++ ',' :: writeItems (next :: items)

def writeMembers : List (String × Value) → List Char
  | [] => []
  | [(key, value)] => escaping.quote key.toList ++ ':' :: write value
  | (key, value) :: next :: members =>
      escaping.quote key.toList ++ ':' :: (write value ++ ',' :: writeMembers (next :: members))

end

end

def isSpace (c : Char) : Bool := c = ' ' || c = '\t' || c = '\r' || c = '\n'

def skipSpace (text : List Char) : List Char := text.dropWhile isSpace

def readNumber (text : List Char) : Option (Value × List Char) :=
  if valid : isNumber (text.takeWhile numberChar) = true then
    some (.number ⟨text.takeWhile numberChar, valid⟩, text.dropWhile numberChar)
  else none

def readWord (text : List Char) : Option (Value × List Char) :=
  if nullWord <+: text then some (.null, text.drop nullWord.length)
  else if trueWord <+: text then some (.bool true, text.drop trueWord.length)
  else if falseWord <+: text then some (.bool false, text.drop falseWord.length)
  else none

def closed (bracket : Char) (text : List Char) : Option (List Char) :=
  match skipSpace text with
  | [] => none
  | c :: rest => if c = bracket then some rest else none

def readKey (text : List Char) : Option (String × List Char) :=
  match skipSpace text with
  | '"' :: rest =>
      match readText rest with
      | none => none
      | some (key, rest) =>
          match skipSpace rest with
          | ':' :: rest => some (key, rest)
          | _ => none
  | _ => none

mutual

def readValue : Nat → List Char → Option (Value × List Char)
  | 0, _ => none
  | fuel + 1, text =>
      match skipSpace text with
      | [] => none
      | c :: rest =>
          if c = '"' then (readText rest).map fun (content, rest) => (.text content, rest)
          else if c = '[' then
            match closed ']' rest with
            | some rest => some (.array [], rest)
            | none => (readItems fuel rest).map fun (items, rest) => (.array items, rest)
          else if c = '{' then
            match closed '}' rest with
            | some rest => some (.object [], rest)
            | none => (readMembers fuel rest).map fun (members, rest) => (.object members, rest)
          else if numberChar c then readNumber (c :: rest)
          else readWord (c :: rest)

def readItems : Nat → List Char → Option (List Value × List Char)
  | 0, _ => none
  | fuel + 1, text =>
      match readValue fuel text with
      | none => none
      | some (item, rest) =>
          match skipSpace rest with
          | ']' :: rest => some ([item], rest)
          | ',' :: rest => (readItems fuel rest).map fun (items, rest) => (item :: items, rest)
          | _ => none

def readMembers : Nat → List Char → Option (List (String × Value) × List Char)
  | 0, _ => none
  | fuel + 1, text =>
      match readKey text with
      | none => none
      | some (key, rest) =>
          match readValue fuel rest with
          | none => none
          | some (value, rest) =>
              match skipSpace rest with
              | '}' :: rest => some ([(key, value)], rest)
              | ',' :: rest =>
                  (readMembers fuel rest).map fun (members, rest) => ((key, value) :: members, rest)
              | _ => none

end

/-- Every level of nesting and every item takes a character, so the length bounds the recursion. -/
def parse (text : List Char) : Option Value :=
  match readValue (text.length + 1) text with
  | some (value, rest) => if skipSpace rest = [] then some value else none
  | none => none

/-! ### What is written is read back -/

/-- A number ends where no further character of a number follows. -/
def Stops (rest : List Char) : Prop := ∀ c ∈ rest.head?, numberChar c = false

theorem skipSpace_cons {c : Char} {rest : List Char} (solid : isSpace c = false) :
    skipSpace (c :: rest) = c :: rest := by
  simp [skipSpace, solid]

theorem closed_cons {c : Char} {rest : List Char} (bracket : Char) (solid : isSpace c = false) :
    closed bracket (c :: rest) = if c = bracket then some rest else none := by
  rw [closed, skipSpace_cons solid]

theorem readNumber_literal (numeral : Numeral) {rest : List Char} (stops : Stops rest) :
    readNumber (numeral.literal ++ rest) = some (.number numeral, rest) := by
  have taken : rest.takeWhile numberChar = [] := by
    cases rest with
    | nil => rfl
    | cons c rest => simp [stops c rfl]
  have dropped : rest.dropWhile numberChar = rest := by
    cases rest with
    | nil => rfl
    | cons c rest => simp [stops c rfl]
  have literal : (numeral.literal ++ rest).takeWhile numberChar = numeral.literal := by
    rw [List.takeWhile_append_of_pos numeral.chars, taken, List.append_nil]
  have left : (numeral.literal ++ rest).dropWhile numberChar = rest := by
    rw [List.dropWhile_append_of_pos numeral.chars, dropped]
  have valid : isNumber ((numeral.literal ++ rest).takeWhile numberChar) = true := by
    rw [literal]
    exact numeral.valid
  rw [readNumber, dif_pos valid, left]
  simp only [literal]

theorem numberChar_solid {c : Char} (number : numberChar c = true) :
    isSpace c = false ∧ c ≠ '"' ∧ c ≠ '[' ∧ c ≠ '{' := by
  refine ⟨?_, ?_, ?_, ?_⟩
  · by_contra space
    simp only [isSpace, Bool.not_eq_false, Bool.or_eq_true, decide_eq_true_eq] at space
    rcases space with ((rfl | rfl) | rfl) | rfl <;> exact absurd number (by decide)
  all_goals
    rintro rfl
    exact absurd number (by decide)

section

variable {escaping : Escaping}

theorem write_head (value : Value) :
    ∃ c rest, write escaping value = c :: rest ∧ isSpace c = false ∧ c ≠ ']' := by
  cases value with
  | null => exact ⟨'n', _, by rw [write, nullWord], by decide, by decide⟩
  | bool value =>
      cases value with
      | true => exact ⟨'t', _, by rw [write, trueWord], by decide, by decide⟩
      | false => exact ⟨'f', _, by rw [write, falseWord], by decide, by decide⟩
  | number numeral =>
      obtain ⟨c, rest, literal⟩ := List.exists_cons_of_ne_nil numeral.ne_nil
      have number := numeral.chars c (by simp [literal])
      refine ⟨c, rest, by rw [write, literal], (numberChar_solid number).1, ?_⟩
      rintro rfl
      exact absurd number (by decide)
  | text content =>
      exact ⟨'"', _, by rw [write, Escaping.quote, List.cons_append], by decide, by decide⟩
  | array items => exact ⟨'[', _, by rw [write], by decide, by decide⟩
  | object members => exact ⟨'{', _, by rw [write], by decide, by decide⟩

theorem writeItems_cons (item : Value) (items : List Value) :
    ∃ more, writeItems escaping (item :: items) = write escaping item ++ more := by
  cases items with
  | nil => exact ⟨[], by rw [writeItems, List.append_nil]⟩
  | cons next items => exact ⟨_, by rw [writeItems]⟩

theorem writeMembers_cons (member : String × Value) (members : List (String × Value)) :
    ∃ more, writeMembers escaping (member :: members) = '"' :: more := by
  cases members with
  | nil => exact ⟨_, by rw [writeMembers, Escaping.quote, List.cons_append, List.cons_append]⟩
  | cons next members =>
      exact ⟨_, by rw [writeMembers, Escaping.quote, List.cons_append, List.cons_append]⟩

theorem readKey_quote (key : String) (rest : List Char) :
    readKey (escaping.quote key.toList ++ ':' :: rest) = some (key, rest) := by
  have read := readText_quoted escaping key (':' :: rest)
  have quoted : escaping.quote key.toList ++ ':' :: rest =
      '"' :: (key.toList.flatMap escaping.escape ++ '"' :: ':' :: rest) := by
    simp [Escaping.quote]
  rw [quoted, readKey, skipSpace_cons (by decide)]
  simp only [read]
  rw [skipSpace_cons (by decide)]
  rfl

/-- What a given fuel is enough to read. -/
structure Reads (escaping : Escaping) (fuel : Nat) : Prop where
  value : ∀ value rest, (write escaping value).length < fuel → Stops rest →
    readValue fuel (write escaping value ++ rest) = some (value, rest)
  items : ∀ item items rest, (writeItems escaping (item :: items)).length + 1 < fuel →
    readItems fuel (writeItems escaping (item :: items) ++ ']' :: rest) = some (item :: items, rest)
  members : ∀ member members rest, (writeMembers escaping (member :: members)).length + 1 < fuel →
    readMembers fuel (writeMembers escaping (member :: members) ++ '}' :: rest) =
      some (member :: members, rest)

theorem stops_cons {c : Char} (other : numberChar c = false) (rest : List Char) :
    Stops (c :: rest) := by
  intro first head
  cases head
  exact other

theorem Reads.items_succ {fuel : Nat} (reads : Reads escaping fuel) (item : Value)
    (items : List Value) (rest : List Char)
    (enough : (writeItems escaping (item :: items)).length + 1 < fuel + 1) :
    readItems (fuel + 1) (writeItems escaping (item :: items) ++ ']' :: rest) =
      some (item :: items, rest) := by
  cases items with
  | nil =>
      rw [writeItems] at enough ⊢
      rw [readItems, reads.value item _ (by omega) (stops_cons (by decide) _)]
      simp only
      rw [skipSpace_cons (by decide)]
      rfl
  | cons next items =>
      rw [writeItems, List.length_append, List.length_cons] at enough
      rw [writeItems, List.append_assoc, List.cons_append, readItems,
        reads.value item _ (by omega) (stops_cons (by decide) _)]
      simp only
      rw [skipSpace_cons (by decide)]
      simp only
      rw [reads.items next items rest (by omega)]
      rfl

theorem Reads.members_succ {fuel : Nat} (reads : Reads escaping fuel) (member : String × Value)
    (members : List (String × Value)) (rest : List Char)
    (enough : (writeMembers escaping (member :: members)).length + 1 < fuel + 1) :
    readMembers (fuel + 1) (writeMembers escaping (member :: members) ++ '}' :: rest) =
      some (member :: members, rest) := by
  rcases member with ⟨key, value⟩
  cases members with
  | nil =>
      rw [writeMembers, List.length_append, List.length_cons] at enough
      rw [writeMembers, List.append_assoc, List.cons_append, readMembers, readKey_quote]
      simp only
      rw [reads.value value _ (by omega) (stops_cons (by decide) _)]
      simp only
      rw [skipSpace_cons (by decide)]
      rfl
  | cons next members =>
      simp only [writeMembers, List.length_append, List.length_cons] at enough
      rw [writeMembers, List.append_assoc, List.cons_append, readMembers, readKey_quote]
      simp only
      rw [List.append_assoc, List.cons_append,
        reads.value value _ (by omega) (stops_cons (by decide) _)]
      simp only
      rw [skipSpace_cons (by decide)]
      simp only
      rw [reads.members next members rest (by omega)]
      rfl

theorem Reads.value_succ {fuel : Nat} (reads : Reads escaping fuel) (value : Value)
    (rest : List Char) (enough : (write escaping value).length < fuel + 1) (stops : Stops rest) :
    readValue (fuel + 1) (write escaping value ++ rest) = some (value, rest) := by
  cases value with
  | null =>
      rw [write, nullWord, readValue, List.cons_append, skipSpace_cons (by decide)]
      simp [numberChar, readWord, nullWord]
  | bool value =>
      cases value with
      | true =>
          rw [write, trueWord, readValue, List.cons_append, skipSpace_cons (by decide)]
          simp [numberChar, readWord, nullWord, trueWord]
      | false =>
          rw [write, falseWord, readValue, List.cons_append, skipSpace_cons (by decide)]
          simp [numberChar, readWord, nullWord, trueWord, falseWord]
  | number numeral =>
      obtain ⟨c, more, literal⟩ := List.exists_cons_of_ne_nil numeral.ne_nil
      have number := numeral.chars c (by simp [literal])
      obtain ⟨solid, notQuote, notBracket, notBrace⟩ := numberChar_solid number
      have read := readNumber_literal numeral stops
      rw [write, readValue]
      rw [literal, List.cons_append] at read ⊢
      rw [skipSpace_cons solid]
      simp [notQuote, notBracket, notBrace, number, read]
  | text content =>
      have read := readText_quoted escaping content rest
      rw [write, Escaping.quote, List.cons_append, List.cons_append, readValue,
        skipSpace_cons (by decide), List.append_assoc]
      simp [read]
  | array items =>
      rw [write, List.length_cons, List.length_append, List.length_singleton] at enough
      rw [write, List.cons_append, List.append_assoc, List.singleton_append, readValue,
        skipSpace_cons (by decide)]
      cases items with
      | nil =>
          rw [writeItems, List.nil_append]
          simp [closed_cons ']' (c := ']') (by decide)]
      | cons item items =>
          obtain ⟨more, written⟩ := @writeItems_cons escaping item items
          obtain ⟨c, front, head, solid, notBracket⟩ := @write_head escaping item
          have filled : closed ']' (writeItems escaping (item :: items) ++ ']' :: rest) = none := by
            rw [written, head, List.cons_append, List.cons_append, closed_cons _ solid,
              if_neg notBracket]
          simp [filled, reads.items item items rest (by omega)]
  | object members =>
      rw [write, List.length_cons, List.length_append, List.length_singleton] at enough
      rw [write, List.cons_append, List.append_assoc, List.singleton_append, readValue,
        skipSpace_cons (by decide)]
      cases members with
      | nil =>
          rw [writeMembers, List.nil_append]
          simp [closed_cons '}' (c := '}') (by decide)]
      | cons member members =>
          obtain ⟨more, written⟩ := @writeMembers_cons escaping member members
          have filled : closed '}' (writeMembers escaping (member :: members) ++ '}' :: rest) =
              none := by
            rw [written, List.cons_append, closed_cons _ (by decide), if_neg (by decide)]
          simp [filled, reads.members member members rest (by omega)]

theorem reads (escaping : Escaping) (fuel : Nat) : Reads escaping fuel := by
  induction fuel with
  | zero => constructor <;> intros <;> omega
  | succ fuel ih => exact ⟨ih.value_succ, ih.items_succ, ih.members_succ⟩

theorem parse_write (value : Value) : parse (write escaping value) = some value := by
  have read := (reads escaping _).value value [] (Nat.lt_succ_self _) (fun _ head => nomatch head)
  rw [List.append_nil] at read
  rw [parse, read]
  rfl

/-! ### What is written has no control character -/

theorem Printed.append {front back : List Char} (first : Printed front) (second : Printed back) :
    Printed (front ++ back) := by
  intro c member
  rcases List.mem_append.mp member with within | within
  · exact first c within
  · exact second c within

theorem Printed.cons {c : Char} {text : List Char} (visible : 32 ≤ c.toNat) (rest : Printed text) :
    Printed (c :: text) := by
  intro other member
  rcases List.mem_cons.mp member with rfl | within
  · exact visible
  · exact rest other within

theorem quote_printed (text : List Char) : Printed (escaping.quote text) := by
  have escaped : Printed (text.flatMap escaping.escape) := by
    intro c member
    obtain ⟨source, -, written⟩ := List.mem_flatMap.mp member
    exact escaping.printed source c written
  rw [Escaping.quote]
  exact (escaped.cons (by decide)).append (by decide)

theorem numberChar_printed {c : Char} (number : numberChar c = true) : 32 ≤ c.toNat := by
  simp only [numberChar, Char.isDigit, Bool.or_eq_true, Bool.and_eq_true,
    decide_eq_true_eq] at number
  rcases number with ((((⟨low, -⟩ | rfl) | rfl) | rfl) | rfl) | rfl
  · have bound := UInt32.le_iff_toNat_le.mp low
    exact le_trans (by decide) bound
  all_goals decide

mutual

theorem write_printed (value : Value) : Printed (write escaping value) := by
  match value with
  | .null =>
      rw [write]
      decide
  | .bool true =>
      rw [write]
      decide
  | .bool false =>
      rw [write]
      decide
  | .number numeral =>
      rw [write]
      exact fun c member => numberChar_printed (numeral.chars c member)
  | .text content =>
      rw [write]
      exact quote_printed content.toList
  | .array items =>
      rw [write]
      exact ((writeItems_printed items).append (by decide)).cons (by decide)
  | .object members =>
      rw [write]
      exact ((writeMembers_printed members).append (by decide)).cons (by decide)

theorem writeItems_printed (items : List Value) : Printed (writeItems escaping items) := by
  match items with
  | [] => simp [writeItems, Printed]
  | [item] =>
      rw [writeItems]
      exact write_printed item
  | item :: next :: items =>
      rw [writeItems]
      exact (write_printed item).append ((writeItems_printed (next :: items)).cons (by decide))

theorem writeMembers_printed (members : List (String × Value)) :
    Printed (writeMembers escaping members) := by
  match members with
  | [] => simp [writeMembers, Printed]
  | [(key, value)] =>
      rw [writeMembers]
      exact (quote_printed key.toList).append ((write_printed value).cons (by decide))
  | (key, value) :: next :: members =>
      have others := writeMembers_printed (next :: members)
      rw [writeMembers]
      refine (quote_printed key.toList).append (Printed.cons (by decide) ?_)
      exact (write_printed value).append (others.cons (by decide))

end

end

/-! ### Records -/

/-- Letters of either case name the same field; the two characters outside ASCII that fold to a
letter do as well. -/
def foldChar (c : Char) : Char :=
  if c.toNat = 0x17F then 'S' else if c.toNat = 0x212A then 'K' else c.toUpper

def foldName (name : String) : List Char := name.toList.map foldChar

/-- The fields of a record type, with the way a value is assigned to one of them: the record
afterwards, and whether the value had the field's type. -/
structure Layout (Field Record : Type) where
  fields : List Field
  name : Field → String
  assign : Record → Field → Value → Record × Bool
  found : ∀ field, (fields.find? fun other => foldName (name other) = foldName (name field)) =
    some field

section

variable {Field Record : Type} (layout : Layout Field Record)

def Layout.field (key : String) : Option Field :=
  layout.fields.find? fun field => foldName (layout.name field) = foldName key

/-- An unknown member is passed over; one of the wrong type leaves an error behind. -/
def Layout.assignMember (state : Record × Bool) (member : String × Value) : Record × Bool :=
  match layout.field member.1 with
  | none => state
  | some field =>
      ((layout.assign state.1 field member.2).1,
        state.2 && (layout.assign state.1 field member.2).2)

def Layout.assignMembers (state : Record × Bool) (members : List (String × Value)) :
    Record × Bool :=
  members.foldl layout.assignMember state

def Layout.assignValue (record : Record) : Value → Record × Bool
  | .object members => layout.assignMembers (record, true) members
  | .null => (record, true)
  | _ => (record, false)

/-- The record after decoding a text into it, and whether there was no error. -/
def Layout.unmarshal (record : Record) (text : List Char) : Record × Bool :=
  match parse text with
  | none => (record, false)
  | some value => layout.assignValue record value

variable {layout} {record after : Record} {field : Field} {value : Value}

theorem Layout.assignValue_keeps {good : Record → Prop}
    (keeps : ∀ record field value, good record → good (layout.assign record field value).1)
    (start : good record) (value : Value) : good (layout.assignValue record value).1 := by
  have member (state : Record × Bool) (member : String × Value) (now : good state.1) :
      good (layout.assignMember state member).1 := by
    unfold assignMember
    split
    · exact now
    · exact keeps _ _ _ now
  have all (members : List (String × Value)) (state : Record × Bool) (now : good state.1) :
      good (layout.assignMembers state members).1 := by
    induction members generalizing state with
    | nil => exact now
    | cons first members ih => exact ih _ (member state first now)
  cases value with
  | object members => exact all members _ start
  | _ => exact start

theorem Layout.unmarshal_keeps {good : Record → Prop}
    (keeps : ∀ record field value, good record → good (layout.assign record field value).1)
    (start : good record) (text : List Char) : good (layout.unmarshal record text).1 := by
  unfold unmarshal
  split
  · exact start
  · exact assignValue_keeps keeps start _

theorem Layout.assignMembers_cons (assigned : layout.assign record field value = (after, true))
    (members : List (String × Value)) :
    layout.assignMembers (record, true) ((layout.name field, value) :: members) =
      layout.assignMembers (after, true) members := by
  have known : layout.field (layout.name field) = some field := layout.found field
  simp [assignMembers, assignMember, known, assigned]

/-- A member that is left out when its value is the one the record already has. -/
def member (present : Bool) (name : String) (value : Value) : List (String × Value) :=
  if present then [(name, value)] else []

theorem Layout.assignMembers_member {present : Bool}
    (assigned : layout.assign record field value = (after, true))
    (absent : present = false → after = record) (members : List (String × Value)) :
    layout.assignMembers (record, true) (member present (layout.name field) value ++ members) =
      layout.assignMembers (after, true) members := by
  cases present with
  | true => exact assignMembers_cons assigned members
  | false =>
      rw [absent rfl]
      rfl

end

end GoRaftKV.Library.Json
