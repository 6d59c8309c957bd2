import GoRaftKV.Library.Json

/-! The strings and objects that `encoding/json` writes. -/

namespace GoRaftKV.Library.Json

/-! ### Escapes -/

def hexDigit (value : Nat) : Char :=
  if value < 10 then Char.ofNat (48 + value) else Char.ofNat (87 + value)

/-- The characters written as `\u` and four digits. -/
def Numeric (c : Char) : Prop :=
  c.toNat < 32 ∨ c = '<' ∨ c = '>' ∨ c = '&' ∨ c.toNat = 0x2028 ∨ c.toNat = 0x2029

instance (c : Char) : Decidable (Numeric c) := inferInstanceAs (Decidable (_ ∨ _))

/-- The letters of the two-character escapes. -/
def shortLetters : List Char := ['"', '\\', 'b', 'f', 'n', 'r', 't']

def escape (c : Char) : List Char :=
  match shortLetters.find? fun letter => shortEscape letter = some c with
  | some letter => ['\\', letter]
  | none =>
      if Numeric c then
        ['\\', 'u', hexDigit (c.toNat / 4096), hexDigit (c.toNat / 256 % 16),
          hexDigit (c.toNat / 16 % 16), hexDigit (c.toNat % 16)]
      else [c]

theorem numeric_small {c : Char} (numeric : Numeric c) : c.toNat < 0x2030 := by
  rcases numeric with low | rfl | rfl | rfl | high | high
  · omega
  · decide
  · decide
  · decide
  · omega
  · omega

theorem hexDigit_printed {value : Nat} (small : value < 16) : 32 ≤ (hexDigit value).toNat := by
  interval_cases value <;> decide

theorem hexCode_digits {code : Nat} (small : code < 65536) :
    hexCode [hexDigit (code / 4096), hexDigit (code / 256 % 16), hexDigit (code / 16 % 16),
      hexDigit (code % 16)] = some code := by
  have digit : ∀ value, value < 16 → hexValue (hexDigit value) = some value := by
    intro value small
    interval_cases value <;> rfl
  have value :
      (((code / 4096) * 16 + code / 256 % 16) * 16 + code / 16 % 16) * 16 + code % 16 = code := by
    omega
  simp [hexCode, digit (code / 4096) (by omega), digit (code / 256 % 16) (by omega),
    digit (code / 16 % 16) (by omega), digit (code % 16) (by omega), value]

theorem escape_cases (c : Char) :
    (∃ letter, escape c = ['\\', letter] ∧ shortEscape letter = some c) ∨
    (Numeric c ∧ escape c = ['\\', 'u', hexDigit (c.toNat / 4096), hexDigit (c.toNat / 256 % 16),
      hexDigit (c.toNat / 16 % 16), hexDigit (c.toNat % 16)]) ∨
    (¬ Numeric c ∧ c ≠ '"' ∧ c ≠ '\\' ∧ escape c = [c]) := by
  unfold escape
  cases found : shortLetters.find? fun letter => shortEscape letter = some c with
  | some letter =>
      left
      exact ⟨letter, rfl, by simpa using List.find?_some found⟩
  | none =>
      right
      have plain := List.find?_eq_none.mp found
      by_cases numeric : Numeric c
      · exact Or.inl ⟨numeric, if_pos numeric⟩
      · refine Or.inr ⟨numeric, ?_, ?_, if_neg numeric⟩
        · rintro rfl
          exact plain '"' (by simp [shortLetters]) rfl
        · rintro rfl
          exact plain '\\' (by simp [shortLetters]) rfl

theorem shortEscape_printed {letter c : Char} (known : shortEscape letter = some c) :
    letter ≠ 'u' ∧ 32 ≤ letter.toNat := by
  unfold shortEscape at known
  split at known
  all_goals first
    | exact ⟨by decide, by decide⟩
    | cases known

theorem escape_printed (c : Char) : Printed (escape c) := by
  rcases escape_cases c with
    ⟨letter, written, known⟩ | ⟨numeric, written⟩ | ⟨visible, -, -, written⟩
  · intro other member
    rw [written] at member
    rcases List.mem_pair.mp member with rfl | rfl
    · decide
    · exact (shortEscape_printed known).2
  · have small := numeric_small numeric
    intro other member
    simp only [written, List.mem_cons, List.not_mem_nil, or_false] at member
    rcases member with rfl | rfl | rfl | rfl | rfl | rfl
    · decide
    · decide
    all_goals exact hexDigit_printed (by omega)
  · rw [written]
    refine Printed.cons ?_ (by simp [Printed])
    by_contra low
    exact visible (Or.inl (by omega))

theorem readPieces_escape (c : Char) : ∃ piece : Piece, piece.Means c ∧ ∀ rest,
    readPieces (escape c ++ rest) =
      (readPieces rest).map fun (pieces, rest) => (piece :: pieces, rest) := by
  rcases escape_cases c with ⟨letter, written, known⟩ | ⟨numeric, written⟩ |
    ⟨visible, notQuote, notBackslash, written⟩
  · refine ⟨.plain c, rfl, fun rest => ?_⟩
    rw [written, List.cons_append, List.cons_append, List.nil_append, readPieces]
    · simp only [known]
    · intro _ _ _ _ _ same
      exact absurd same (shortEscape_printed known).1
  · have small := numeric_small numeric
    refine ⟨.unit c.toNat, rfl, fun rest => ?_⟩
    simp only [written, List.cons_append, List.nil_append, readPieces]
    rw [hexCode_digits (by omega)]
  · refine ⟨.plain c, rfl, fun rest => ?_⟩
    rw [written, List.cons_append, List.nil_append, readPieces]
    · exact if_neg fun low => visible (Or.inl low)
    · exact notQuote
    · exact fun _ _ _ _ _ same => absurd same notBackslash
    · exact fun _ _ same => absurd same notBackslash

def escaping : Escaping where
  escape := escape
  printed := escape_printed
  reads := readPieces_escape

/-! ### Strings of any bytes -/

/-- The bytes are the UTF-8 form of a text. -/
def ValidUtf8 (bytes : List UInt8) : Prop := encodeUtf8 (decodeUtf8 bytes) = bytes

instance (bytes : List UInt8) : Decidable (ValidUtf8 bytes) :=
  inferInstanceAs (Decidable (encodeUtf8 (decodeUtf8 bytes) = bytes))

theorem validUtf8_encodeUtf8 (text : List Char) : ValidUtf8 (encodeUtf8 text) := by
  rw [ValidUtf8, decodeUtf8_encodeUtf8]

/-- A byte that belongs to no character is written as the escape of U+FFFD. -/
def escapeRaw : Option Char → List Char
  | some c => escape c
  | none => ['\\', 'u', 'f', 'f', 'f', 'd']

def quoteRaw (bytes : List UInt8) : List Char :=
  '"' :: (scanUtf8 bytes).flatMap escapeRaw ++ ['"']

theorem quoteRaw_encodeUtf8 (text : List Char) :
    quoteRaw (encodeUtf8 text) = escaping.quote text := by
  rw [quoteRaw, scanUtf8_encodeUtf8, List.flatMap_map]
  rfl

theorem ValidUtf8.quoteRaw {bytes : List UInt8} (valid : ValidUtf8 bytes) :
    quoteRaw bytes = escaping.quote (decodeUtf8 bytes) := by
  rw [← quoteRaw_encodeUtf8, valid]

theorem quoteRaw_printed (bytes : List UInt8) : Printed (quoteRaw bytes) := by
  have inner : Printed ((scanUtf8 bytes).flatMap escapeRaw) := by
    intro c member
    rcases List.mem_flatMap.mp member with ⟨found, -, within⟩
    cases found with
    | none =>
        have printed : Printed (escapeRaw none) := by decide
        exact printed c within
    | some letter => exact escape_printed letter c within
  exact (inner.cons (by decide)).append (by decide)

/-! ### Decoding into a string or an unsigned integer -/

/-- `null` changes nothing. -/
def assignText (old : String) : Value → String × Bool
  | .text content => (content, true)
  | .null => (old, true)
  | _ => (old, false)

def assignUint {α : Type} (bits : Nat) (ofNat : Nat → α) (old : α) : Value → α × Bool
  | .number numeral =>
      match parseUint bits numeral.literal with
      | some value => (ofNat value, true)
      | none => (old, false)
  | .null => (old, true)
  | _ => (old, false)

/-! ### Objects whose members are written already -/

def renderMembers : List (String × List Char) → List Char
  | [] => []
  | [(key, text)] => escaping.quote key.toList ++ ':' :: text
  | (key, text) :: next :: members =>
      escaping.quote key.toList ++ ':' :: (text ++ ',' :: renderMembers (next :: members))

def renderObject (members : List (String × List Char)) : List Char :=
  '{' :: (renderMembers members ++ ['}'])

theorem writeMembers_render (members : List (String × Value)) :
    writeMembers escaping members =
      renderMembers (members.map fun member => (member.1, write escaping member.2)) := by
  induction members with
  | nil => rw [writeMembers, List.map_nil, renderMembers]
  | cons member members ih =>
      cases members with
      | nil => rw [writeMembers, List.map_singleton, renderMembers]
      | cons next members =>
          rw [writeMembers, ih]
          rfl

theorem write_object (members : List (String × Value)) :
    write escaping (.object members) =
      renderObject (members.map fun member => (member.1, write escaping member.2)) := by
  rw [write, writeMembers_render, renderObject]

theorem renderObject_printed {members : List (String × List Char)}
    (printed : ∀ member ∈ members, Printed member.2) : Printed (renderObject members) := by
  have inner : Printed (renderMembers members) := by
    induction members with
    | nil => decide
    | cons member members ih =>
        have key := @quote_printed escaping member.1.toList
        have text := printed member List.mem_cons_self
        have rest := ih fun other later => printed other (List.mem_cons_of_mem _ later)
        cases members with
        | nil => exact key.append (text.cons (by decide))
        | cons next members =>
            exact key.append ((text.append (rest.cons (by decide))).cons (by decide))
  exact (inner.append (by decide)).cons (by decide)

end GoRaftKV.Library.Json
