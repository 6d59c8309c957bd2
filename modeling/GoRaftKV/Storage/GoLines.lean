import GoRaftKV.Storage.FileJson

/-! The files of the code: `encoding/json` for the three of them and `bytes.TrimSpace` for the
lines of the WAL. -/

namespace GoRaftKV.Storage

open Library Json

/-! ### `bytes.TrimSpace` -/

/-- The characters of Unicode white space, in UTF-8. -/
def whiteSpace : List Content :=
  [[9], [10], [11], [12], [13], [32], [194, 133], [194, 160], [225, 154, 128], [226, 128, 128],
   [226, 128, 129],
    [226, 128, 130], [226, 128, 131], [226, 128, 132], [226, 128, 133], [226, 128, 134],
     [226, 128, 135],
    [226, 128, 136], [226, 128, 137], [226, 128, 138], [226, 128, 168], [226, 128, 169],
     [226, 128, 175],
    [226, 129, 159], [227, 128, 128]]

/-- Takes away up to `count` of the words from the front. -/
def dropWords (words : List Content) : Nat → Content → Content
  | 0, content => content
  | count + 1, content =>
      match words.find? (·.isPrefixOf content) with
      | none => content
      | some word => dropWords words count (content.drop word.length)

def trimSpace (content : Content) : Content :=
  let rest := dropWords whiteSpace content.length content
  (dropWords (whiteSpace.map List.reverse) rest.length rest.reverse).reverse

section Trim

variable {words : List Content} {byte : UInt8} {content : Content}

/-- The byte stands in none of the words, and no word is empty. -/
def Apart (words : List Content) (byte : UInt8) : Prop := ∀ word ∈ words, word ≠ [] ∧ byte ∉ word

instance (words : List Content) (byte : UInt8) : Decidable (Apart words byte) :=
  inferInstanceAs (Decidable (∀ word ∈ words, word ≠ [] ∧ byte ∉ word))

theorem dropWords_cons (apart : Apart words byte) (count : Nat) :
    dropWords words count (byte :: content) = byte :: content := by
  cases count with
  | zero => rfl
  | succ count =>
      have none : words.find? (·.isPrefixOf (byte :: content)) = none := by
        apply List.find?_eq_none.mpr
        intro word member starts
        rcases apart word member with ⟨some, absent⟩
        cases word with
        | nil => exact some rfl
        | cons first rest =>
            simp only [List.isPrefixOf_cons_cons, Bool.and_eq_true, beq_iff_eq] at starts
            exact absent (starts.1 ▸ List.mem_cons_self)
      rw [dropWords, none]

theorem dropWords_concat (apart : Apart words byte) (count : Nat) (content : Content) :
    ∃ rest, dropWords words count (content ++ [byte]) = rest ++ [byte] := by
  induction count generalizing content with
  | zero => exact ⟨content, rfl⟩
  | succ count ih =>
      rw [dropWords]
      cases found : words.find? (·.isPrefixOf (content ++ [byte])) with
      | none => exact ⟨content, rfl⟩
      | some word =>
          have absent := (apart word (List.mem_of_find?_eq_some found)).2
          have starts : word <+: content ++ [byte] := by
            have holds := List.find?_some found
            exact List.isPrefixOf_iff_prefix.mp holds
          have short : word.length ≤ content.length := by
            by_contra long
            have whole : word = content ++ [byte] := by
              apply starts.eq_of_length
              have bound := starts.length_le
              simp only [List.length_append, List.length_singleton] at bound ⊢
              omega
            exact absent (whole ▸ List.mem_append_right _ List.mem_cons_self)
          simp only
          rw [List.drop_append_of_le_length short]
          exact ih _

theorem trimSpace_concat (apart : Apart whiteSpace byte) : trimSpace (content ++ [byte]) ≠ [] := by
  have back : Apart (whiteSpace.map List.reverse) byte := by
    intro word member
    rcases List.mem_map.mp member with ⟨space, listed, rfl⟩
    simpa using apart space listed
  rcases dropWords_concat apart (content ++ [byte]).length content with ⟨rest, left⟩
  rw [trimSpace, left, List.reverse_append, List.reverse_singleton, List.singleton_append,
    dropWords_cons back]
  simp

theorem trimSpace_fixed {first last : UInt8} {rest front : Content}
    (begins : content = first :: rest) (ends : content = front ++ [last])
    (apart : Apart whiteSpace first) (behind : Apart whiteSpace last) :
    trimSpace content = content := by
  have back : Apart (whiteSpace.map List.reverse) last := by
    intro word member
    rcases List.mem_map.mp member with ⟨space, listed, rfl⟩
    simpa using behind space listed
  have unchanged : dropWords whiteSpace content.length content = content := by
    rw [begins, dropWords_cons apart]
  rw [trimSpace, unchanged]
  rw [ends, List.reverse_append, List.reverse_singleton, List.singleton_append, dropWords_cons back]
  simp

end Trim

/-! ### The numbers of the files -/

def fits64 (value : Nat) : Bool := value < 2 ^ 64

theorem toNat_fits {value : Nat} (fit : fits64 value = true) : (UInt64.ofNat value).toNat = value :=
  UInt64.toNat_ofNat_of_lt' (of_decide_eq_true fit)

@[simp] theorem fits64_toNat (value : UInt64) : fits64 value.toNat = true :=
  decide_eq_true value.toNat_lt

def HardState.fits (hs : HardState) : Bool := fits64 hs.currentTerm && fits64 hs.commitIndex

def HardState.file (hs : HardState) : HardStateFile :=
  { currentTerm := .ofNat hs.currentTerm, votedFor := hs.votedFor,
    commitIndex := .ofNat hs.commitIndex }

def HardStateFile.value (file : HardStateFile) : HardState :=
  { currentTerm := file.currentTerm.toNat, votedFor := file.votedFor,
    commitIndex := file.commitIndex.toNat }

def Snapshot.fits (snap : Snapshot) : Bool :=
  fits64 snap.lastIncludedIndex && fits64 snap.lastIncludedTerm

def Snapshot.file (snap : Snapshot) : SnapshotFile :=
  { lastIncludedIndex := .ofNat snap.lastIncludedIndex
    lastIncludedTerm := .ofNat snap.lastIncludedTerm
    data := snap.data }

def SnapshotFile.value (file : SnapshotFile) : Snapshot :=
  { lastIncludedIndex := file.lastIncludedIndex.toNat
    lastIncludedTerm := file.lastIncludedTerm.toNat
    data := file.data }

/-! ### The lines of the WAL -/

theorem encodeUtf8_object (members : List (String × Value)) : ∃ inner,
    encodeUtf8 (write escaping (.object members)) = 123 :: (inner ++ [125]) := by
  refine ⟨encodeUtf8 (writeMembers escaping members), ?_⟩
  rw [write, encodeUtf8, List.flatMap_cons, List.flatMap_append]
  rfl

def WalRecord.fits : WalRecord → Bool
  | .base index term => fits64 index && fits64 term
  | .entry logged =>
      fits64 logged.index && fits64 logged.term &&
        (Operation.ofName logged.command.op.name = logged.command.op)

def WalRecord.text : WalRecord → Content
  | .base index term => encodeWALBase (.ofNat index) (.ofNat term)
  | .entry logged => encodeWALEntry logged

theorem WalRecord.text_carries {stored : WalRecord} (fit : stored.fits = true) :
    Carries stored.text stored := by
  cases stored with
  | base index term =>
      simp only [WalRecord.fits, Bool.and_eq_true] at fit
      refine encodeWALLine_carries (Command.named_ofName "" "" "" "") (Or.inl ⟨rfl, ?_⟩)
      simp only [toNat_fits fit.1, toNat_fits fit.2]
  | entry logged =>
      simp only [WalRecord.fits, Bool.and_eq_true, decide_eq_true_eq] at fit
      refine encodeWALLine_carries fit.2 (Or.inr ⟨rfl, ?_⟩)
      simp only [toNat_fits fit.1.1, toNat_fits fit.1.2]

theorem WalRecord.text_braced (stored : WalRecord) :
    ∃ inner, stored.text.dropLast = 123 :: (inner ++ [125]) := by
  have braced (line : WalLine) : ∃ inner, (encodeWALLine line).dropLast = 123 ::
      (inner ++ [125]) := by
    rw [encodeWALLine, List.dropLast_concat]
    exact encodeUtf8_object _
  cases stored with
  | base index term => exact braced _
  | entry logged => exact braced _

theorem Command.named_assign (command : Command) (field : CommandField) (json : Value)
    (named : command.Named) : (commandLayout.assign command field json).1.Named := by
  cases field with
  | op => exact Command.named_ofName _ command.key command.value command.expected
  | key => exact named
  | value => exact named
  | expected => exact named

theorem WalLine.named_assign (line : WalLine) (field : WalField) (json : Value)
    (named : line.command.Named) : (walLayout.assign line field json).1.command.Named := by
  cases field with
  | command =>
      exact @Layout.assignValue_keeps _ _ commandLayout line.command Command.Named
        Command.named_assign named json
  | _ => exact named

theorem decodeWALLine_fits {line : Content} {stored : WalRecord}
    (decoded : decodeWALLine line = .ok stored) : stored.fits = true := by
  have named : (walLayout.unmarshal {} (decodeUtf8 line)).1.command.Named :=
    Layout.unmarshal_keeps WalLine.named_assign (Command.named_ofName "" "" "" "") _
  unfold decodeWALLine at decoded
  split at decoded
  · cases decoded
  · rename_i raw unmarshalled
    rw [unmarshalled] at named
    split at decoded
    · cases decoded
    split at decoded
    · cases decoded
      simp [WalRecord.fits]
    split at decoded
    · cases decoded
      simp only [WalRecord.fits, fits64_toNat, Bool.and_self, Bool.true_and, decide_eq_true_eq]
      exact named
    · cases decoded

theorem WalRecord.text_trimmed (stored : WalRecord) : ∃ rest front,
    stored.text.dropLast = 123 :: rest ∧ stored.text.dropLast = front ++ [125] := by
  rcases stored.text_braced with ⟨inner, text⟩
  exact ⟨inner ++ [125], 123 :: inner, text, text⟩

theorem WalRecord.newline_text (stored : WalRecord) : newline ∉ stored.text.dropLast := by
  have plain (line : WalLine) : newline ∉ (encodeWALLine line).dropLast := by
    rw [encodeWALLine, List.dropLast_concat]
    exact newline_marshal _
  cases stored with
  | base index term => exact plain _
  | entry logged => exact plain _

/-- What `Store` does with its files. -/
def goLines : LineCodec where
  readHardState content := (HardStateFile.schema.unmarshal content).map HardStateFile.value
  readSnapshot content := (SnapshotFile.schema.unmarshal content).map SnapshotFile.value
  trimSpace := trimSpace
  encode stored := stored.text.dropLast
  decodeWALLine line := (decodeWALLine line).toOption
  Fits stored := stored.fits = true
  encode_plain := WalRecord.newline_text
  trimSpace_encode := by
    intro stored
    rcases stored.text_trimmed with ⟨rest, front, begins, ends⟩
    exact trimSpace_fixed begins ends (by decide) (by decide)
  trimSpace_append := by
    intro before stored
    rcases stored.text_trimmed with ⟨rest, front, -, ends⟩
    rw [ends, ← List.append_assoc]
    exact trimSpace_concat (by decide)
  decode_encode := by
    intro stored fit
    rcases WalRecord.text_carries fit with ⟨body, written, -, decoded, -⟩
    rw [written, List.dropLast_concat, decoded]
    rfl
  decode_fits := by
    intro line stored found
    cases decoded : decodeWALLine line with
    | error err =>
        rw [decoded] at found
        cases found
    | ok other =>
        rw [decoded] at found
        cases found
        exact decodeWALLine_fits decoded
  snapshot_fits := by
    intro content snap found
    rcases Option.map_eq_some_iff.mp found with ⟨file, -, rfl⟩
    simp [WalRecord.fits, SnapshotFile.value]
  zero_fits := by decide

end GoRaftKV.Storage
