import GoRaftKV.Storage.GoLines

/-! Log entries whose strings hold any bytes, as strings of the source may, and the lines that are
written for them. -/

namespace GoRaftKV.Storage

open Library Json

structure RawCommand where
  op : Content
  key : Content := []
  value : Content := []
  expected : Content := []
  deriving DecidableEq, Repr

structure RawEntry where
  index : UInt64
  term : UInt64
  command : RawCommand
  deriving DecidableEq, Repr

def RawCommand.Valid (command : RawCommand) : Prop :=
  ValidUtf8 command.op ∧ ValidUtf8 command.key ∧ ValidUtf8 command.value ∧
    ValidUtf8 command.expected

instance (command : RawCommand) : Decidable command.Valid := inferInstanceAs (Decidable (_ ∧ _))

def RawEntry.Valid (entry : RawEntry) : Prop := entry.command.Valid

instance (entry : RawEntry) : Decidable entry.Valid :=
  inferInstanceAs (Decidable entry.command.Valid)

/-! ### Texts -/

def textOf (bytes : Content) : String := String.ofList (decodeUtf8 bytes)

def bytesOf (text : String) : Content := encodeUtf8 text.toList

theorem bytesOf_textOf {bytes : Content} (valid : ValidUtf8 bytes) :
    bytesOf (textOf bytes) = bytes := by
  rw [bytesOf, textOf, String.toList_ofList]
  exact valid

theorem validUtf8_bytesOf (text : String) : ValidUtf8 (bytesOf text) := validUtf8_encodeUtf8 _

theorem textOf_eq_empty {bytes : Content} (valid : ValidUtf8 bytes) :
    textOf bytes = "" ↔ bytes = [] := by
  constructor
  · intro empty
    rw [← bytesOf_textOf valid, empty]
    rfl
  · rintro rfl
    simp [textOf, decodeUtf8, scanUtf8]

def RawCommand.text (command : RawCommand) : Command :=
  ⟨.ofName (textOf command.op), textOf command.key, textOf command.value, textOf command.expected⟩

def RawEntry.text (entry : RawEntry) : LogEntry :=
  ⟨entry.index.toNat, entry.term.toNat, entry.command.text⟩

def LogEntry.raw (entry : LogEntry) : RawEntry where
  index := .ofNat entry.index
  term := .ofNat entry.term
  command :=
    ⟨bytesOf entry.command.op.name, bytesOf entry.command.key, bytesOf entry.command.value,
      bytesOf entry.command.expected⟩

theorem LogEntry.raw_valid (entry : LogEntry) : entry.raw.Valid :=
  ⟨validUtf8_bytesOf _, validUtf8_bytesOf _, validUtf8_bytesOf _, validUtf8_bytesOf _⟩

theorem RawEntry.raw_text {entry : RawEntry} (valid : entry.Valid) : entry.text.raw = entry := by
  rcases entry with ⟨index, term, ⟨op, key, value, expected⟩⟩
  rcases valid with ⟨first, second, third, fourth⟩
  simp only [RawEntry.text, RawCommand.text, LogEntry.raw, Operation.name_ofName,
    bytesOf_textOf first, bytesOf_textOf second, bytesOf_textOf third, bytesOf_textOf fourth,
      UInt64.ofNat_toNat]

/-! ### Lines -/

/-- A member that is left out when the string is empty. -/
def rawMember (name : String) (bytes : Content) : List (String × List Char) :=
  if bytes ≠ [] then [(name, quoteRaw bytes)] else []

def RawCommand.members (command : RawCommand) : List (String × List Char) :=
  (commandLayout.name .op, quoteRaw command.op) ::
  (commandLayout.name .key, quoteRaw command.key) ::
    (rawMember (commandLayout.name .value) command.value ++
      rawMember (commandLayout.name .expected) command.expected)

def written (members : List (String × Value)) : List (String × List Char) :=
  members.map fun member => (member.1, write escaping member.2)

def RawEntry.members (entry : RawEntry) (crc : Option UInt32) : List (String × List Char) :=
  written (uintMember .index entry.index) ++ (written (uintMember .term entry.term) ++
    (walLayout.name .command, renderObject entry.command.members) :: written (crcMember crc))

def RawEntry.checksum (entry : RawEntry) : UInt32 :=
  checksumIEEE (encodeUtf8 (renderObject (entry.members none)))

/-- The line of `encodeWALEntry`, without its newline. -/
def RawEntry.line (entry : RawEntry) : Content :=
  encodeUtf8 (renderObject (entry.members (some entry.checksum)))

theorem rawMember_valid {bytes : Content} (valid : ValidUtf8 bytes) (name : String) :
    rawMember name bytes = written (member (textOf bytes ≠ "") name (.text (textOf bytes))) := by
  have quoted : quoteRaw bytes = write escaping (.text (textOf bytes)) := by
    rw [write, textOf, String.toList_ofList, valid.quoteRaw]
  unfold rawMember member
  by_cases empty : bytes = []
  · have blank := (textOf_eq_empty valid).mpr empty
    rw [if_neg (not_not_intro empty), if_neg (by simpa using blank)]
    rfl
  · have filled := mt (textOf_eq_empty valid).mp empty
    rw [if_pos empty, if_pos (by simpa using filled), quoted]
    rfl

theorem RawCommand.members_valid {command : RawCommand} (valid : command.Valid) :
    command.members = written command.text.members := by
  rcases command with ⟨op, key, value, expected⟩
  rcases valid with ⟨first, second, third, fourth⟩
  have quoted {bytes : Content} (valid : ValidUtf8 bytes) :
      quoteRaw bytes = write escaping (.text (textOf bytes)) := by
    rw [write, textOf, String.toList_ofList, valid.quoteRaw]
  simp only [RawCommand.members, RawCommand.text, Command.members, Operation.name_ofName,
    rawMember_valid third, rawMember_valid fourth, quoted first, quoted second]
  simp only [written, List.map_cons, List.map_append]
  rfl

/-- The entry as a line of texts. -/
def RawEntry.walLine (entry : RawEntry) (crc : Option UInt32) : WalLine :=
  { index := entry.index, term := entry.term, command := entry.command.text, crc := crc }

theorem RawEntry.members_valid {entry : RawEntry} (valid : entry.Valid) (crc : Option UInt32) :
    renderObject (entry.members crc) = (entry.walLine crc).marshal := by
  have command : renderObject entry.command.members =
      write escaping (.object entry.command.text.members) := by
    rw [RawCommand.members_valid valid, write_object]
    rfl
  have members : (entry.walLine crc).members = uintMember .index entry.index ++
      (uintMember .term entry.term ++
        (walLayout.name .command, .object entry.command.text.members) :: crcMember crc) := rfl
  rw [WalLine.marshal, write_object, RawEntry.members, command, members]
  simp only [written, List.map_append, List.map_cons]

theorem RawEntry.line_valid {entry : RawEntry} (valid : entry.Valid) :
    entry.line = goLines.encode (.entry entry.text) ∧ goLines.Fits (.entry entry.text) := by
  constructor
  · have checksum : entry.checksum = walChecksum (entry.walLine none) := by
      rw [RawEntry.checksum, RawEntry.members_valid valid]
      rfl
    have whole : goLines.encode (.entry entry.text) =
        (encodeWALLine (entry.walLine none)).dropLast := by
      simp only [goLines, WalRecord.text, encodeWALEntry, RawEntry.text, UInt64.ofNat_toNat]
      rfl
    rw [whole, encodeWALLine, List.dropLast_concat, RawEntry.line, RawEntry.members_valid valid,
      checksum]
    rfl
  · have named := Command.named_ofName (textOf entry.command.op) "" "" ""
    simp only [goLines, WalRecord.fits, RawEntry.text, RawCommand.text, fits64_toNat, Bool.and_self,
      Bool.true_and, decide_eq_true_eq]
    exact named

theorem written_printed (members : List (String × Value)) : ∀ member ∈ written members,
    Printed member.2 := by
  intro member inside
  rcases List.mem_map.mp inside with ⟨source, -, rfl⟩
  exact write_printed _

theorem RawCommand.render_printed (command : RawCommand) :
    Printed (renderObject command.members) := by
  have optional (name : String) (bytes : Content) : ∀ member ∈ rawMember name bytes,
      Printed member.2 := by
    intro member inside
    unfold rawMember at inside
    split at inside
    · rw [List.mem_singleton.mp inside]
      exact quoteRaw_printed bytes
    · cases inside
  apply renderObject_printed
  intro member inside
  simp only [RawCommand.members, List.mem_cons, List.mem_append] at inside
  rcases inside with rfl | rfl | value | expected
  · exact quoteRaw_printed _
  · exact quoteRaw_printed _
  · exact optional _ _ member value
  · exact optional _ _ member expected

theorem RawEntry.line_sturdy (entry : RawEntry) : goLines.Sturdy entry.line := by
  constructor
  · intro inside
    obtain ⟨c, present, code⟩ := mem_encodeUtf8 (by decide) inside
    have printed : Printed (renderObject (entry.members (some entry.checksum))) := by
      apply renderObject_printed
      intro member listed
      simp only [RawEntry.members, List.mem_append, List.mem_cons] at listed
      rcases listed with index | term | rfl | crc
      · exact written_printed _ member index
      · exact written_printed _ member term
      · exact entry.command.render_printed
      · exact written_printed _ member crc
    have low := printed c present
    rw [code] at low
    exact absurd low (by decide)
  · intro front
    have ends : ∃ inner, entry.line = inner ++ [125] := by
      refine ⟨encodeUtf8 ('{' :: renderMembers (entry.members (some entry.checksum))), ?_⟩
      rw [RawEntry.line, renderObject, ← List.cons_append, encodeUtf8, List.flatMap_append]
      rfl
    rcases ends with ⟨inner, text⟩
    rw [text, ← List.append_assoc]
    exact trimSpace_concat (by decide)

/-- A byte of no character: the escape that is written for it is read back as U+FFFD, which is not
written as an escape, so that the checksum of the line is found wrong. -/
example : decodeWALLine (RawEntry.line ⟨1, 1, ⟨bytesOf "put", [255], [], []⟩⟩) =
    .error .checksumMismatch := by
  decide +kernel

end GoRaftKV.Storage
