import GoRaftKV.Library.GoJson
import GoRaftKV.Storage.WalFile

/-! The lines of the write-ahead log and the commands of the wire format, byte for byte. -/

namespace GoRaftKV.Storage

open Library Json

/-! ### Commands -/

def Operation.name : Operation → String
  | .put => "put"
  | .delete => "delete"
  | .cas => "cas"
  | .noop => "noop"
  | .other name => name

def Operation.ofName (name : String) : Operation :=
  if name = "put" then .put
  else if name = "delete" then .delete
  else if name = "cas" then .cas
  else if name = "noop" then .noop
  else .other name

theorem Operation.name_ofName (name : String) : (ofName name).name = name := by
  unfold ofName
  split_ifs with put delete cas noop
  · exact put.symm
  · exact delete.symm
  · exact cas.symm
  · exact noop.symm
  · rfl

inductive CommandField where
  | op
  | key
  | value
  | expected
  deriving DecidableEq

def CommandField.name : CommandField → String
  | .op => "op"
  | .key => "key"
  | .value => "value"
  | .expected => "expected"

def Command.assign (command : Command) : CommandField → Value → Command × Bool
  | .op, json =>
      let (name, ok) := assignText command.op.name json
      ({ command with op := .ofName name }, ok)
  | .key, json =>
      let (key, ok) := assignText command.key json
      ({ command with key := key }, ok)
  | .value, json =>
      let (value, ok) := assignText command.value json
      ({ command with value := value }, ok)
  | .expected, json =>
      let (expected, ok) := assignText command.expected json
      ({ command with expected := expected }, ok)

def commandLayout : Layout CommandField Command where
  fields := [.op, .key, .value, .expected]
  name := CommandField.name
  assign := Command.assign
  found := by
    intro field
    cases field <;> decide +kernel

def zeroCommand : Command := { op := .other "" }

def Command.members (command : Command) : List (String × Value) :=
  (commandLayout.name .op, .text command.op.name) :: (commandLayout.name .key, .text command.key) ::
    (member (command.value ≠ "") (commandLayout.name .value) (.text command.value) ++
      member (command.expected ≠ "") (commandLayout.name .expected) (.text command.expected))

/-- The commands whose operation is given by its string. -/
def Command.Named (command : Command) : Prop := Operation.ofName command.op.name = command.op

theorem Command.named_ofName (op key value expected : String) :
    Command.Named ⟨.ofName op, key, value, expected⟩ := by
  rw [Named, Operation.name_ofName]

/-- Assigning what a command is written as to the zero value gives the command back, field by
field. -/
theorem Command.assign_members {command : Command} (named : command.Named) :
    commandLayout.assignMembers (zeroCommand, true) command.members = (command, true) := by
  rcases command with ⟨op, key, value, expected⟩
  have first : commandLayout.assign zeroCommand .op (.text op.name) = (⟨op, "", "", ""⟩, true) :=
    congrArg (fun op => (Command.mk op "" "" "", true)) named
  have second : commandLayout.assign ⟨op, "", "", ""⟩ .key (.text key) =
      (⟨op, key, "", ""⟩, true) := rfl
  have third : commandLayout.assign ⟨op, key, "", ""⟩ .value (.text value) =
      (⟨op, key, value, ""⟩, true) :=
    rfl
  have fourth : commandLayout.assign ⟨op, key, value, ""⟩ .expected (.text expected) =
      (⟨op, key, value, expected⟩, true) := rfl
  have last := @Layout.assignMembers_member _ _ _ _ _ _ _ (expected ≠ "") fourth
    (by simp +contextual) []
  rw [List.append_nil] at last
  simp only [members]
  rw [Layout.assignMembers_cons first, Layout.assignMembers_cons second,
    Layout.assignMembers_member third (by simp +contextual)]
  exact last

/-! ### Lines -/

structure WalLine where
  type : String := ""
  lastIncludedIndex : UInt64 := 0
  lastIncludedTerm : UInt64 := 0
  index : UInt64 := 0
  term : UInt64 := 0
  command : Command := zeroCommand
  crc : Option UInt32 := none

inductive WalField where
  | type
  | lastIncludedIndex
  | lastIncludedTerm
  | index
  | term
  | command
  | crc
  deriving DecidableEq

def WalField.name : WalField → String
  | .type => "type"
  | .lastIncludedIndex => "last_included_index"
  | .lastIncludedTerm => "last_included_term"
  | .index => "index"
  | .term => "term"
  | .command => "command"
  | .crc => "crc"

/-- A pointer is set to nil by `null`, and to a new number by anything else. -/
def assignPointer (old : Option UInt32) : Value → Option UInt32 × Bool
  | .null => (none, true)
  | json =>
      let (value, ok) := assignUint 32 UInt32.ofNat (old.getD 0) json
      (some value, ok)

def WalLine.assign (line : WalLine) : WalField → Value → WalLine × Bool
  | .type, json =>
      let (type, ok) := assignText line.type json
      ({ line with type := type }, ok)
  | .lastIncludedIndex, json =>
      let (index, ok) := assignUint 64 UInt64.ofNat line.lastIncludedIndex json
      ({ line with lastIncludedIndex := index }, ok)
  | .lastIncludedTerm, json =>
      let (term, ok) := assignUint 64 UInt64.ofNat line.lastIncludedTerm json
      ({ line with lastIncludedTerm := term }, ok)
  | .index, json =>
      let (index, ok) := assignUint 64 UInt64.ofNat line.index json
      ({ line with index := index }, ok)
  | .term, json =>
      let (term, ok) := assignUint 64 UInt64.ofNat line.term json
      ({ line with term := term }, ok)
  | .command, json =>
      let (command, ok) := commandLayout.assignValue line.command json
      ({ line with command := command }, ok)
  | .crc, json =>
      let (crc, ok) := assignPointer line.crc json
      ({ line with crc := crc }, ok)

def walLayout : Layout WalField WalLine where
  fields := [.type, .lastIncludedIndex, .lastIncludedTerm, .index, .term, .command, .crc]
  name := WalField.name
  assign := WalLine.assign
  found := by
    intro field
    cases field <;> decide +kernel

def uintMember (field : WalField) (value : UInt64) : List (String × Value) :=
  member (value ≠ 0) (walLayout.name field) (.number (.ofNat value.toNat))

def crcMember : Option UInt32 → List (String × Value)
  | none => []
  | some crc => [(walLayout.name .crc, .number (.ofNat crc.toNat))]

/-- A struct is never empty, so the command stands on every line. -/
def WalLine.members (line : WalLine) : List (String × Value) :=
  member (line.type ≠ "") (walLayout.name .type) (.text line.type) ++
    (uintMember .lastIncludedIndex line.lastIncludedIndex ++
      (uintMember .lastIncludedTerm line.lastIncludedTerm ++
        (uintMember .index line.index ++
          (uintMember .term line.term ++
            (walLayout.name .command, .object line.command.members) :: crcMember line.crc))))

theorem assignUint_uint64 (old value : UInt64) :
    assignUint 64 UInt64.ofNat old (.number (.ofNat value.toNat)) = (value, true) := by
  simp [assignUint, parseUint_ofNat value.toNat_lt]

theorem assignPointer_uint32 (old : Option UInt32) (crc : UInt32) :
    assignPointer old (.number (.ofNat crc.toNat)) = (some crc, true) := by
  simp [assignPointer, assignUint, parseUint_ofNat crc.toNat_lt]

theorem assign_uintMember {before after : WalLine} {field : WalField} {value : UInt64}
    (assigned : walLayout.assign before field (.number (.ofNat value.toNat)) = (after, true))
    (zero : value = 0 → after = before) (members : List (String × Value)) :
    walLayout.assignMembers (before, true) (uintMember field value ++ members) =
      walLayout.assignMembers (after, true) members :=
  Layout.assignMembers_member assigned (by simpa using zero) members

theorem assign_crcMember (line : WalLine) (crc : Option UInt32) :
    walLayout.assignMembers ({ line with crc := none }, true) (crcMember crc) =
      ({ line with crc := crc }, true) := by
  cases crc with
  | none => rfl
  | some crc =>
      have assigned : walLayout.assign { line with crc := none } .crc (.number (.ofNat crc.toNat)) =
          ({ line with crc := some crc }, true) := by
        simp [walLayout, WalLine.assign, assignPointer_uint32]
      rw [crcMember, Layout.assignMembers_cons assigned]
      rfl

theorem WalLine.assign_members {line : WalLine} (named : line.command.Named) :
    walLayout.assignMembers ({}, true) line.members = (line, true) := by
  rcases line with ⟨type, baseIndex, baseTerm, index, term, command, crc⟩
  have first : walLayout.assign {} .type (.text type) = ({ type := type }, true) := rfl
  have second : walLayout.assign { type := type } .lastIncludedIndex
    (.number (.ofNat baseIndex.toNat)) =
      ({ type := type, lastIncludedIndex := baseIndex }, true) := by
    simp [walLayout, assign, assignUint_uint64]
  have third : walLayout.assign ⟨type, baseIndex, 0, 0, 0, zeroCommand, none⟩ .lastIncludedTerm
      (.number (.ofNat baseTerm.toNat)) = (⟨type, baseIndex, baseTerm, 0, 0, zeroCommand, none⟩,
        true) := by
    simp [walLayout, assign, assignUint_uint64]
  have fourth : walLayout.assign ⟨type, baseIndex, baseTerm, 0, 0, zeroCommand, none⟩ .index
      (.number (.ofNat index.toNat)) =
      (⟨type, baseIndex, baseTerm, index, 0, zeroCommand, none⟩, true) := by
    simp [walLayout, assign, assignUint_uint64]
  have fifth : walLayout.assign ⟨type, baseIndex, baseTerm, index, 0, zeroCommand, none⟩ .term
      (.number (.ofNat term.toNat)) =
      (⟨type, baseIndex, baseTerm, index, term, zeroCommand, none⟩, true) := by
    simp [walLayout, assign, assignUint_uint64]
  have sixth : walLayout.assign ⟨type, baseIndex, baseTerm, index, term, zeroCommand, none⟩ .command
      (.object command.members) =
      (⟨type, baseIndex, baseTerm, index, term, command, none⟩, true) := by
    simp [walLayout, assign, Layout.assignValue, Command.assign_members named]
  simp only [members]
  rw [Layout.assignMembers_member first (by simp +contextual),
    assign_uintMember second (by simp +contextual), assign_uintMember third (by simp +contextual),
    assign_uintMember fourth (by simp +contextual), assign_uintMember fifth (by simp +contextual),
    Layout.assignMembers_cons sixth]
  exact assign_crcMember ⟨type, baseIndex, baseTerm, index, term, command, none⟩ crc

def WalLine.marshal (line : WalLine) : List Char := write escaping (.object line.members)

example : WalLine.marshal { type := "base", lastIncludedIndex := 3, crc := some 7 } =
    ("\x7b\"type\":\"base\",\"last_included_index\":3," ++
      "\"command\":\x7b\"op\":\"\",\"key\":\"\"\x7d,\"crc\":7\x7d").toList := by
  decide +kernel

theorem WalLine.unmarshal_marshal {line : WalLine} (named : line.command.Named) :
    walLayout.unmarshal {} (decodeUtf8 (encodeUtf8 line.marshal)) = (line, true) := by
  rw [decodeUtf8_encodeUtf8, Layout.unmarshal, marshal, parse_write]
  exact assign_members named

def crcStep (crc : UInt32) : UInt32 :=
  if crc &&& 1 = 1 then (crc >>> 1) ^^^ 0xEDB88320 else crc >>> 1

def crcByte (crc : UInt32) (byte : UInt8) : UInt32 := crcStep^[8] (crc ^^^ byte.toUInt32)

def checksumIEEE (data : Content) : UInt32 := data.foldl crcByte 0xFFFFFFFF ^^^ 0xFFFFFFFF

example : checksumIEEE [49, 50, 51, 52, 53, 54, 55, 56, 57] = 0xCBF43926 := by decide +kernel

def walChecksum (line : WalLine) : UInt32 :=
  checksumIEEE (encodeUtf8 { line with crc := none }.marshal)

/-- The encoder ends every value with a newline. -/
def encodeWALLine (line : WalLine) : Content :=
  encodeUtf8 { line with crc := some (walChecksum line) }.marshal ++ [newline]

def walBaseRecordType : String := "base"

def encodeWALBase (baseIndex baseTerm : UInt64) : Content :=
  encodeWALLine
    { type := walBaseRecordType, lastIncludedIndex := baseIndex, lastIncludedTerm := baseTerm }

def encodeWALEntry (entry : LogEntry) : Content :=
  encodeWALLine
    { index := .ofNat entry.index, term := .ofNat entry.term, command := entry.command }

inductive LineError where
  | json
  | checksumMismatch
  | unknownType (type : String)
  deriving DecidableEq, Repr

def decodeWALLine (line : Content) : Except LineError WalRecord :=
  match walLayout.unmarshal {} (decodeUtf8 line) with
  | (_, false) => .error .json
  | (raw, true) =>
      if raw.crc ≠ none ∧ raw.crc ≠ some (walChecksum raw) then .error .checksumMismatch
      else if raw.type = walBaseRecordType then
        .ok (.base raw.lastIncludedIndex.toNat raw.lastIncludedTerm.toNat)
      else if raw.type = "" then
        .ok (.entry { index := raw.index.toNat, term := raw.term.toNat, command := raw.command })
      else .error (.unknownType raw.type)

/-- A line that ends in its only newline, has the right checksum and is decoded to the record. -/
def Carries (line : Content) (record : WalRecord) : Prop :=
  ∃ body, line = body ++ [newline] ∧ newline ∉ body ∧ decodeWALLine body = .ok record ∧
    ∃ raw, walLayout.unmarshal {} (decodeUtf8 body) = (raw, true) ∧ raw.crc = some (walChecksum raw)

theorem newline_marshal (line : WalLine) : newline ∉ encodeUtf8 line.marshal := by
  intro member
  obtain ⟨c, present, code⟩ := mem_encodeUtf8 (by decide) member
  have printed := write_printed (.object line.members) c present
  rw [code] at printed
  exact absurd printed (by decide)

theorem walChecksum_crc (line : WalLine) (crc : Option UInt32) :
    walChecksum { line with crc := crc } = walChecksum line := rfl

theorem encodeWALLine_carries {line : WalLine} {record : WalRecord} (named : line.command.Named)
    (kind : (line.type = walBaseRecordType ∧
        record = .base line.lastIncludedIndex.toNat line.lastIncludedTerm.toNat) ∨
      (line.type = "" ∧ record = .entry ⟨line.index.toNat, line.term.toNat, line.command⟩)) :
    Carries (encodeWALLine line) record := by
  have back := @WalLine.unmarshal_marshal { line with crc := some (walChecksum line) } named
  refine ⟨_, rfl, newline_marshal _, ?_, _, back, (congrArg some (walChecksum_crc line _)).symm⟩
  rw [decodeWALLine, back]
  simp only [walChecksum_crc, ne_eq, not_true_eq_false, and_false, if_false]
  rcases kind with ⟨base, rfl⟩ | ⟨entry, rfl⟩
  · rw [if_pos base]
  · rw [if_neg (by rw [entry]; decide), if_pos entry]

end GoRaftKV.Storage

namespace GoRaftKV.Server

open Library.Json Storage

def encodeCommand (command : Command) : Content :=
  encodeUtf8 (write escaping (.object command.members))

/-- The error is dropped. -/
def decodeCommand (data : Content) : Command :=
  (commandLayout.unmarshal zeroCommand (decodeUtf8 data)).1

theorem decodeCommand_encodeCommand {command : Command} (named : command.Named) :
    decodeCommand (encodeCommand command) = command := by
  rw [decodeCommand, encodeCommand, decodeUtf8_encodeUtf8, Layout.unmarshal, parse_write]
  exact congrArg Prod.fst (Command.assign_members named)

/-- Every record comes back from its encoding, whatever its strings and numbers are. -/
theorem records_lossless (index term : UInt64) (op key value expected : String) :
    let command : Command := ⟨.ofName op, key, value, expected⟩
    let entry : LogEntry := ⟨index.toNat, term.toNat, command⟩
    Carries (encodeWALEntry entry) (.entry entry) ∧
      Carries (encodeWALBase index term) (.base index.toNat term.toNat) ∧
      decodeCommand (encodeCommand command) = command := by
  intro command entry
  have named : command.Named := Command.named_ofName op key value expected
  refine ⟨?_, ?_, decodeCommand_encodeCommand named⟩
  · refine encodeWALLine_carries named (Or.inr ⟨rfl, ?_⟩)
    simp [entry]
  · exact encodeWALLine_carries (Command.named_ofName "" "" "" "") (Or.inl ⟨rfl, rfl⟩)

end GoRaftKV.Server
