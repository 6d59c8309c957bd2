import GoRaftKV.Raft.SnapshotJson
import GoRaftKV.Storage.RecordJson

/-! The hard state and the snapshot as `writeJSONAtomic` writes them and `readJSONFile` reads them.
A table lists the fields of a struct with its tags; the third column says `omitempty`. -/

namespace GoRaftKV.Storage

open Library Json
open Raft.SnapshotJson (mapKind)

/-! ### Field types -/

def textKind : Kind where
  Carrier := String
  zero := ""
  empty content := content = ""
  write content := .text content
  assign := assignText
  empty_zero _ := of_decide_eq_true
  assign_write _ := rfl

def uint64Kind : Kind where
  Carrier := UInt64
  zero := 0
  empty value := value = 0
  write value := .number (.ofNat value.toNat)
  assign := assignUint 64 UInt64.ofNat
  empty_zero _ := of_decide_eq_true
  assign_write := assignUint_uint64 0

/-! ### Files -/

/-- `HardState` with the integers of the source. -/
structure HardStateFile where
  currentTerm : UInt64 := 0
  votedFor : String := ""
  commitIndex : UInt64 := 0

def HardStateFile.schema : Schema HardStateFile where
  zero := {}
  slots := [
    ⟨"current_term", uint64Kind, false, currentTerm, fun hs v => { hs with currentTerm := v }⟩,
    ⟨"voted_for", textKind, true, votedFor, fun hs v => { hs with votedFor := v }⟩,
    ⟨"commit_index", uint64Kind, false, commitIndex, fun hs v => { hs with commitIndex := v }⟩]

/-- `Snapshot` with the integers of the source, and without the ghost. -/
structure SnapshotFile where
  lastIncludedIndex : UInt64 := 0
  lastIncludedTerm : UInt64 := 0
  data : Option KVMap := none

def SnapshotFile.schema : Schema SnapshotFile where
  zero := {}
  slots := [
    ⟨"last_included_index", uint64Kind, false, lastIncludedIndex,
      fun snap v => { snap with lastIncludedIndex := v }⟩,
    ⟨"last_included_term", uint64Kind, false, lastIncludedTerm,
      fun snap v => { snap with lastIncludedTerm := v }⟩,
    ⟨"data", mapKind, false, data, fun snap v => { snap with data := v }⟩]

end GoRaftKV.Storage
