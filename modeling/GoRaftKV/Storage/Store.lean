import GoRaftKV.Storage.Types
import GoRaftKV.Library.Program

namespace GoRaftKV.Storage

open Library

/-- One complete line of `wal.jsonl`. -/
inductive WalRecord where
  | base (lastIncludedIndex lastIncludedTerm : Nat)
  | entry (entry : LogEntry)
  deriving DecidableEq, Repr

structure WalData where
  hasBase : Bool := false
  baseIndex : Nat := 0
  baseTerm : Nat := 0
  entries : List LogEntry := []
  deriving DecidableEq, Repr

inductive WalError where
  | baseNotFirst
  | zeroIndex
  | notAfterBase (index base : Nat)
  | nonContiguousFirst (index base : Nat)
  | nonContiguous (index previous : Nat)
  deriving DecidableEq, Repr

inductive LoadError where
  | wal (error : WalError)
  | snapshotMissing (baseIndex : Nat)
  deriving DecidableEq, Repr

/-- The three files of a data directory, `none` for a missing one. A partial trailing line of the
WAL is no record: `readWAL` cuts it off. -/
structure Disk where
  hardState : Option HardState := none
  wal : Option (List WalRecord) := none
  snapshot : Option Snapshot := none
  deriving DecidableEq

/-- The loop body of `readWAL`. -/
def readRecord (wal : WalData) : WalRecord → Except WalError WalData
  | .base index term =>
      if wal.hasBase = true ∨ wal.entries ≠ [] then .error .baseNotFirst
      else .ok { wal with hasBase := true, baseIndex := index, baseTerm := term }
  | .entry entry =>
      if entry.index = 0 then .error .zeroIndex
      else if wal.hasBase = true ∧ entry.index ≤ wal.baseIndex then
        .error (.notAfterBase entry.index wal.baseIndex)
      else
        match wal.entries.getLast? with
        | none =>
            if wal.hasBase = true ∧ entry.index ≠ wal.baseIndex + 1 then
              .error (.nonContiguousFirst entry.index wal.baseIndex)
            else .ok { wal with entries := wal.entries ++ [entry] }
        | some previous =>
            if entry.index ≠ previous.index + 1 then
              .error (.nonContiguous entry.index previous.index)
            else .ok { wal with entries := wal.entries ++ [entry] }

def readRecords : WalData → List WalRecord → Except WalError WalData
  | wal, [] => .ok wal
  | wal, record :: records =>
      match readRecord wal record with
      | .error error => .error error
      | .ok wal => readRecords wal records

def readWAL (wal : Option (List WalRecord)) : Except WalError WalData :=
  readRecords {} (wal.getD [])

def entriesAfter (entries : List LogEntry) (index : Nat) : List LogEntry :=
  entries.filter fun entry => index < entry.index

def hasSnapshotBoundaryEntry (entries : List LogEntry) (snap : Snapshot) : Bool :=
  match entries.find? fun entry => entry.index = snap.lastIncludedIndex with
  | some entry => entry.term = snap.lastIncludedTerm
  | none => snap.lastIncludedIndex = 0 ∧ snap.lastIncludedTerm = 0

/-- The surviving entries, and whether the WAL must be rewritten. -/
def reconcileWALWithSnapshot (wal : WalData) (snap : Snapshot) : List LogEntry × Bool :=
  if wal.hasBase = true ∧ wal.baseIndex = snap.lastIncludedIndex ∧
      wal.baseTerm = snap.lastIncludedTerm then
    let entries := entriesAfter wal.entries snap.lastIncludedIndex
    (entries, entries.length ≠ wal.entries.length)
  else if hasSnapshotBoundaryEntry wal.entries snap = true then
    (entriesAfter wal.entries snap.lastIncludedIndex, true)
  else if wal.entries = [] ∧ wal.hasBase = false then ([], false)
  else ([], true)

structure Loaded where
  hardState : HardState
  entries : List LogEntry
  snapshot : Snapshot
  rewrite : Bool
  deriving DecidableEq

/-- What `Load` returns; `rewrite` records that it also rewrote the WAL. -/
def Disk.load (disk : Disk) : Except LoadError Loaded :=
  let hs := disk.hardState.getD {}
  let snap := disk.snapshot.getD {}
  match readWAL disk.wal with
  | .error error => .error (.wal error)
  | .ok wal =>
      if 0 < snap.lastIncludedIndex then
        let (entries, rewrite) := reconcileWALWithSnapshot wal snap
        .ok ⟨hs, entries, snap, rewrite⟩
      else if wal.hasBase = true ∧ 0 < wal.baseIndex then .error (.snapshotMissing wal.baseIndex)
      else .ok ⟨hs, wal.entries, snap, false⟩

/-- The writes of `Store`; `rewriteWAL` is the `writeWALAtomic` call inside `Load`. -/
inductive StoreOp where
  | saveHardState (hs : HardState)
  | appendEntries (entries : List LogEntry)
  | replaceEntries (entries : List LogEntry)
  | saveSnapshot (snapshot : Snapshot)
  | rewriteWAL (baseIndex baseTerm : Nat) (entries : List LogEntry)

def snapshotBaseLocked (disk : Disk) : Nat × Nat :=
  let snap := disk.snapshot.getD {}
  (snap.lastIncludedIndex, snap.lastIncludedTerm)

def walImage (baseIndex baseTerm : Nat) (entries : List LogEntry) : List WalRecord :=
  .base baseIndex baseTerm :: entries.map .entry

/-- The records `AppendEntries` adds: a missing or empty WAL first gets its base record. -/
def appendedRecords (disk : Disk) (entries : List LogEntry) : List WalRecord :=
  if disk.wal.getD [] = [] then
    walImage (snapshotBaseLocked disk).1 (snapshotBaseLocked disk).2 entries
  else entries.map .entry

def Disk.complete : StoreOp → Disk → Disk
  | .saveHardState hs, disk => { disk with hardState := some hs }
  | .appendEntries entries, disk =>
      if entries = [] then disk
      else { disk with wal := some (disk.wal.getD [] ++ appendedRecords disk entries) }
  | .replaceEntries entries, disk =>
      { disk with wal := some (walImage (snapshotBaseLocked disk).1 (snapshotBaseLocked disk).2
        entries) }
  | .saveSnapshot snapshot, disk => { disk with snapshot := some snapshot }
  | .rewriteWAL baseIndex baseTerm entries, disk =>
      { disk with wal := some (walImage baseIndex baseTerm entries) }

/-- Partial effects. Files replaced by rename change all at once; an append may leave any prefix
of its lines, the file having been created first. -/
def Disk.torn : StoreOp → Nat → Disk → Disk
  | _, 0, disk => disk
  | .appendEntries entries, reached + 1, disk =>
      if entries = [] then disk
      else { disk with
        wal := some (disk.wal.getD [] ++ (appendedRecords disk entries).take reached) }
  | .saveHardState hs, _ + 1, disk => Disk.complete (.saveHardState hs) disk
  | .replaceEntries entries, _ + 1, disk => Disk.complete (.replaceEntries entries) disk
  | .saveSnapshot snapshot, _ + 1, disk => Disk.complete (.saveSnapshot snapshot) disk
  | .rewriteWAL baseIndex baseTerm entries, _ + 1, disk =>
      Disk.complete (.rewriteWAL baseIndex baseTerm entries) disk

def store : Device StoreOp Disk where
  complete := Disk.complete
  torn := Disk.torn
  torn_zero := by
    intro op medium
    cases op <;> rfl

section Rules

open Program

variable {α : Type} {post : α → Disk → Prop} {crash : Disk → Prop} {next : Bool → Program StoreOp α}
  {disk : Disk}

/-- A file that is replaced by a rename is the old one or the new one at a crash. -/
theorem wp_renamed {op : StoreOp}
    (renamed : ∀ reached, Disk.torn op (reached + 1) disk = Disk.complete op disk)
    (go : (next true).wp store post crash (Disk.complete op disk)) (before : crash disk)
    (after : crash (Disk.complete op disk)) : (call op next).wp store post crash disk := by
  refine ⟨go, fun reached => ?_⟩
  cases reached with
  | zero =>
      rw [store.torn_zero]
      exact before
  | succ reached =>
      have same : store.torn op (reached + 1) disk = Disk.complete op disk := renamed reached
      rw [same]
      exact after

theorem wp_saveHardState {hs : HardState}
    (go : (next true).wp store post crash { disk with hardState := some hs }) (before : crash disk)
    (after : crash { disk with hardState := some hs }) :
    (call (.saveHardState hs) next).wp store post crash disk :=
  wp_renamed (fun _ => rfl) go before after

end Rules

end GoRaftKV.Storage
