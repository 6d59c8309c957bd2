import GoRaftKV.Library.Lines
import GoRaftKV.Storage.Store

namespace GoRaftKV.Storage

open Library

abbrev Content := List UInt8

def newline : UInt8 := 10

/-- What `Store` uses of `encoding/json` and `bytes`. A record is encoded without a raw newline and
does not start or end in white space. `decodeWALLine` reads back what fits the integers of the
format, and nothing that is read does not fit. -/
structure LineCodec where
  readHardState : Content → Option HardState
  readSnapshot : Content → Option Snapshot
  trimSpace : Content → Content
  encode : WalRecord → Content
  decodeWALLine : Content → Option WalRecord
  Fits : WalRecord → Prop
  encode_plain : ∀ record, newline ∉ encode record
  trimSpace_encode : ∀ record, trimSpace (encode record) = encode record
  trimSpace_append : ∀ front record, trimSpace (front ++ encode record) ≠ []
  decode_encode : ∀ record, Fits record → decodeWALLine (encode record) = some record
  decode_fits : ∀ line record, decodeWALLine line = some record → Fits record
  snapshot_fits : ∀ content snap, readSnapshot content = some snap →
    Fits (.base snap.lastIncludedIndex snap.lastIncludedTerm)
  zero_fits : Fits (.base 0 0)

/-- A line that can be appended: it has no newline, and is not blank behind other bytes. -/
structure LineCodec.Sturdy (codec : LineCodec) (line : Content) : Prop where
  plain : newline ∉ line
  solid : ∀ front, codec.trimSpace (front ++ line) ≠ []

theorem LineCodec.sturdy_encode (codec : LineCodec) (stored : WalRecord) :
    codec.Sturdy (codec.encode stored) :=
  ⟨codec.encode_plain stored, fun front => codec.trimSpace_append front stored⟩

/-- The contents of the three files, `none` for a missing one. -/
structure Files where
  hardState : Option Content := none
  wal : Option Content := none
  snapshot : Option Content := none
  deriving DecidableEq

inductive FileError where
  | json
  | line
  | wal (error : WalError)
  | snapshotMissing (baseIndex : Nat)
  | io
  deriving DecidableEq, Repr

def readJSONFile {α : Type} (read : Content → Option α) (missing : α) : Option Content → Option α
  | none => some missing
  | some content => read content

/-- The lines that `encoding/json` writes for some records. -/
def LineCodec.write (codec : LineCodec) (records : List WalRecord) : Content :=
  joinLines newline (records.map codec.encode)

/-- The loop of `readWAL` over the complete lines. -/
def readLines (codec : LineCodec) : WalData → List Content → Except FileError WalData
  | data, [] => .ok data
  | data, line :: lines =>
      if codec.trimSpace line = [] then readLines codec data lines
      else
        match codec.decodeWALLine (codec.trimSpace line) with
        | none => .error .line
        | some record =>
            match readRecord data record with
            | .error error => .error (.wal error)
            | .ok data => readLines codec data lines

/-- The writes that `Load` itself makes. -/
inductive LoadOp where
  | truncate (size : Nat)
  | writeWALAtomic (baseIndex baseTerm : Nat) (entries : List LogEntry)

/-- A truncation may stop at any length in between; the temporary file of `writeWALAtomic` is none
of the three files, and the rename happens at once. -/
def loadDevice (codec : LineCodec) : Device LoadOp Files where
  complete
    | .truncate size, files => { files with wal := files.wal.map (·.take size) }
    | .writeWALAtomic baseIndex baseTerm entries, files =>
        { files with wal := some (codec.write (walImage baseIndex baseTerm entries)) }
  torn
    | _, 0, files => files
    | .truncate size, reached + 1, files =>
        { files with wal := files.wal.map (·.take (size + reached)) }
    | .writeWALAtomic baseIndex baseTerm entries, _ + 1, files =>
        { files with wal := some (codec.write (walImage baseIndex baseTerm entries)) }
  torn_zero := by
    intro op files
    cases op <;> rfl

/-- `readWAL`: what the complete lines say, after an unfinished last line has been cut off. -/
def Files.readWAL (codec : LineCodec) (files : Files) : Program LoadOp (Except FileError WalData) :=
  let content := files.wal.getD []
  let (lines, tail) := splitLines newline content
  match readLines codec {} lines with
  | .error error => pure (.error error)
  | .ok wal =>
      if tail = [] then pure (.ok wal)
      else do
        if ← Program.perform (.truncate (content.length - tail.length)) then return .ok wal
        else return .error .io

/-- The part of `Load` after the files have been read. -/
def reconcile (hs : HardState) (snap : Snapshot) (wal : WalData) :
    Program LoadOp (Except FileError (HardState × List LogEntry × Snapshot)) :=
  if 0 < snap.lastIncludedIndex then
    let (entries, rewrite) := reconcileWALWithSnapshot wal snap
    if rewrite = true then do
      if ← Program.perform (.writeWALAtomic snap.lastIncludedIndex snap.lastIncludedTerm
        entries) then
        return .ok (hs, entries, snap)
      else return .error .io
    else pure (.ok (hs, entries, snap))
  else if wal.hasBase = true ∧ 0 < wal.baseIndex then pure (.error (.snapshotMissing wal.baseIndex))
  else pure (.ok (hs, wal.entries, snap))

def Files.load (codec : LineCodec) (files : Files) :
    Program LoadOp (Except FileError (HardState × List LogEntry × Snapshot)) := do
  match readJSONFile codec.readHardState {} files.hardState,
      readJSONFile codec.readSnapshot {} files.snapshot with
  | some hs, some snap =>
      match ← files.readWAL codec with
      | .error error => return .error error
      | .ok wal => reconcile hs snap wal
  | _, _ => return .error .json

/-- `Load` has returned without an error and left the files `after`. -/
def Files.Loads (codec : LineCodec) (files : Files) (hs : HardState) (entries : List LogEntry)
    (snap : Snapshot) (after : Files) : Prop :=
  (files.load codec).exec (loadDevice codec) files [] = .done (.ok (hs, entries, snap)) after

end GoRaftKV.Storage
