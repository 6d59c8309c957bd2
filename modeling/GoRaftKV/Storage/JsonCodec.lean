import GoRaftKV.Storage.Directory
import GoRaftKV.Storage.GoLines
import GoRaftKV.Storage.Tally

/-! An extension of the codec of the code. The numbers of the model are unbounded; what has a
number that no `uint64` holds, which the code cannot have, is written as tally marks, and
everything else as the code writes it. Tally marks, which the code refuses, are read back here. -/

namespace GoRaftKV.Storage

open Library Json

/-! ### Tally marks -/

/-- Nothing but tally marks and commas. -/
def tallied (content : Content) : Bool :=
  content.all fun byte => byte = Tally.mark || byte = Tally.comma

theorem tallied_write (numbers : List Nat) : tallied (Tally.write numbers) = true := by
  simp only [tallied, List.all_eq_true, Tally.write, joinLines, List.mem_flatMap, List.mem_map,
    List.mem_append, List.mem_singleton]
  rintro byte ⟨_, ⟨n, -, rfl⟩, mark | comma⟩
  · simp [List.eq_of_mem_replicate mark]
  · simp [comma]

section Spare

variable {α : Type}

/-- `json` where the value fits, and otherwise its numbers as tally marks. -/
def orTally (fits : α → Bool) (json : α → Content) (spare : α → List Nat) (value : α) : Content :=
  if fits value then json value else Tally.write (spare value)

def readTally (json : Content → Option α) (spare : List Nat → Option α) (content : Content) :
    Option α :=
  if tallied content then spare (Tally.read content) else json content

theorem readTally_orTally {fits : α → Bool} {json : α → Content} {spare : α → List Nat}
    {readJson : Content → Option α} {readSpare : List Nat → Option α} {value result : α}
    (braced : fits value = true → tallied (json value) = false)
    (reads : fits value = true → readJson (json value) = some result)
    (spares : readSpare (spare value) = some result) :
    readTally readJson readSpare (orTally fits json spare value) = some result := by
  cases fit : fits value with
  | true =>
      have text : orTally fits json spare value = json value := if_pos fit
      rw [text, readTally, braced fit, if_neg Bool.false_ne_true, reads fit]
  | false =>
      have text : orTally fits json spare value = Tally.write (spare value) := by
        rw [orTally, fit]; rfl
      rw [text, readTally, if_pos (tallied_write _), Tally.read_write, spares]

end Spare

theorem tallied_object (members : List (String × Value)) :
    tallied (encodeUtf8 (write escaping (.object members))) = false := by
  rcases encodeUtf8_object members with ⟨inner, text⟩
  rw [text]
  rfl

/-! ### The files -/

def writeHardState : HardState → Content :=
  orTally HardState.fits (fun hs => HardStateFile.schema.marshal escaping hs.file)
    fun hs => hs.currentTerm :: hs.commitIndex :: (Tally.text hs.votedFor ++ [])

def readHardState : Content → Option HardState :=
  readTally (fun content => (HardStateFile.schema.unmarshal content).map HardStateFile.value) fun
    | term :: commit :: rest => (Tally.readText rest).map fun (vote, _) => ⟨term, vote, commit⟩
    | _ => none

theorem read_writeHardState (hs : HardState) : readHardState (writeHardState hs) = some hs := by
  apply readTally_orTally
  · intro _
    exact tallied_object _
  · intro fit
    simp only [HardState.fits, Bool.and_eq_true] at fit
    rw [Schema.unmarshal_marshal, Option.map_some]
    simp only [HardStateFile.value, HardState.file, toNat_fits fit.1, toNat_fits fit.2]
  · simp only [Tally.readText_text, Option.map_some]

def writeSnapshot : Snapshot → Content :=
  orTally Snapshot.fits (fun snap => SnapshotFile.schema.marshal escaping snap.file) fun snap =>
    snap.lastIncludedIndex :: snap.lastIncludedTerm ::
      (SnapshotFile.schema.marshal escaping { data := snap.data }).map UInt8.toNat

def readSnapshot : Content → Option Snapshot :=
  readTally (fun content => (SnapshotFile.schema.unmarshal content).map SnapshotFile.value) fun
    | index :: term :: rest =>
        (SnapshotFile.schema.unmarshal (rest.map UInt8.ofNat)).map fun file =>
        { lastIncludedIndex := index, lastIncludedTerm := term, data := file.data }
    | _ => none

theorem read_writeSnapshot (snap : Snapshot) :
    readSnapshot (writeSnapshot snap) = some (snap.withHistory []) := by
  apply readTally_orTally
  · intro _
    exact tallied_object _
  · intro fit
    simp only [Snapshot.fits, Bool.and_eq_true] at fit
    rw [Schema.unmarshal_marshal, Option.map_some]
    simp only [SnapshotFile.value, Snapshot.file, toNat_fits fit.1, toNat_fits fit.2]
    rfl
  · have bytes (content : Content) : (content.map UInt8.toNat).map UInt8.ofNat = content := by
      rw [List.map_map]
      exact (List.map_congr_left fun byte _ => UInt8.ofNat_toNat).trans (List.map_id content)
    simp only [bytes, Schema.unmarshal_marshal, Option.map_some]
    rfl

/-! ### The lines of the WAL -/

def encodeRecord : WalRecord → Content :=
  orTally WalRecord.fits (fun stored => stored.text.dropLast) Tally.record

def decodeRecord : Content → Option WalRecord :=
  readTally (fun line => (decodeWALLine line).toOption) Tally.readRecord

theorem decode_encodeRecord (stored : WalRecord) :
    decodeRecord (encodeRecord stored) = some stored := by
  apply readTally_orTally
  · intro _
    rcases stored.text_braced with ⟨inner, text⟩
    rw [text]
    rfl
  · intro fit
    rcases WalRecord.text_carries fit with ⟨body, written, -, decoded, -⟩
    rw [written, List.dropLast_concat, decoded]
    rfl
  · exact Tally.readRecord_record stored

theorem newline_encodeRecord (stored : WalRecord) : newline ∉ encodeRecord stored := by
  unfold encodeRecord orTally
  split
  · exact stored.newline_text
  · exact Tally.newline_notMem_write _

theorem encodeRecord_trimmed (stored : WalRecord) : ∃ first rest front last,
    encodeRecord stored = first :: rest ∧ encodeRecord stored = front ++ [last] ∧
      Apart whiteSpace first ∧ Apart whiteSpace last := by
  unfold encodeRecord orTally
  split
  · rcases stored.text_trimmed with ⟨rest, front, begins, ends⟩
    exact ⟨123, rest, front, 125, begins, ends, by decide, by decide⟩
  · have apart (byte : UInt8) (member : byte ∈ Tally.write (Tally.record stored)) :
        Apart whiteSpace byte := by
      have shape := List.all_eq_true.mp (tallied_write (Tally.record stored)) byte member
      simp only [Bool.or_eq_true, decide_eq_true_eq] at shape
      rcases shape with rfl | rfl
      · decide
      · decide
    have some := Tally.write_record_ne_nil stored
    rcases List.exists_cons_of_ne_nil some with ⟨first, rest, begins⟩
    have ends := List.dropLast_append_getLast some
    exact ⟨first, rest, _, _, begins, ends.symm, apart first (begins ▸ List.mem_cons_self),
      apart _ (List.getLast_mem some)⟩

def jsonCodec : FileCodec where
  readHardState := readHardState
  readSnapshot := readSnapshot
  trimSpace := trimSpace
  encode := encodeRecord
  decodeWALLine := decodeRecord
  Fits _ := True
  encode_plain := newline_encodeRecord
  trimSpace_encode := by
    intro stored
    rcases encodeRecord_trimmed stored with ⟨first, rest, front, last, begins, ends, apart, behind⟩
    exact trimSpace_fixed begins ends apart behind
  trimSpace_append := by
    intro before stored
    rcases encodeRecord_trimmed stored with ⟨first, rest, front, last, begins, ends, apart, behind⟩
    rw [ends, ← List.append_assoc]
    exact trimSpace_concat behind
  decode_encode stored _ := decode_encodeRecord stored
  decode_fits _ _ _ := trivial
  snapshot_fits _ _ _ := trivial
  zero_fits := trivial
  fits_all _ := trivial
  writeHardState := writeHardState
  writeSnapshot := writeSnapshot
  read_hardState := read_writeHardState
  read_snapshot := read_writeSnapshot

/-- Whatever is not made of tally marks alone is read as the code reads it. -/
theorem jsonCodec_reads {content : Content} (other : tallied content = false) :
    jsonCodec.readHardState content = goLines.readHardState content ∧
      jsonCodec.readSnapshot content = goLines.readSnapshot content ∧
      jsonCodec.decodeWALLine content = goLines.decodeWALLine content := by
  have plain : ¬ tallied content = true := ne_true_of_eq_false other
  exact ⟨if_neg plain, if_neg plain, if_neg plain⟩

end GoRaftKV.Storage
