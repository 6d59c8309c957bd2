import GoRaftKV.Library.Base64
import GoRaftKV.Storage.FileJson

/-! The messages of the two services, as `encoding/json` writes and reads them. -/

namespace GoRaftKV.Api

open Library Json Storage

/-! ### Field types -/

def boolKind : Kind where
  Carrier := Bool
  zero := false
  empty value := !value
  write value := .bool value
  assign old
    | .bool value => (value, true)
    | .null => (old, true)
    | _ => (old, false)
  empty_zero := by decide
  assign_write _ := rfl

def uint8Kind : Kind where
  Carrier := UInt8
  zero := 0
  empty value := value = 0
  write value := .number (.ofNat value.toNat)
  assign := assignUint 8 UInt8.ofNat
  empty_zero _ := of_decide_eq_true
  assign_write value := by simp [assignUint, parseUint_ofNat value.toNat_lt]

/-- A byte slice is written in base64. An array of numbers is read as one, too. -/
def bytesKind : Kind where
  Carrier := List UInt8
  zero := []
  empty data := data.isEmpty
  write data := .text (String.ofList (Base64.encode data))
  assign old
    | .text content =>
        match Base64.decode content.toList with
        | some data => (data, true)
        | none => (old, false)
    | json => uint8Kind.list.assign old json
  empty_zero _ := List.isEmpty_iff.mp
  assign_write data := by simp only [String.toList_ofList, Base64.decode_encode]

/-! ### Clients -/

structure PutRequest where
  key : String := ""
  value : String := ""

def PutRequest.schema : Schema PutRequest where
  zero := {}
  slots := [
    ⟨"key", textKind, false, key, fun req v => { req with key := v }⟩,
    ⟨"value", textKind, false, value, fun req v => { req with value := v }⟩]

structure PutResponse where
  ok : Bool := false
  error : String := ""
  leaderID : String := ""
  leaderAddress : String := ""

def PutResponse.schema : Schema PutResponse where
  zero := {}
  slots := [
    ⟨"ok", boolKind, false, ok, fun resp v => { resp with ok := v }⟩,
    ⟨"error", textKind, true, error, fun resp v => { resp with error := v }⟩,
    ⟨"leader_id", textKind, true, leaderID, fun resp v => { resp with leaderID := v }⟩,
    ⟨"leader_address", textKind, true, leaderAddress,
      fun resp v => { resp with leaderAddress := v }⟩]

structure GetRequest where
  key : String := ""

def GetRequest.schema : Schema GetRequest where
  zero := {}
  slots := [
    ⟨"key", textKind, false, key, fun req v => { req with key := v }⟩]

structure GetResponse where
  ok : Bool := false
  found : Bool := false
  value : String := ""
  error : String := ""
  leaderID : String := ""
  leaderAddress : String := ""

def GetResponse.schema : Schema GetResponse where
  zero := {}
  slots := [
    ⟨"ok", boolKind, false, ok, fun resp v => { resp with ok := v }⟩,
    ⟨"found", boolKind, false, found, fun resp v => { resp with found := v }⟩,
    ⟨"value", textKind, true, value, fun resp v => { resp with value := v }⟩,
    ⟨"error", textKind, true, error, fun resp v => { resp with error := v }⟩,
    ⟨"leader_id", textKind, true, leaderID, fun resp v => { resp with leaderID := v }⟩,
    ⟨"leader_address", textKind, true, leaderAddress,
      fun resp v => { resp with leaderAddress := v }⟩]

structure DeleteRequest where
  key : String := ""

def DeleteRequest.schema : Schema DeleteRequest where
  zero := {}
  slots := [
    ⟨"key", textKind, false, key, fun req v => { req with key := v }⟩]

structure DeleteResponse where
  ok : Bool := false
  found : Bool := false
  previousValue : String := ""
  error : String := ""
  leaderID : String := ""
  leaderAddress : String := ""

def DeleteResponse.schema : Schema DeleteResponse where
  zero := {}
  slots := [
    ⟨"ok", boolKind, false, ok, fun resp v => { resp with ok := v }⟩,
    ⟨"found", boolKind, false, found, fun resp v => { resp with found := v }⟩,
    ⟨"previous_value", textKind, true, previousValue,
      fun resp v => { resp with previousValue := v }⟩,
    ⟨"error", textKind, true, error, fun resp v => { resp with error := v }⟩,
    ⟨"leader_id", textKind, true, leaderID, fun resp v => { resp with leaderID := v }⟩,
    ⟨"leader_address", textKind, true, leaderAddress,
      fun resp v => { resp with leaderAddress := v }⟩]

structure CASRequest where
  key : String := ""
  expected : String := ""
  value : String := ""

def CASRequest.schema : Schema CASRequest where
  zero := {}
  slots := [
    ⟨"key", textKind, false, key, fun req v => { req with key := v }⟩,
    ⟨"expected", textKind, false, expected, fun req v => { req with expected := v }⟩,
    ⟨"value", textKind, false, value, fun req v => { req with value := v }⟩]

structure CASResponse where
  ok : Bool := false
  swapped : Bool := false
  found : Bool := false
  currentValue : String := ""
  error : String := ""
  leaderID : String := ""
  leaderAddress : String := ""

def CASResponse.schema : Schema CASResponse where
  zero := {}
  slots := [
    ⟨"ok", boolKind, false, ok, fun resp v => { resp with ok := v }⟩,
    ⟨"swapped", boolKind, false, swapped, fun resp v => { resp with swapped := v }⟩,
    ⟨"found", boolKind, false, found, fun resp v => { resp with found := v }⟩,
    ⟨"current_value", textKind, true, currentValue, fun resp v => { resp with currentValue := v }⟩,
    ⟨"error", textKind, true, error, fun resp v => { resp with error := v }⟩,
    ⟨"leader_id", textKind, true, leaderID, fun resp v => { resp with leaderID := v }⟩,
    ⟨"leader_address", textKind, true, leaderAddress,
      fun resp v => { resp with leaderAddress := v }⟩]

/-! ### Peers -/

structure LogEntry where
  index : UInt64 := 0
  term : UInt64 := 0
  command : List UInt8 := []

def LogEntry.schema : Schema LogEntry where
  zero := {}
  slots := [
    ⟨"index", uint64Kind, false, index, fun entry v => { entry with index := v }⟩,
    ⟨"term", uint64Kind, false, term, fun entry v => { entry with term := v }⟩,
    ⟨"command", bytesKind, false, command, fun entry v => { entry with command := v }⟩]

structure RequestVoteRequest where
  term : UInt64 := 0
  candidateID : String := ""
  lastLogIndex : UInt64 := 0
  lastLogTerm : UInt64 := 0

def RequestVoteRequest.schema : Schema RequestVoteRequest where
  zero := {}
  slots := [
    ⟨"term", uint64Kind, false, term, fun req v => { req with term := v }⟩,
    ⟨"candidate_id", textKind, false, candidateID, fun req v => { req with candidateID := v }⟩,
    ⟨"last_log_index", uint64Kind, false, lastLogIndex, fun req v =>
      { req with lastLogIndex := v }⟩,
    ⟨"last_log_term", uint64Kind, false, lastLogTerm, fun req v => { req with lastLogTerm := v }⟩]

structure RequestVoteResponse where
  term : UInt64 := 0
  voteGranted : Bool := false

def RequestVoteResponse.schema : Schema RequestVoteResponse where
  zero := {}
  slots := [
    ⟨"term", uint64Kind, false, term, fun resp v => { resp with term := v }⟩,
    ⟨"vote_granted", boolKind, false, voteGranted, fun resp v => { resp with voteGranted := v }⟩]

structure AppendEntriesRequest where
  term : UInt64 := 0
  leaderID : String := ""
  prevLogIndex : UInt64 := 0
  prevLogTerm : UInt64 := 0
  entries : List LogEntry := []
  leaderCommit : UInt64 := 0

def AppendEntriesRequest.schema : Schema AppendEntriesRequest where
  zero := {}
  slots := [
    ⟨"term", uint64Kind, false, term, fun req v => { req with term := v }⟩,
    ⟨"leader_id", textKind, false, leaderID, fun req v => { req with leaderID := v }⟩,
    ⟨"prev_log_index", uint64Kind, false, prevLogIndex, fun req v =>
      { req with prevLogIndex := v }⟩,
    ⟨"prev_log_term", uint64Kind, false, prevLogTerm, fun req v => { req with prevLogTerm := v }⟩,
    ⟨"entries", .list (.struct LogEntry.schema), false, entries,
      fun req v => { req with entries := v }⟩,
    ⟨"leader_commit", uint64Kind, false, leaderCommit, fun req v => { req with leaderCommit := v }⟩]

structure AppendEntriesResponse where
  term : UInt64 := 0
  success : Bool := false
  conflictIndex : UInt64 := 0
  matchIndex : UInt64 := 0

def AppendEntriesResponse.schema : Schema AppendEntriesResponse where
  zero := {}
  slots := [
    ⟨"term", uint64Kind, false, term, fun resp v => { resp with term := v }⟩,
    ⟨"success", boolKind, false, success, fun resp v => { resp with success := v }⟩,
    ⟨"conflict_index", uint64Kind, true, conflictIndex,
      fun resp v => { resp with conflictIndex := v }⟩,
    ⟨"match_index", uint64Kind, true, matchIndex, fun resp v => { resp with matchIndex := v }⟩]

structure InstallSnapshotRequest where
  term : UInt64 := 0
  leaderID : String := ""
  lastIncludedIndex : UInt64 := 0
  lastIncludedTerm : UInt64 := 0
  offset : UInt64 := 0
  data : List UInt8 := []
  done : Bool := false

def InstallSnapshotRequest.schema : Schema InstallSnapshotRequest where
  zero := {}
  slots := [
    ⟨"term", uint64Kind, false, term, fun req v => { req with term := v }⟩,
    ⟨"leader_id", textKind, false, leaderID, fun req v => { req with leaderID := v }⟩,
    ⟨"last_included_index", uint64Kind, false, lastIncludedIndex,
      fun req v => { req with lastIncludedIndex := v }⟩,
    ⟨"last_included_term", uint64Kind, false, lastIncludedTerm,
      fun req v => { req with lastIncludedTerm := v }⟩,
    ⟨"offset", uint64Kind, false, offset, fun req v => { req with offset := v }⟩,
    ⟨"data", bytesKind, false, data, fun req v => { req with data := v }⟩,
    ⟨"done", boolKind, false, done, fun req v => { req with done := v }⟩]

structure InstallSnapshotResponse where
  term : UInt64 := 0
  success : Bool := false
  bytesReceived : UInt64 := 0

def InstallSnapshotResponse.schema : Schema InstallSnapshotResponse where
  zero := {}
  slots := [
    ⟨"term", uint64Kind, false, term, fun resp v => { resp with term := v }⟩,
    ⟨"success", boolKind, false, success, fun resp v => { resp with success := v }⟩,
    ⟨"bytes_received", uint64Kind, true, bytesReceived,
      fun resp v => { resp with bytesReceived := v }⟩]

/-! ### Calls -/

/-- A call over a connection that delivers the request and the response: the client encodes the
request, `unaryHandler` decodes it and calls `fn`, and the client decodes what comes back. `none`
stands for an error of the codec. -/
def invoke {World Req Resp : Type} (reqs : Schema Req) (resps : Schema Resp)
    (fn : Req → World × Resp) (req : Req) : Option (World × Resp) := do
  let arrived ← reqs.unmarshal (reqs.marshal escaping req)
  let resp ← resps.unmarshal (resps.marshal escaping (fn arrived).2)
  return ((fn arrived).1, resp)

theorem invoke_eq {World Req Resp : Type} (reqs : Schema Req) (resps : Schema Resp)
    (fn : Req → World × Resp) (req : Req) : invoke reqs resps fn req = some (fn req) := by
  simp [invoke, Schema.unmarshal_marshal]

example :
    write escaping (.object (AppendEntriesResponse.schema.members { term := 2, matchIndex := 3 })) =
      "\x7b\"term\":2,\"success\":false,\"match_index\":3\x7d".toList := by
  decide +kernel

end GoRaftKV.Api
