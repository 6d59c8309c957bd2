import GoRaftKV.Library.GoJson
import GoRaftKV.Library.JsonStruct
import GoRaftKV.Raft.Types
import Mathlib.Data.Finset.Sort

/-! The body of a snapshot stream: a string map as `json.Marshal` writes it and `json.Unmarshal`
reads it. -/

namespace GoRaftKV.Raft.SnapshotJson

open Storage Library Json

/-- `json.Marshal` sorts the keys of a map. -/
def pairs (data : KVMap) : List (String × String) :=
  (data.keys.sort (· ≤ ·)).map fun key => (key, (data.lookup key).getD "")

/-- The keys of an object are set one after another, also where the value is no string. -/
def assignPairs (old : KVMap) (members : List (String × Value)) : KVMap × Bool :=
  members.foldl
    (fun state member =>
      (state.1.insert member.1 (assignText "" member.2).1, state.2 && (assignText "" member.2).2))
    (old, true)

theorem assignPairs_texts (old : KVMap) (texts : List (String × String)) :
    assignPairs old (texts.map fun pair => (pair.1, .text pair.2)) =
      (texts.foldl (fun data pair => data.insert pair.1 pair.2) old, true) := by
  induction texts generalizing old with
  | nil => rfl
  | cons pair texts ih => exact ih (old.insert pair.1 pair.2)

theorem lookup_foldl (old : KVMap) (keys : List String) (value : String → String) (key : String) :
    ((keys.map fun key => (key, value key)).foldl
      (fun data pair => data.insert pair.1 pair.2) old).lookup key =
      if key ∈ keys then some (value key) else old.lookup key := by
  induction keys generalizing old with
  | nil => simp
  | cons head tail ih =>
      rw [List.map_cons, List.foldl_cons, ih]
      by_cases later : key ∈ tail
      · simp [later]
      · by_cases same : key = head
        · subst same
          simp [later]
        · simp [later, same, Finmap.lookup_insert_of_ne _ same]

theorem foldl_pairs (data : KVMap) :
    (pairs data).foldl (fun data pair => data.insert pair.1 pair.2) ∅ = data := by
  -- The keys are distinct, so the order in which they are set does not matter.
  refine Finmap.ext_lookup fun key => ?_
  rw [pairs, lookup_foldl]
  by_cases present : key ∈ data
  · obtain ⟨value, found⟩ := Finmap.mem_iff.mp present
    simp [Finmap.mem_keys.mpr present, found]
  · have missing : key ∉ data.keys := fun member => present (Finmap.mem_keys.mp member)
    simp [missing, Finmap.lookup_eq_none.mpr present]

def pairMembers (data : KVMap) : List (String × Value) :=
  (pairs data).map fun pair => (pair.1, .text pair.2)

theorem assignPairs_pairMembers (data : KVMap) :
    assignPairs ∅ (pairMembers data) = (data, true) := by
  rw [pairMembers, assignPairs_texts, foldl_pairs]

/-- A nil map is written as `null`, and `null` is read as a nil map. -/
def mapKind : Kind where
  Carrier := Option KVMap
  zero := none
  empty data := data = none
  write
    | none => .null
    | some data => .object (pairMembers data)
  assign old
    | .null => (none, true)
    | .object members =>
        let (data, ok) := assignPairs (old.getD ∅) members
        (some data, ok)
    | _ => (old, false)
  empty_zero _ := of_decide_eq_true
  assign_write := by
    intro data
    cases data with
    | none => rfl
    | some data =>
        have written : assignPairs ((none : Option KVMap).getD ∅) (pairMembers data) =
            (data, true) :=
          assignPairs_pairMembers data
        simp only [written]

def codec : SnapshotCodec where
  marshal data := encodeUtf8 (write escaping (mapKind.write data))
  unmarshal body :=
    match (parse (decodeUtf8 body)).map (mapKind.assign mapKind.zero) with
    | some (data, true) => some data
    | _ => none
  marshal_ne_nil := by
    intro data empty
    rcases @write_head escaping (mapKind.write data) with ⟨c, rest, written, -⟩
    rw [written, encodeUtf8, List.flatMap_cons] at empty
    have bytes := congrArg List.length (List.append_eq_nil_iff.mp empty).1
    rw [String.length_utf8EncodeChar] at bytes
    exact absurd bytes c.utf8Size_pos.ne'
  unmarshal_marshal := by
    intro data
    have assigned : mapKind.assign mapKind.zero (mapKind.write data) = (data, true) :=
      mapKind.assign_write data
    rw [decodeUtf8_encodeUtf8, parse_write, Option.map_some]
    simp only [assigned]

end GoRaftKV.Raft.SnapshotJson
