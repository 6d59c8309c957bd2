import Mathlib.Data.Finmap

namespace GoRaftKV.Storage

/-- `other` stands for the operation strings that name none of the four constants. -/
inductive Operation where
  | put
  | delete
  | cas
  | noop
  | other (name : String)
  deriving DecidableEq, Repr

structure Command where
  op : Operation
  key : String := ""
  value : String := ""
  expected : String := ""
  deriving DecidableEq, Repr

structure ApplyResult where
  ok : Bool := false
  found : Bool := false
  value : String := ""
  swapped : Bool := false
  error : String := ""
  deriving DecidableEq, Repr

structure LogEntry where
  index : Nat
  term : Nat
  command : Command
  deriving DecidableEq, Repr

structure HardState where
  currentTerm : Nat := 0
  votedFor : String := ""
  commitIndex : Nat := 0
  deriving DecidableEq, Repr

abbrev KVMap := Finmap fun _ : String => String

/-- `data` is `none` for a nil map. `history` is a ghost: the entries folded into `data`, which no
code path reads. -/
structure Snapshot where
  lastIncludedIndex : Nat := 0
  lastIncludedTerm : Nat := 0
  data : Option KVMap := none
  history : List LogEntry := []
  deriving DecidableEq

def lastIndex (snapshot : Snapshot) (entries : List LogEntry) : Nat :=
  match entries.getLast? with
  | none => snapshot.lastIncludedIndex
  | some entry => entry.index

def lastTerm (snapshot : Snapshot) (entries : List LogEntry) : Nat :=
  match entries.getLast? with
  | none => snapshot.lastIncludedTerm
  | some entry => entry.term

/-- Entries at consecutive indexes, the first right after `start`. -/
def Contiguous (start : Nat) (entries : List LogEntry) : Prop :=
  ∀ position entry, entries[position]? = some entry → entry.index = start + 1 + position

end GoRaftKV.Storage
