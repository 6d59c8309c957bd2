import GoRaftKV.Storage.Types

namespace GoRaftKV.Storage.KVStateMachine

/-- `KVStateMachine.Apply`: the new map and the result. -/
def apply (data : KVMap) (command : Command) : KVMap × ApplyResult :=
  match command.op with
  | .put =>
      (data.insert command.key command.value, { ok := true, found := true, value := command.value })
  | .delete =>
      let previous := data.lookup command.key
      (data.erase command.key, { ok := true, found := previous.isSome, value := previous.getD "" })
  | .cas =>
      match data.lookup command.key with
      | none => (data, { ok := true, found := false, value := "", swapped := false })
      | some current =>
          if current ≠ command.expected then
            (data, { ok := true, found := true, value := current, swapped := false })
          else
            (data.insert command.key command.value,
              { ok := true, found := true, value := command.value, swapped := true })
  | .noop => (data, { ok := true })
  | .other _ => (data, { ok := false, error := "unknown command" })

def restore (snapshot : Option KVMap) : KVMap := snapshot.getD ∅

def get (data : KVMap) (key : String) : String × Bool :=
  ((data.lookup key).getD "", (data.lookup key).isSome)

/-- The map reached from `data` by applying the commands of `entries` in order. -/
def replay (data : KVMap) (entries : List LogEntry) : KVMap :=
  entries.foldl (fun data entry => (apply data entry.command).1) data

@[simp] theorem replay_nil (data : KVMap) : replay data [] = data := rfl

theorem replay_append (data : KVMap) (front back : List LogEntry) :
    replay data (front ++ back) = replay (replay data front) back :=
  List.foldl_append

theorem replay_snoc (data : KVMap) (entries : List LogEntry) (entry : LogEntry) :
    replay data (entries ++ [entry]) = (apply (replay data entries) entry.command).1 := by
  rw [replay_append]
  rfl

end GoRaftKV.Storage.KVStateMachine
