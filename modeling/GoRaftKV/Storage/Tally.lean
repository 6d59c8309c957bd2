import GoRaftKV.Storage.WalFile
import Mathlib.Data.List.Basic

/-! Records with numbers of any size: every number is written as tally marks, and every text as its
length and its characters. -/

namespace GoRaftKV.Storage.Tally

open Library

def mark : UInt8 := 49

def comma : UInt8 := 44

def write (numbers : List Nat) : Content :=
  joinLines comma (numbers.map fun n => List.replicate n mark)

def read (content : Content) : List Nat := (splitLines comma content).1.map List.length

theorem read_write (numbers : List Nat) : read (write numbers) = numbers := by
  have plain : Plain comma (numbers.map fun n => List.replicate n mark) := by
    intro line member
    rcases List.mem_map.mp member with ⟨n, -, rfl⟩
    intro held
    have same := List.eq_of_mem_replicate held
    exact absurd same (by decide)
  rw [read, write, splitLines_joinLines plain, List.map_map]
  calc numbers.map (List.length ∘ fun n => List.replicate n mark)
      = numbers.map id := by
        apply List.map_congr_left
        intro n _
        exact List.length_replicate
    _ = numbers := List.map_id numbers

theorem newline_notMem_write (numbers : List Nat) : newline ∉ write numbers := by
  intro member
  simp only [write, joinLines, List.mem_flatMap, List.mem_map, List.mem_append,
    List.mem_singleton] at member
  rcases member with ⟨_, ⟨n, -, rfl⟩, held | same⟩
  · exact absurd (List.eq_of_mem_replicate held) (by decide)
  · exact absurd same (by decide)

def text (value : String) : List Nat := value.toList.length :: value.toList.map Char.toNat

def readText : List Nat → Option (String × List Nat)
  | [] => none
  | length :: rest => some (String.ofList ((rest.take length).map Char.ofNat), rest.drop length)

theorem readText_text (value : String) (rest : List Nat) :
    readText (text value ++ rest) = some (value, rest) := by
  have characters : (value.toList.map Char.toNat).map Char.ofNat = value.toList := by
    rw [List.map_map]
    calc value.toList.map (Char.ofNat ∘ Char.toNat)
        = value.toList.map id := by
          apply List.map_congr_left
          intro c _
          exact Char.ofNat_toNat c
      _ = value.toList := List.map_id _
  have length : value.toList.length = (value.toList.map Char.toNat).length :=
    List.length_map _ |>.symm
  simp only [text, List.cons_append, readText, Option.some.injEq, Prod.mk.injEq]
  rw [length, List.take_left', List.drop_left', characters, String.ofList_toList]
  · exact ⟨rfl, rfl⟩
  · rfl
  · rfl

def operation : Operation → List Nat
  | .put => [0]
  | .delete => [1]
  | .cas => [2]
  | .noop => [3]
  | .other name => 4 :: text name

def readOperation : List Nat → Option (Operation × List Nat)
  | 0 :: rest => some (.put, rest)
  | 1 :: rest => some (.delete, rest)
  | 2 :: rest => some (.cas, rest)
  | 3 :: rest => some (.noop, rest)
  | 4 :: rest => (readText rest).map fun (name, rest) => (.other name, rest)
  | _ => none

theorem readOperation_operation (op : Operation) (rest : List Nat) :
    readOperation (operation op ++ rest) = some (op, rest) := by
  cases op with
  | put | delete | cas | noop => rfl
  | other name =>
      simp only [operation, List.cons_append, readOperation, readText_text, Option.map_some]

def record : WalRecord → List Nat
  | .base index term => [0, index, term]
  | .entry ⟨index, term, ⟨op, key, value, expected⟩⟩ =>
      1 :: index :: term :: (operation op ++ (text key ++ (text value ++ (text expected ++ []))))

def readRecord : List Nat → Option WalRecord
  | [0, index, term] => some (.base index term)
  | 1 :: index :: term :: rest => do
      let (op, rest) ← readOperation rest
      let (key, rest) ← readText rest
      let (value, rest) ← readText rest
      let (expected, _) ← readText rest
      return .entry ⟨index, term, ⟨op, key, value, expected⟩⟩
  | _ => none

theorem readRecord_record (stored : WalRecord) : readRecord (record stored) = some stored := by
  rcases stored with ⟨index, term⟩ | ⟨index, term, ⟨op, key, value, expected⟩⟩
  · rfl
  · simp only [record, readRecord, readOperation_operation, readText_text, Option.bind_eq_bind,
      Option.bind_some, Option.pure_def]

theorem write_record_ne_nil (stored : WalRecord) : write (record stored) ≠ [] := by
  intro empty
  have numbers := read_write (record stored)
  rw [empty] at numbers
  have decoded := readRecord_record stored
  rw [← numbers] at decoded
  cases decoded

end GoRaftKV.Storage.Tally
