import GoRaftKV.Library.Json
import Mathlib.Data.Fin.Basic
import Mathlib.Data.List.FinRange

/-! Record types as tables of typed fields, and the JSON objects they are written as. -/

namespace GoRaftKV.Library.Json

/-- A type with its JSON form. A value is decoded on top of the one that is there, and what was
written comes back where nothing has been decoded yet. An empty value may be left out. -/
structure Kind where
  Carrier : Type
  zero : Carrier
  empty : Carrier → Bool
  write : Carrier → Value
  assign : Carrier → Value → Carrier × Bool
  empty_zero : ∀ value, empty value = true → value = zero
  assign_write : ∀ value, assign zero (write value) = (value, true)

/-! ### Sequences -/

section

variable (kind : Kind)

/-- The elements that are there already are decoded on top of. -/
def Kind.assignItems : List kind.Carrier → List Value → List kind.Carrier × Bool
  | _, [] => ([], true)
  | old, item :: items =>
      let (value, ok) := kind.assign (old.headD kind.zero) item
      let (values, rest) := assignItems old.tail items
      (value :: values, ok && rest)

theorem Kind.assignItems_write (values : List kind.Carrier) :
    kind.assignItems [] (values.map kind.write) = (values, true) := by
  induction values with
  | nil => rfl
  | cons value values ih => simp [assignItems, kind.assign_write, ih]

def Kind.list : Kind where
  Carrier := List kind.Carrier
  zero := []
  empty values := values.isEmpty
  write values := .array (values.map kind.write)
  assign old
    | .array items => kind.assignItems old items
    | .null => ([], true)
    | _ => (old, false)
  empty_zero _ := List.isEmpty_iff.mp
  assign_write values := kind.assignItems_write values

end

/-! ### Records -/

structure Slot (Record : Type) where
  name : String
  kind : Kind
  omitEmpty : Bool := false
  get : Record → kind.Carrier
  set : Record → kind.Carrier → Record

section

variable {Record : Type}

def Slot.assign (slot : Slot Record) (record : Record) (json : Value) : Record × Bool :=
  let (value, ok) := slot.kind.assign (slot.get record) json
  (slot.set record value, ok)

def Slot.member (slot : Slot Record) (record : Record) : List (String × Value) :=
  Json.member (!(slot.omitEmpty && slot.kind.empty (slot.get record))) slot.name
    (slot.kind.write (slot.get record))

/-- Setting the fields one after another leads from `state` to `record`, and each of them is still
zero when its turn comes. -/
def Fresh (record : Record) : Record → List (Slot Record) → Prop
  | state, [] => state = record
  | state, slot :: slots =>
      slot.get state = slot.kind.zero ∧ slot.set state slot.kind.zero = state ∧
        Fresh record (slot.set state (slot.get record)) slots

/-- The fields of a record type, in the order in which they are written. For a structure with a slot
for each field, both conditions are found by evaluation. -/
structure Schema (Record : Type) where
  zero : Record
  slots : List (Slot Record)
  distinct : (slots.map fun slot => foldName slot.name).Nodup := by decide +kernel
  fresh : ∀ record, Fresh record zero slots := by
    intro record
    repeat refine ⟨rfl, rfl, ?_⟩
    rfl

variable (schema : Schema Record)

theorem Schema.found (field : Fin schema.slots.length) :
    ((List.finRange schema.slots.length).find? fun other =>
      foldName (schema.slots.get other).name = foldName (schema.slots.get field).name) =
        some field := by
  have only : ∀ other : Fin schema.slots.length,
      foldName (schema.slots.get other).name = foldName (schema.slots.get field).name →
        other = field := by
    intro other same
    have placed := List.nodup_iff_injective_get.mp schema.distinct
    have equal := @placed (other.cast (by simp)) (field.cast (by simp)) (by simpa using same)
    simpa [Fin.ext_iff] using equal
  rw [List.find?_eq_some_iff_append]
  refine ⟨by simp, ?_⟩
  obtain ⟨front, back, split⟩ := List.append_of_mem (List.mem_finRange field)
  refine ⟨front, back, split, fun other member => ?_⟩
  have apart : other ≠ field := by
    rintro rfl
    have once := split ▸ List.nodup_finRange schema.slots.length
    exact (List.nodup_append.mp once).2.2 other member other (by simp) rfl
  simpa using fun same => apart (only other same)

def Schema.layout : Layout (Fin schema.slots.length) Record where
  fields := List.finRange schema.slots.length
  name field := (schema.slots.get field).name
  assign record field := (schema.slots.get field).assign record
  found := schema.found

def Schema.members (record : Record) : List (String × Value) :=
  schema.slots.flatMap fun slot => slot.member record

variable {schema}

theorem Schema.assign_slots {record : Record} {done slots : List (Slot Record)}
    (split : schema.slots = done ++ slots) (state : Record) (fresh : Fresh record state slots) :
    schema.layout.assignMembers (state, true) (slots.flatMap fun slot => slot.member record) =
      (record, true) := by
  induction slots generalizing done state with
  | nil => exact congrArg (·, true) fresh
  | cons slot slots ih =>
      obtain ⟨untouched, idle, later⟩ := fresh
      have bound : done.length < schema.slots.length := by simp [split]
      have placed : schema.slots.get ⟨done.length, bound⟩ = slot := by simp [split]
      have assigned : schema.layout.assign state ⟨done.length, bound⟩
          (slot.kind.write (slot.get record)) = (slot.set state (slot.get record), true) := by
        change (schema.slots.get ⟨done.length, bound⟩).assign state _ = _
        rw [placed, Slot.assign, untouched, slot.kind.assign_write]
      have named : schema.layout.name ⟨done.length, bound⟩ = slot.name := congrArg Slot.name placed
      have absent : (!(slot.omitEmpty && slot.kind.empty (slot.get record))) = false →
          slot.set state (slot.get record) = state := by
        intro left
        have empty : slot.kind.empty (slot.get record) = true := by
          simp only [Bool.not_eq_eq_eq_not, Bool.not_false, Bool.and_eq_true] at left
          exact left.2
        rw [slot.kind.empty_zero _ empty, idle]
      rw [List.flatMap_cons, Slot.member, ← named, Layout.assignMembers_member assigned absent]
      exact ih (split.trans (List.append_cons done slot slots)) _ later

theorem Schema.assign_members (record : Record) :
    schema.layout.assignMembers (schema.zero, true) (schema.members record) = (record, true) :=
  assign_slots (List.nil_append _).symm schema.zero (schema.fresh record)

variable (schema)

/-- A record within another one. It is never left out. -/
def Kind.struct : Kind where
  Carrier := Record
  zero := schema.zero
  empty _ := false
  write record := .object (schema.members record)
  assign := schema.layout.assignValue
  empty_zero _ empty := nomatch empty
  assign_write := schema.assign_members

def Schema.marshal (escaping : Escaping) (record : Record) : List UInt8 :=
  encodeUtf8 (write escaping (.object (schema.members record)))

/-- The record that is decoded from some bytes, unless there is an error. -/
def Schema.unmarshal (bytes : List UInt8) : Option Record :=
  match schema.layout.unmarshal schema.zero (decodeUtf8 bytes) with
  | (record, true) => some record
  | (_, false) => none

theorem Schema.unmarshal_marshal (escaping : Escaping) (record : Record) :
    schema.unmarshal (schema.marshal escaping record) = some record := by
  have decoded : schema.layout.unmarshal schema.zero (decodeUtf8 (schema.marshal escaping record)) =
      (record, true) := by
    rw [marshal, decodeUtf8_encodeUtf8, Layout.unmarshal, parse_write]
    exact schema.assign_members record
  rw [unmarshal, decoded]

end

end GoRaftKV.Library.Json
