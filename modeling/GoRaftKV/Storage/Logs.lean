import GoRaftKV.Storage.Types

namespace GoRaftKV.Storage

variable {start : Nat} {entries front back : List LogEntry} {entry : LogEntry}

@[simp] theorem contiguous_nil (start : Nat) : Contiguous start [] := by
  intro position entry present
  cases present

@[simp] theorem contiguous_cons : Contiguous start (entry :: entries) ↔
    entry.index = start + 1 ∧ Contiguous (start + 1) entries := by
  constructor
  · intro contiguous
    refine ⟨by simpa using contiguous 0 entry rfl, ?_⟩
    intro position other present
    have index := contiguous (position + 1) other (by simpa using present)
    omega
  · rintro ⟨first, rest⟩ position other present
    cases position with
    | zero =>
        simp only [List.getElem?_cons_zero, Option.some.injEq] at present
        rw [← present, first]
    | succ position =>
        have index := rest position other (by simpa using present)
        omega

@[simp] theorem contiguous_append : Contiguous start (front ++ back) ↔
    Contiguous start front ∧ Contiguous (start + front.length) back := by
  induction front generalizing start with
  | nil => simp
  | cons head tail ih =>
      simp only [List.cons_append, contiguous_cons, ih, List.length_cons, and_assoc]
      have shift : start + (tail.length + 1) = start + 1 + tail.length := by omega
      rw [shift]

theorem Contiguous.take (contiguous : Contiguous start entries) (count : Nat) :
    Contiguous start (entries.take count) := by
  rw [← List.take_append_drop count entries] at contiguous
  exact (contiguous_append.mp contiguous).1

theorem Contiguous.drop (contiguous : Contiguous start entries) (count : Nat) :
    Contiguous (start + count) (entries.drop count) := by
  intro position entry present
  rw [List.getElem?_drop] at present
  have index := contiguous _ entry present
  omega

theorem Contiguous.initial (contiguous : Contiguous start entries) (initial : front <+: entries) :
    Contiguous start front := by
  obtain ⟨rest, rfl⟩ := initial
  exact (contiguous_append.mp contiguous).1

theorem Contiguous.mem (contiguous : Contiguous start entries) (member : entry ∈ entries) :
    start < entry.index ∧ entry.index ≤ start + entries.length := by
  obtain ⟨position, bound, rfl⟩ := List.mem_iff_getElem.mp member
  have index := contiguous position _ (List.getElem?_eq_getElem bound)
  omega

theorem Contiguous.position (contiguous : Contiguous start entries) (member : entry ∈ entries) :
    entries[entry.index - start - 1]? = some entry := by
  obtain ⟨position, bound, same⟩ := List.mem_iff_getElem.mp member
  have index := contiguous position entry (by rw [List.getElem?_eq_getElem bound, same])
  have offset : entry.index - start - 1 = position := by omega
  rw [offset, List.getElem?_eq_getElem bound, same]

theorem Contiguous.getLast (contiguous : Contiguous start entries)
    (last : entries.getLast? = some entry) : entry.index = start + entries.length := by
  have nonempty : entries ≠ [] := by
    rintro rfl
    cases last
  have positive := List.length_pos_iff.mpr nonempty
  rw [List.getLast?_eq_getElem?] at last
  have index := contiguous _ entry last
  omega

theorem Contiguous.lastIndex {snapshot : Snapshot}
    (contiguous : Contiguous snapshot.lastIncludedIndex entries) :
    lastIndex snapshot entries = snapshot.lastIncludedIndex + entries.length := by
  unfold Storage.lastIndex
  cases last : entries.getLast? with
  | none => simp [List.getLast?_eq_none_iff.mp last]
  | some entry => exact contiguous.getLast last

theorem Contiguous.filter_lt (contiguous : Contiguous start entries) {index : Nat}
    (after : start ≤ index) :
    (entries.filter fun entry => index < entry.index) = entries.drop (index - start) := by
  induction entries generalizing start with
  | nil => simp
  | cons head tail ih =>
      obtain ⟨first, rest⟩ := contiguous_cons.mp contiguous
      rcases after.eq_or_lt with rfl | later
      · have all : ∀ entry ∈ head :: tail, start < entry.index :=
          fun entry member => (contiguous.mem member).1
        simp only [Nat.sub_self, List.drop_zero]
        exact List.filter_eq_self.mpr fun entry member => decide_eq_true (all entry member)
      · have skip : ¬ index < head.index := by omega
        have shift : index - start = index - (start + 1) + 1 := by omega
        rw [List.filter_cons_of_neg (by simpa using skip), shift, List.drop_succ_cons]
        exact ih rest later

theorem Contiguous.filter_le (contiguous : Contiguous start entries) {index : Nat}
    (after : start < index) :
    (entries.filter fun entry => index ≤ entry.index) = entries.drop (index - start - 1) := by
  obtain ⟨previous, rfl⟩ : ∃ previous, index = previous + 1 := ⟨index - 1, by omega⟩
  have shift : previous + 1 - start - 1 = previous - start := by omega
  rw [shift]
  exact contiguous.filter_lt (by omega)

theorem Contiguous.takeWhile_le (contiguous : Contiguous start entries) (index : Nat) :
    (entries.takeWhile fun entry => entry.index ≤ index) = entries.take (index - start) := by
  induction entries generalizing start with
  | nil => simp
  | cons head tail ih =>
      obtain ⟨first, rest⟩ := contiguous_cons.mp contiguous
      rcases Nat.lt_or_ge start index with inside | outside
      · have keep : head.index ≤ index := by omega
        have shift : index - start = index - (start + 1) + 1 := by omega
        rw [List.takeWhile_cons_of_pos (by simpa using keep), shift, List.take_succ_cons, ih rest]
      · have stop : ¬ head.index ≤ index := by omega
        rw [List.takeWhile_cons_of_neg (by simpa using stop), Nat.sub_eq_zero_of_le outside,
          List.take_zero]

theorem Contiguous.find (contiguous : Contiguous start entries) (index : Nat) :
    (entries.find? fun entry => entry.index = index) =
      if start < index then entries[index - start - 1]? else none := by
  induction entries generalizing start with
  | nil => simp
  | cons head tail ih =>
      obtain ⟨first, rest⟩ := contiguous_cons.mp contiguous
      by_cases here : head.index = index
      · have inside : start < index := by omega
        have offset : index - start - 1 = 0 := by omega
        simp [here, inside, offset]
      · rw [List.find?_cons_of_neg (by simpa using here), ih rest]
        rcases Nat.lt_or_ge (start + 1) index with inside | outside
        · have shift : index - start - 1 = index - (start + 1) - 1 + 1 := by omega
          rw [if_pos inside, if_pos (by omega), shift, List.getElem?_cons_succ]
        · rw [if_neg (by omega), if_neg (by omega)]

end GoRaftKV.Storage
