import Mathlib.Data.List.Basic

/-! Files made of lines that each end in a separator, and what a cut at any position leaves of
them. -/

namespace GoRaftKV.Library

variable {α : Type} {sep : α} {line tail text : List α} {lines more : List (List α)}

def joinLines (sep : α) (lines : List (List α)) : List α := lines.flatMap (· ++ [sep])

def Plain (sep : α) (lines : List (List α)) : Prop := ∀ line ∈ lines, sep ∉ line

@[simp] theorem joinLines_nil : joinLines sep [] = [] := rfl

@[simp] theorem joinLines_cons :
    joinLines sep (line :: lines) = line ++ sep :: joinLines sep lines := by
  simp [joinLines]

@[simp] theorem joinLines_append :
    joinLines sep (lines ++ more) = joinLines sep lines ++ joinLines sep more := List.flatMap_append

@[simp] theorem plain_nil : Plain sep [] := by
  intro line member
  cases member

@[simp] theorem plain_cons : Plain sep (line :: lines) ↔ sep ∉ line ∧ Plain sep lines :=
  List.forall_mem_cons

theorem Plain.append (front : Plain sep lines) (back : Plain sep more) :
    Plain sep (lines ++ more) := by
  intro line member
  rcases List.mem_append.mp member with old | new
  · exact front line old
  · exact back line new

/-- How many of the lines lie, with their separators, within the first `cut` letters. -/
def wholeLines (cut : Nat) : List (List α) → Nat
  | [] => 0
  | line :: lines =>
      if line.length + 1 ≤ cut then wholeLines (cut - (line.length + 1)) lines + 1 else 0

theorem wholeLines_zero (lines : List (List α)) : wholeLines 0 lines = 0 := by
  cases lines with
  | nil => rfl
  | cons line lines => simp [wholeLines]

theorem wholeLines_all (sep : α) (lines : List (List α)) :
    wholeLines (joinLines sep lines).length lines = lines.length := by
  induction lines with
  | nil => rfl
  | cons line lines ih =>
      have size : (joinLines sep (line :: lines)).length =
          line.length + 1 + (joinLines sep lines).length := by
        simp
        omega
      have fits : line.length + 1 ≤ line.length + 1 + (joinLines sep lines).length := by omega
      rw [size, wholeLines, if_pos fits, Nat.add_sub_cancel_left, ih, List.length_cons]

theorem take_joinLines (plain : Plain sep lines) (cut : Nat) :
    ∃ piece, sep ∉ piece ∧
      (joinLines sep lines).take cut = joinLines sep (lines.take (wholeLines cut lines)) ++
        piece := by
  induction lines generalizing cut with
  | nil => exact ⟨[], List.not_mem_nil, by simp⟩
  | cons line lines ih =>
      rw [plain_cons] at plain
      by_cases fits : line.length + 1 ≤ cut
      · rcases ih plain.2 (cut - (line.length + 1)) with ⟨piece, clean, cutLines⟩
        refine ⟨piece, clean, ?_⟩
        have front : (line ++ [sep]).length ≤ cut := by simpa using fits
        have start : joinLines sep (line :: lines) = (line ++ [sep]) ++ joinLines sep lines := by
          simp
        rw [start, List.take_append, List.take_of_length_le front]
        simp only [List.length_append, List.length_singleton, wholeLines, if_pos fits,
          List.take_succ_cons]
        rw [cutLines, joinLines_cons]
        simp
      · refine ⟨line.take cut, fun member => plain.1 (List.mem_of_mem_take member), ?_⟩
        simp only [wholeLines, if_neg fits, List.take_zero, joinLines_nil, List.nil_append,
          joinLines_cons]
        exact List.take_append_of_le_length (by omega)

/-- The lines that new ones become after an unfinished one. -/
def glue (tail : List α) : List (List α) → List (List α)
  | [] => []
  | line :: lines => (tail ++ line) :: lines

theorem glue_nil (lines : List (List α)) : glue [] lines = lines := by
  cases lines <;> rfl

section Split

variable [DecidableEq α]

/-- The complete lines of a text, without their separators, and what follows the last one. -/
def splitLines (sep : α) : List α → List (List α) × List α
  | [] => ([], [])
  | letter :: rest =>
      if letter = sep then ([] :: (splitLines sep rest).1, (splitLines sep rest).2)
      else
        match splitLines sep rest with
        | ([], tail) => ([], letter :: tail)
        | (line :: lines, tail) => ((letter :: line) :: lines, tail)

theorem splitLines_tail (clean : sep ∉ tail) : splitLines sep tail = ([], tail) := by
  induction tail with
  | nil => rfl
  | cons letter rest ih =>
      simp only [List.mem_cons, not_or] at clean
      simp only [splitLines, if_neg (Ne.symm clean.1), ih clean.2]

theorem splitLines_line (clean : sep ∉ line) :
    splitLines sep (line ++ sep :: text) =
      (line :: (splitLines sep text).1, (splitLines sep text).2) := by
  induction line with
  | nil => simp only [List.nil_append, splitLines, if_pos]
  | cons letter rest ih =>
      simp only [List.mem_cons, not_or] at clean
      simp only [List.cons_append, splitLines, if_neg (Ne.symm clean.1), ih clean.2]

theorem splitLines_join (plain : Plain sep lines) (clean : sep ∉ tail) :
    splitLines sep (joinLines sep lines ++ tail) = (lines, tail) := by
  induction lines with
  | nil => exact splitLines_tail clean
  | cons line lines ih =>
      rw [plain_cons] at plain
      rw [joinLines_cons, List.append_assoc, List.cons_append, splitLines_line plain.1, ih plain.2]

theorem splitLines_joinLines (plain : Plain sep lines) :
    splitLines sep (joinLines sep lines) = (lines, []) := by
  have read : splitLines sep (joinLines sep lines ++ []) = (lines, []) :=
    splitLines_join plain List.not_mem_nil
  rwa [List.append_nil] at read

theorem splitLines_eq (sep : α) (text : List α) :
    text = joinLines sep (splitLines sep text).1 ++ (splitLines sep text).2 ∧
      Plain sep (splitLines sep text).1 ∧ sep ∉ (splitLines sep text).2 := by
  induction text with
  | nil => exact ⟨rfl, plain_nil, List.not_mem_nil⟩
  | cons letter rest ih =>
      rcases ih with ⟨whole, plain, clean⟩
      by_cases ends : letter = sep
      · simp only [splitLines, if_pos ends]
        refine ⟨?_, plain_cons.mpr ⟨List.not_mem_nil, plain⟩, clean⟩
        rw [joinLines_cons, List.nil_append, List.cons_append, ← whole, ends]
      · simp only [splitLines, if_neg ends]
        split
        · rename_i unfinished read
          rw [read] at whole clean
          refine ⟨?_, plain_nil, ?_⟩
          · rw [whole]
            rfl
          · simp only [List.mem_cons, not_or]
            exact ⟨Ne.symm ends, clean⟩
        · rename_i first others unfinished read
          rw [read] at whole plain clean
          rw [plain_cons] at plain
          refine ⟨?_, plain_cons.mpr ⟨?_, plain.2⟩, clean⟩
          · rw [whole]
            simp only [joinLines_cons, List.cons_append]
          · simp only [List.mem_cons, not_or]
            exact ⟨Ne.symm ends, plain.1⟩

theorem splitLines_take (sep : α) (text : List α) (cut : Nat) :
    (splitLines sep (text.take cut)).1 <+: (splitLines sep text).1 := by
  induction text generalizing cut with
  | nil => simp
  | cons letter rest ih =>
      cases cut with
      | zero => exact List.nil_prefix
      | succ cut =>
          rw [List.take_succ_cons]
          by_cases ends : letter = sep
          · simp only [splitLines, if_pos ends]
            exact List.cons_prefix_cons.mpr ⟨rfl, ih cut⟩
          · have shorter := ih cut
            simp only [splitLines, if_neg ends]
            generalize splitLines sep (rest.take cut) = left at shorter ⊢
            generalize splitLines sep rest = whole at shorter ⊢
            rcases left with ⟨_ | ⟨line, lines⟩, unfinished⟩
            · exact List.nil_prefix
            · rcases whole with ⟨_ | ⟨first, others⟩, tail⟩
              · cases List.prefix_nil.mp shorter
              · rcases List.cons_prefix_cons.mp shorter with ⟨rfl, more⟩
                exact List.cons_prefix_cons.mpr ⟨rfl, more⟩

theorem splitLines_append (text : List α) (plain : Plain sep more) (cut : Nat) :
    (splitLines sep (text ++ (joinLines sep more).take cut)).1 =
      (splitLines sep text).1 ++ glue (splitLines sep text).2
      (more.take (wholeLines cut more)) := by
  rcases take_joinLines plain cut with ⟨piece, clean, written⟩
  have whole := splitLines_eq sep text
  generalize splitLines sep text = parts at whole ⊢
  rcases parts with ⟨lines, tail⟩
  rcases whole with ⟨rfl, earlier, unended⟩
  have arrived : Plain sep (more.take (wholeLines cut more)) :=
    fun line member => plain line (List.mem_of_mem_take member)
  rw [written]
  generalize more.take (wholeLines cut more) = new at arrived ⊢
  cases new with
  | nil =>
      have behind : sep ∉ tail ++ piece := by
        simp only [List.mem_append, not_or]
        exact ⟨unended, clean⟩
      rw [joinLines_nil, List.nil_append, List.append_assoc, splitLines_join earlier behind]
      simp [glue]
  | cons line new =>
      rw [plain_cons] at arrived
      have joined : Plain sep (lines ++ (tail ++ line) :: new) := by
        apply earlier.append
        rw [plain_cons]
        refine ⟨?_, arrived.2⟩
        simp only [List.mem_append, not_or]
        exact ⟨unended, arrived.1⟩
      have same : joinLines sep lines ++ tail ++ (joinLines sep (line :: new) ++ piece) =
          joinLines sep (lines ++ (tail ++ line) :: new) ++ piece := by
        simp
      rw [same, splitLines_join joined clean]
      rfl

end Split

end GoRaftKV.Library
