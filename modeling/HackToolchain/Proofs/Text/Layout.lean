import Mathlib.Logic.Relation
import HackToolchain.Proofs.Text.Comment
import HackToolchain.Proofs.Text.Pieces
import HackToolchain.Proofs.Text.Scan

/-!
# Texts that are laid out differently

The lines of a text are its pieces between line feeds, whatever ends them. `Changes` relates them to
the lines of another text, in which single lines were edited and lines that say nothing were put in,
and keeps track of where each line is now. If no edit changes how a line is read then a scan finds
the same, with every line number brought to its new place.
-/

namespace HackToolchain

namespace Text

/-- Blanks that end no line. -/
def IsGap (gap : List Char) : Prop :=
  ∀ c ∈ gap, isBlank c = true ∧ c ≠ '\n'

instance (gap : List Char) : Decidable (IsGap gap) :=
  inferInstanceAs (Decidable (∀ c ∈ gap, isBlank c = true ∧ c ≠ '\n'))

theorem IsGap.blank {gap : List Char} (h : IsGap gap) : ∀ c ∈ gap, isBlank c = true :=
  fun c hc => (h c hc).1

/-- A line that is blank or has nothing but a comment. -/
inductive IsSilent : List Char → Prop
  | blank {gap : List Char} (hgap : IsGap gap) : IsSilent gap
  | comment {gap comment : List Char} (hgap : IsGap gap) (hcomment : '\n' ∉ comment) :
      IsSilent (gap ++ '/' :: '/' :: comment)

theorem IsSilent.code_eq {line : List Char} (h : IsSilent line) : code line = [] := by
  cases h with
  | @blank gap hgap =>
      have hcode := code_blanks_append hgap.blank []
      rwa [List.append_nil] at hcode
  | comment hgap hcomment => rw [code_blanks_append hgap.blank, code_comment]

/-- The number of a line after another line was put in behind the first `count` lines. -/
def shift (count line : Nat) : Nat :=
  if line ≤ count then line else line + 1

section Changes

/-- A line is edited, or a line that says nothing is put in. The function takes the number of a
line, counted from one, to its new number. -/
inductive Change (edit : List Char → List Char → Prop) :
    List (List Char) → (Nat → Nat) → List (List Char) → Prop
  | edit (before after : List (List Char)) {line line' : List Char} (h : edit line line') :
      Change edit (before ++ line :: after) id (before ++ line' :: after)
  | insert (before after : List (List Char)) {line : List Char} (h : IsSilent line) :
      Change edit (before ++ after) (shift before.length) (before ++ line :: after)

inductive Changes (edit : List Char → List Char → Prop) :
    List (List Char) → (Nat → Nat) → List (List Char) → Prop
  | refl (parts : List (List Char)) : Changes edit parts id parts
  | step {parts mid parts' : List (List Char)} {place next : Nat → Nat}
      (h : Changes edit parts place mid) (hnext : Change edit mid next parts') :
      Changes edit parts (next ∘ place) parts'

variable {edit : List Char → List Char → Prop} {parts parts' : List (List Char)} {place : Nat → Nat}

/-- A change leaves every line, edited or not, at its new number. -/
theorem Change.exists_line (h : Change edit parts place parts') {k : Nat} {line : List Char}
    (hline : parts[k]? = some line) : ∃ k' line', place (k + 1) = k' + 1 ∧
      parts'[k']? = some line' ∧ Relation.ReflTransGen edit line line' := by
  cases h with
  | @edit before after old new hedit =>
      refine ⟨k, if k = before.length then new else line, rfl, ?_⟩
      rw [List.getElem?_append] at hline ⊢
      by_cases hlt : k < before.length
      · rw [if_pos hlt] at hline ⊢
        rw [if_neg (Nat.ne_of_lt hlt)]
        exact ⟨hline, .refl⟩
      · obtain ⟨i, rfl⟩ := Nat.exists_eq_add_of_le (Nat.le_of_not_lt hlt)
        rw [if_neg hlt, Nat.add_sub_cancel_left] at hline ⊢
        cases i with
        | zero =>
            obtain rfl : old = line := Option.some.inj hline
            rw [if_pos (Nat.add_zero _)]
            exact ⟨rfl, .single hedit⟩
        | succ i =>
            rw [if_neg (by omega)]
            exact ⟨hline, .refl⟩
  | insert before after hsilent =>
      rw [List.getElem?_append] at hline
      by_cases hlt : k < before.length
      · rw [if_pos hlt] at hline
        refine ⟨k, line, if_pos (Nat.succ_le_of_lt hlt), ?_, .refl⟩
        rw [List.getElem?_append_left hlt, hline]
      · rw [if_neg hlt] at hline
        refine ⟨k + 1, line, if_neg (by omega), ?_, .refl⟩
        rw [List.getElem?_append_right (by omega), Nat.succ_sub (Nat.le_of_not_lt hlt), ← hline]
        rfl

theorem Changes.exists_line (h : Changes edit parts place parts') {k : Nat} {line : List Char}
    (hline : parts[k]? = some line) : ∃ k' line', place (k + 1) = k' + 1 ∧
      parts'[k']? = some line' ∧ Relation.ReflTransGen edit line line' := by
  induction h with
  | refl => exact ⟨k, line, rfl, hline, .refl⟩
  | step _ hnext ih =>
      obtain ⟨i, mid, hplace, hmid, hedits⟩ := ih
      obtain ⟨k', line', hplace', hline', hedits'⟩ := hnext.exists_line hmid
      exact ⟨k', line', by rw [Function.comp_apply, hplace, hplace'], hline', hedits.trans hedits'⟩

end Changes

def Numbered.relocate {α : Type} (place : Nat → Nat) (entry : Numbered α) : Numbered α :=
  ⟨place entry.line, entry.value⟩

variable {ε α : Type}

def Scan.relocate (place : Nat → Nat) (found : Scan ε α) : Scan ε α :=
  ⟨found.items.map (Numbered.relocate place), found.fault?.map (Numbered.relocate place)⟩

theorem Scan.relocate_id (found : Scan ε α) : found.relocate id = found := by
  obtain ⟨items, fault?⟩ := found
  have hid {β : Type} : (Numbered.relocate id : Numbered β → Numbered β) = id := rfl
  simp [relocate, hid]

theorem Scan.relocate_relocate (found : Scan ε α) (place next : Nat → Nat) :
    (found.relocate place).relocate next = found.relocate (next ∘ place) := by
  simp only [relocate, List.map_map, Option.map_map]
  rfl

theorem Scan.relocate_prepend (found : Scan ε α) (place : Nat → Nat) (line : Nat)
    (result : Except ε (Option α)) :
    (found.prepend line result).relocate place =
      (found.relocate place).prepend (place line) result := by
  rcases result with fault | _ | item <;> rfl

variable {read : String → Except ε (Option α)}

theorem scanLines_relocate {place : Nat → Nat} {first first' : Nat}
    (h : ∀ k, place (first + k) = first' + k) (ls : List String) :
    scanLines read first' ls = (scanLines read first ls).relocate place := by
  induction ls generalizing first first' with
  | nil => rfl
  | cons line ls ih =>
      have hfirst : place first = first' := h 0
      have hnext (k : Nat) : place (first + 1 + k) = first' + 1 + k := by
        rw [Nat.add_assoc, Nat.add_assoc, h]
      rw [scanLines_cons, scanLines_cons, Scan.relocate_prepend, hfirst, ih hnext]

/-- A line that says nothing, put in among others, only moves the lines behind it. -/
theorem scanLines_insert {line : String} (h : read line = .ok none) (offset : Nat)
    (before after : List String) :
    scanLines read (offset + 1) (before ++ line :: after) =
      (scanLines read (offset + 1) (before ++ after)).relocate
        (shift (offset + before.length)) := by
  induction before generalizing offset with
  | nil =>
      rw [List.nil_append, scanLines_cons, h, List.nil_append]
      refine scanLines_relocate (fun k => ?_) after
      rw [shift, List.length_nil, if_neg (by omega)]
      omega
  | cons l before ih =>
      have hfirst : shift (offset + (l :: before).length) (offset + 1) = offset + 1 := by
        rw [shift, List.length_cons, if_pos (by omega)]
      rw [List.cons_append, List.cons_append, scanLines_cons, scanLines_cons, ih (offset + 1),
        Scan.relocate_prepend, hfirst, List.length_cons, Nat.add_assoc offset 1,
        Nat.add_comm 1 before.length]

theorem scanLines_congr {ls ls' : List String} (h : ls'.map read = ls.map read) (first : Nat) :
    scanLines read first ls' = scanLines read first ls := by
  induction ls generalizing first ls' with
  | nil =>
      obtain rfl : ls' = [] := by simpa using h
      rfl
  | cons line ls ih =>
      obtain ⟨line', rest, rfl, hline, hrest⟩ := List.map_eq_cons_iff.1 h
      rw [scanLines_cons, scanLines_cons, hline, ih hrest]

theorem scanLines_append_silent {line : String} (h : read line = .ok none) (first : Nat)
    (ls : List String) : scanLines read first (ls ++ [line]) = scanLines read first ls := by
  induction ls generalizing first with
  | nil =>
      rw [List.nil_append, scanLines_cons, h]
      rfl
  | cons l ls ih => rw [List.cons_append, scanLines_cons, scanLines_cons, ih]

/-- Reads the pieces of a text between line feeds. -/
def scanPieces (read : String → Except ε (Option α)) (parts : List (List Char)) : Scan ε α :=
  scanLines read 1 (parts.map String.ofList)

/-- A reader to which line endings are blanks reads the pieces of a text as its lines. -/
theorem scan_eq_scanPieces
    (hreturn : ∀ cs, read (String.ofList (dropReturn cs)) = read (String.ofList cs))
    (hempty : read (String.ofList []) = .ok none) (text : String) :
    scan read text = scanPieces read (pieces isLineFeed text.toList) := by
  have hne := pieces_ne_nil isLineFeed text.toList
  have hsplit := List.dropLast_append_getLast hne
  rw [scan, lines, linesOf, List.getLast?_eq_some_getLast hne, scanPieces]
  generalize (pieces isLineFeed text.toList).dropLast = ended at hsplit ⊢
  generalize (pieces isLineFeed text.toList).getLast hne = last at hsplit ⊢
  have hended : ((ended.map dropReturn).map String.ofList).map read =
      (ended.map String.ofList).map read := by
    simp [hreturn]
  rw [← hsplit, List.map_append, List.map_append]
  cases last with
  | nil =>
      rw [List.map_singleton, scanLines_append_silent hempty]
      refine scanLines_congr (Eq.trans ?_ hended) 1
      simp
  | cons c last =>
      refine scanLines_congr ?_ 1
      rw [List.map_append, List.map_append, hended]
      rfl

/-- Changes move what a scan finds and change nothing about it, if no edit changes how a line is
read and lines that say nothing are read as nothing. -/
theorem Changes.scanPieces_eq {edit : List Char → List Char → Prop}
    {parts parts' : List (List Char)} {place : Nat → Nat}
    (hedit : ∀ line line', edit line line' → read (String.ofList line') = read (String.ofList line))
    (hsilent : ∀ line, IsSilent line → read (String.ofList line) = .ok none)
    (h : Changes edit parts place parts') :
    scanPieces read parts' = (scanPieces read parts).relocate place := by
  induction h with
  | refl => rw [Scan.relocate_id]
  | @step mid parts' place next _ hnext ih =>
      rw [← Scan.relocate_relocate, ← ih]
      cases hnext with
      | edit before after hline =>
          rw [Scan.relocate_id]
          exact scanLines_congr (by simp [hedit _ _ hline]) 1
      | insert before after hline =>
          have hinsert := scanLines_insert (hsilent _ hline) 0 (before.map String.ofList)
            (after.map String.ofList)
          rw [Nat.zero_add, Nat.zero_add, List.length_map] at hinsert
          rw [scanPieces, scanPieces, List.map_append, List.map_append, List.map_cons]
          exact hinsert

end Text

end HackToolchain
