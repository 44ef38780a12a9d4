import HackToolchain.Proofs.Assembly.Grammar
import HackToolchain.Proofs.Text.Layout

/-!
# Layout does not change assembled code

Blanks around a line, blanks inside of a compute instruction, comments behind a line and lines that
say nothing are layout. The phases of the assembler carry the number of a line along and look at
nothing else of where a statement stands, so a text that is laid out differently has the same words
or the same fault, on the line where the source line at fault is now. There is one exception: a
slash at the end of a line and the two slashes of a comment behind it make a comment that begins one
character too early.
-/

namespace HackToolchain

namespace Assembly

open Text (Numbered IsGap TakesComment Changes Change)

/-- Layout of a single line: blanks at one of its ends, a comment behind it if the line takes one,
or blanks inside of what it says if that is a compute instruction. The carriage return of a line
ending may be behind the place of the edit. -/
inductive LineEdit (takes : List Char → Prop) : List Char → List Char → Prop
  | lead {gap line : List Char} (hgap : IsGap gap) : LineEdit takes line (gap ++ line)
  | trail {gap line : List Char} (hgap : IsGap gap) : LineEdit takes line (line ++ gap)
  | comment {line comment : List Char} (htakes : takes line) (hcomment : '\n' ∉ comment) :
      LineEdit takes line (line ++ '/' :: '/' :: comment)
  | inside {lead front back tail gap : List Char} (hlead : ∀ c ∈ lead, Text.isBlank c = true)
      (hcode : Text.code (lead ++ (front ++ back) ++ tail) = front ++ back)
      (hne : front ++ back ≠ []) (hat : (front ++ back).head? ≠ some '@')
      (hparen : (front ++ back).head? ≠ some '(') (hgap : IsGap gap) :
      LineEdit takes (lead ++ (front ++ back) ++ tail) (lead ++ (front ++ gap ++ back) ++ tail)
  | ending {line line' : List Char} (h : LineEdit takes line line') :
      LineEdit takes (line ++ ['\r']) (line' ++ ['\r'])

/-- A compute instruction is read from the characters of its line that are no blanks. -/
theorem readCode_code_congr {line line' : List Char} (hne : Text.code line ≠ [])
    (hat : (Text.code line).head? ≠ some '@') (hparen : (Text.code line).head? ≠ some '(')
    (hbare : Text.bare line' = Text.bare line) :
    readCode (Text.code line') = readCode (Text.code line) := by
  have hhead : (Text.code line').head? = (Text.code line).head? := by
    rw [Text.head?_code, Text.head?_code, hbare]
  have hne' : Text.code line' ≠ [] := by
    rwa [← List.isSome_head?, hhead, List.isSome_head?]
  rw [readCode_compute hne hat hparen, readCode_compute hne' (hhead ▸ hat) (hhead ▸ hparen),
    Text.filter_code, Text.filter_code, hbare]

theorem bare_inside {lead front back tail gap : List Char}
    (hlead : ∀ c ∈ lead, Text.isBlank c = true) (hne : front ++ back ≠ [])
    (hcode : Text.code (lead ++ (front ++ back) ++ tail) = front ++ back) (hgap : IsGap gap) :
    Text.bare (lead ++ (front ++ gap ++ back) ++ tail) =
      Text.bare (lead ++ (front ++ back) ++ tail) := by
  obtain ⟨trail, hbefore, -⟩ := Text.exists_beforeComment_eq hlead hne hcode
  have hcut : Text.beforeComment ((lead ++ front) ++ (back ++ tail)) =
      (lead ++ front) ++ (back ++ trail) := by
    simpa only [List.append_assoc] using hbefore
  have hinsert := Text.beforeComment_insert hgap.blank hcut
  simp only [List.append_assoc] at hbefore hinsert ⊢
  rw [Text.bare, Text.bare, hinsert, hbefore]
  simp only [List.filter_append, Text.filter_eq_nil_of_blank hgap.blank, List.nil_append]

theorem LineEdit.readCode_eq {line line' : List Char} (h : LineEdit TakesComment line line') :
    readCode (Text.code line') = readCode (Text.code line) := by
  induction h with
  | lead hgap => rw [Text.code_blanks_append hgap.blank]
  | trail hgap => rw [Text.code_append_blanks hgap.blank]
  | comment htakes hcomment => rw [Text.code_append_comment htakes]
  | inside hlead hcode hne hat hparen hgap =>
      refine readCode_code_congr ?_ ?_ ?_ (bare_inside hlead hne hcode hgap)
      · rwa [hcode]
      · rwa [hcode]
      · rwa [hcode]
  | ending _ ih => rwa [Text.code_append_blank (by decide), Text.code_append_blank (by decide)]

section Relocation

variable {κ : Type} (place : Nat → Nat)

theorem instructions_relocate (statements : List (Numbered (Statement κ))) :
    instructions (statements.map (Numbered.relocate place)) =
      (instructions statements).map (Numbered.relocate place) := by
  rw [instructions, instructions, List.filterMap_map, List.map_filterMap]
  refine List.filterMap_congr fun entry _ => ?_
  obtain ⟨line, i | name⟩ := entry <;> rfl

/-- Labels are bound to the same addresses on whatever lines they are declared. -/
theorem bindLabels_relocate (address : Nat) (table : SymbolTable)
    (statements : List (Numbered (Statement κ))) :
    bindLabels address table (statements.map (Numbered.relocate place)) =
      (bindLabels address table statements).mapError (Numbered.relocate place) := by
  induction statements generalizing address table with
  | nil => rfl
  | cons entry rest ih =>
      obtain ⟨line, i | name⟩ := entry
      · simp only [List.map_cons, Numbered.relocate, bindLabels]
        split
        · rfl
        · exact ih _ _
      · simp only [List.map_cons, Numbered.relocate, bindLabels]
        split
        · exact ih _ _
        · rfl

theorem link_relocate (statements : List (Numbered (Statement κ))) :
    link (statements.map (Numbered.relocate place)) =
      (link statements).mapError (Numbered.relocate place) := by
  have hallocate (table : SymbolTable) :
      allocateVariables table (instructions (statements.map (Numbered.relocate place))) =
        allocateVariables table (instructions statements) := by
    rw [allocateVariables, allocateVariables, instructions_relocate, List.filterMap_map]
    rfl
  rw [link, link, bindLabels_relocate]
  cases bindLabels 0 .initial statements with
  | error fault => rfl
  | ok table => exact congrArg Except.ok (hallocate table)

/-- Statements on other lines have the same words, or the same fault on the line where it is now. -/
theorem encodeAll_relocate (statements : List (Numbered (Statement Spelling))) :
    encodeAll (statements.map (Numbered.relocate place)) =
      (encodeAll statements).mapError (Numbered.relocate place) := by
  have hline (table : SymbolTable) (entry : Numbered (Instruction Spelling)) :
      encodeLine table (entry.relocate place) =
        (encodeLine table entry).mapError (Numbered.relocate place) := by
    rw [encodeLine, encodeLine, Numbered.relocate]
    cases encode table entry.value <;> rfl
  rw [encodeAll, encodeAll, link_relocate, instructions_relocate]
  cases link statements with
  | error fault => rfl
  | ok table => exact mapM_map_mapError fun entry _ => hline table entry

theorem assemble_of_scan {text text' : String}
    (h : Text.scan readStatement text' = (Text.scan readStatement text).relocate place) :
    assemble text' = (assemble text).mapError (Numbered.relocate place) := by
  rw [assemble, assemble, readText, readText, h]
  obtain ⟨items, fault?⟩ := Text.scan readStatement text
  cases fault? with
  | some fault => rfl
  | none =>
      simp only [Text.Scan.relocate, Text.Scan.toExcept, Option.map_none, bind, Except.bind,
        encodeAll_relocate]
      cases encodeAll items <;> rfl

end Relocation

theorem scan_readStatement (text : String) : Text.scan readStatement text =
    Text.scanPieces readStatement (Text.pieces Text.isLineFeed text.toList) := by
  refine Text.scan_eq_scanPieces (fun cs => ?_) (by decide) text
  rw [readStatement, readStatement, String.toList_ofList, String.toList_ofList,
    Text.code_dropReturn]

/-- The texts that are the same but for layout, with the new number of each line. Comments are put
only behind lines that take one. -/
def Relaid (takes : List Char → Prop) (text : String) (place : Nat → Nat) (text' : String) : Prop :=
  Changes (LineEdit takes) (Text.pieces Text.isLineFeed text.toList) place
    (Text.pieces Text.isLineFeed text'.toList)

/-- Layout never changes assembled code. Let any number of lines that say nothing be put into a
text, blanks be put at the ends of lines and into compute instructions, and comments behind lines
that do not end in a slash or have a comment already. Then there is code for the new text exactly if
there is code for the old one, and it is the same; and if the old text has a fault then the new one
has the same fault, on the line that the line at fault has become. -/
theorem assemble_relaid {text text' : String} {place : Nat → Nat}
    (h : Relaid TakesComment text place text') :
    (∀ code, assemble text' = .ok code ↔ assemble text = .ok code) ∧
    (∀ line fault, assemble text = .error ⟨line, fault⟩ →
      assemble text' = .error ⟨place line, fault⟩) ∧
    ∀ k line, (Text.pieces Text.isLineFeed text.toList)[k]? = some line → ∃ k' line',
      place (k + 1) = k' + 1 ∧ (Text.pieces Text.isLineFeed text'.toList)[k']? = some line' ∧
        Relation.ReflTransGen (LineEdit TakesComment) line line' := by
  have hscan : Text.scan readStatement text' = (Text.scan readStatement text).relocate place := by
    rw [scan_readStatement, scan_readStatement]
    refine h.scanPieces_eq (fun line line' hedit => ?_) (fun line hsilent => ?_)
    · rw [readStatement, readStatement, String.toList_ofList, String.toList_ofList,
        hedit.readCode_eq]
    · rw [readStatement, String.toList_ofList, hsilent.code_eq, readCode]
  have hassemble := assemble_of_scan place hscan
  refine ⟨fun code => ?_, fun line fault hfault => ?_, fun k line hline => h.exists_line hline⟩
  · rw [hassemble, mapError_eq_ok_iff]
  · rw [hassemble, hfault]
    rfl

/-- A comment line is put in, and blanks and a comment into the first line. The address on the
second line is still too large, and it is on the third line now. -/
theorem assemble_relaid_padded :
    ∃ place, Relaid TakesComment "D=A\n@99999\n" place "//\n\tD =A//c\r\n@99999\n" ∧
      assemble "D=A\n@99999\n" = .error ⟨2, .addressOutOfRange "99999"⟩ ∧ place 2 = 3 ∧
      assemble "//\n\tD =A//c\r\n@99999\n" = .error ⟨3, .addressOutOfRange "99999"⟩ := by
  let after : List (List Char) := [['@', '9', '9', '9', '9', '9'], []]
  have htext : Text.pieces Text.isLineFeed "D=A\n@99999\n".toList = ['D', '=', 'A'] :: after := by
    decide
  have htext' : Text.pieces Text.isLineFeed "//\n\tD =A//c\r\n@99999\n".toList =
      [['/', '/'], ['\t', 'D', ' ', '=', 'A', '/', '/', 'c', '\r']] ++ after := by
    decide
  have hinsert : Change (LineEdit TakesComment) (['D', '=', 'A'] :: after) (Text.shift 0)
      (['/', '/'] :: ['D', '=', 'A'] :: after) :=
    .insert [] _ (@Text.IsSilent.comment [] [] (by decide) (by decide))
  have hinside : LineEdit TakesComment ['D', '=', 'A'] ['D', ' ', '=', 'A'] :=
    @LineEdit.inside _ [] ['D'] ['=', 'A'] [] [' '] (by decide) (by decide) (by decide) (by decide)
      (by decide) (by decide)
  have hlead : LineEdit TakesComment ['D', ' ', '=', 'A'] ['\t', 'D', ' ', '=', 'A'] :=
    @LineEdit.lead _ ['\t'] _ (by decide)
  have hcomment : LineEdit TakesComment ['\t', 'D', ' ', '=', 'A']
      ['\t', 'D', ' ', '=', 'A', '/', '/', 'c'] :=
    @LineEdit.comment _ _ ['c'] (.inl (by decide)) (by decide)
  have htrail : LineEdit TakesComment ['\t', 'D', ' ', '=', 'A', '/', '/', 'c']
      ['\t', 'D', ' ', '=', 'A', '/', '/', 'c', '\r'] :=
    @LineEdit.trail _ ['\r'] _ (by decide)
  have hchanges : Changes (LineEdit TakesComment) (['D', '=', 'A'] :: after) _
      ([['/', '/'], ['\t', 'D', ' ', '=', 'A', '/', '/', 'c', '\r']] ++ after) :=
    ((((Changes.refl _).step hinsert).step (.edit [['/', '/']] after hinside)).step
      (.edit [['/', '/']] after hlead)).step (.edit [['/', '/']] after hcomment) |>.step
      (.edit [['/', '/']] after htrail)
  rw [← htext, ← htext'] at hchanges
  have hfault : assemble "D=A\n@99999\n" = .error ⟨2, .addressOutOfRange "99999"⟩ := by
    decide +kernel
  exact ⟨_, hchanges, hfault, rfl, (assemble_relaid hchanges).2.1 2 _ hfault⟩

/-- Behind a line that ends with a slash a comment is not only layout: it takes the slash with it,
and what was no mnemonic before is one now. -/
theorem assemble_slash_before_comment :
    Relaid (fun _ => True) "D=A/\n" id "D=A/// c\n" ∧
      assemble "D=A/\n" = .error ⟨1, .unknownMnemonic .comp "A/"⟩ ∧
      assemble "D=A/// c\n" = .ok ⟨#[0xEC10]⟩ := by
  refine ⟨?_, by decide +kernel, by decide +kernel⟩
  have htext : Text.pieces Text.isLineFeed "D=A/\n".toList = [['D', '=', 'A', '/'], []] := by
    decide
  have htext' : Text.pieces Text.isLineFeed "D=A/// c\n".toList =
      [['D', '=', 'A', '/', '/', '/', ' ', 'c'], []] := by
    decide
  have hcomment : LineEdit (fun _ => True) ['D', '=', 'A', '/']
      ['D', '=', 'A', '/', '/', '/', ' ', 'c'] :=
    @LineEdit.comment _ _ [' ', 'c'] trivial (by decide)
  rw [Relaid, htext, htext']
  exact (Changes.refl _).step (.edit [] [[]] hcomment)

end Assembly

end HackToolchain
