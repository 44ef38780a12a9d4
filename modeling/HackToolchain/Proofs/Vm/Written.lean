import HackToolchain.Proofs.Lowering.Writable
import HackToolchain.Proofs.Text.Code
import HackToolchain.Proofs.Text.Fields

/-!
# Commands are read as they are written

The written form of a command is its keyword and its operands with single blanks between them. When
the operands have no defect they are words, that is, they have no blanks in them, so the fields of
the written form are the keyword and the operands again. Nothing is trimmed from the written form
and no comment starts in it, so a line that consists of it is read as the command.
-/

namespace HackToolchain

namespace Vm

/-- A text that is one field of a line and in which no comment starts. -/
structure IsWord (word : String) : Prop where
  ne_nil : word.toList ≠ []
  isPlain : ∀ c ∈ word.toList, Text.isPlain c = true

instance (word : String) : Decidable (IsWord word) :=
  decidable_of_iff (word.toList ≠ [] ∧ ∀ c ∈ word.toList, Text.isPlain c = true)
    ⟨fun h => ⟨h.1, h.2⟩, fun h => ⟨h.1, h.2⟩⟩

namespace IsWord

theorem of_isName {name : String} (h : Symbol.isName name = true) : IsWord name := by
  have hsymbol := Symbol.isSymbol_of_isName h
  exact ⟨(Symbol.isSymbolWord_iff.1 hsymbol).1,
    fun _ hc => Symbol.isPlain_of_isSymbolChar (Symbol.isSymbolChar_of_mem hsymbol hc)⟩

theorem numeral (value : Word) : IsWord (toString value) := by
  have hdecimal : Text.decimal? (toString value).toList = some value.toNat :=
    Text.decimal?_toString value.toNat
  refine ⟨fun hnil => by simp [hnil, Text.decimal?, Text.isNumeral] at hdecimal, fun c hc => ?_⟩
  exact Symbol.isPlain_of_isSymbolChar (Symbol.isSymbolChar_of_mem_toString value.toNat hc)

theorem segment (segment : Segment) : IsWord segment.name := by
  cases segment <;> decide

theorem keyword (keyword : Keyword) : IsWord keyword.text := by
  have hall : ∀ keyword ∈ Keyword.all, IsWord keyword.text := by decide
  exact hall keyword (Keyword.mem_all keyword)

variable {word : String} (h : IsWord word)
include h

theorem not_blank : ∀ c ∈ word.toList, Text.isBlank c = false := by
  intro c hc
  have hplain := h.isPlain c hc
  simp only [Text.isPlain, Bool.and_eq_true, Bool.not_eq_true'] at hplain
  exact hplain.1

theorem not_mem_slash : '/' ∉ word.toList :=
  fun hmem => absurd (h.isPlain '/' hmem) (by decide)

theorem isTight : Text.IsTight word.toList :=
  ⟨fun c hc => h.not_blank c (List.mem_of_mem_head? hc),
    fun c hc => h.not_blank c (List.mem_of_getLast? hc)⟩

theorem fields_eq : fields word = [word] := by
  rw [fields, Text.fields_of_forall_not_blank h.ne_nil h.not_blank]
  simp

end IsWord

/-- A text with words behind it, each after a blank. -/
def withWords (text : String) (words : List String) : String :=
  words.foldl (fun text word => text ++ " " ++ word) text

@[simp] theorem withWords_nil (text : String) : withWords text [] = text := rfl

theorem withWords_cons (text word : String) (words : List String) :
    withWords text (word :: words) = withWords (text ++ " " ++ word) words := rfl

theorem toList_append_word (text word : String) :
    (text ++ " " ++ word).toList = text.toList ++ ' ' :: word.toList := by
  simp

section Words

variable {words : List String} (hwords : ∀ word ∈ words, IsWord word)
include hwords

theorem fields_withWords (text : String) :
    fields (withWords text words) = fields text ++ words := by
  induction words generalizing text with
  | nil => simp
  | cons word words ih =>
      obtain ⟨hword, hrest⟩ := List.forall_mem_cons.1 hwords
      have hfields : fields (text ++ " " ++ word) = fields text ++ [word] := by
        rw [fields, toList_append_word, Text.fields_append_blank (by decide), List.map_append]
        exact congrArg (fields text ++ ·) hword.fields_eq
      rw [withWords_cons, ih hrest, hfields, List.append_assoc, List.singleton_append]

theorem code_withWords {text : String} (htext : IsWord text) :
    Text.code (withWords text words).toList = (withWords text words).toList := by
  suffices h : ∀ text : String, text.toList ≠ [] → '/' ∉ text.toList → Text.IsTight text.toList →
      '/' ∉ (withWords text words).toList ∧ Text.IsTight (withWords text words).toList by
    obtain ⟨hslash, htight⟩ := h text htext.ne_nil htext.not_mem_slash htext.isTight
    have hcode := @Text.code_of_parts [] _ [] [] (by simp) hslash htight (by simp) (.inl rfl)
    simpa using hcode
  clear htext
  induction words with
  | nil => exact fun text _ hslash htight => ⟨hslash, htight⟩
  | cons word words ih =>
      intro text hne hslash htight
      obtain ⟨hword, hrest⟩ := List.forall_mem_cons.1 hwords
      apply ih hrest
      · simp
      · rw [toList_append_word, List.mem_append, List.mem_cons, not_or, not_or]
        exact ⟨hslash, by decide, hword.not_mem_slash⟩
      · rw [toList_append_word]
        refine ⟨fun c hc => htight.head c ?_, fun c hc => hword.isTight.last c ?_⟩
        · rwa [List.head?_append_of_ne_nil _ hne] at hc
        · rwa [List.getLast?_append_of_ne_nil _ (by simp), List.getLast?_cons_of_ne_nil
            hword.ne_nil] at hc

end Words

namespace Command

def keyword : Command → Keyword
  | operate operator => .operate operator
  | push _ _ => .push
  | pop _ _ => .pop
  | label _ => .label
  | goto _ => .goto
  | ifGoto _ => .ifGoto
  | function _ _ => .function
  | call _ _ => .call
  | ret => .ret

def operands : Command → List String
  | operate _ | ret => []
  | push segment index | pop segment index => [segment.name, toString index]
  | label name | goto name | ifGoto name => [name]
  | function name count | call name count => [name, toString count]

theorem text_eq (command : Command) :
    command.text = withWords command.keyword.text command.operands := by
  cases command <;> rfl

theorem isWord_of_mem_operands {command : Command} (h : command.defect? = none) :
    ∀ operand ∈ command.operands, IsWord operand := by
  have hpair {first : String} (hfirst : IsWord first) (value : Word) :
      ∀ operand ∈ [first, toString value], IsWord operand := by
    rw [List.forall_mem_cons, List.forall_mem_singleton]
    exact ⟨hfirst, .numeral value⟩
  cases command with
  | operate operator | ret => simp [operands]
  | push segment index | pop segment index => exact hpair (.segment segment) index
  | label name | goto name | ifGoto name =>
      exact List.forall_mem_singleton.2 (.of_isName (Lowering.isName_of_nameDefect? h))
  | function name count | call name count =>
      exact hpair (.of_isName (Lowering.signature_of_defect? h).1) count

theorem fields_text {command : Command} (h : command.defect? = none) :
    fields command.text = command.keyword.text :: command.operands := by
  rw [text_eq, fields_withWords (isWord_of_mem_operands h), (IsWord.keyword _).fields_eq]
  rfl

theorem code_text {command : Command} (h : command.defect? = none) :
    Text.code command.text.toList = command.text.toList := by
  rw [text_eq]
  exact code_withWords (isWord_of_mem_operands h) (.keyword _)

end Command

theorem readNumber_toString (role : NumberRole) (value : Word) :
    readNumber role (toString value) = .ok value := by
  have hdecimal : Text.decimal? (toString value).toList = some value.toNat :=
    Text.decimal?_toString value.toNat
  rw [readNumber, hdecimal]
  simp only [value.toNat_lt, if_true, UInt16.ofNat_toNat]

theorem readSegment_name (segment : Segment) : readSegment segment.name = .ok segment := by
  rw [readSegment, Segment.ofName?_name]

theorem readName_of_isName {name : String} (h : Symbol.isName name = true) :
    readName name = .ok name := by
  rw [readName, if_pos h]

theorem readOperands_operands {command : Command} (h : command.defect? = none) :
    readOperands command.keyword command.operands = .ok command := by
  cases command with
  | operate operator | ret => rfl
  | push segment index | pop segment index =>
      simp only [Command.keyword, Command.operands, readOperands, readCell, readSegment_name,
        readNumber_toString]
      rfl
  | label name | goto name | ifGoto name =>
      simp only [Command.keyword, Command.operands, readOperands,
        readName_of_isName (Lowering.isName_of_nameDefect? h)]
      rfl
  | function name count | call name count =>
      simp only [Command.keyword, Command.operands, readOperands, readSignature,
        readName_of_isName (Lowering.signature_of_defect? h).1, readNumber_toString]
      rfl

/-- A command is read back from its written form exactly when it has no defect. -/
theorem readCommand_text_iff {command : Command} :
    readCommand command.text = .ok command ↔ command.defect? = none := by
  refine ⟨defect?_of_readCommand, fun h => ?_⟩
  rw [readCommand, Command.fields_text h]
  simp only [Keyword.ofText?_text, readOperands_operands h, Except.mapError, bind, Except.bind,
    Command.check_eq_ok_iff.2 h, pure, Except.pure]

/-- The reader, the check and the emitter accept the same commands: a command is read back from its
written form exactly when it passes the check, and from every emitter it is emitted exactly then. What
is read from a line passes the check and is read back from its written form. -/
theorem accepted_commands_agree :
    (∀ command : Command,
      (readCommand command.text = .ok command ↔ command.check = .ok ()) ∧
      ∀ emitter : Lowering.Emitter,
        command.check = .ok () ↔ (emitter.run (Lowering.emit command)).1 = .ok ()) ∧
    ∀ (line : String) (command : Command), readCommand line = .ok command →
      command.check = .ok () ∧ readCommand command.text = .ok command := by
  refine ⟨fun command => ⟨?_, fun emitter => (emitter.fst_run_emit_eq_ok_iff command).symm⟩,
    fun line command hread => ?_⟩
  · rw [readCommand_text_iff, Command.check_eq_ok_iff]
  · have hdefect := defect?_of_readCommand hread
    exact ⟨Command.check_eq_ok_iff.2 hdefect, readCommand_text_iff.2 hdefect⟩

/-- A line with other blanks and a count with leading zeros. -/
theorem accepted_commands_agree_padded :
    readCommand "\tcall  Main.f\u2003007 " = .ok (.call "Main.f" 7) ∧
      (Command.call "Main.f" 7).check = .ok () ∧
      readCommand (Command.call "Main.f" 7).text = .ok (.call "Main.f" 7) := by
  have hread : readCommand "\tcall  Main.f\u2003007 " = .ok (.call "Main.f" 7) := by
    decide +kernel
  exact ⟨hread, accepted_commands_agree.2 _ _ hread⟩

/-- A name with a blank in it makes two fields of one. -/
example : readCommand (Command.call "Main f" 7).text ≠ .ok (.call "Main f" 7) := by
  decide +kernel

end Vm

end HackToolchain
