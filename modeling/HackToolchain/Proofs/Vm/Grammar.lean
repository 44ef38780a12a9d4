import HackToolchain.Proofs.Text.Lexemes
import HackToolchain.Proofs.Vm.Written

/-!
# The grammar of commands

Seventeen words begin a command, and each fixes what follows. `Grammar` says which fields are a
command, and which one, without the reader: an operand is a name, a segment or a number, and a
number has a largest value, which for an index depends on the segment. The reader accepts exactly
the fields that the grammar has. Among the others, it tells those whose first field is none of the
seventeen words from the rest.
-/

namespace HackToolchain

namespace Vm

def Segment.indexLimit : Segment → Nat
  | pointer => 1
  | temp => 7
  | _ => 32767

theorem Segment.toNat_maxIndex (segment : Segment) :
    segment.maxIndex.toNat = segment.indexLimit := by
  cases segment <;> rfl

def keywords : List String :=
  ["add", "sub", "neg", "eq", "gt", "lt", "and", "or", "not", "push", "pop", "label", "goto",
    "if-goto", "function", "call", "return"]

/-- A field is a numeral, with a value within a limit. -/
structure IsNumber (limit : Nat) (field : String) (value : Word) : Prop where
  denotes : Text.Denotes field.toList value.toNat
  le : value.toNat ≤ limit

/-- The fields that are a command, for each command. -/
inductive Grammar : List String → Command → Prop
  | operate (operator : Operator) : Grammar [operator.mnemonic] (.operate operator)
  | push {segment : Segment} {field : String} {index : Word}
      (hindex : IsNumber segment.indexLimit field index) :
      Grammar ["push", segment.name, field] (.push segment index)
  | pop {segment : Segment} {field : String} {index : Word}
      (hindex : IsNumber segment.indexLimit field index) (hsegment : segment ≠ .constant) :
      Grammar ["pop", segment.name, field] (.pop segment index)
  | label {name : String} (hname : Symbol.IsName name) : Grammar ["label", name] (.label name)
  | goto {name : String} (hname : Symbol.IsName name) : Grammar ["goto", name] (.goto name)
  | ifGoto {name : String} (hname : Symbol.IsName name) : Grammar ["if-goto", name] (.ifGoto name)
  | function {name field : String} {count : Word} (hname : Symbol.IsName name)
      (hcount : IsNumber 32767 field count) :
      Grammar ["function", name, field] (.function name count)
  | call {name field : String} {count : Word} (hname : Symbol.IsName name)
      (hcount : IsNumber 32767 field count) : Grammar ["call", name, field] (.call name count)
  | ret : Grammar ["return"] .ret

section Operands

variable {field other : String} {command : Command}

theorem readNumber_eq_ok_iff {role : NumberRole} {value : Word} :
    readNumber role field = .ok value ↔ Text.Denotes field.toList value.toNat := by
  rw [← Text.decimal?_eq_some_iff, readNumber]
  cases Text.decimal? field.toList with
  | none => simp
  | some found =>
      simp only [Option.some.injEq]
      split
      · next hlt =>
          rw [Except.ok.injEq, ← UInt16.toNat_inj, UInt16.toNat_ofNat_of_lt' hlt]
      · next hlt =>
          refine ⟨fun h => (by cases h), fun h => absurd (h ▸ value.toNat_lt) hlt⟩

theorem readName_eq_ok_iff {name : String} :
    readName field = .ok name ↔ Symbol.IsName field ∧ field = name := by
  rw [readName, ← Symbol.isName_iff]
  cases Symbol.isName field <;> simp

theorem readSegment_eq_ok_iff {segment : Segment} :
    readSegment field = .ok segment ↔ segment.name = field := by
  constructor
  · intro h
    rw [readSegment] at h
    split at h
    · next found hfound =>
        obtain rfl := Except.ok.inj h
        rw [Segment.ofName?] at hfound
        simpa using List.find?_some hfound
    · cases h
  · rintro rfl
    exact readSegment_name segment

theorem readCell_eq_ok_iff {make : Segment → Word → Command} :
    readCell make field other = .ok command ↔ ∃ segment index,
      segment.name = field ∧ Text.Denotes other.toList index.toNat ∧
        make segment index = command := by
  constructor
  · intro h
    obtain ⟨segment, hsegment, h⟩ := exists_of_bind_eq_ok h
    obtain ⟨index, hindex, h⟩ := exists_of_bind_eq_ok h
    exact ⟨segment, index, readSegment_eq_ok_iff.1 hsegment, readNumber_eq_ok_iff.1 hindex,
      Except.ok.inj h⟩
  · rintro ⟨segment, index, hsegment, hindex, rfl⟩
    rw [readCell, readSegment_eq_ok_iff.2 hsegment, readNumber_eq_ok_iff.2 hindex]
    rfl

theorem readSignature_eq_ok_iff {make : String → Word → Command} :
    readSignature make field other = .ok command ↔ ∃ count,
      Symbol.IsName field ∧ Text.Denotes other.toList count.toNat ∧ make field count = command := by
  constructor
  · intro h
    obtain ⟨name, hname, h⟩ := exists_of_bind_eq_ok h
    obtain ⟨count, hcount, h⟩ := exists_of_bind_eq_ok h
    obtain ⟨hfield, rfl⟩ := readName_eq_ok_iff.1 hname
    exact ⟨count, hfield, readNumber_eq_ok_iff.1 hcount, Except.ok.inj h⟩
  · rintro ⟨count, hname, hcount, rfl⟩
    rw [readSignature, readName_eq_ok_iff.2 ⟨hname, rfl⟩, readNumber_eq_ok_iff.2 hcount]
    rfl

theorem map_readName_eq_ok_iff {make : String → Command} :
    (readName field).map make = .ok command ↔ Symbol.IsName field ∧ make field = command := by
  rw [readName, ← Symbol.isName_iff]
  cases Symbol.isName field <;> simp [Except.map]

end Operands

section Defects

variable {segment : Segment} {value : Word} {name : String}

/-- A check finds its defect where its condition does not hold. -/
theorem ite_defect_eq_none_iff {p : Prop} [Decidable p] {defect : Defect} :
    (if p then none else some defect) = none ↔ p := by
  split <;> simp_all

theorem indexDefect?_iff :
    Command.indexDefect? segment value = none ↔ value.toNat ≤ segment.indexLimit := by
  rw [Command.indexDefect?, ite_defect_eq_none_iff, UInt16.le_iff_toNat_le,
    Segment.toNat_maxIndex]

theorem defect?_push_iff :
    (Command.push segment value).defect? = none ↔ value.toNat ≤ segment.indexLimit := by
  cases segment with
  | constant => exact ite_defect_eq_none_iff.trans UInt16.le_iff_toNat_le
  | _ => exact indexDefect?_iff

theorem defect?_pop_iff : (Command.pop segment value).defect? = none ↔
    segment ≠ .constant ∧ value.toNat ≤ segment.indexLimit := by
  rw [← indexDefect?_iff]
  cases segment with
  | constant => simp [Command.defect?]
  | _ => exact (and_iff_right (by simp)).symm

theorem nameDefect?_iff : Command.nameDefect? name = none ↔ Symbol.IsName name := by
  rw [← Symbol.isName_iff, Command.nameDefect?, ite_defect_eq_none_iff]

theorem signatureDefect?_iff :
    (Command.nameDefect? name).or (Command.countDefect? value) = none ↔
      Symbol.IsName name ∧ value.toNat ≤ 32767 := by
  rw [Option.or_eq_none_iff, nameDefect?_iff, Command.countDefect?, ite_defect_eq_none_iff,
    UInt16.le_iff_toNat_le]
  rfl

end Defects

theorem grammar_of_readOperands {keyword : Keyword} {operands : List String} {command : Command}
    (h : readOperands keyword operands = .ok command) (hdefect : command.defect? = none) :
    Grammar (keyword.text :: operands) command := by
  revert h
  fun_cases readOperands keyword operands with
  | case1 operator =>
      intro h
      obtain rfl := Except.ok.inj h
      exact .operate operator
  | case2 first second =>
      intro h
      obtain ⟨segment, index, rfl, hindex, rfl⟩ := readCell_eq_ok_iff.1 h
      exact .push ⟨hindex, defect?_push_iff.1 hdefect⟩
  | case3 first second =>
      intro h
      obtain ⟨segment, index, rfl, hindex, rfl⟩ := readCell_eq_ok_iff.1 h
      obtain ⟨hsegment, hle⟩ := defect?_pop_iff.1 hdefect
      exact .pop ⟨hindex, hle⟩ hsegment
  | case4 name =>
      intro h
      obtain ⟨hname, rfl⟩ := map_readName_eq_ok_iff.1 h
      exact .label hname
  | case5 name =>
      intro h
      obtain ⟨hname, rfl⟩ := map_readName_eq_ok_iff.1 h
      exact .goto hname
  | case6 name =>
      intro h
      obtain ⟨hname, rfl⟩ := map_readName_eq_ok_iff.1 h
      exact .ifGoto hname
  | case7 name field =>
      intro h
      obtain ⟨count, hname, hcount, rfl⟩ := readSignature_eq_ok_iff.1 h
      exact .function hname ⟨hcount, (signatureDefect?_iff.1 hdefect).2⟩
  | case8 name field =>
      intro h
      obtain ⟨count, hname, hcount, rfl⟩ := readSignature_eq_ok_iff.1 h
      exact .call hname ⟨hcount, (signatureDefect?_iff.1 hdefect).2⟩
  | case9 =>
      intro h
      obtain rfl := Except.ok.inj h
      exact .ret
  | case10 => exact fun h => nomatch h

/-- The fields of the grammar are a keyword and operands that are read to a command without a
defect. -/
theorem Grammar.exists_readOperands {words : List String} {command : Command}
    (h : Grammar words command) : ∃ keyword operands, words = Keyword.text keyword :: operands ∧
      readOperands keyword operands = .ok command ∧ command.defect? = none := by
  cases h with
  | operate operator => exact ⟨.operate operator, [], rfl, rfl, rfl⟩
  | push hindex =>
      exact ⟨.push, _, rfl, readCell_eq_ok_iff.2 ⟨_, _, rfl, hindex.denotes, rfl⟩,
        defect?_push_iff.2 hindex.le⟩
  | pop hindex hsegment =>
      exact ⟨.pop, _, rfl, readCell_eq_ok_iff.2 ⟨_, _, rfl, hindex.denotes, rfl⟩,
        defect?_pop_iff.2 ⟨hsegment, hindex.le⟩⟩
  | label hname =>
      exact ⟨.label, _, rfl, map_readName_eq_ok_iff.2 ⟨hname, rfl⟩, nameDefect?_iff.2 hname⟩
  | goto hname =>
      exact ⟨.goto, _, rfl, map_readName_eq_ok_iff.2 ⟨hname, rfl⟩, nameDefect?_iff.2 hname⟩
  | ifGoto hname =>
      exact ⟨.ifGoto, _, rfl, map_readName_eq_ok_iff.2 ⟨hname, rfl⟩, nameDefect?_iff.2 hname⟩
  | function hname hcount =>
      exact ⟨.function, _, rfl, readSignature_eq_ok_iff.2 ⟨_, hname, hcount.denotes, rfl⟩,
        signatureDefect?_iff.2 ⟨hname, hcount.le⟩⟩
  | call hname hcount =>
      exact ⟨.call, _, rfl, readSignature_eq_ok_iff.2 ⟨_, hname, hcount.denotes, rfl⟩,
        signatureDefect?_iff.2 ⟨hname, hcount.le⟩⟩
  | ret => exact ⟨.ret, [], rfl, rfl, rfl⟩

theorem ofText?_eq_none_iff {field : String} :
    Keyword.ofText? field = none ↔ field ∉ keywords := by
  have htexts : keywords = Keyword.all.map Keyword.text := by decide
  simp only [Keyword.ofText?, List.find?_eq_none, htexts, List.mem_map, beq_iff_eq, not_exists,
    not_and]

theorem text_of_ofText? {field : String} {keyword : Keyword}
    (h : Keyword.ofText? field = some keyword) : keyword.text = field := by
  rw [Keyword.ofText?] at h
  simpa using List.find?_some h

section Lines

variable {line : String}

theorem readCommand_of_keyword {keyword : Keyword} {operands : List String}
    (h : fields line = keyword.text :: operands) :
    readCommand line = (do
      let command ← (readOperands keyword operands).mapError (.malformedCommand line)
      command.check
      return command) := by
  rw [readCommand, h]
  simp only [Keyword.ofText?_text]

/-- A line whose first field is a keyword is a command or malformed. -/
theorem readCommand_cases_of_keyword {keyword : Keyword} {operands : List String}
    (h : fields line = keyword.text :: operands) :
    (∃ command, readCommand line = .ok command) ∨
      ∃ text defect, readCommand line = .error (.malformedCommand text defect) := by
  rw [readCommand_of_keyword h]
  cases readOperands keyword operands with
  | error defect => exact .inr ⟨_, _, rfl⟩
  | ok command =>
      simp only [Except.mapError, Command.check, bind, Except.bind]
      cases command.defect? with
      | none => exact .inl ⟨_, rfl⟩
      | some defect => exact .inr ⟨_, _, rfl⟩

theorem readCommand_eq_ok_iff {command : Command} :
    readCommand line = .ok command ↔ Grammar (fields line) command := by
  constructor
  · intro h
    have hdefect := defect?_of_readCommand h
    rw [readCommand] at h
    split at h
    · cases h
    · next field operands hfields =>
        split at h
        · cases h
        · next keyword hkeyword =>
            obtain ⟨found, hfound, h⟩ := exists_of_bind_eq_ok h
            obtain ⟨-, -, h⟩ := exists_of_bind_eq_ok h
            obtain rfl : found = command := Except.ok.inj h
            rw [hfields, ← text_of_ofText? hkeyword]
            exact grammar_of_readOperands (mapError_eq_ok_iff.1 hfound) hdefect
  · intro h
    obtain ⟨keyword, operands, hfields, hread, hdefect⟩ := h.exists_readOperands
    rw [readCommand_of_keyword hfields, hread]
    simp only [Except.mapError, bind, Except.bind, Command.check_eq_ok_iff.2 hdefect, pure,
      Except.pure]

theorem readCommand_eq_unknown_iff {field : String} :
    readCommand line = .error (.unknownCommand field) ↔
      (fields line).head? = some field ∧ field ∉ keywords := by
  cases hfields : fields line with
  | nil => simp [readCommand, hfields]
  | cons first operands =>
      rw [List.head?_cons, Option.some.injEq, ← ofText?_eq_none_iff]
      cases hkeyword : Keyword.ofText? first with
      | none =>
          simp only [readCommand, hfields, hkeyword, Except.error.injEq, Fault.unknownCommand.injEq]
          constructor
          · rintro rfl
            exact ⟨rfl, hkeyword⟩
          · exact And.left
      | some keyword =>
          have hknown : ¬(first = field ∧ Keyword.ofText? field = none) := by
            rintro ⟨rfl, hnone⟩
            rw [hkeyword] at hnone
            cases hnone
          rw [← text_of_ofText? hkeyword] at hfields
          refine iff_of_false (fun h => ?_) hknown
          rcases readCommand_cases_of_keyword hfields with ⟨command, hok⟩ | ⟨text, defect, herror⟩
          · rw [h] at hok
            cases hok
          · rw [h] at herror
            cases herror

/-- A line that is neither a command nor unknown is malformed. -/
theorem readCommand_cases (line : String) : (∃ command, readCommand line = .ok command) ∨
    (∃ field, readCommand line = .error (.unknownCommand field)) ∨
    ∃ text defect, readCommand line = .error (.malformedCommand text defect) := by
  cases hfields : fields line with
  | nil => exact .inr (.inr ⟨line, .empty, by rw [readCommand, hfields]⟩)
  | cons first operands =>
      cases hkeyword : Keyword.ofText? first with
      | none =>
          refine .inr (.inl ⟨first, readCommand_eq_unknown_iff.2 ⟨?_, ?_⟩⟩)
          · rw [hfields, List.head?_cons]
          · exact ofText?_eq_none_iff.1 hkeyword
      | some keyword =>
          rw [← text_of_ofText? hkeyword] at hfields
          exact (readCommand_cases_of_keyword hfields).imp_right .inr

theorem exists_malformed_iff :
    (∃ text defect, readCommand line = .error (.malformedCommand text defect)) ↔
      (∀ command, ¬Grammar (fields line) command) ∧
        ∀ field ∈ (fields line).head?, field ∈ keywords := by
  constructor
  · rintro ⟨text, defect, h⟩
    refine ⟨fun command hcommand => ?_, fun field hfield => Decidable.by_contra fun hnot => ?_⟩
    · rw [readCommand_eq_ok_iff.2 hcommand] at h
      cases h
    · rw [readCommand_eq_unknown_iff.2 ⟨hfield, hnot⟩] at h
      cases h
  · rintro ⟨hnone, hknown⟩
    rcases readCommand_cases line with ⟨command, h⟩ | ⟨field, h⟩ | h
    · exact absurd (readCommand_eq_ok_iff.1 h) (hnone command)
    · obtain ⟨hhead, hnot⟩ := readCommand_eq_unknown_iff.1 h
      exact absurd (hknown field hhead) hnot
    · exact h

theorem fields_eq_iff {words : List String} :
    fields line = words ↔ Text.HasFields line.toList (words.map String.toList) := by
  have hinverse (words : List (List Char)) :
      (words.map String.ofList).map String.toList = words := by
    simp
  rw [Text.hasFields_iff, fields]
  constructor
  · rintro rfl
    exact (hinverse _).symm
  · intro h
    rw [h]
    simp

/-- The reader of commands accepts exactly the grammar. The fields of a line are its words between
blanks. They are read as a command exactly if the grammar has them as this command. A line is an
unknown command exactly if it has a first field that is none of the seventeen keywords, which is the
one reported, and every other line is malformed. -/
theorem readCommand_iff_grammar (line : String) :
    (∀ words, fields line = words ↔ Text.HasFields line.toList (words.map String.toList)) ∧
    (∀ command, readCommand line = .ok command ↔ Grammar (fields line) command) ∧
    (∀ field, readCommand line = .error (.unknownCommand field) ↔
      (fields line).head? = some field ∧ field ∉ keywords) ∧
    ((∃ text defect, readCommand line = .error (.malformedCommand text defect)) ↔
      (∀ command, ¬Grammar (fields line) command) ∧
        ∀ field ∈ (fields line).head?, field ∈ keywords) :=
  ⟨fun _ => fields_eq_iff, fun _ => readCommand_eq_ok_iff, fun _ => readCommand_eq_unknown_iff,
    exists_malformed_iff⟩

end Lines

end Vm

end HackToolchain
