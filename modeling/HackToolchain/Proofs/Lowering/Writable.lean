import HackToolchain.Proofs.Lowering.Program

/-!
# The lines of a program can be written

The symbols of generated code are made from names by appending marks, labels and numerals, so they
are symbols again, and the numbers in it are addresses since commands without a defect have small
operands. Hence the text of a program is read back as its statements.
-/

namespace HackToolchain

namespace Symbol

theorem isSymbol_of_isName {name : String} (h : isName name = true) : isSymbol name = true := by
  simp only [isName, Bool.and_eq_true] at h
  exact h.1

theorem isSymbolChar_of_mem {name : String} (h : isSymbol name = true) {c : Char}
    (hc : c ∈ name.toList) : isSymbolChar c = true :=
  (isSymbolWord_iff.1 h).2.2 c hc

theorem isSymbol_append {name suffix : String} (h : isSymbol name = true)
    (hsuffix : ∀ c ∈ suffix.toList, isSymbolChar c = true) : isSymbol (name ++ suffix) = true := by
  obtain ⟨hne, hhead, hall⟩ := isSymbolWord_iff.1 h
  rw [isSymbol, String.toList_append, isSymbolWord_iff]
  refine ⟨fun hnil => hne (List.append_eq_nil_iff.1 hnil).1, ?_, ?_⟩
  · obtain ⟨c, cs, heq⟩ := List.exists_cons_of_ne_nil hne
    rw [heq] at hhead ⊢
    exact hhead
  · intro c hc
    rcases List.mem_append.1 hc with hc | hc
    · exact hall c hc
    · exact hsuffix c hc

theorem isSymbolChar_of_mem_toString (n : Nat) {c : Char} (hc : c ∈ (toString n).toList) :
    isSymbolChar c = true := by
  have hdigit := Text.isDigit_of_mem_toString n hc
  simp [isSymbolChar, Char.isAlphanum, hdigit]

theorem isSymbol_append_numeral {name : String} (h : isSymbol name = true) (mark : String)
    (hmark : ∀ c ∈ mark.toList, isSymbolChar c = true) (n : Nat) :
    isSymbol (name ++ mark ++ toString n) = true :=
  isSymbol_append (isSymbol_append h hmark) fun _ hc => isSymbolChar_of_mem_toString n hc

end Symbol

namespace Lowering

open Vm
open Assembly hiding Fault

/-- Whether the labels and static cells of a context have symbols. -/
structure Context.IsNamed (context : Context) : Prop where
  unit : Symbol.isName context.unit = true
  function : ∀ name ∈ context.function, Symbol.isName name = true

/-- A command without a defect, in a context with symbols unless it is a call, which needs none. -/
structure Placed.IsValid (placed : Placed) : Prop where
  defect : placed.command.defect? = none
  named : (∃ name args, placed.command = .call name args) ∨ placed.context.IsNamed

def Block.IsWritable (block : Block) : Prop :=
  ∀ s ∈ block, s.IsWritable

namespace Block.IsWritable

@[simp] theorem nil : Block.IsWritable [] := by
  intro s hs
  simp at hs

@[simp] theorem cons_iff {s : Statement Computation} {rest : Block} :
    Block.IsWritable (s :: rest) ↔ s.IsWritable ∧ rest.IsWritable :=
  List.forall_mem_cons

@[simp] theorem append_iff {block rest : Block} :
    Block.IsWritable (block ++ rest) ↔ block.IsWritable ∧ rest.IsWritable :=
  List.forall_mem_append

@[simp] theorem load_iff {symbol : String} :
    (load symbol).IsWritable ↔ Symbol.isSymbol symbol = true := Iff.rfl

@[simp] theorem loadNumber_iff {value : Word} :
    (loadNumber value).IsWritable ↔ value ≤ MemoryMap.maxAddress := Iff.rfl

@[simp] theorem label_iff {name : String} :
    (Statement.label name : Statement Computation).IsWritable ↔ Symbol.isSymbol name = true :=
  Iff.rfl

@[simp] theorem loadPointer (p : Pointer) : (loadPointer p).IsWritable := by
  cases p <;> rfl

@[simp] theorem compute (c : Computation) :
    (Statement.instruction (.compute c)).IsWritable := trivial

end Block.IsWritable

theorem isWritable_scratch : Symbol.isSymbol MemoryMap.scratch = true ∧
    Symbol.isSymbol MemoryMap.secondScratch = true := by decide

theorem isWritable_pushD : pushD.IsWritable := by
  simp [pushD, setA, setM]

theorem isWritable_popD : popD.IsWritable := by
  simp [popD, setAM, setD]

theorem isWritable_replaceTop (comp : Comp) : (replaceTop comp).IsWritable := by
  simp [replaceTop, setA, setM]

theorem isWritable_combine (comp : Comp) : (combine comp).IsWritable := by
  simp [combine, isWritable_popD, setA, setM]

theorem isWritable_compare {name : String} (h : Symbol.isSymbol name = true) (id : Nat)
    (condition : Jump) : (compare name id condition).IsWritable := by
  have hlabel (suffix : String) (hsuffix : ∀ c ∈ suffix.toList, Symbol.isSymbolChar c = true) :
      Symbol.isSymbol (name ++ "_" ++ toString id ++ suffix) = true :=
    Symbol.isSymbol_append (Symbol.isSymbol_append_numeral h "_" (by decide) id) hsuffix
  have htrue := hlabel "_TRUE" (by decide)
  have hend := hlabel "_END" (by decide)
  simp only [compare, Block.IsWritable.append_iff, Block.IsWritable.cons_iff,
    Block.IsWritable.load_iff, Block.IsWritable.label_iff, htrue, hend, isWritable_popD,
    isWritable_replaceTop, setA, setD, jump, jumpIf, Block.IsWritable.compute,
    Block.IsWritable.nil, and_true]

theorem isWritable_operatorBlock (id : Nat) (operator : Operator) :
    (operatorBlock id operator).IsWritable := by
  cases operator with
  | neg | not => exact isWritable_replaceTop _
  | add | sub | and | or => exact isWritable_combine _
  | eq | gt | lt => exact isWritable_compare (by decide) id _

theorem isSymbol_staticSymbol {context : Context} (h : context.IsNamed) (index : Word) :
    Symbol.isSymbol (context.staticSymbol index) = true :=
  Symbol.isSymbol_append_numeral (Symbol.isSymbol_of_isName h.unit) "." (by decide) index.toNat

theorem isSymbol_scopedLabel {context : Context} (h : context.IsNamed) {label : String}
    (hlabel : Symbol.isName label = true) : Symbol.isSymbol (context.scopedLabel label) = true := by
  have hscope : Symbol.isSymbol context.scope = true := by
    rw [Context.scope]
    cases hfunction : context.function with
    | none => exact Symbol.isSymbol_of_isName h.unit
    | some name => exact Symbol.isSymbol_of_isName (h.function name hfunction)
  apply Symbol.isSymbol_append
  · exact Symbol.isSymbol_append hscope (by decide)
  · intro c hc
    exact Symbol.isSymbolChar_of_mem (Symbol.isSymbol_of_isName hlabel) hc

/-- The index of a cell that a segment has can be loaded, and so can its address in a segment at a
fixed place. -/
theorem le_maxAddress_of_le_maxIndex {segment : Segment} {index : Word}
    (h : index ≤ segment.maxIndex) :
    index ≤ MemoryMap.maxAddress ∧
      ∀ base, segment.base = .fixed base → base + index ≤ MemoryMap.maxAddress := by
  rw [UInt16.le_iff_toNat_le] at h ⊢
  have hmax : MemoryMap.maxAddress.toNat = 32767 := rfl
  have hfixed (base bound : Word) (hbound : index.toNat ≤ bound.toNat)
      (hsum : base.toNat + bound.toNat ≤ 32767) : base + index ≤ MemoryMap.maxAddress := by
    rw [UInt16.le_iff_toNat_le, UInt16.toNat_add]
    omega
  cases segment with
  | temp =>
      have hbound : index.toNat ≤ 7 := h
      refine ⟨by omega, ?_⟩
      rintro base ⟨⟩
      exact hfixed _ 7 hbound (by decide)
  | pointer =>
      have hbound : index.toNat ≤ 1 := h
      refine ⟨by omega, ?_⟩
      rintro base ⟨⟩
      exact hfixed _ 1 hbound (by decide)
  | _ => exact ⟨h, fun base hbase => by simp [Segment.base] at hbase⟩

theorem le_maxIndex_of_push {segment : Segment} {index : Word}
    (h : (Command.push segment index).defect? = none) : index ≤ segment.maxIndex := by
  cases segment <;> simp [Command.defect?, Command.indexDefect?] at h <;> exact h

theorem le_maxIndex_of_pop {segment : Segment} {index : Word}
    (h : (Command.pop segment index).defect? = none) : index ≤ segment.maxIndex := by
  cases segment <;> simp [Command.defect?, Command.indexDefect?] at h <;> exact h

theorem isName_of_nameDefect? {name : String} (h : Command.nameDefect? name = none) :
    Symbol.isName name = true := by
  simpa [Command.nameDefect?] using h

theorem signature_of_defect? {name : String} {count : Word}
    (h : ((Command.nameDefect? name).or (Command.countDefect? count)) = none) :
    Symbol.isName name = true ∧ count ≤ MemoryMap.maxAddress := by
  rw [Option.or_eq_none_iff] at h
  exact ⟨isName_of_nameDefect? h.1, by simpa [Command.countDefect?] using h.2⟩

theorem isWritable_readCell {context : Context} (h : context.IsNamed) {segment : Segment}
    {index : Word} (hindex : index ≤ segment.maxIndex) :
    (readCell context segment index).IsWritable := by
  obtain ⟨hle, hfixed⟩ := le_maxAddress_of_le_maxIndex hindex
  have hstatic := isSymbol_staticSymbol h index
  rw [readCell]
  split
  · simp [setD, hle]
  · simp [setA, setD, hle]
  · next base hbase => simp [setD, hfixed base hbase]
  · simp [setD, hstatic]

theorem isWritable_popCell {context : Context} (h : context.IsNamed) {segment : Segment}
    {index : Word} (hindex : index ≤ segment.maxIndex) :
    (popCell context segment index).IsWritable := by
  obtain ⟨hle, hfixed⟩ := le_maxAddress_of_le_maxIndex hindex
  have hstatic := isSymbol_staticSymbol h index
  rw [popCell]
  split
  · simp
  · simp [setA, setD, setM, hle, isWritable_popD, isWritable_scratch]
  · next base hbase => simp [setM, isWritable_popD, hfixed base hbase]
  · simp [setM, isWritable_popD, hstatic]

theorem isWritable_functionBlock (id : Nat) {name : String} {locals : Word}
    (h : Symbol.isSymbol name = true) (hlocals : locals ≤ MemoryMap.maxAddress) :
    (functionBlock id name locals).IsWritable := by
  have hagain := Symbol.isSymbol_append_numeral h "$$INIT_LOOP." (by decide) id
  have hdone := Symbol.isSymbol_append_numeral h "$$INIT_END." (by decide) id
  simp only [functionBlock, Block.IsWritable.cons_iff, Block.IsWritable.load_iff,
    Block.IsWritable.loadNumber_iff, Block.IsWritable.loadPointer, Block.IsWritable.label_iff, h,
    hlocals, hagain, hdone, isWritable_scratch, setA, setD, setM, setMD, jumpIf,
    Block.IsWritable.compute, Block.IsWritable.nil, and_true]

theorem isWritable_callBlock (id : Nat) {name : String} {args : Word}
    (h : Symbol.isSymbol name = true) (hargs : args ≤ MemoryMap.maxAddress) :
    (callBlock id name args).IsWritable := by
  have hback := Symbol.isSymbol_append_numeral h "$$ret." (by decide) id
  have hfive : (5 : Word) ≤ MemoryMap.maxAddress := by decide
  simp only [callBlock, savedPointers, savePointer, List.flatMap_cons, List.flatMap_nil,
    Block.IsWritable.append_iff, Block.IsWritable.cons_iff, Block.IsWritable.load_iff,
    Block.IsWritable.loadNumber_iff, Block.IsWritable.loadPointer, Block.IsWritable.label_iff, h,
    hargs, hback, hfive, isWritable_pushD, setD, setM, jump, jumpIf, Block.IsWritable.compute,
    Block.IsWritable.nil, and_true]

theorem isWritable_returnBlock : returnBlock.IsWritable := by
  have hfive : (5 : Word) ≤ MemoryMap.maxAddress := by decide
  simp only [returnBlock, savedPointers, restorePointer, List.reverse_cons, List.reverse_nil,
    List.nil_append, List.cons_append, List.flatMap_cons, List.flatMap_nil,
    Block.IsWritable.append_iff, Block.IsWritable.cons_iff, Block.IsWritable.load_iff,
    Block.IsWritable.loadNumber_iff, Block.IsWritable.loadPointer, isWritable_scratch, hfive,
    isWritable_popD, setA, setD, setM, setAM, jump, jumpIf, Block.IsWritable.compute,
    Block.IsWritable.nil, and_true]

theorem Placed.isWritable_block {placed : Placed} (h : placed.IsValid) :
    placed.block.IsWritable := by
  obtain ⟨context, command⟩ := placed
  obtain ⟨hdefect, hnamed⟩ := h
  cases command with
  | call name args =>
      obtain ⟨hname, hargs⟩ := signature_of_defect? hdefect
      exact isWritable_callBlock _ (Symbol.isSymbol_of_isName hname) hargs
  | operate operator => exact isWritable_operatorBlock _ operator
  | ret => exact isWritable_returnBlock
  | function name locals =>
      obtain ⟨hname, hlocals⟩ := signature_of_defect? hdefect
      exact isWritable_functionBlock _ (Symbol.isSymbol_of_isName hname) hlocals
  | push segment index =>
      have hcontext : context.IsNamed := by simpa using hnamed
      have hread := isWritable_readCell hcontext (le_maxIndex_of_push hdefect)
      exact Block.IsWritable.append_iff.2 ⟨hread, isWritable_pushD⟩
  | pop segment index =>
      have hcontext : context.IsNamed := by simpa using hnamed
      exact isWritable_popCell hcontext (le_maxIndex_of_pop hdefect)
  | label name | goto name | ifGoto name =>
      have hcontext : context.IsNamed := by simpa using hnamed
      have hlabel := isSymbol_scopedLabel hcontext (isName_of_nameDefect? hdefect)
      simp [block, Lowering.block, isWritable_popD, hlabel, jump, jumpIf]

/-- A text without line endings. -/
def IsInline (text : String) : Prop :=
  ∀ c ∈ text.toList, Text.isInline c = true

instance (text : String) : Decidable (IsInline text) :=
  inferInstanceAs (Decidable (∀ c ∈ text.toList, Text.isInline c = true))

theorem isInline_append_iff {text rest : String} :
    IsInline (text ++ rest) ↔ IsInline text ∧ IsInline rest := by
  rw [IsInline, String.toList_append]
  exact List.forall_mem_append

theorem isInline_of_isSymbol {name : String} (h : Symbol.isSymbol name = true) : IsInline name :=
  fun _ hc => Text.isInline_of_isPlain
    (Symbol.isPlain_of_isSymbolChar (Symbol.isSymbolChar_of_mem h hc))

theorem isInline_toString (n : Nat) : IsInline (toString n) :=
  fun _ hc => Text.isInline_of_isPlain
    (Symbol.isPlain_of_isSymbolChar (Symbol.isSymbolChar_of_mem_toString n hc))

theorem isInline_text {command : Command} (h : command.defect? = none) :
    IsInline command.text := by
  have hword (value : Word) : IsInline (toString value) := isInline_toString value.toNat
  have hsegment (segment : Segment) : IsInline segment.name := by
    cases segment <;> decide
  cases command with
  | operate operator => cases operator <;> decide
  | ret => decide
  | push segment index | pop segment index =>
      simp only [Command.text, isInline_append_iff]
      exact ⟨⟨⟨by decide, hsegment segment⟩, by decide⟩, hword index⟩
  | label name | goto name | ifGoto name =>
      have hname := isInline_of_isSymbol (Symbol.isSymbol_of_isName (isName_of_nameDefect? h))
      simp only [Command.text, isInline_append_iff]
      exact ⟨by decide, hname⟩
  | function name count | call name count =>
      have hname := isInline_of_isSymbol (Symbol.isSymbol_of_isName (signature_of_defect? h).1)
      simp only [Command.text, isInline_append_iff]
      exact ⟨⟨⟨by decide, hname⟩, by decide⟩, hword count⟩

/-- What is read from a line by itself is read from the lines of a text. -/
theorem exists_read_of_mem_items {read : String → Except Vm.Fault (Option Command)} {first : Nat}
    {ls : List String} {item : Text.Numbered Command}
    (h : item ∈ (Text.scanLines read first ls).items) :
    ∃ line, read line = .ok (some item.value) := by
  induction ls generalizing first with
  | nil => simp [Text.Scan.empty] at h
  | cons line ls ih =>
      rw [Text.scanLines_cons] at h
      unfold Text.Scan.prepend at h
      split at h
      · simp at h
      · exact ih h
      · next command hread =>
          rcases List.mem_cons.1 h with rfl | h
          · exact ⟨line, hread⟩
          · exact ih h

theorem defect?_of_mem_commands {unit : SourceUnit} {command : Command}
    (h : command ∈ unit.commands) : command.defect? = none := by
  obtain ⟨item, hitem, rfl⟩ := List.mem_map.1 h
  obtain ⟨line, hread⟩ := exists_read_of_mem_items hitem
  exact defect?_of_readLine hread

theorem Context.IsNamed.after {context : Context} (h : context.IsNamed) {command : Command}
    (hcommand : command.defect? = none) : (context.after command).IsNamed := by
  refine ⟨h.unit, fun name hname => ?_⟩
  cases command with
  | function other locals =>
      obtain rfl : other = name := by simpa [Context.after, functionAfter] using hname
      exact (signature_of_defect? hcommand).1
  | _ => exact h.function name hname

theorem isValid_of_mem_place {context : Context} {commands : List Command} (h : context.IsNamed)
    (hcommands : ∀ command ∈ commands, command.defect? = none) :
    ∀ placed ∈ place context commands, placed.IsValid := by
  induction commands generalizing context with
  | nil => simp [place]
  | cons command rest ih =>
      obtain ⟨hfirst, hrest⟩ := List.forall_mem_cons.1 hcommands
      rw [place, List.forall_mem_cons]
      exact ⟨⟨hfirst, .inr h⟩, ih (h.after hfirst) hrest⟩

theorem isValid_of_mem_placeUnits {context : Context} {units : List SourceUnit}
    (h : ∀ unit ∈ units, unit.IsValid) : ∀ placed ∈ placeUnits context units, placed.IsValid := by
  induction units generalizing context with
  | nil => simp [placeUnits]
  | cons unit rest ih =>
      obtain ⟨hunit, hrest⟩ := List.forall_mem_cons.1 h
      rw [placeUnits, List.forall_mem_append]
      have hnamed : (context.enterUnit unit.name).IsNamed :=
        ⟨hunit.name, fun name hname => by simp [Context.enterUnit] at hname⟩
      exact ⟨isValid_of_mem_place hnamed fun _ => defect?_of_mem_commands, ih hrest⟩

namespace Program

variable {config : Config} {units : List SourceUnit}

theorem isValid_of_mem_ofUnits (hentry : ∀ command ∈ entry config, command.defect? = none)
    (hunits : ∀ unit ∈ units, unit.IsValid) :
    ∀ placed ∈ (ofUnits config units).commands, placed.IsValid := by
  rw [ofUnits, List.forall_mem_append]
  refine ⟨?_, isValid_of_mem_placeUnits hunits⟩
  rw [entry] at hentry ⊢
  split at hentry
  · next hbootstrap =>
      rw [if_pos hbootstrap, place, place, List.forall_mem_singleton]
      exact ⟨hentry _ List.mem_cons_self, .inl ⟨_, _, rfl⟩⟩
  · next hbootstrap =>
      rw [if_neg hbootstrap]
      simp [place]

theorem isWritable_of_mem_lines {program : Program}
    (h : ∀ placed ∈ program.commands, placed.IsValid) :
    ∀ line ∈ program.lines, line.IsWritable := by
  have hblock {block : Block} (hblock : block.IsWritable) :
      ∀ line ∈ block.map Line.statement, line.IsWritable := by
    intro line hline
    obtain ⟨s, hs, rfl⟩ := List.mem_map.1 hline
    exact hblock s hs
  have hcomment {text : String} (htext : IsInline text) : (Line.comment text).IsWritable := htext
  rw [lines, List.forall_mem_append, List.forall_mem_append]
  refine ⟨⟨?_, ?_⟩, ?_⟩
  · rw [prologue]
    split
    · rw [bootstrapLines, List.forall_mem_cons]
      exact ⟨hcomment (by decide), hblock (by simp [setD, setM]; decide)⟩
    · simp
  · intro line hline
    obtain ⟨placed, hplaced, hline⟩ := List.mem_flatMap.1 hline
    have hvalid := h placed hplaced
    rcases List.mem_cons.1 hline with rfl | hline
    · exact hcomment (isInline_text hvalid.defect)
    · exact hblock (Placed.isWritable_block hvalid) line hline
  · rw [epilogue]
    split
    · simp
    · have hlabel : Symbol.isSymbol ("END_" ++ toString program.nextId) = true :=
        Symbol.isSymbol_append (by decide) fun _ => Symbol.isSymbolChar_of_mem_toString _
      rw [haltLines, List.forall_mem_cons]
      exact ⟨hcomment (by decide), hblock (by simpa [jump, jumpIf] using hlabel)⟩

end Program

end Lowering

end HackToolchain
