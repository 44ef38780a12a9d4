import HackToolchain.Proofs.Lowering.Source
import HackToolchain.Proofs.Lowering.Statics

/-!
# The comments of a listing

The comments of a listing are the commands of the program in their written form, in order, and the
words that mark the bootstrap or the halt. No statement of generated code looks like a comment, and
no operand of a command has one in it, so the commands can be read back from the comments. A listing
depends on nothing else in the source: units that are rewritten with one command on each line, or in
any other way that leaves them their commands, have the same listing.
-/

namespace HackToolchain

open Vm Lowering
open Assembly hiding Fault

namespace Assembly

def isComment (line : String) : Bool :=
  ['/', '/'].isPrefixOf line.toList

def Listing.comments (listing : Listing) : List String :=
  listing.lines.toList.filter isComment

def Line.comment? : Line → Option String
  | comment text => some text
  | statement _ => none

theorem isComment_comment (text : String) : isComment (Line.comment text).render = true := by
  rw [isComment, Line.render, String.toList_append]
  rfl

/-- No statement that can be written looks like a comment. -/
theorem isComment_statement {s : Statement Computation} (h : s.IsWritable) :
    isComment (Line.statement s).render = false := by
  rw [isComment, ← Bool.not_eq_true, List.isPrefixOf_iff_prefix]
  intro hprefix
  have hslash : '/' ∈ s.render.toList := hprefix.subset List.mem_cons_self
  exact absurd (Statement.isPlain_of_mem_render h hslash) (by decide)

theorem comments_ofLines {ls : List Line} (h : ∀ line ∈ ls, line.IsWritable) :
    (Listing.ofLines ls.toArray).comments = (ls.filterMap Line.comment?).map ("// " ++ ·) := by
  have hlines : (Listing.ofLines ls.toArray).lines.toList = ls.map Line.render := by
    simp [Listing.ofLines]
  rw [Listing.comments, hlines]
  clear hlines
  induction ls with
  | nil => rfl
  | cons line ls ih =>
      obtain ⟨hline, hrest⟩ := List.forall_mem_cons.1 h
      cases line with
      | comment text =>
          rw [List.map_cons, List.filter_cons_of_pos (isComment_comment text), ih hrest]
          rfl
      | statement s =>
          have hno : ¬isComment (Line.statement s).render = true := by
            rw [isComment_statement hline]
            decide
          rw [List.map_cons, List.filter_cons_of_neg hno, ih hrest]
          rfl

end Assembly

namespace Lowering

theorem filterMap_comment?_block (block : Block) :
    (block.map Line.statement).filterMap Line.comment? = [] := by
  rw [List.filterMap_map]
  exact List.filterMap_eq_nil_iff.2 fun _ _ => rfl

theorem filterMap_comment?_lines (placed : Placed) :
    placed.lines.filterMap Line.comment? = [placed.command.text] := by
  rw [Placed.lines, linesOf, List.filterMap_cons, filterMap_comment?_block]
  rfl

namespace Program

/-- The comments of a program are its commands between the marks of what is around them. -/
theorem filterMap_comment?_lines (program : Program) :
    program.lines.filterMap Line.comment? =
      (if program.bootstrap then ["bootstrap"] else []) ++
        (program.commands.map (·.command)).map Command.text ++
        (if program.bootstrap then [] else ["halt"]) := by
  have hprologue : program.prologue.filterMap Line.comment? =
      if program.bootstrap then ["bootstrap"] else [] := by
    rw [prologue]
    split <;> rfl
  have hepilogue : program.epilogue.filterMap Line.comment? =
      if program.bootstrap then [] else ["halt"] := by
    rw [epilogue]
    split <;> rfl
  have hcommands : (program.commands.flatMap Placed.lines).filterMap Line.comment? =
      (program.commands.map (·.command)).map Command.text := by
    rw [List.filterMap_flatMap, List.map_map]
    simp only [Lowering.filterMap_comment?_lines]
    exact List.map_eq_flatMap.symm
  rw [lines, List.filterMap_append, List.filterMap_append, hprologue, hcommands, hepilogue]

/-- The commands of a program are the call of the entry function and those on the lines of the
units. -/
theorem map_command_ofUnits {config : Config} {units : List SourceUnit}
    (h : ∀ unit ∈ units, unit.IsValid) :
    (ofUnits config units).commands.map (·.command) =
      entry config ++ units.flatMap SourceUnit.source := by
  have hpairs := congrArg (List.map Prod.snd) (map_pair_ofUnits config units)
  have hunits : (commandsOf units).map Prod.snd = units.flatMap SourceUnit.source := by
    rw [commandsOf, List.map_flatMap]
    refine List.flatMap_congr fun unit hunit => ?_
    rw [List.map_map, ← SourceUnit.commands_eq_source (h unit hunit)]
    exact List.map_id _
  rw [List.map_map, List.map_append, List.map_map, hunits] at hpairs
  simpa [Function.comp_def, Placed.pair] using hpairs

end Program

end Lowering

/-- The comments of a listing are the commands of the units in order, each in a written form that is
read as that command, behind the call of the entry function if there is a bootstrap and between the
marks of the bootstrap and the halt. The units have the same listing when they are rewritten with one
command on each line, and so have all units with the same names and the same commands. -/
theorem listing_depends_on_commands {config : Config} {units : List SourceUnit} {listing : Listing}
    (h : lower config units = .ok listing) :
    (∃ texts : List String,
      listing.comments = (if config.bootstrap then ["// bootstrap"] else []) ++
        texts.map ("// " ++ ·) ++ (if config.bootstrap then [] else ["// halt"]) ∧
      texts.map readCommand =
        (Program.entry config ++ units.flatMap SourceUnit.source).map Except.ok) ∧
    lower config (units.map SourceUnit.rewritten) = .ok listing ∧
    ∀ others : List SourceUnit,
      (∀ unit ∈ others, Symbol.isName unit.name = true ∧
        ∀ line ∈ Text.lines unit.text, ∀ fault, ¬IsRejected line fault) →
      others.map SourceUnit.content = units.map SourceUnit.content →
      lower config others = .ok listing := by
  obtain ⟨hentry, hunits, hlisting⟩ := lower_eq_ok_iff.1 h
  have hsame (others : List SourceUnit) (hothers : ∀ unit ∈ others, unit.IsValid)
      (hcontent : others.map SourceUnit.content = units.map SourceUnit.content) :
      lower config others = .ok listing := by
    rw [lower_eq_ok_iff, Program.ofUnits_congr hunits hothers hcontent]
    exact ⟨hentry, hothers, hlisting⟩
  refine ⟨⟨(Program.entry config ++ units.flatMap SourceUnit.source).map Command.text, ?_, ?_⟩,
    hsame _ ?_ ?_, fun others hothers => ?_⟩
  · have hlines := Program.isWritable_of_mem_lines (Program.isValid_of_mem_ofUnits hentry hunits)
    rw [hlisting, comments_ofLines hlines, Program.filterMap_comment?_lines,
      Program.map_command_ofUnits hunits, List.map_append, List.map_append, Program.ofUnits]
    cases config.bootstrap <;> simp
  · rw [List.map_map]
    refine List.map_congr_left fun command hcommand => readCommand_text_iff.2 ?_
    rcases List.mem_append.1 hcommand with hcommand | hcommand
    · exact hentry command hcommand
    · obtain ⟨unit, -, hsource⟩ := List.mem_flatMap.1 hcommand
      exact SourceUnit.defect?_of_mem_source hsource
  · intro other hother
    obtain ⟨unit, hunit, rfl⟩ := List.mem_map.1 hother
    exact SourceUnit.isValid_rewritten (hunits unit hunit).name
  · rw [List.map_map]
    refine List.map_congr_left fun unit hunit => ?_
    rw [Function.comp_apply, SourceUnit.content, SourceUnit.content, SourceUnit.source_rewritten,
      SourceUnit.name_rewritten]
  · exact hsame others fun unit hunit => SourceUnit.isValid_iff.2 (hothers unit hunit)

/-- A unit with comments, blank lines, other line endings, further blanks and leading zeros has the
listing of its three commands. -/
theorem listing_depends_on_commands_spacing :
    ∃ listing,
      lower ⟨true, "Main.f"⟩
        [⟨"Main", "  // top\r\n\r\nfunction\tMain.f 00 // f\r\n push  constant 007\r\nreturn"⟩] =
        .ok listing ∧
      listing.comments = ["// bootstrap", "// call Main.f 0", "// function Main.f 0",
        "// push constant 7", "// return"] ∧
      lower ⟨true, "Main.f"⟩ [⟨"Main", "function Main.f 0\npush constant 7\nreturn\n"⟩] =
        .ok listing := by
  have hlower := (@lower_eq_ok_iff ⟨true, "Main.f"⟩
    [⟨"Main", "  // top\r\n\r\nfunction\tMain.f 00 // f\r\n push  constant 007\r\nreturn"⟩]
    _).2 ⟨by decide, by decide +kernel, rfl⟩
  obtain ⟨-, -, hothers⟩ := listing_depends_on_commands hlower
  refine ⟨_, hlower, by decide +kernel,
    hothers [⟨"Main", "function Main.f 0\npush constant 7\nreturn\n"⟩] ?_ (by decide +kernel)⟩
  intro unit hunit
  obtain rfl := List.mem_singleton.1 hunit
  exact SourceUnit.isValid_iff.1 (by decide +kernel)

end HackToolchain
