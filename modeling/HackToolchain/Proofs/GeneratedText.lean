import HackToolchain.Proofs.Assembly.Faults
import HackToolchain.Proofs.Assembly.Reading
import HackToolchain.Proofs.Lowering.Loads
import HackToolchain.Proofs.Toolchain

/-!
# The text of a generated program

The text of a listing has the lines of the listing, and the assembler can read all of them. What can
still go wrong is that a label is declared twice, that there are more instructions than ROM has room
for, or, where no halt comes last, that a label lies behind the last instruction of a full ROM.
-/

namespace HackToolchain

open Assembly Lowering

namespace Assembly

theorem statementOn?_render {line : Line} (h : line.IsWritable) :
    statementOn? line.render = line.statement?.map Statement.spelled := by
  rw [statementOn?, readStatement_line h]
  rfl

theorem statementsOn_map_render {ls : List Line} (h : ∀ line ∈ ls, line.IsWritable) :
    statementsOn (ls.map Line.render) = (statementsOf ls).map Statement.spelled := by
  induction ls with
  | nil => rfl
  | cons line ls ih =>
      obtain ⟨hline, hrest⟩ := List.forall_mem_cons.1 h
      rw [List.map_cons, statementsOn_cons, statementOn?_render hline, ih hrest]
      cases line <;> rfl

theorem size_of_assemble {ls : List Line} (h : ∀ line ∈ ls, line.IsWritable) {code : MachineCode}
    (hcode : assemble (Listing.ofLines ls.toArray).toText = .ok code) :
    code.size = codeSize (statementsOf ls) := by
  obtain ⟨-, -, -, hwords⟩ := (assemble_eq_ok_iff h code).1 hcode
  have hlength := congrArg List.length hwords
  rw [List.length_map, List.length_map, Array.length_toList] at hlength
  exact hlength.symm

end Assembly

/-- The text of a listing that units are lowered to has the lines of the listing. It assembles to as
many words as the listing has instructions, unless a label is declared twice, or ROM is too small, or
a program with a bootstrap loads a label that lies behind the last word of a full ROM. -/
theorem listing_is_readable {config : Config} {units : List SourceUnit} {listing : Listing}
    (h : lower config units = .ok listing) :
    Text.lines listing.toText = listing.lines.toList ∧
    (∀ fault, assemble listing.toText = .error fault →
      (∃ label, fault.value = .duplicateLabel label) ∨ fault.value = .programTooLarge ∨
        config.bootstrap = true ∧ ∃ label, fault.value = .addressOutOfRange label ∧
          labelAddress? label (statementsOn listing.lines.toList) = some 32768) ∧
    ∀ code, assemble listing.toText = .ok code → code.size = listing.instructionCount := by
  obtain ⟨hentry, hunits, rfl⟩ := lower_eq_ok_iff.1 h
  have hlines := Program.isWritable_of_mem_lines (Program.isValid_of_mem_ofUnits hentry hunits)
  have hlist : (Listing.ofLines (Program.ofUnits config units).lines.toArray).lines.toList =
      (Program.ofUnits config units).lines.map Line.render := by
    simp [Listing.ofLines]
  refine ⟨(lines_toText hlines).trans hlist.symm, fun fault hfault => ?_, fun code hcode => ?_⟩
  · rcases fault_of_assemble_of_cells hlines Program.length_variableSymbols_le hfault with
      ⟨label, hvalue, -⟩ | ⟨hvalue, -⟩ | ⟨label, hvalue, hsize, hfound⟩
    · exact .inl ⟨label, hvalue⟩
    · exact .inr (.inl hvalue)
    · refine .inr (.inr ⟨?_, label, hvalue, ?_⟩)
      · by_contra hbootstrap
        have hlt := Program.labelAddress?_lt (Bool.not_eq_true _ ▸ hbootstrap) hsize hfound
        exact absurd hlt (Nat.lt_irrefl _)
      · rw [hlist, statementsOn_map_render hlines, labelAddress?_map_spelled, hfound]
        rfl
  · rw [instructionCount_ofLines, size_of_assemble hlines hcode]

/-- A program with a bootstrap, whose entry function reads a static cell and loops. -/
theorem listing_is_readable_loop :
    ∃ listing code,
      lower ⟨true, "Sys.init"⟩ [⟨"Sys", "function Sys.init 1\nlabel LOOP\npush static 3\ngoto LOOP"⟩] =
        .ok listing ∧
      assemble listing.toText = .ok code ∧ Text.lines listing.toText = listing.lines.toList ∧
      code.size = listing.instructionCount := by
  obtain ⟨listing, code, hlower, hcode⟩ := exists_code_of_fits ⟨true, "Sys.init"⟩
    [⟨"Sys", "function Sys.init 1\nlabel LOOP\npush static 3\ngoto LOOP"⟩]
    (by decide +kernel) (by decide +kernel) (by decide +kernel)
  obtain ⟨hlines, -, hsize⟩ := listing_is_readable hlower
  exact ⟨listing, code, hlower, hcode, hlines, hsize code hcode⟩

end HackToolchain
