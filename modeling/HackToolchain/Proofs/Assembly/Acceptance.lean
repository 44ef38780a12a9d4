import HackToolchain.Proofs.Assembly.Image

/-!
# What assembles

Generated code assembles when no label is predefined or declared twice, its instructions fit into
ROM, its labels stand for addresses, and there are cells for its variables. The number of
instructions of a listing is that of the statements on its lines.
-/

namespace HackToolchain

namespace Assembly

theorem isInstruction_render (line : Line) :
    Listing.isInstruction line.render.toList =
      (line.statement?.bind Statement.instruction?).isSome := by
  rcases line with text | (⟨operand⟩ | c) | name
  · rw [Line.render, String.toList_append]
    rfl
  · rw [Line.render, Statement.render, String.toList_append]
    rfl
  · obtain ⟨ch, cs, heq, hch⟩ := c.exists_render_eq_cons
    have hslash : ch ≠ '/' := by
      rintro rfl
      exact absurd hch (by decide)
    have hparen : ch ≠ '(' := by
      rintro rfl
      exact absurd hch (by decide)
    have hrender : (Line.statement (.instruction (.compute c))).render.toList = ch :: cs := heq
    rw [hrender, Listing.isInstruction]
    · rfl
    · intro tail htail
      exact hslash (List.cons.inj htail).1
    · exact fun tail htail => hparen (List.cons.inj htail).1
  · rw [Line.render, Statement.render, String.toList_append, String.toList_append]
    rfl

theorem instructionCount_ofLines (ls : List Line) :
    (Listing.ofLines ls.toArray).instructionCount = codeSize (statementsOf ls) := by
  rw [codeSize, code, statementsOf, List.filterMap_filterMap, List.length_filterMap_eq_countP]
  simp only [Listing.instructionCount, Listing.ofLines, ← Array.countP_toList, List.map_toArray,
    List.countP_map, Function.comp_def, isInstruction_render]

section Words

variable {κ : Type} {statements : List (Statement κ)}

/-- A symbol that is used has an address as long as there are cells for the variables. -/
theorem exists_address? {symbol : String}
    (hcells : (variableSymbols statements).length ≤ MemoryMap.variableCount)
    (h : symbol ∈ (code statements).filterMap Instruction.symbol?) :
    ∃ address, address? statements symbol = some address := by
  cases hpredefined : Symbol.predefined? symbol with
  | some address => exact ⟨address, by simp [address?, hpredefined]⟩
  | none =>
      cases hlabel : labelAddress? symbol statements with
      | some n => exact ⟨.ofNat n, by simp [address?, hpredefined, hlabel]⟩
      | none =>
          have hmem : symbol ∈ variableSymbols statements := by
            rw [variableSymbols, List.mem_eraseDups, List.mem_filter]
            exact ⟨h, by simp [hpredefined, hlabel]⟩
          obtain ⟨place, hlt, hplace⟩ := List.getElem_of_mem hmem
          have hplace := (List.getElem?_eq_getElem hlt).trans (congrArg some hplace)
          exact ⟨_, address?_of_variableSymbols (by omega) hplace⟩

/-- The address of a symbol is one of RAM, unless it is that of a label. -/
theorem le_or_label_of_address? {symbol : String} {address : Word}
    (h : address? statements symbol = some address) : address ≤ MemoryMap.maxAddress ∨
      ∃ n, labelAddress? symbol statements = some n ∧ address = .ofNat n := by
  have hall : ∀ entry ∈ Symbol.predefined, entry.2 ≤ MemoryMap.maxAddress := by decide
  cases hpredefined : Symbol.predefined? symbol with
  | some fixed =>
      obtain rfl : fixed = address := by simpa [address?, hpredefined] using h
      obtain ⟨before, after, heq, -⟩ := List.lookup_eq_some_iff.1 hpredefined
      exact .inl (hall (symbol, fixed) (by simp [heq]))
  | none =>
      cases hlabel : labelAddress? symbol statements with
      | some n =>
          obtain rfl : .ofNat n = address := by simpa [address?, hpredefined, hlabel] using h
          exact .inr ⟨n, rfl, rfl⟩
      | none =>
          obtain ⟨place, hplace, rfl, -⟩ :=
            exists_variableCell hpredefined (labelAddress?_eq_none_iff.1 hlabel) h
          refine .inl (UInt16.le_iff_toNat_le.2 ?_)
          rw [toNat_variableCell hplace]
          have hlt : place < 32752 := hplace
          have hmax : MemoryMap.maxAddress.toNat = 32767 := rfl
          omega

theorem exists_address?_or_label {symbol : String}
    (hcells : (variableSymbols statements).length ≤ MemoryMap.variableCount)
    (h : symbol ∈ (code statements).filterMap Instruction.symbol?) :
    ∃ address, address? statements symbol = some address ∧ (address ≤ MemoryMap.maxAddress ∨
      ∃ n, labelAddress? symbol statements = some n ∧ address = .ofNat n) := by
  obtain ⟨address, haddress⟩ := exists_address? hcells h
  exact ⟨address, haddress, le_or_label_of_address? haddress⟩

end Words

/-- An instruction that can be written has a word if the labels stand for addresses. -/
theorem exists_word? {statements : List (Statement Computation)}
    (hcells : (variableSymbols statements).length ≤ MemoryMap.variableCount)
    (hlabels : ∀ name address, labelAddress? name statements = some address → address < 32768)
    {i : Instruction Computation} (hi : i ∈ code statements) (hwritable : i.IsWritable) :
    ∃ word, i.word? (address? statements) = some word := by
  cases i with
  | compute c => exact ⟨c.word, rfl⟩
  | address operand =>
      suffices h : ∃ word, operand.value? (address? statements) = some word ∧
          word ≤ MemoryMap.maxAddress by
        obtain ⟨word, hvalue, hle⟩ := h
        exact ⟨word, Option.filter_eq_some_iff.2 ⟨hvalue, by simpa using hle⟩⟩
      cases operand with
      | number value => exact ⟨value, rfl, hwritable⟩
      | symbol name =>
          obtain ⟨address, haddress, hle | ⟨n, hfound, rfl⟩⟩ :=
            exists_address?_or_label hcells (List.mem_filterMap.2 ⟨_, hi, rfl⟩)
          · exact ⟨address, haddress, hle⟩
          · refine ⟨.ofNat n, haddress, UInt16.le_iff_toNat_le.2 ?_⟩
            have hlt := hlabels name n hfound
            rw [UInt16.toNat_ofNat_of_lt' (Nat.lt_trans hlt (by decide))]
            exact Nat.le_of_lt_succ hlt

/-- Lines that can be written assemble if their statements do not clash and fit into the machine. -/
theorem exists_assemble {ls : List Line} (h : ∀ line ∈ ls, line.IsWritable)
    (hnodup : (labels (statementsOf ls)).Nodup)
    (hfree : ∀ label ∈ labels (statementsOf ls), Symbol.predefined? label = none)
    (hsize : codeSize (statementsOf ls) ≤ MemoryMap.romSize)
    (hcells : (variableSymbols (statementsOf ls)).length ≤ MemoryMap.variableCount)
    (hlabels : ∀ name address, labelAddress? name (statementsOf ls) = some address →
      address < 32768) :
    ∃ code, assemble (Listing.ofLines ls.toArray).toText = .ok code := by
  let word (i : Instruction Computation) : Word := (i.word? (address? (statementsOf ls))).getD 0
  refine ⟨⟨((code (statementsOf ls)).map word).toArray⟩,
    (assemble_eq_ok_iff h _).2 ⟨hnodup, hfree, hsize, ?_⟩⟩
  rw [List.map_map]
  apply List.map_congr_left
  intro i hi
  obtain ⟨w, hw⟩ := exists_word? hcells hlabels hi (isWritable_of_mem_code h hi)
  simp only [Function.comp_apply, word, hw, Option.getD_some]

/-- Whether statements fit into the machine with an address to spare, so that a label may be the
last statement. -/
def Fits (statements : List (Statement Computation)) : Prop :=
  (labels statements).Nodup ∧ (∀ label ∈ labels statements, Symbol.predefined? label = none) ∧
    codeSize statements < MemoryMap.romSize ∧
    (variableSymbols statements).length ≤ MemoryMap.variableCount

instance (statements : List (Statement Computation)) : Decidable (Fits statements) :=
  inferInstanceAs (Decidable (_ ∧ _))

theorem Fits.exists_assemble {ls : List Line} (h : Fits (statementsOf ls))
    (hlines : ∀ line ∈ ls, line.IsWritable) :
    ∃ code, assemble (Listing.ofLines ls.toArray).toText = .ok code := by
  obtain ⟨hnodup, hfree, hsize, hcells⟩ := h
  exact Assembly.exists_assemble hlines hnodup hfree (Nat.le_of_lt hsize) hcells
    fun name address haddress => Nat.lt_of_le_of_lt (labelAddress?_le haddress) hsize

end Assembly

end HackToolchain
