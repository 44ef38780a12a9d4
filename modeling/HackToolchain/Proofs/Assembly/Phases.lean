import HackToolchain.Proofs.Assembly.Faults
import HackToolchain.Proofs.Assembly.Parts
import HackToolchain.Proofs.Assembly.Words
import HackToolchain.Proofs.Text.Scan

/-!
# What a text is rejected for

A text assembles when its lines are acceptable, and a text that does not is rejected for the fault
that comes first: by its phase, and within a phase by its line. The faults of a line can be told from
the lines alone. While the text is read a line is judged by itself, when the labels are bound also by
the lines before it, and when the instructions are encoded by all lines, because a symbol may be
declared on any of them. So a fault on a late line can hide one on an early line.
-/

namespace HackToolchain

namespace Assembly

open Text (Numbered)

/-- The phases of assembling. Each goes over all lines before the next one begins. -/
inductive Phase
  | reading
  | linking
  | encoding
  deriving Repr, DecidableEq

def Phase.place : Phase → Nat
  | reading => 0
  | linking => 1
  | encoding => 2

inductive Instruction.IsUnencodable (ls : List String) : Instruction Spelling → Fault → Prop
  /-- It loads a label at the end of a full ROM. -/
  | far {symbol : String} (h : labelAddress? symbol (statementsOn ls) = some 32768) :
      IsUnencodable ls (.address (.symbol symbol)) (.addressOutOfRange symbol)
  /-- It loads a variable, and as many variables as there are cells are used before that one. -/
  | spent {symbol : String} (hvariable : isVariableOn ls symbol = true)
      (h : 32752 ≤ (variablesBefore ls symbol).length) :
      IsUnencodable ls (.address (.symbol symbol)) (.outOfVariables symbol)
  /-- It computes, and a part of it has no meaning. -/
  | meaningless {spelling : Spelling} {fault : Fault} (h : spelling.IsMeaningless fault) :
      IsUnencodable ls (.compute spelling) fault

/-- What is wrong in a phase with the line that comes after the first `k` lines. -/
inductive IsFaultAt (ls : List String) (k : Nat) : Phase → Fault → Prop
  | reading {line : String} {fault : Fault} (hline : ls[k]? = some line)
      (h : readStatement line = .error fault) : IsFaultAt ls k .reading fault
  | linking {line : String} {s : Statement Spelling} {fault : Fault} (hline : ls[k]? = some line)
      (hs : statementOn? line = some s) (h : s.IsUnlinkable (statementsOn (ls.take k)) fault) :
      IsFaultAt ls k .linking fault
  | encoding {line : String} {i : Instruction Spelling} {fault : Fault} (hline : ls[k]? = some line)
      (hi : statementOn? line = some (.instruction i)) (h : i.IsUnencodable ls fault) :
      IsFaultAt ls k .encoding fault

/-- A fault is the first one on lines: no fault has an earlier phase, and none of the same phase an
earlier line. It has the number of its line, counted from one. -/
def IsFirstFault (ls : List String) (fault : Numbered Fault) : Prop :=
  ∃ phase k, fault.line = k + 1 ∧ IsFaultAt ls k phase fault.value ∧
    ∀ other j f, IsFaultAt ls j other f → phase.place < other.place ∨ phase = other ∧ k ≤ j

structure IsAcceptable (ls : List String) : Prop where
  readable : ∀ line ∈ ls, ∃ found, readStatement line = .ok found
  nodup : (labels (statementsOn ls)).Nodup
  free : ∀ label ∈ labels (statementsOn ls), Symbol.predefined? label = none
  fits : (instructionsOn ls).length ≤ 32768
  meaningful : ∀ spelling, .compute spelling ∈ instructionsOn ls → spelling.IsMeaningful
  /-- A label at the end of a full ROM can be declared but not loaded. -/
  near : ∀ symbol ∈ symbolsOn ls, labelAddress? symbol (statementsOn ls) ≠ some 32768
  /-- There is a cell for each variable. -/
  cells : ((symbolsOn ls).filter (isVariableOn ls)).eraseDups.length ≤ 32752

section Lines

variable {ls : List String}

theorem Instruction.IsUnencodable.unique {i : Instruction Spelling} {fault other : Fault}
    (h : i.IsUnencodable ls fault) (hother : i.IsUnencodable ls other) : fault = other := by
  cases h with
  | far h =>
      cases hother with
      | far => rfl
      | spent hvariable => simp [isVariableOn, h] at hvariable
  | spent hvariable =>
      cases hother with
      | far h => simp [isVariableOn, h] at hvariable
      | spent => rfl
  | meaningless h =>
      cases hother with
      | meaningless h' => exact Except.error.inj (h.resolve_eq.symm.trans h'.resolve_eq)

theorem IsFaultAt.unique {k : Nat} {phase : Phase} {fault other : Fault}
    (h : IsFaultAt ls k phase fault) (hother : IsFaultAt ls k phase other) : fault = other := by
  cases h with
  | reading hline h =>
      cases hother with
      | reading hline' h' =>
          obtain rfl := Option.some.inj (hline.symm.trans hline')
          exact Except.error.inj (h.symm.trans h')
  | linking hline hs h =>
      cases hother with
      | linking hline' hs' h' =>
          obtain rfl := Option.some.inj (hline.symm.trans hline')
          obtain rfl := Option.some.inj (hs.symm.trans hs')
          cases h <;> cases h' <;> rfl
  | encoding hline hi h =>
      cases hother with
      | encoding hline' hi' h' =>
          obtain rfl := Option.some.inj (hline.symm.trans hline')
          obtain rfl := Statement.instruction.inj (Option.some.inj (hi.symm.trans hi'))
          exact h.unique h'

theorem IsFirstFault.unique {fault other : Numbered Fault} (h : IsFirstFault ls fault)
    (hother : IsFirstFault ls other) : fault = other := by
  obtain ⟨phase, k, hline, hfault, hfirst⟩ := h
  obtain ⟨phase', k', hline', hfault', hfirst'⟩ := hother
  have hle := hfirst phase' k' _ hfault'
  have hle' := hfirst' phase k _ hfault
  obtain rfl : phase = phase' := by
    rcases hle with hlt | ⟨heq, -⟩
    · rcases hle' with hlt' | ⟨heq, -⟩
      · omega
      · exact heq.symm
    · exact heq
  obtain rfl : k = k' := by omega
  obtain ⟨line, value⟩ := fault
  obtain ⟨line', value'⟩ := other
  rw [Numbered.mk.injEq]
  exact ⟨hline.trans hline'.symm, hfault.unique hfault'⟩

theorem not_isFaultAt_reading (h : ∀ line ∈ ls, ∃ found, readStatement line = .ok found) (k : Nat)
    (fault : Fault) : ¬IsFaultAt ls k .reading fault := by
  rintro ⟨hline, hfault⟩
  obtain ⟨found, hfound⟩ := h _ (List.mem_of_getElem? hline)
  simp [hfound] at hfault

theorem not_isFaultAt_linking (hfresh : AreFresh (labels (statementsOn ls)))
    (hsize : codeSize (statementsOn ls) ≤ MemoryMap.romSize) (k : Nat) (fault : Fault) :
    ¬IsFaultAt ls k .linking fault := by
  intro h
  cases h with
  | linking hline hs hfault =>
      have hsplit := congrArg statementsOn (eq_take_append_cons hline)
      rw [statementsOn_append_cons hs] at hsplit
      rw [hsplit] at hfresh hsize
      rcases hfault.clash_or_overflow (statementsOn (ls.drop (k + 1))) with
        ⟨-, -, hclash⟩ | ⟨-, hlarge⟩
      · exact hclash hfresh
      · exact absurd hsize (Nat.not_le_of_lt hlarge)

/-- Before the last phase a fault depends on the lines up to its own only. -/
theorem IsFaultAt.take {n k : Nat} {phase : Phase} {fault : Fault} (h : IsFaultAt ls k phase fault)
    (hphase : phase ≠ .encoding) (hlt : k < n) : IsFaultAt (ls.take n) k phase fault := by
  cases h with
  | reading hline h => exact .reading (by rwa [List.getElem?_take_of_lt hlt]) h
  | linking hline hs h =>
      refine .linking (by rwa [List.getElem?_take_of_lt hlt]) hs ?_
      rwa [List.take_take, Nat.min_eq_left (Nat.le_of_lt hlt)]
  | encoding => exact absurd rfl hphase

theorem IsAcceptable.not_isUnencodable (h : IsAcceptable ls) {i : Instruction Spelling}
    (hi : i ∈ instructionsOn ls) (fault : Fault) : ¬i.IsUnencodable ls fault := by
  intro hfault
  cases hfault with
  | far hfar => exact h.near _ (mem_symbolsOn.2 hi) hfar
  | spent hvariable hspent =>
      -- the variable itself comes on top of those used before it
      have hplace := getElem?_variableSymbols hvariable (mem_symbolsOn.2 hi)
      obtain ⟨hlt, -⟩ := List.getElem?_eq_some_iff.1 hplace
      exact absurd (Nat.lt_of_lt_of_le hlt h.cells) (Nat.not_lt_of_le hspent)
  | meaningless hblame =>
      obtain ⟨c, hc⟩ := (h.meaningful _ hi).exists_resolve
      simp [hblame.resolve_eq] at hc

theorem IsAcceptable.not_isFaultAt (h : IsAcceptable ls) (k : Nat) (phase : Phase) (fault : Fault) :
    ¬IsFaultAt ls k phase fault := by
  cases phase with
  | reading => exact not_isFaultAt_reading h.readable k fault
  | linking => exact not_isFaultAt_linking ⟨h.nodup, h.free⟩ h.fits k fault
  | encoding =>
      intro hfault
      cases hfault with
      | encoding hline hi hreason =>
          have hmem := mem_instructionsOn.2 ⟨_, List.mem_of_getElem? hline, hi⟩
          exact h.not_isUnencodable hmem fault hreason

end Lines

section Table

variable {ls : List String} {table : SymbolTable}
  (hfind : ∀ symbol, table.find? symbol = address? (statementsOn ls) symbol)

include hfind

theorem not_isUnencodable_of_encode
    (hfree : ∀ label ∈ labels (statementsOn ls), Symbol.predefined? label = none)
    {i : Instruction Spelling} (hi : i ∈ instructionsOn ls) {word : Word}
    (h : encode table i = .ok word) (fault : Fault) : ¬i.IsUnencodable ls fault := by
  intro hfault
  cases hfault with
  | @far symbol hfar =>
      obtain ⟨hfound, hle⟩ := find?_of_encode h
      have hpredefined : Symbol.predefined? symbol = none := by
        refine hfree symbol (Classical.not_not.1 fun hnew => ?_)
        rw [labelAddress?_eq_none_iff.2 hnew] at hfar
        simp at hfar
      obtain rfl : .ofNat 32768 = word := by
        simpa [hfind, address?, hpredefined, hfar] using hfound
      exact absurd hle (by decide)
  | @spent symbol hvariable hspent =>
      obtain ⟨hfound, hle⟩ := find?_of_encode h
      rw [hfind] at hfound
      have hcell := toNat_address_of_isVariableOn hvariable (mem_symbolsOn.2 hi) hfound
      have hmax : word.toNat ≤ 32767 := UInt16.le_iff_toNat_le.1 hle
      omega
  | meaningless hblame =>
      obtain ⟨c, hc, -⟩ := exists_word_of_encode h
      simp [hblame.resolve_eq] at hc

theorem isUnencodable_of_encode (hsize : codeSize (statementsOn ls) ≤ MemoryMap.romSize)
    {i : Instruction Spelling} (hi : i ∈ instructionsOn ls) {fault : Fault}
    (h : encode table i = .error fault) : i.IsUnencodable ls fault := by
  cases i with
  | compute spelling =>
      refine .meaningless (Spelling.resolve_eq_error_iff.1 ?_)
      cases hresolve : spelling.resolve with
      | ok c => simp [encode, hresolve, Except.map] at h
      | error other => simpa [encode, hresolve, Except.map] using h
  | address operand =>
      cases operand with
      | number value => simp [encode] at h
      | symbol symbol =>
          rw [encode, hfind] at h
          cases haddress : address? (statementsOn ls) symbol with
          | some address =>
              simp only [haddress] at h
              split at h
              · simp at h
              · next hlarge =>
                  obtain rfl := Except.error.inj h
                  obtain ⟨n, hlabel, rfl⟩ := (le_or_label_of_address? haddress).resolve_left hlarge
                  refine .far ?_
                  rw [hlabel, eq_romSize_of_not_le
                    (Nat.le_trans (labelAddress?_le hlabel) hsize) hlarge]
                  rfl
          | none =>
              simp only [haddress] at h
              obtain rfl := Except.error.inj h
              obtain ⟨hpredefined, hlabel⟩ := free_of_address?_eq_none haddress
              have hvariable : isVariableOn ls symbol = true := by
                rw [isVariableOn, hpredefined, hlabel]
                rfl
              refine .spent hvariable (Nat.le_of_not_lt fun hlt => ?_)
              have hcell := address?_of_variableSymbols hlt
                (getElem?_variableSymbols hvariable (mem_symbolsOn.2 hi))
              simp [haddress] at hcell

end Table

section Text

variable {text : String}

theorem readable_of_readText {statements : List (Numbered (Statement Spelling))}
    (h : readText text = .ok statements) :
    ∀ line ∈ Text.lines text, ∃ found, readStatement line = .ok found :=
  Text.fault?_scanLines_eq_none_iff.1 (congrArg Text.Scan.fault? (scanLines_of_readText h))

theorem isFirstFault_of_readText {fault : Numbered Fault} (h : readText text = .error fault) :
    IsFirstFault (Text.lines text) fault := by
  have hfault : (Text.scanLines readStatement 1 (Text.lines text)).fault? = some fault := by
    rw [readText, Text.scan, Text.Scan.toExcept] at h
    split at h
    · next hfound => rw [hfound, Except.error.inj h]
    · simp at h
  obtain ⟨before, line, after, hls, hline, hread, hbefore⟩ :=
    Text.exists_of_fault?_scanLines hfault
  rw [hls]
  refine ⟨.reading, before.length, by omega, .reading (by simp) hread, fun other j f hother => ?_⟩
  cases other with
  | reading =>
      refine .inr ⟨rfl, Nat.le_of_not_lt fun hlt => ?_⟩
      have hearly := hother.take (by decide) hlt
      rw [List.take_left] at hearly
      exact not_isFaultAt_reading hbefore j f hearly
  | linking => exact .inl (by decide)
  | encoding => exact .inl (by decide)

theorem isFirstFault_of_link {statements : List (Numbered (Statement Spelling))}
    {fault : Numbered Fault} (hread : readText text = .ok statements)
    (h : link statements = .error fault) : IsFirstFault (Text.lines text) fault := by
  have hreadable := readable_of_readText hread
  obtain ⟨before, s, after, rfl, hbefore, hfault⟩ := exists_of_link_eq_error h
  obtain ⟨linesBefore, line, linesAfter, hls, hline, hs, hscan⟩ :=
    Text.exists_of_items_scanLines (scanLines_of_readText hread)
  obtain ⟨hnodup, hfree, hsize⟩ := (exists_link_iff before).1 hbefore
  rw [values_of_scanLines hscan] at hnodup hfree hsize hfault
  rw [hls] at hreadable ⊢
  refine ⟨.linking, linesBefore.length, by rw [hline, Nat.add_comm],
    .linking (by simp) (statementOn?_of_readStatement hs) (by rwa [List.take_left]),
    fun other j f hother => ?_⟩
  cases other with
  | reading => exact absurd hother (not_isFaultAt_reading hreadable j f)
  | linking =>
      refine .inr ⟨rfl, Nat.le_of_not_lt fun hlt => ?_⟩
      have hearly := hother.take (by decide) hlt
      rw [List.take_left] at hearly
      exact not_isFaultAt_linking ⟨hnodup, hfree⟩ hsize j f hearly
  | encoding => exact .inl (by decide)

theorem isFirstFault_of_encode {statements : List (Numbered (Statement Spelling))}
    {table : SymbolTable} {fault : Numbered Fault} (hread : readText text = .ok statements)
    (hlink : link statements = .ok table)
    (h : (instructions statements).mapM (encodeLine table) = .error fault) :
    IsFirstFault (Text.lines text) fault := by
  have hreadable := readable_of_readText hread
  obtain ⟨hfind, hnodup, hfree, hsize⟩ := linked_of_readText hread hlink
  obtain ⟨before, entry, after, words, hentries, hbefore, hentry, hencode⟩ :=
    exists_encode_of_mapM_eq_error h
  obtain ⟨first, rest, rfl, hfirst⟩ := exists_of_instructions_eq_append hentries
  obtain ⟨linesBefore, line, linesAfter, hls, hline, hs, hscan⟩ :=
    Text.exists_of_items_scanLines (scanLines_of_readText hread)
  have hs := statementOn?_of_readStatement hs
  have hat : (Text.lines text)[linesBefore.length]? = some line := by simp [hls]
  have hmem := mem_instructionsOn.2 ⟨line, List.mem_of_getElem? hat, hs⟩
  refine ⟨.encoding, linesBefore.length, by rw [← hentry, hline, Nat.add_comm],
    .encoding hat hs (isUnencodable_of_encode hfind hsize hmem hencode),
    fun other j f hother => ?_⟩
  cases other with
  | reading => exact absurd hother (not_isFaultAt_reading hreadable j f)
  | linking => exact absurd hother (not_isFaultAt_linking ⟨hnodup, hfree⟩ hsize j f)
  | encoding =>
      refine .inr ⟨rfl, Nat.le_of_not_lt fun hlt => ?_⟩
      cases hother with
      | @encoding line' i _ hline' hi hreason =>
          -- the instruction stands before the one that stopped the pass, so it has a word
          have hmem' := mem_instructionsOn.2 ⟨line', List.mem_of_getElem? hline', hi⟩
          have hearly : i ∈ before.map (·.value) := by
            rw [← hfirst, map_value_instructions, values_of_scanLines hscan]
            refine mem_instructionsOn.2 ⟨line', ?_, hi⟩
            rw [hls, List.getElem?_append_left hlt] at hline'
            exact List.mem_of_getElem? hline'
          obtain ⟨entry', hentry', rfl⟩ := List.mem_map.1 hearly
          obtain ⟨word, hword⟩ := exists_of_mem_of_mapM_eq_ok hbefore hentry'
          exact not_isUnencodable_of_encode hfind hfree hmem' (encode_of_encodeLine hword) f hreason

/-- A text that does not assemble is rejected for its first fault. -/
theorem isFirstFault_of_assemble {fault : Numbered Fault} (h : assemble text = .error fault) :
    IsFirstFault (Text.lines text) fault := by
  rw [assemble] at h
  cases hread : readText text with
  | error other =>
      obtain rfl : other = fault := by simpa [hread, bind, Except.bind] using h
      exact isFirstFault_of_readText hread
  | ok statements =>
      cases hlink : link statements with
      | error other =>
          obtain rfl : other = fault := by
            simpa [hread, encodeAll, hlink, bind, Except.bind] using h
          exact isFirstFault_of_link hread hlink
      | ok table =>
          cases hwords : (instructions statements).mapM (encodeLine table) with
          | error other =>
              obtain rfl : other = fault := by
                simpa [hread, encodeAll, hlink, hwords, bind, Except.bind] using h
              exact isFirstFault_of_encode hread hlink hwords
          | ok words =>
              simp [hread, encodeAll, hlink, hwords, bind, Except.bind, pure, Except.pure] at h

theorem isAcceptable_of_assemble {code : MachineCode} (h : assemble text = .ok code) :
    IsAcceptable (Text.lines text) := by
  obtain ⟨statements, table, hread, hlink, hwords⟩ := exists_link_of_assemble h
  obtain ⟨hfind, hnodup, hfree, hsize⟩ := linked_of_readText hread hlink
  have hencoded : ∀ i ∈ instructionsOn (Text.lines text), ∀ fault,
      ¬i.IsUnencodable (Text.lines text) fault := by
    intro i hi fault
    have hmem : i ∈ (instructions statements).map (·.value) := by
      rwa [map_value_instructions, values_of_readText hread]
    obtain ⟨entry, hentry, rfl⟩ := List.mem_map.1 hmem
    obtain ⟨word, hword⟩ := exists_of_mem_of_mapM_eq_ok hwords hentry
    exact not_isUnencodable_of_encode hfind hfree hi (encode_of_encodeLine hword) fault
  refine ⟨readable_of_readText hread, hnodup, hfree, hsize, fun spelling hspelling => ?_,
    fun symbol hsymbol hfar => hencoded _ (mem_symbolsOn.1 hsymbol) _ (.far hfar),
    Nat.le_of_not_lt fun hlt => ?_⟩
  · refine spelling.isMeaningful_or_isMeaningless.resolve_right fun ⟨fault, hfault⟩ => ?_
    exact hencoded _ hspelling fault (.meaningless hfault)
  · -- the first variable without a cell is the one that so many are used before
    have hlast := List.getElem?_eq_getElem hlt
    obtain ⟨hused, hvariable⟩ :=
      List.mem_filter.1 (List.mem_eraseDups.1 (List.mem_of_getElem? hlast))
    have hsame := (List.getElem?_inj hlt (nodup_eraseDups _)).1
      (hlast.trans (getElem?_variableSymbols hvariable hused).symm)
    exact hencoded _ (mem_symbolsOn.1 hused) _ (.spent hvariable (Nat.le_of_eq hsame))

/-- A text assembles exactly when its lines are acceptable, and a text that does not is rejected
exactly for its first fault. -/
theorem accepts_or_first_fault (text : String) :
    ((∃ code, assemble text = .ok code) ↔ IsAcceptable (Text.lines text)) ∧
      ∀ fault, assemble text = .error fault ↔ IsFirstFault (Text.lines text) fault := by
  constructor
  · refine ⟨fun ⟨code, hcode⟩ => isAcceptable_of_assemble hcode, fun hlines => ?_⟩
    cases h : assemble text with
    | ok code => exact ⟨code, rfl⟩
    | error fault =>
        obtain ⟨phase, k, -, hfault, -⟩ := isFirstFault_of_assemble h
        exact absurd hfault (hlines.not_isFaultAt k phase fault.value)
  · refine fun fault => ⟨isFirstFault_of_assemble, fun hfirst => ?_⟩
    cases h : assemble text with
    | ok code =>
        obtain ⟨phase, k, -, hfault, -⟩ := hfirst
        exact absurd hfault ((isAcceptable_of_assemble h).not_isFaultAt k phase fault.value)
    | error other => rw [(isFirstFault_of_assemble h).unique hfirst]

/-- A line that cannot be read hides a label that is declared twice before it, and that label hides
a computation without a meaning. -/
example : assemble "D=Q\n(L)\n(L)\n@1x\n" = .error ⟨4, .invalidSymbol "1x"⟩ := by
  decide +kernel

example : assemble "D=Q\n(L)\n(L)\n" = .error ⟨3, .duplicateLabel "L"⟩ := by
  decide +kernel

example : assemble "@7\nE=Q;K\n" = .error ⟨2, .unknownMnemonic .comp "Q"⟩ := by
  decide +kernel

end Text

end Assembly

end HackToolchain
