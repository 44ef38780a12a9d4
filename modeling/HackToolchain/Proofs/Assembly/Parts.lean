import HackToolchain.Proofs.Assembly.Reading
import HackToolchain.Proofs.Assembly.Spelling

/-!
# The parts of a compute instruction as they are written

A compute instruction on a line is read by cutting its text at the marks `=` and `;`, and each part is
looked up by its spelling. So if the parts mean something then the text is made of the letters of a
destination, the mnemonic of a computation and the mnemonic of a jump, with the marks between them.
-/

namespace HackToolchain

namespace Comp

theorem mnemonic_of_ofMnemonic? {text : String} {comp : Comp} (h : ofMnemonic? text = some comp) :
    comp.mnemonic = text := by
  simpa using List.find?_some h

end Comp

namespace Jump

theorem mnemonic_of_ofMnemonic? {text : String} {jump : Jump} (h : ofMnemonic? text = some jump) :
    jump.mnemonic = text := by
  simpa using List.find?_some h

end Jump

namespace Dest

/-- Letters name the destination when each is one of the three and none occurs twice. -/
structure IsNamedBy (dest : Dest) (cs : List Char) : Prop where
  nodup : cs.Nodup
  subset : ∀ c ∈ cs, c = 'A' ∨ c = 'D' ∨ c = 'M'
  a : dest.a = decide ('A' ∈ cs)
  d : dest.d = decide ('D' ∈ cs)
  m : dest.m = decide ('M' ∈ cs)

theorem isNamedBy_nowhere : nowhere.IsNamedBy [] where
  nodup := .nil
  subset := by simp
  a := rfl
  d := rfl
  m := rfl

theorem IsNamedBy.insert {dest next : Dest} {cs : List Char} (h : dest.IsNamedBy cs) {c : Char}
    (hnext : dest.insert? c = some next) : next.IsNamedBy (cs ++ [c]) := by
  have hadd (hletter : c = 'A' ∨ c = 'D' ∨ c = 'M') (hnew : c ∉ cs) :
      (cs ++ [c]).Nodup ∧ ∀ d ∈ cs ++ [c], d = 'A' ∨ d = 'D' ∨ d = 'M' := by
    refine ⟨List.nodup_append.2 ⟨h.nodup, List.pairwise_singleton _ c, ?_⟩,
      List.forall_mem_append.2 ⟨h.subset, List.forall_mem_singleton.2 hletter⟩⟩
    intro d hd other hother heq
    exact hnew (List.mem_singleton.1 hother ▸ heq ▸ hd)
  have ha := h.a
  have hd := h.d
  have hm := h.m
  rw [insert?.eq_def] at hnext
  split at hnext
  · by_cases hmem : 'A' ∈ cs
    · simp [ha, hmem] at hnext
    · obtain rfl : { dest with a := true } = next := by simpa [ha, hmem] using hnext
      obtain ⟨hnodup, hsubset⟩ := hadd (.inl rfl) hmem
      exact ⟨hnodup, hsubset, by simp, by simp [hd], by simp [hm]⟩
  · by_cases hmem : 'D' ∈ cs
    · simp [hd, hmem] at hnext
    · obtain rfl : { dest with d := true } = next := by simpa [hd, hmem] using hnext
      obtain ⟨hnodup, hsubset⟩ := hadd (.inr (.inl rfl)) hmem
      exact ⟨hnodup, hsubset, by simp [ha], by simp, by simp [hm]⟩
  · by_cases hmem : 'M' ∈ cs
    · simp [hm, hmem] at hnext
    · obtain rfl : { dest with m := true } = next := by simpa [hm, hmem] using hnext
      obtain ⟨hnodup, hsubset⟩ := hadd (.inr (.inr rfl)) hmem
      exact ⟨hnodup, hsubset, by simp [ha], by simp [hd], by simp⟩
  · simp at hnext

theorem isNamedBy_of_foldlM {start dest : Dest} {before cs : List Char}
    (h : start.IsNamedBy before) (hcs : cs.foldlM insert? start = some dest) :
    dest.IsNamedBy (before ++ cs) := by
  induction cs generalizing start before with
  | nil =>
      obtain rfl : start = dest := Option.some.inj hcs
      rwa [List.append_nil]
  | cons c cs ih =>
      rw [List.foldlM_cons] at hcs
      obtain ⟨next, hnext, hcs⟩ := Option.bind_eq_some_iff.1 hcs
      have hall := ih (h.insert hnext) hcs
      rwa [List.append_assoc, List.singleton_append] at hall

theorem isNamedBy_of_ofLetters? {dest : Dest} {cs : List Char} (h : ofLetters? cs = some dest) :
    cs ≠ [] ∧ dest.IsNamedBy cs := by
  rw [ofLetters?] at h
  split at h
  · simp at h
  · next hne => exact ⟨by simpa using hne, isNamedBy_of_foldlM isNamedBy_nowhere h⟩

end Dest

namespace Assembly

namespace Spelling

theorem resolvePart_eq_ok_iff {α : Type} {field : Field} {ofMnemonic? : String → Option α}
    {text : String} {part : α} :
    resolvePart field ofMnemonic? text = .ok part ↔ ofMnemonic? text = some part := by
  rw [resolvePart]
  cases ofMnemonic? text <;> simp

theorem parts_of_resolve {spelling : Spelling} {c : Computation} (h : spelling.resolve = .ok c) :
    Comp.ofMnemonic? spelling.comp = some c.comp ∧
    (match spelling.dest? with
      | some text => Dest.ofMnemonic? text = some c.dest
      | none => c.dest = Dest.nowhere) ∧
    spelling.jump? = c.jump.map Jump.mnemonic := by
  obtain ⟨dest?, text, jump?⟩ := spelling
  rw [resolve] at h
  obtain ⟨comp, hcomp, h⟩ := exists_of_bind_eq_ok h
  have hcomp := resolvePart_eq_ok_iff.1 hcomp
  -- the jump is resolved last, in the same way with a destination and without one
  have htail (dest : Dest) (h : (match jump? with
      | some text => (resolvePart .jump Jump.ofMnemonic? text).map some
      | none => .ok none) >>= (fun jump => .ok (⟨dest, comp, jump⟩ : Computation)) = .ok c) :
      c.dest = dest ∧ c.comp = comp ∧ jump? = c.jump.map Jump.mnemonic := by
    obtain ⟨jump, hjump, h⟩ := exists_of_bind_eq_ok h
    obtain rfl := Except.ok.inj h
    refine ⟨rfl, rfl, ?_⟩
    cases jump? with
    | none =>
        obtain rfl := Except.ok.inj hjump
        rfl
    | some text =>
        cases hpart : resolvePart .jump Jump.ofMnemonic? text with
        | error fault => simp [hpart, Except.map] at hjump
        | ok part =>
            obtain rfl : some part = jump := by simpa [hpart, Except.map] using hjump
            rw [Option.map_some, Jump.mnemonic_of_ofMnemonic? (resolvePart_eq_ok_iff.1 hpart)]
  cases dest? with
  | none =>
      obtain ⟨hdest, rfl, hjump⟩ := htail Dest.nowhere (by cases jump? <;> exact h)
      exact ⟨hcomp, hdest, hjump⟩
  | some letters =>
      obtain ⟨dest, hdest, h⟩ := exists_of_bind_eq_ok h
      obtain ⟨rfl, rfl, hjump⟩ := htail dest (by cases jump? <;> exact h)
      exact ⟨hcomp, resolvePart_eq_ok_iff.1 hdest, hjump⟩

structure IsMeaningful (spelling : Spelling) : Prop where
  comp : (Comp.ofMnemonic? spelling.comp).isSome
  dest : ∀ text ∈ spelling.dest?, (Dest.ofMnemonic? text).isSome
  jump : ∀ text ∈ spelling.jump?, (Jump.ofMnemonic? text).isSome

/-- Which part of a spelling is blamed for having no meaning: the computation, else the destination,
else the jump. -/
inductive IsMeaningless (spelling : Spelling) : Fault → Prop
  | comp (h : Comp.ofMnemonic? spelling.comp = none) :
      IsMeaningless spelling (.unknownMnemonic .comp spelling.comp)
  | dest {text : String} (hcomp : (Comp.ofMnemonic? spelling.comp).isSome)
      (htext : spelling.dest? = some text) (h : Dest.ofMnemonic? text = none) :
      IsMeaningless spelling (.unknownMnemonic .dest text)
  | jump {text : String} (hcomp : (Comp.ofMnemonic? spelling.comp).isSome)
      (hdest : ∀ text ∈ spelling.dest?, (Dest.ofMnemonic? text).isSome)
      (htext : spelling.jump? = some text) (h : Jump.ofMnemonic? text = none) :
      IsMeaningless spelling (.unknownMnemonic .jump text)

theorem resolvePart_eq_error {α : Type} {field : Field} {ofMnemonic? : String → Option α}
    {text : String} (h : ofMnemonic? text = none) :
    resolvePart field ofMnemonic? text = .error (.unknownMnemonic field text) := by
  rw [resolvePart, h]

theorem IsMeaningful.exists_resolve {spelling : Spelling} (h : spelling.IsMeaningful) :
    ∃ c, spelling.resolve = .ok c := by
  obtain ⟨dest?, text, jump?⟩ := spelling
  obtain ⟨hcomp, hdest, hjump⟩ := h
  obtain ⟨comp, hcomp⟩ : ∃ comp, Comp.ofMnemonic? text = some comp :=
    Option.isSome_iff_exists.1 hcomp
  simp only [resolve, resolvePart_eq_ok_iff.2 hcomp]
  -- the jump is resolved last, in the same way with a destination and without one
  have htail (dest : Dest) : ∃ c, ((match jump? with
      | some text => (resolvePart .jump Jump.ofMnemonic? text).map some
      | none => .ok none) >>= fun jump => .ok (⟨dest, comp, jump⟩ : Computation)) = .ok c := by
    cases jump? with
    | none => exact ⟨_, rfl⟩
    | some name =>
        obtain ⟨jump, hjump⟩ := Option.isSome_iff_exists.1 (hjump name rfl)
        simp only [resolvePart_eq_ok_iff.2 hjump]
        exact ⟨_, rfl⟩
  cases dest? with
  | none =>
      obtain ⟨c, hc⟩ := htail Dest.nowhere
      exact ⟨c, by cases jump? <;> exact hc⟩
  | some letters =>
      obtain ⟨dest, hdest⟩ := Option.isSome_iff_exists.1 (hdest letters rfl)
      simp only [resolvePart_eq_ok_iff.2 hdest]
      obtain ⟨c, hc⟩ := htail dest
      exact ⟨c, by cases jump? <;> exact hc⟩

theorem IsMeaningless.resolve_eq {spelling : Spelling} {fault : Fault}
    (h : spelling.IsMeaningless fault) : spelling.resolve = .error fault := by
  cases h with
  | comp h =>
      rw [resolve, resolvePart_eq_error h]
      rfl
  | dest hcomp htext h =>
      obtain ⟨comp, hcomp⟩ := Option.isSome_iff_exists.1 hcomp
      rw [resolve, resolvePart_eq_ok_iff.2 hcomp, htext]
      simp only [resolvePart_eq_error h]
      rfl
  | jump hcomp hdest htext h =>
      obtain ⟨comp, hcomp⟩ := Option.isSome_iff_exists.1 hcomp
      rw [resolve, resolvePart_eq_ok_iff.2 hcomp, htext]
      simp only [resolvePart_eq_error h]
      cases hgiven : spelling.dest? with
      | none => rfl
      | some text =>
          obtain ⟨dest, hdest⟩ := Option.isSome_iff_exists.1 (hdest text hgiven)
          simp only [resolvePart_eq_ok_iff.2 hdest]
          rfl

theorem isMeaningful_or_isMeaningless (spelling : Spelling) :
    spelling.IsMeaningful ∨ ∃ fault, spelling.IsMeaningless fault := by
  cases hcomp : Comp.ofMnemonic? spelling.comp with
  | none => exact .inr ⟨_, .comp hcomp⟩
  | some comp =>
      have hcomp : (Comp.ofMnemonic? spelling.comp).isSome := by rw [hcomp]; rfl
      by_cases hdest : ∀ text ∈ spelling.dest?, (Dest.ofMnemonic? text).isSome
      · by_cases hjump : ∀ text ∈ spelling.jump?, (Jump.ofMnemonic? text).isSome
        · exact .inl ⟨hcomp, hdest, hjump⟩
        · simp only [not_forall, Option.not_isSome_iff_eq_none] at hjump
          obtain ⟨text, htext, hjump⟩ := hjump
          exact .inr ⟨_, .jump hcomp hdest htext hjump⟩
      · simp only [not_forall, Option.not_isSome_iff_eq_none] at hdest
        obtain ⟨text, htext, hdest⟩ := hdest
        exact .inr ⟨_, .dest hcomp htext hdest⟩

/-- What is blamed when a spelling does not resolve. -/
theorem resolve_eq_error_iff {spelling : Spelling} {fault : Fault} :
    spelling.resolve = .error fault ↔ spelling.IsMeaningless fault := by
  refine ⟨fun h => ?_, IsMeaningless.resolve_eq⟩
  rcases spelling.isMeaningful_or_isMeaningless with hmeaning | ⟨other, hother⟩
  · obtain ⟨c, hc⟩ := hmeaning.exists_resolve
    simp [hc] at h
  · obtain rfl := Except.error.inj (h.symm.trans hother.resolve_eq)
    exact hother

end Spelling

def Spelling.written (spelling : Spelling) : List Char :=
  (match spelling.dest? with
    | none => []
    | some dest => dest.toList ++ ['=']) ++ spelling.comp.toList ++ writtenJump spelling.jump?

/-- The letters of a destination are not the marks that separate the parts. -/
theorem not_mem_of_letters {letters : List Char}
    (h : ∀ c ∈ letters, c = 'A' ∨ c = 'D' ∨ c = 'M') : '=' ∉ letters ∧ ';' ∉ letters :=
  ⟨fun hmem => absurd (h _ hmem) (by decide), fun hmem => absurd (h _ hmem) (by decide)⟩

theorem writtenParts_inj {letters letters' : List Char} {comp comp' : Comp}
    {jump jump' : Option Jump} (h : ∀ c ∈ letters, c = 'A' ∨ c = 'D' ∨ c = 'M')
    (h' : ∀ c ∈ letters', c = 'A' ∨ c = 'D' ∨ c = 'M')
    (heq : writtenParts letters comp jump = writtenParts letters' comp' jump') :
    letters = letters' ∧ comp = comp' ∧ jump = jump' := by
  have hread := congrArg readCompact heq
  obtain ⟨hassign, hsemi⟩ := not_mem_of_letters h
  obtain ⟨hassign', hsemi'⟩ := not_mem_of_letters h'
  rw [readCompact_writtenParts hassign hsemi, readCompact_writtenParts hassign' hsemi',
    Spelling.mk.injEq] at hread
  obtain ⟨hletters, hcomp, hjump⟩ := hread
  refine ⟨?_, ?_, ?_⟩
  · by_cases hnil : letters = []
    · by_cases hnil' : letters' = []
      · rw [hnil, hnil']
      · simp [hnil, hnil'] at hletters
    · by_cases hnil' : letters' = []
      · simp [hnil, hnil'] at hletters
      · simpa [hnil, hnil', String.ofList_inj] using hletters
  · have hfound := Comp.ofMnemonic?_mnemonic comp
    rw [hcomp, Comp.ofMnemonic?_mnemonic] at hfound
    exact (Option.some.inj hfound).symm
  · refine Option.map_injective (fun jump jump' hmnemonic => ?_) hjump
    have hfound := Jump.ofMnemonic?_mnemonic jump
    rw [hmnemonic, Jump.ofMnemonic?_mnemonic] at hfound
    exact (Option.some.inj hfound).symm

theorem written_readCompact (cs : List Char) : (readCompact cs).written = cs := by
  have hassignment (cs : List Char) (jump? : Option String) :
      (readAssignment cs jump?).written = cs ++ writtenJump jump? := by
    rw [readAssignment]
    split
    · next dest comp hsplit =>
        rw [Text.eq_append_of_splitFirst hsplit]
        simp [Spelling.written]
    · simp [Spelling.written]
  rw [readCompact]
  split
  · next assignment jump hsplit =>
      rw [hassignment, Text.eq_append_of_splitFirst hsplit]
      simp [writtenJump]
  · rw [hassignment, writtenJump, List.append_nil]

theorem exists_writtenParts {spelling : Spelling} {c : Computation}
    (h : spelling.resolve = .ok c) :
    ∃ letters, c.dest.IsNamedBy letters ∧ spelling.written = writtenParts letters c.comp c.jump := by
  obtain ⟨hcomp, hdest, hjump⟩ := Spelling.parts_of_resolve h
  obtain ⟨dest?, comp, jump?⟩ := spelling
  obtain rfl := Comp.mnemonic_of_ofMnemonic? hcomp
  obtain rfl := hjump
  cases dest? with
  | none => exact ⟨[], hdest ▸ Dest.isNamedBy_nowhere, rfl⟩
  | some text =>
      obtain ⟨hne, hnamed⟩ := Dest.isNamedBy_of_ofLetters? hdest
      exact ⟨text.toList, hnamed, by rw [writtenParts, if_neg hne, Spelling.written]⟩

/-- The parts of a compute instruction are the text of its line without blanks. -/
theorem exists_line_parts {line : String} {spelling : Spelling} {c : Computation}
    (hline : statementOn? line = some (.instruction (.compute spelling)))
    (h : spelling.resolve = .ok c) :
    ∃ letters, c.dest.IsNamedBy letters ∧
      (Text.code line.toList).filter (!Text.isBlank ·) = writtenParts letters c.comp c.jump := by
  obtain ⟨letters, hnamed, hwritten⟩ := exists_writtenParts h
  refine ⟨letters, hnamed, ?_⟩
  have hread := readStatement_of_statementOn? hline
  rw [readStatement, readCode.eq_def] at hread
  split at hread
  · simp at hread
  · next cs _ => cases hoperand : readOperand cs <;> simp [hoperand, Except.map] at hread
  · next cs _ => cases hlabel : readLabel cs <;> simp [hlabel, Except.map] at hread
  · have hcompact : readCompact ((Text.code line.toList).filter (!Text.isBlank ·)) = spelling := by
      simpa using hread
    rw [← hwritten, ← hcompact, written_readCompact]

end Assembly

end HackToolchain
