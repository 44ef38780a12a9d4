import HackToolchain.Proofs.Assembly.Execution

/-!
# Executing a block without leaving it

How far a computer is in an image is told by the number of instructions from its program counter on.
`LeadsWithin` is `Leads` with bounds on that number before each step, so it says that no instruction
outside of a block is executed on the way. Statements that do not jump are executed within the bounds
if they lie within the bounds.
-/

namespace HackToolchain

namespace Assembly

open Machine

namespace Image

variable {image : Image} {allowed : Status → Prop} {lo hi m n : Nat} {core core' core'' : Core}
  {rest rest' rest'' : List (Statement Computation)}

/-- The number of instructions from the program counter on. -/
def left (image : Image) (cpu : Cpu) : Nat :=
  codeSize image.statements - cpu.pc.toNat

theorem Locates.toNat_add_codeSize {address : Word} (h : image.Locates address rest) :
    address.toNat + codeSize rest = codeSize image.statements := by
  obtain ⟨before, hstatements, rfl⟩ := h
  have hle := image.size_le
  rw [hstatements, codeSize_append] at hle
  have hlt : codeSize before < UInt16.size :=
    Nat.lt_of_le_of_lt (Nat.le_trans (Nat.le_add_right _ _) hle) (by decide)
  rw [hstatements, codeSize_append, UInt16.toNat_ofNat_of_lt' hlt]

theorem At.left_eq {cpu : Cpu} (h : image.At rest cpu) : image.left cpu = codeSize rest := by
  rw [left, ← h.pc.toNat_add_codeSize, Nat.add_sub_cancel_left]

/-- From one place and core, `n` steps with allowed statuses lead to another place and core. Before
each of them more than `lo` and at most `hi` instructions are left. -/
def LeadsWithin (image : Image) (lo hi : Nat) (allowed : Status → Prop) (n : Nat)
    (rest : List (Statement Computation)) (core : Core) (rest' : List (Statement Computation))
    (core' : Core) : Prop :=
  ∀ cpu, image.At rest cpu → cpu.core = core →
    ∃ final, Cpu.Path allowed n cpu final ∧
      (∀ m < n, ∀ mid, Cpu.Path Status.IsAny m cpu mid → lo < image.left mid ∧ image.left mid ≤ hi) ∧
      image.At rest' final ∧ final.core = core'

theorem LeadsWithin.leads (h : image.LeadsWithin lo hi allowed n rest core rest' core') :
    image.Leads allowed n rest core rest' core' := by
  intro cpu hat hcore
  obtain ⟨final, path, -, hat', hcore'⟩ := h cpu hat hcore
  exact ⟨final, path, hat', hcore'⟩

theorem LeadsWithin.trans (h : image.LeadsWithin lo hi allowed m rest core rest' core')
    (h' : image.LeadsWithin lo hi allowed n rest' core' rest'' core'') :
    image.LeadsWithin lo hi allowed (m + n) rest core rest'' core'' := by
  intro cpu hat hcore
  obtain ⟨mid, path, hwithin, hat, hcore⟩ := h cpu hat hcore
  obtain ⟨final, path', hwithin', hat, hcore⟩ := h' mid hat hcore
  refine ⟨final, path.trans path', fun i hi other hother => ?_, hat, hcore⟩
  rcases Nat.lt_or_ge i m with hlt | hge
  · exact hwithin i hlt other hother
  · obtain ⟨j, rfl⟩ := Nat.exists_eq_add_of_le hge
    obtain ⟨first, hfirst, hsecond⟩ := hother.exists_mid
    obtain rfl := path.unique hfirst
    exact hwithin' j (by omega) other hsecond

/-- A place may be taken to be in the image when it is shown what it leads to. -/
theorem LeadsWithin.of_suffix
    (h : rest <:+ image.statements → image.LeadsWithin lo hi allowed n rest core rest' core') :
    image.LeadsWithin lo hi allowed n rest core rest' core' := by
  intro cpu hat hcore
  obtain ⟨before, hstatements, -⟩ := hat.pc
  exact h ⟨before, hstatements.symm⟩ cpu hat hcore

theorem leadsWithin_label (name : String) (rest : List (Statement Computation)) (core : Core) :
    image.LeadsWithin lo hi allowed 0 (.label name :: rest) core rest core := by
  intro cpu hat hcore
  exact ⟨cpu, .refl cpu, fun m hm => absurd hm (Nat.not_lt_zero m), ⟨hat.rom, hat.pc.label⟩, hcore⟩

theorem Leads.within {i : Instruction Computation}
    (h : image.Leads allowed 1 (.instruction i :: rest) core rest' core') (hlo : lo ≤ codeSize rest)
    (hhi : codeSize rest < hi) :
    image.LeadsWithin lo hi allowed 1 (.instruction i :: rest) core rest' core' := by
  intro cpu hat hcore
  obtain ⟨final, path, hat', hcore'⟩ := h cpu hat hcore
  refine ⟨final, path, fun m hm mid hmid => ?_, hat', hcore'⟩
  obtain rfl : m = 0 := Nat.lt_one_iff.1 hm
  have hstay : Cpu.Path allowed 0 cpu cpu := .refl cpu
  obtain rfl := hstay.unique hmid
  rw [hat.left_eq, codeSize_instruction]
  omega

theorem leadsWithin_of_exec? (hrun : allowed .running) {block : List (Statement Computation)}
    (h : image.exec? block core = some core') (hlo : lo ≤ codeSize rest)
    (hhi : codeSize block + codeSize rest ≤ hi) :
    image.LeadsWithin lo hi allowed (codeSize block) (block ++ rest) core rest core' := by
  rintro cpu hat rfl
  obtain ⟨final, path, hat', hcore'⟩ := leads_of_exec? hrun h rest cpu hat rfl
  refine ⟨final, path, fun m hm mid hmid => ?_, hat', hcore'⟩
  obtain ⟨before, hstatements, hpc⟩ := hat.pc
  have hmid := pc_of_exec? hstatements hat h (Nat.le_of_lt hm) hmid
  have hsize := image.size_le
  rw [hstatements, codeSize_append, codeSize_append] at hsize
  have hlt : codeSize before + m < UInt16.size := by
    have hrom : MemoryMap.romSize < UInt16.size := by decide
    omega
  rw [left, hmid, UInt16.toNat_ofNat_of_lt' hlt, hstatements, codeSize_append, codeSize_append]
  omega

end Image

end Assembly

end HackToolchain
