import HackToolchain.Proofs.Lowering.Straight

/-!
# Blocks with jumps inside

The block of a comparison has two branches that come together at its end, and the block of a
function has a loop that pushes zeros. Their labels are resolved in the image around them, and they
are executed to their end without leaving them.
-/

namespace HackToolchain

namespace Lowering

open Vm Machine
open Assembly hiding Fault

variable {image : Image} {allowed : Status → Prop} {core : Core} {lo hi : Nat}

theorem leads_goto (hall : ∀ status, allowed status) {symbol : String} {rest' : Block}
    (h : image.Locates (image.address symbol) rest') (core : Core) (rest : Block) :
    image.Leads allowed 2 ([load symbol, jump] ++ rest) core rest'
      { core with a := image.address symbol } :=
  (Image.leads_address (hall _) (.symbol symbol) (jump :: rest) core).trans
    (Image.leads_jump hall h rest)

theorem exec?_popTest (image : Image) (symbol : String) (htop : core.ram.hasTop) :
    image.exec? (popD ++ [load symbol]) core =
      some ⟨image.address symbol, core.ram.top, core.ram.drop⟩ := by
  rw [Image.exec?_append, exec?_popD htop]
  rfl

theorem popTest_append (symbol : String) (rest : Block) :
    popD ++ [load symbol, jumpIf .d .ne] ++ rest =
      (popD ++ [load symbol]) ++ jumpIf .d .ne :: rest := by
  simp

theorem holds_ne_iff (w : Word) : Jump.Holds w .ne ↔ w ≠ 0 :=
  not_congr w.signed_eq_zero_iff

theorem leads_ifGoto_of_ne (hrun : allowed .running) {symbol : String} {rest' : Block}
    (h : image.Locates (image.address symbol) rest') (htop : core.ram.hasTop)
    (hne : core.ram.top ≠ 0) (rest : Block) :
    image.Leads allowed 5 (popD ++ [load symbol, jumpIf .d .ne] ++ rest) core rest'
      ⟨image.address symbol, core.ram.top, core.ram.drop⟩ := by
  have hhead := Image.leads_of_exec? hrun (exec?_popTest image symbol htop)
    (jumpIf .d .ne :: rest)
  let popped : Core := ⟨image.address symbol, core.ram.top, core.ram.drop⟩
  have hholds : Jump.Holds popped.d .ne := (holds_ne_iff _).2 hne
  have hjump : image.Leads allowed 1 (jumpIf .d .ne :: rest) popped rest' popped :=
    Image.leads_branch hrun popped .d rfl (by decide) hholds h rest
  rw [popTest_append]
  exact hhead.trans hjump

theorem leads_ifGoto_of_eq (hrun : allowed .running) (image : Image) (symbol : String)
    (htop : core.ram.hasTop) (heq : core.ram.top = 0) (rest : Block) :
    image.Leads allowed 5 (popD ++ [load symbol, jumpIf .d .ne] ++ rest) core rest
      ⟨image.address symbol, core.ram.top, core.ram.drop⟩ := by
  have hhead := Image.leads_of_exec? hrun (exec?_popTest image symbol htop)
    (jumpIf .d .ne :: rest)
  let popped : Core := ⟨image.address symbol, core.ram.top, core.ram.drop⟩
  have hholds : ¬Jump.Holds popped.d .ne := fun h => (holds_ne_iff _).1 h heq
  have hfall : image.Leads allowed 1 (jumpIf .d .ne :: rest) popped rest popped :=
    Image.leads_fall hrun popped .d rfl hholds rest
  rw [popTest_append]
  exact hhead.trans hfall

/-- A comparison takes the difference of its operands before it branches. -/
theorem exec?_compareHead (image : Image) (symbol : String) (htop : core.ram.hasTop)
    (hsecond : core.ram.drop.hasTop) :
    image.exec? (popD ++ [setA (.decSource .a), setD (.subD .m), load symbol]) core =
      some ⟨image.address symbol, core.ram.drop.top - core.ram.top, core.ram.drop⟩ := by
  have hcell := Memory.contains_of_isStackCell hsecond
  rw [Memory.pointer_sp_drop] at hcell
  have htop' : core.ram.drop.top = core.ram.drop.read (core.ram.pointer .sp - 1 - 1) := by
    rw [Memory.top, Memory.pointer_sp_drop]
  rw [Image.exec?_append, exec?_popD htop, htop']
  simp [hcell, Core.out, Core.source, Comp.value, Comp.readsMemory]

@[simp] theorem codeSize_load (symbol : String) (rest : Block) :
    codeSize (load symbol :: rest) = codeSize rest + 1 := codeSize_instruction _ rest

@[simp] theorem codeSize_jumpIf (comp : Comp) (condition : Jump) (rest : Block) :
    codeSize (jumpIf comp condition :: rest) = codeSize rest + 1 := codeSize_instruction _ rest

@[simp] theorem codeSize_jump (rest : Block) : codeSize (jump :: rest) = codeSize rest + 1 :=
  codeSize_instruction _ rest

@[simp] theorem codeSize_replaceTop (comp : Comp) : codeSize (replaceTop comp) = 3 := rfl

/-- Two branches replace the top of the stack by a truth value and meet again. -/
theorem leadsWithin_select (hrun : allowed .running) (core : Core) {yes : String} (done : String)
    {condition : Jump} (hcondition : condition ≠ .always) (ha : core.a = image.address yes)
    (htop : core.ram.hasTop) (rest : Block) (hlo : lo ≤ codeSize rest)
    (hhi : codeSize rest + 9 ≤ hi) :
    ∃ n ≤ 6, ∃ a, image.LeadsWithin lo hi allowed n
      (jumpIf .d condition :: (replaceTop .zero ++ [load done] ++
        jump :: .label yes :: (replaceTop .minusOne ++ .label done :: rest))) core rest
      ⟨a, core.d, core.ram.replaceTop (if condition.Holds core.d then -1 else 0)⟩ := by
  by_cases hholds : condition.Holds core.d
  -- the jump goes to the second branch, which runs on to the end
  · have hbranch : image.exec? (replaceTop .minusOne) core =
        some ⟨core.ram.pointer .sp - 1, core.d, core.ram.replaceTop (-1)⟩ := exec?_replaceTop htop
    rw [if_pos hholds]
    refine ⟨1 + (3 + 0), by decide, core.ram.pointer .sp - 1,
      Image.LeadsWithin.of_suffix fun h => ?_⟩
    have hyes : image.Locates core.a (replaceTop .minusOne ++ .label done :: rest) := by
      rw [ha]
      apply Image.locates_label
      exact (((List.suffix_cons _ _).trans (List.suffix_append _ _)).trans
        (List.suffix_cons _ _)).trans h
    have hjump := Image.leads_branch hrun core .d rfl hcondition hholds hyes
      (replaceTop .zero ++ [load done] ++
        jump :: .label yes :: (replaceTop .minusOne ++ .label done :: rest))
    refine (hjump.within (by simp; omega) (by simp; omega)).trans ?_
    refine (Image.leadsWithin_of_exec? hrun hbranch (by simpa) (by simp; omega)).trans ?_
    exact Image.leadsWithin_label done rest _
  · have hbranch : image.exec? (replaceTop .zero ++ [load done]) core =
        some ⟨image.address done, core.d, core.ram.replaceTop 0⟩ := by
      rw [Image.exec?_append, exec?_replaceTop htop]
      rfl
    rw [if_neg hholds]
    refine ⟨1 + (4 + 1), by decide, image.address done,
      Image.LeadsWithin.of_suffix fun h => ?_⟩
    have hdone : image.Locates (image.address done) rest := by
      apply Image.locates_label
      exact ((((((List.suffix_append _ _).trans (List.suffix_cons _ _)).trans
        (List.suffix_cons _ _)).trans (List.suffix_append _ _)).trans
        (List.suffix_cons _ _))).trans h
    have hfall : image.Leads allowed 1 _ core _ core := Image.leads_fall hrun core .d rfl hholds
      (replaceTop .zero ++ [load done] ++
        jump :: .label yes :: (replaceTop .minusOne ++ .label done :: rest))
    refine (hfall.within (by simp; omega) (by simp; omega)).trans ?_
    refine (Image.leadsWithin_of_exec? hrun hbranch (by simp; omega) (by simp; omega)).trans ?_
    exact (Image.leads_jump_ahead hrun hdone (by simp; omega)).within (by simp; omega)
      (by simp; omega)

/-- A comparison replaces its operands by a truth value, in at most twelve steps. -/
theorem leadsWithin_compare (hrun : allowed .running) (name : String) (id : Nat) {condition : Jump}
    (hcondition : condition ≠ .always) (htop : core.ram.hasTop) (hsecond : core.ram.drop.hasTop)
    (rest : Block) (hlo : lo ≤ codeSize rest) (hhi : codeSize rest + 15 ≤ hi) :
    ∃ n ≤ 12, ∃ a d, image.LeadsWithin lo hi allowed n (compare name id condition ++ rest) core
      rest ⟨a, d,
        core.ram.drop.replaceTop (truth condition core.ram.drop.top core.ram.top)⟩ := by
  have hhead := exec?_compareHead image (name ++ "_" ++ toString id ++ "_TRUE") htop hsecond
  obtain ⟨n, hn, a, hselect⟩ := leadsWithin_select hrun
    ⟨image.address (name ++ "_" ++ toString id ++ "_TRUE"), core.ram.drop.top - core.ram.top,
      core.ram.drop⟩ (name ++ "_" ++ toString id ++ "_END") hcondition rfl hsecond rest hlo
      (Nat.le_trans (by omega) hhi)
  have hsize : codeSize (popD ++ [setA (.decSource .a), setD (.subD .m),
      load (name ++ "_" ++ toString id ++ "_TRUE")]) = 6 := rfl
  have h := (Image.leadsWithin_of_exec? hrun hhead (by simp; omega) (by
    rw [hsize]
    simp
    omega)).trans hselect
  have hblock : compare name id condition ++ rest = popD ++
      [setA (.decSource .a), setD (.subD .m), load (name ++ "_" ++ toString id ++ "_TRUE")] ++
      jumpIf .d condition :: (replaceTop .zero ++
      [load (name ++ "_" ++ toString id ++ "_END")] ++ jump ::
      .label (name ++ "_" ++ toString id ++ "_TRUE") :: (replaceTop .minusOne ++
      .label (name ++ "_" ++ toString id ++ "_END") :: rest)) := by
    simp [compare]
  rw [hblock]
  exact ⟨6 + n, by omega, a, _, h⟩

theorem leadsWithin_operatorBlock (hrun : allowed .running) (id : Nat) (operator : Operator)
    (htop : core.ram.hasTop) (hsecond : operator.isUnary = false → core.ram.drop.hasTop)
    (rest : Block) (hlo : lo ≤ codeSize rest)
    (hhi : codeSize (operatorBlock id operator) + codeSize rest ≤ hi) :
    ∃ n ≤ 12, ∃ a d, image.LeadsWithin lo hi allowed n (operatorBlock id operator ++ rest) core
      rest ⟨a, d, core.ram.operate operator⟩ := by
  cases hcomparison : operator.isComparison with
  | false =>
      obtain ⟨a, d, hexec⟩ := exec?_operatorBlock image id hcomparison htop hsecond
      refine ⟨_, ?_, a, d, Image.leadsWithin_of_exec? hrun hexec hlo hhi⟩
      cases operator with
      | eq | gt | lt => exact absurd hcomparison (by decide)
      | _ => exact Nat.le_of_ble_eq_true rfl
  | true =>
      have hhi (name : String) (condition : Jump)
          (h : operatorBlock id operator = compare name id condition) :
          codeSize rest + 15 ≤ hi := by
        have hsize : codeSize (compare name id condition) = 15 := rfl
        rwa [h, hsize, Nat.add_comm] at hhi
      cases operator with
      | eq =>
          exact leadsWithin_compare hrun "EQ" id (by decide) htop (hsecond rfl) rest hlo
            (hhi _ _ rfl)
      | gt =>
          exact leadsWithin_compare hrun "GT" id (by decide) htop (hsecond rfl) rest hlo
            (hhi _ _ rfl)
      | lt =>
          exact leadsWithin_compare hrun "LT" id (by decide) htop (hsecond rfl) rest hlo
            (hhi _ _ rfl)
      | _ => exact absurd hcomparison (by decide)

theorem leads_operatorBlock (hrun : allowed .running) (id : Nat) (operator : Operator)
    (htop : core.ram.hasTop) (hsecond : operator.isUnary = false → core.ram.drop.hasTop)
    (rest : Block) :
    ∃ n ≤ 12, ∃ a d, image.Leads allowed n (operatorBlock id operator ++ rest) core rest
      ⟨a, d, core.ram.operate operator⟩ := by
  obtain ⟨n, hn, a, d, h⟩ := leadsWithin_operatorBlock hrun id operator htop hsecond rest
    (Nat.le_refl _) (Nat.le_refl _)
  exact ⟨n, hn, a, d, h.leads⟩

/-- What is repeated to push zeros: one is pushed, and the counter in the scratch cell goes down. -/
def zeroLoop (again : String) : Block :=
  [loadPointer .sp, setA (.source .m), setM .zero, loadPointer .sp, setM (.incSource .m),
    load MemoryMap.scratch, setMD (.decSource .m), load again]

@[simp] theorem codeSize_zeroLoop (again : String) : codeSize (zeroLoop again) = 8 := rfl

theorem exec?_zeroLoop (image : Image) (again : String) {k : Nat}
    (hcount : core.ram.read 13 = .ofNat (k + 1))
    (h : Memory.isStackCell (core.ram.pointer .sp) = true) :
    image.exec? (zeroLoop again) core =
      some ⟨image.address again, .ofNat k, (core.ram.push 0).write 13 (.ofNat k)⟩ := by
  have hcell := Memory.contains_of_isStackCell h
  have hsp := Memory.pointer_write_of_isStackCell h core.ram 0 .sp
  have hscratch : (core.ram.push 0).read 13 = .ofNat (k + 1) := by
    have hne : (13 : Word) ≠ core.ram.pointer .sp := (Memory.ne_of_isStackCell h (by decide)).symm
    rw [Memory.push, Memory.setPointer, Memory.read_write_of_ne (by decide),
      Memory.read_write_of_ne hne, hcount]
  rw [Memory.push] at hscratch ⊢
  simp +decide [zeroLoop, hcell, hsp, hscratch, address_scratch, Core.out, Core.source,
    Comp.value, Comp.readsMemory]

theorem holds_gt_ofNat {k : Nat} (h : k < 32768) : Jump.Holds (.ofNat k) .gt ↔ 0 < k := by
  have hnat : (UInt16.ofNat k).toNat = k := UInt16.toNat_ofNat_of_lt' (Nat.lt_trans h (by decide))
  rw [Jump.Holds, Word.signed_of_lt (hnat.symm ▸ h), hnat]
  omega

/-- The loop pushes as many zeros as the scratch cell says, with nine steps for each. -/
theorem leadsWithin_zeroLoop (hrun : allowed .running) {again : String} (done : String)
    {rest : Block} (hagain : image.Locates (image.address again)
      (zeroLoop again ++ jumpIf .d .gt :: .label done :: rest))
    (hlo : lo ≤ codeSize rest) (hhi : codeSize rest + 9 ≤ hi)
    (k : Nat) (core : Core) (hcount : core.ram.read 13 = .ofNat (k + 1)) (hk : k < 32767)
    (hroom : core.ram.hasRoom (k + 1)) :
    image.LeadsWithin lo hi allowed (9 * (k + 1))
      (zeroLoop again ++ jumpIf .d .gt :: .label done :: rest) core rest
      ⟨image.address again, 0, core.ram.countZeros (k + 1)⟩ := by
  -- the body is followed by a jump on the number of zeros that are left
  have hbody (k : Nat) (core : Core) (hcount : core.ram.read 13 = .ofNat (k + 1))
      (hroom : core.ram.hasRoom (k + 1)) :
      image.LeadsWithin lo hi allowed 8 (zeroLoop again ++ jumpIf .d .gt :: .label done :: rest)
        core (jumpIf .d .gt :: .label done :: rest)
        ⟨image.address again, .ofNat k, (core.ram.push 0).write 13 (.ofNat k)⟩ := by
    have hexec := exec?_zeroLoop image again hcount (Memory.isStackCell_of_hasRoom hroom)
    exact Image.leadsWithin_of_exec? hrun hexec (by simp; omega) (by simp; omega)
  induction k generalizing core with
  | zero =>
      let next : Core := ⟨image.address again, 0, (core.ram.push 0).write 13 0⟩
      have hstop : ¬Jump.Holds next.d .gt := by
        change ¬Jump.Holds 0 .gt
        decide
      have hfall : image.Leads allowed 1 (jumpIf .d .gt :: .label done :: rest) next _ next :=
        Image.leads_fall hrun next .d rfl hstop (.label done :: rest)
      have hlast : image.LeadsWithin lo hi allowed (1 + 0) (jumpIf .d .gt :: .label done :: rest)
          next rest next :=
        (hfall.within (by simpa) (by simp; omega)).trans (Image.leadsWithin_label done rest next)
      have hround := (hbody 0 core hcount hroom).trans hlast
      exact hround
  | succ k ih =>
      let next : Core :=
        ⟨image.address again, .ofNat (k + 1), (core.ram.push 0).write 13 (.ofNat (k + 1))⟩
      have hgo : Jump.Holds next.d .gt := by
        rw [holds_gt_ofNat (by omega)]
        exact Nat.succ_pos k
      have hjump : image.Leads allowed 1 (jumpIf .d .gt :: .label done :: rest) next _ next :=
        Image.leads_branch hrun next .d rfl (by decide) hgo hagain (.label done :: rest)
      have hroom' : next.ram.hasRoom (k + 1) :=
        Memory.hasRoom_write_scratch _ (Memory.hasRoom_push hroom 0)
      have hloop := ih next (Memory.read_write_self (by decide) _ _) (by omega) hroom'
      rw [show 9 * (k + 1 + 1) = 8 + (1 + 9 * (k + 1)) by omega]
      refine (hbody (k + 1) core hcount hroom).trans ?_
      exact (hjump.within (by simpa) (by simp; omega)).trans hloop

/-- What pushes a zero for each of the locals that D counts, if there are any. -/
def zerosBlock (again done : String) : Block :=
  [load MemoryMap.scratch, setM .d] ++ .label again ::
    (zeroLoop again ++ [jumpIf .d .gt, .label done])

@[simp] theorem codeSize_zerosBlock (again done : String) : codeSize (zerosBlock again done) = 11 :=
  rfl

theorem functionBlock_eq (id : Nat) (name : String) (locals : Word) :
    functionBlock id name locals =
      .label name :: ([loadNumber locals, setD (.source .a),
        load (name ++ "$$INIT_END." ++ toString id)] ++ jumpIf .d .le ::
        zerosBlock (name ++ "$$INIT_LOOP." ++ toString id)
          (name ++ "$$INIT_END." ++ toString id)) := rfl

theorem leadsWithin_zerosBlock (hrun : allowed .running) (again done : String)
    (hle : core.d.toNat ≤ 32767) (hne : core.d ≠ 0) (hroom : core.ram.hasRoom core.d.toNat)
    (rest : Block) (hlo : lo ≤ codeSize rest) (hhi : codeSize rest + 11 ≤ hi) :
    image.LeadsWithin lo hi allowed (2 + 9 * core.d.toNat) (zerosBlock again done ++ rest) core rest
      ⟨image.address again, 0, core.ram.pushLocals core.d⟩ := by
  have hpos : core.d.toNat ≠ 0 := fun hzero => hne (UInt16.toNat_inj.1 hzero)
  obtain ⟨k, hk⟩ := Nat.exists_eq_add_one_of_ne_zero hpos
  let parked : Core := ⟨13, core.d, core.ram.write 13 core.d⟩
  have hpark : image.exec? [load MemoryMap.scratch, setM .d] core = some parked := by
    simp +decide [address_scratch, parked, Core.out, Comp.value]
  have hcount : parked.ram.read 13 = .ofNat (k + 1) := by
    rw [← hk, UInt16.ofNat_toNat]
    exact Memory.read_write_self (by decide) _ _
  have hroom' : parked.ram.hasRoom (k + 1) :=
    Memory.hasRoom_write_scratch _ (by rwa [← hk])
  have hblock : zerosBlock again done ++ rest = [load MemoryMap.scratch, setM .d] ++
      .label again :: (zeroLoop again ++ jumpIf .d .gt :: .label done :: rest) := by
    simp [zerosBlock]
  rw [hblock, Memory.pushLocals, if_neg hne, hk]
  refine .of_suffix fun h => ?_
  have hagain : image.Locates (image.address again)
      (zeroLoop again ++ jumpIf .d .gt :: .label done :: rest) := by
    apply Image.locates_label
    exact (List.suffix_append _ _).trans h
  have hsize : codeSize [load MemoryMap.scratch, setM .d] = 2 := rfl
  refine (Image.leadsWithin_of_exec? hrun hpark (by simp; omega) (by
    rw [hsize]
    simp
    omega)).trans ?_
  have hhi' : codeSize rest + 9 ≤ hi := Nat.le_trans (by omega) hhi
  have hloop := leadsWithin_zeroLoop hrun done hagain hlo hhi' k parked hcount (by omega) hroom'
  simpa using (Image.leadsWithin_label again _ parked).trans hloop

theorem leadsWithin_skipZeros (hrun : allowed .running) (again : String) {done : String}
    (ha : core.a = image.address done) (hnone : Jump.Holds core.d .le) (rest : Block)
    (hlo : lo ≤ codeSize rest) (hhi : codeSize rest + 12 ≤ hi) :
    image.LeadsWithin lo hi allowed 1 (jumpIf .d .le :: (zerosBlock again done ++ rest)) core rest
      core := by
  refine .of_suffix fun h => ?_
  have hdone : image.Locates core.a rest := by
    rw [ha]
    apply Image.locates_label
    have hsplit : zerosBlock again done ++ rest = ([load MemoryMap.scratch, setM .d] ++
        .label again :: (zeroLoop again ++ [jumpIf .d .gt])) ++ .label done :: rest := by
      simp [zerosBlock]
    rw [hsplit] at h
    exact ((List.suffix_append _ _).trans (List.suffix_cons _ _)).trans h
  exact (Image.leads_branch hrun core .d rfl (by decide) hnone hdone _).within (by simp; omega)
    (by simp; omega)

/-- The block of a function pushes a zero for each of its locals. That takes nine steps for each,
and six more; without locals it takes four. -/
theorem leadsWithin_functionBlock (hrun : allowed .running) (id : Nat) (name : String)
    {locals : Word} (hlocals : locals ≤ MemoryMap.maxAddress)
    (hroom : core.ram.hasRoom locals.toNat) (rest : Block) (hlo : lo ≤ codeSize rest)
    (hhi : codeSize rest + 15 ≤ hi) :
    ∃ a, image.LeadsWithin lo hi allowed (if locals = 0 then 4 else 6 + 9 * locals.toNat)
      (functionBlock id name locals ++ rest) core rest ⟨a, 0, core.ram.pushLocals locals⟩ := by
  have hle : locals.toNat ≤ 32767 := UInt16.le_iff_toNat_le.1 hlocals
  have hsigned : locals.signed = locals.toNat := Word.signed_of_lt (by omega)
  rw [functionBlock_eq]
  generalize name ++ "$$INIT_LOOP." ++ toString id = again
  generalize name ++ "$$INIT_END." ++ toString id = done
  let body : Block := zerosBlock again done ++ rest
  have hbody : codeSize body = codeSize rest + 11 := by simp [body]; omega
  let tested : Core := ⟨image.address done, locals, core.ram⟩
  have hexec : image.exec? [loadNumber locals, setD (.source .a), load done] core = some tested :=
    rfl
  have hsize : codeSize [loadNumber locals, setD (.source .a), load done] = 3 := rfl
  have hhead : image.LeadsWithin lo hi allowed (0 + 3) (.label name ::
      ([loadNumber locals, setD (.source .a), load done] ++ jumpIf .d .le :: body)) core
      (jumpIf .d .le :: body) tested :=
    (Image.leadsWithin_label name _ core).trans
      (Image.leadsWithin_of_exec? hrun hexec (by simp; omega) (by rw [hsize]; simp; omega))
  by_cases hzero : locals = 0
  · have hnone : Jump.Holds tested.d .le := by
      change locals.signed ≤ 0
      rw [hsigned, hzero]
      exact Int.le_refl 0
    have hskip : image.LeadsWithin lo hi allowed 1 (jumpIf .d .le :: body) tested rest tested :=
      leadsWithin_skipZeros hrun again rfl hnone rest hlo (by omega)
    refine ⟨tested.a, ?_⟩
    rw [if_pos hzero, Memory.pushLocals, if_pos hzero]
    exact hzero ▸ hhead.trans hskip
  -- a number of locals is below 32768, so its sign is that of a positive number
  · have hgo : ¬Jump.Holds tested.d .le := by
      have hne : locals.toNat ≠ 0 := fun h => hzero (UInt16.toNat_inj.1 h)
      change ¬locals.signed ≤ 0
      omega
    have hfall : image.Leads allowed 1 (jumpIf .d .le :: body) tested body tested :=
      Image.leads_fall hrun tested .d rfl hgo body
    have hzeros : image.LeadsWithin lo hi allowed (2 + 9 * locals.toNat) body tested rest
        ⟨image.address again, 0, core.ram.pushLocals locals⟩ :=
      leadsWithin_zerosBlock hrun again done hle hzero hroom rest hlo (by omega)
    have h := hhead.trans ((hfall.within (by omega) (by omega)).trans hzeros)
    refine ⟨image.address again, ?_⟩
    rw [if_neg hzero, show 6 + 9 * locals.toNat = 0 + 3 + (1 + (2 + 9 * locals.toNat)) by omega]
    exact h

theorem leads_functionBlock (hrun : allowed .running) (id : Nat) (name : String) {locals : Word}
    (hlocals : locals ≤ MemoryMap.maxAddress) (hroom : core.ram.hasRoom locals.toNat)
    (rest : Block) :
    ∃ n core', image.Leads allowed n (functionBlock id name locals ++ rest) core rest core' ∧
      core'.ram.Agrees (Memory.pushZeros locals.toNat core.ram) := by
  obtain ⟨a, h⟩ := leadsWithin_functionBlock hrun id name hlocals hroom rest (Nat.le_refl _)
    (Nat.le_refl _)
  exact ⟨_, _, h.leads, Memory.agrees_pushLocals core.ram locals⟩

end Lowering

end HackToolchain
