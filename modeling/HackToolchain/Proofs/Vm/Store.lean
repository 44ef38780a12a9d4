import HackToolchain.Proofs.Vm.Machine

/-!
# Evaluation without memory

A program of operators, pushes and pops that needs no pointers can be evaluated on a list of words
for the stack, with a word for each cell of the temp segment and for each static cell. `Holds` says
how RAM shows such a store: the stack from cell 256 on, the temp segment from cell 5 on, and the
static cells from cell 16 on. Commands keep it.
-/

namespace HackToolchain

namespace Vm

open Lowering (guard segmentGuard)

/-- What a command without pointers computes on. The top of the stack comes first. -/
structure Store where
  stack : List Word
  temp : Word → Word
  static : String → Word → Word

namespace Store

def empty : Store :=
  ⟨[], fun _ => 0, fun _ _ => 0⟩

def withStack (store : Store) (stack : List Word) : Store :=
  { store with stack }

def setTemp (store : Store) (index value : Word) : Store :=
  { store with temp := fun other => if other = index then value else store.temp other }

def setStatic (store : Store) (unit : String) (index value : Word) : Store :=
  { store with
    static := fun other cell =>
      if other = unit ∧ cell = index then value else store.static other cell }

/-- Evaluates a command of a unit. There is no result where an operand is missing, and none for a
command with a pointer or a jump. -/
def step? (unit : String) (store : Store) : Command → Option Store
  | .operate operator =>
    match operator.isUnary, store.stack with
    | true, y :: rest => some (store.withStack (operator.value 0 y :: rest))
    | false, y :: x :: rest => some (store.withStack (operator.value x y :: rest))
    | _, _ => none
  | .push .constant value => some (store.withStack (value :: store.stack))
  | .push .temp index => some (store.withStack (store.temp index :: store.stack))
  | .push .static index => some (store.withStack (store.static unit index :: store.stack))
  | .pop .temp index =>
    match store.stack with
    | y :: rest => some ((store.withStack rest).setTemp index y)
    | [] => none
  | .pop .static index =>
    match store.stack with
    | y :: rest => some ((store.withStack rest).setStatic unit index y)
    | [] => none
  | _ => none

def run? : Store → List (String × Command) → Option Store
  | store, [] => some store
  | store, (unit, command) :: rest => (store.step? unit command).bind (run? · rest)

end Store

/-- Whether a command is an operator, or a push or pop without a pointer. -/
def Command.isStraight : Command → Bool
  | .operate _ => true
  | .push .constant _ | .push .temp _ | .push .static _ => true
  | .pop .temp _ | .pop .static _ => true
  | _ => false

def staticCell? : String × Command → Option (String × Word)
  | (unit, .push .static index) | (unit, .pop .static index) => some (unit, index)
  | _ => none

/-- The static cells that commands use, in the order of their first use. -/
def staticCells (commands : List (String × Command)) : List (String × Word) :=
  (commands.filterMap staticCell?).eraseDups

def stackCell (place : Nat) : Word :=
  MemoryMap.stackBase + .ofNat place

def tempCell (index : Word) : Word :=
  MemoryMap.tempBase + index

/-- RAM has the words of a stack from cell 256 on, the bottom first. -/
structure ShowsStack (stack : List Word) (ram : Memory) : Prop where
  height : stack.length < 32512
  sp : ram.pointer .sp = stackCell stack.length
  word : ∀ w rest, w :: rest <:+ stack → ram.read (stackCell rest.length) = w

/-- RAM has the words of the temp segment from cell 5 on, and those of static cells from cell 16 on
in the given order. -/
structure ShowsCells (cells : List (String × Word)) (temp : Word → Word)
    (static : String → Word → Word) (ram : Memory) : Prop where
  count : cells.length ≤ 240
  temp : ∀ index ≤ 7, ram.read (tempCell index) = temp index
  static : ∀ place cell, cells[place]? = some cell →
    ram.read (Assembly.variableCell place) = static cell.1 cell.2

/-- RAM shows a store, with the static cells in the given order. -/
structure Holds (cells : List (String × Word)) (store : Store) (ram : Memory) : Prop where
  stack : ShowsStack store.stack ram
  cells : ShowsCells cells store.temp store.static ram

theorem toNat_stackCell {place : Nat} (h : place < 32512) :
    (stackCell place).toNat = 256 + place := by
  have hsize : place < UInt16.size := Nat.lt_trans h (by decide)
  rw [stackCell, UInt16.toNat_add, UInt16.toNat_ofNat_of_lt' hsize]
  have hbase : MemoryMap.stackBase.toNat = 256 := rfl
  omega

theorem isStackCell_stackCell {place : Nat} (h : place < 32512) :
    Memory.isStackCell (stackCell place) = true := by
  rw [Memory.isStackCell_iff, toNat_stackCell h]
  omega

theorem stackCell_succ (place : Nat) : stackCell (place + 1) = stackCell place + 1 := by
  rw [stackCell, stackCell, UInt16.ofNat_add, UInt16.add_assoc]
  rfl

theorem stackCell_succ_sub_one (place : Nat) : stackCell (place + 1) - 1 = stackCell place := by
  rw [stackCell_succ, UInt16.add_sub_cancel]

theorem toNat_tempCell {index : Word} (h : index ≤ 7) :
    (tempCell index).toNat = 5 + index.toNat := by
  have hle : index.toNat ≤ 7 := UInt16.le_iff_toNat_le.1 h
  rw [tempCell, UInt16.toNat_add]
  have hbase : MemoryMap.tempBase.toNat = 5 := rfl
  omega

def straightEffect (static : Word → Word) (ram : Memory) : Command → Memory
  | .operate operator => ram.operate operator
  | .push segment index => ram.push (segment.value static ram index)
  | .pop segment index => ram.popInto (segment.cell? static ram index)
  | _ => ram

theorem ne_sp_of_pos {address : Word} (h : 0 < address.toNat) : address ≠ Pointer.sp.address := by
  rintro rfl
  simp [Pointer.address] at h

namespace ShowsStack

variable {stack rest : List Word} {y : Word} {ram ram' : Memory}

theorem congr (h : ShowsStack stack ram) (hsp : ram'.pointer .sp = ram.pointer .sp)
    (hread : ∀ address : Word, 256 ≤ address.toNat → address.toNat < 256 + stack.length →
      ram'.read address = ram.read address) : ShowsStack stack ram' := by
  refine ⟨h.height, hsp.trans h.sp, fun w rest hsuffix => ?_⟩
  have hlt : rest.length < stack.length := hsuffix.length_le
  have hnat := toNat_stackCell (Nat.lt_trans hlt h.height)
  rw [hread _ (by omega) (by omega)]
  exact h.word w rest hsuffix

theorem read_of_getElem? (h : ShowsStack stack ram) {place : Nat} {w : Word}
    (hw : stack.reverse[place]? = some w) : ram.read (stackCell place) = w := by
  obtain ⟨hlt, rfl⟩ := List.getElem?_eq_some_iff.1 hw
  rw [List.length_reverse] at hlt
  have htop : stack.length - 1 - place < stack.length := by omega
  have hsuffix : stack[stack.length - 1 - place] :: stack.drop (stack.length - 1 - place + 1) <:+
      stack := by
    rw [← List.drop_eq_getElem_cons htop]
    exact List.drop_suffix _ _
  have hread := h.word _ _ hsuffix
  rw [List.length_drop] at hread
  rw [List.getElem_reverse, ← hread]
  congr 2
  omega

theorem write (h : ShowsStack stack ram) {address : Word} (hpos : 0 < address.toNat)
    (hlt : address.toNat < 256) (value : Word) : ShowsStack stack (ram.write address value) := by
  apply h.congr
  · exact Memory.read_write_of_ne (ne_sp_of_pos hpos).symm _ _
  · intro other hother _
    apply Memory.read_write_of_ne
    rintro rfl
    omega

theorem isStackCell_sp (h : ShowsStack stack ram) :
    Memory.isStackCell (ram.pointer .sp) = true := by
  rw [h.sp]
  exact isStackCell_stackCell h.height

theorem push (h : ShowsStack stack ram) (hroom : stack.length + 1 < 32512) (value : Word) :
    ShowsStack (value :: stack) (ram.push value) := by
  have hnat := toNat_stackCell h.height
  refine ⟨hroom, ?_, fun w rest hsuffix => ?_⟩
  · rw [Memory.pointer_sp_push, h.sp]
    exact (stackCell_succ _).symm
  · rcases List.suffix_cons_iff.1 hsuffix with heq | hsuffix
    · obtain ⟨rfl, rfl⟩ := List.cons.inj heq
      rw [← h.sp]
      exact Memory.read_push_self h.isStackCell_sp w
    · have hlt : rest.length < stack.length := hsuffix.length_le
      have hnat' := toNat_stackCell (Nat.lt_trans hlt h.height)
      have hne : stackCell rest.length ≠ ram.pointer .sp := by
        intro heq
        rw [heq, h.sp] at hnat'
        omega
      rw [Memory.read_push_of_ne (ne_sp_of_pos (by omega)) hne]
      exact h.word w rest hsuffix

theorem sp_sub_one (h : ShowsStack (y :: rest) ram) :
    ram.pointer .sp - 1 = stackCell rest.length := by
  rw [h.sp]
  exact stackCell_succ_sub_one _

theorem height_tail (h : ShowsStack (y :: rest) ram) : rest.length < 32512 :=
  Nat.lt_of_succ_lt h.height

theorem hasTop (h : ShowsStack (y :: rest) ram) : ram.hasTop := by
  rw [Memory.hasTop, h.sp_sub_one]
  exact isStackCell_stackCell h.height_tail

theorem top (h : ShowsStack (y :: rest) ram) : ram.top = y := by
  rw [Memory.top, h.sp_sub_one]
  exact h.word y rest List.suffix_rfl

theorem drop (h : ShowsStack (y :: rest) ram) : ShowsStack rest ram.drop := by
  refine ⟨h.height_tail, ?_, fun w rest' hsuffix => ?_⟩
  · rw [Memory.pointer_sp_drop, h.sp_sub_one]
  · have hlt : rest'.length < rest.length := hsuffix.length_le
    have hnat := toNat_stackCell (Nat.lt_trans hlt h.height_tail)
    rw [Memory.read_drop_of_ne (ne_sp_of_pos (by omega))]
    exact h.word w rest' (hsuffix.trans (List.suffix_cons _ _))

theorem replaceTop (h : ShowsStack (y :: rest) ram) (value : Word) :
    ShowsStack (value :: rest) (ram.replaceTop value) := by
  have hcell := isStackCell_stackCell h.height_tail
  rw [Memory.replaceTop, h.sp_sub_one]
  refine ⟨h.height, ?_, fun w rest' hsuffix => ?_⟩
  · rw [Memory.pointer_write_of_isStackCell hcell]
    exact h.sp
  · rcases List.suffix_cons_iff.1 hsuffix with heq | hsuffix
    · obtain ⟨rfl, rfl⟩ := List.cons.inj heq
      exact Memory.read_write_self (Memory.contains_of_isStackCell hcell) _ _
    · have hlt : rest'.length < rest.length := hsuffix.length_le
      have hnat := toNat_stackCell h.height_tail
      have hnat' := toNat_stackCell (Nat.lt_trans hlt h.height_tail)
      rw [Memory.read_write_of_ne fun heq => by rw [heq] at hnat'; omega]
      exact h.word w rest' (hsuffix.trans (List.suffix_cons _ _))

end ShowsStack

namespace ShowsCells

variable {cells : List (String × Word)} {temp : Word → Word} {static : String → Word → Word}
  {ram ram' : Memory}

theorem toNat_variableCell (h : ShowsCells cells temp static ram) {place : Nat}
    {cell : String × Word} (hcell : cells[place]? = some cell) :
    (Assembly.variableCell place).toNat = 16 + place ∧ place < 240 := by
  have hlt : place < 240 :=
    Nat.lt_of_lt_of_le (List.getElem?_eq_some_iff.1 hcell).1 h.count
  exact ⟨Assembly.toNat_variableCell (Nat.lt_trans hlt (by decide)), hlt⟩

theorem congr (h : ShowsCells cells temp static ram)
    (hread : ∀ address : Word, Memory.isScratch address = false → 5 ≤ address.toNat →
      address.toNat < 256 → ram'.read address = ram.read address) :
    ShowsCells cells temp static ram' := by
  refine ⟨h.count, fun index hindex => ?_, fun place cell hcell => ?_⟩
  · have hnat := toNat_tempCell hindex
    have hle : index.toNat ≤ 7 := UInt16.le_iff_toNat_le.1 hindex
    have husable := Memory.isUsable_of_toNat_le (show (tempCell index).toNat ≤ 12 by omega)
    rw [hread _ ((Memory.isUsable_iff _).1 husable).2 (by omega) (by omega)]
    exact h.temp index hindex
  · obtain ⟨hnat, hlt⟩ := h.toNat_variableCell hcell
    have hstack := (Memory.isStackCell_iff (Assembly.variableCell place)).2 (by omega)
    rw [hread _ (Memory.isScratch_of_isStackCell hstack) (by omega) (by omega)]
    exact h.static place cell hcell

theorem write (h : ShowsCells cells temp static ram) {address : Word}
    (hge : 256 ≤ address.toNat) (value : Word) :
    ShowsCells cells temp static (ram.write address value) := by
  apply h.congr
  intro other _ _ hother
  apply Memory.read_write_of_ne
  rintro rfl
  omega

theorem setPointer (h : ShowsCells cells temp static ram) (value : Word) :
    ShowsCells cells temp static (ram.setPointer .sp value) := by
  apply h.congr
  intro other _ hother _
  exact Memory.read_write_of_ne (ne_sp_of_pos (by omega)) _ _

theorem setTemp (h : ShowsCells cells temp static ram) {index : Word} (hindex : index ≤ 7)
    (value : Word) :
    ShowsCells cells (fun other => if other = index then value else temp other) static
      (ram.write (tempCell index) value) := by
  have hnat := toNat_tempCell hindex
  have hle : index.toNat ≤ 7 := UInt16.le_iff_toNat_le.1 hindex
  have hcontains := (Memory.isUsable_iff _).1
    (Memory.isUsable_of_toNat_le (show (tempCell index).toNat ≤ 12 by omega))
  refine ⟨h.count, fun other hother => ?_, fun place cell hcell => ?_⟩
  · by_cases heq : other = index
    · rw [if_pos heq, heq]
      exact Memory.read_write_self hcontains.1 _ _
    · have hne : tempCell other ≠ tempCell index := fun hcell =>
        heq ((UInt16.add_right_inj _).1 hcell)
      rw [if_neg heq, Memory.read_write_of_ne hne]
      exact h.temp other hother
  · obtain ⟨hnat', -⟩ := h.toNat_variableCell hcell
    rw [Memory.read_write_of_ne fun heq => by rw [heq] at hnat'; omega]
    exact h.static place cell hcell

theorem setStatic (h : ShowsCells cells temp static ram) (hnodup : cells.Nodup) {place : Nat}
    {unit : String} {index : Word} (hplace : cells[place]? = some (unit, index)) (value : Word) :
    ShowsCells cells temp
      (fun other cell => if other = unit ∧ cell = index then value else static other cell)
      (ram.write (Assembly.variableCell place) value) := by
  obtain ⟨hnat, hlt⟩ := h.toNat_variableCell hplace
  have hcell' := (Memory.isStackCell_iff (Assembly.variableCell place)).2 (by omega)
  refine ⟨h.count, fun other hother => ?_, fun place' cell hcell => ?_⟩
  · have hnat' := toNat_tempCell hother
    have hle : other.toNat ≤ 7 := UInt16.le_iff_toNat_le.1 hother
    rw [Memory.read_write_of_ne fun heq => by rw [heq] at hnat'; omega]
    exact h.temp other hother
  · obtain ⟨hnat', -⟩ := h.toNat_variableCell hcell
    by_cases heq : place' = place
    · subst heq
      obtain rfl := Option.some.inj (hcell.symm.trans hplace)
      rw [if_pos ⟨rfl, rfl⟩]
      exact Memory.read_write_self (Memory.contains_of_isStackCell hcell') _ _
    · have hne : ¬(cell.1 = unit ∧ cell.2 = index) := by
        rintro ⟨rfl, rfl⟩
        have hlen := (List.getElem?_eq_some_iff.1 hcell).1
        exact heq ((List.getElem?_inj hlen hnodup).1 (hcell.trans hplace.symm))
      rw [if_neg hne, Memory.read_write_of_ne fun heq => by rw [heq] at hnat'; omega]
      exact h.static place' cell hcell

end ShowsCells

namespace Holds

variable {cells : List (String × Word)} {store next : Store} {ram ram' : Memory}

theorem congr (h : Holds cells store ram) (hagrees : ram'.Agrees ram) :
    Holds cells store ram' := by
  refine ⟨h.stack.congr (hagrees.pointer .sp) fun address hge hlt => ?_,
    h.cells.congr fun address hscratch _ _ => hagrees address hscratch⟩
  have hheight := h.stack.height
  apply hagrees
  apply Memory.isScratch_of_isStackCell
  rw [Memory.isStackCell_iff]
  omega

/-- Before any command, RAM with the stack set up shows the store without words. -/
theorem initial (hcells : cells.length ≤ 240) :
    Holds cells .empty (Memory.zero.setPointer .sp MemoryMap.stackBase) := by
  have hzero {address : Word} (h : 0 < address.toNat) :
      (Memory.zero.setPointer .sp MemoryMap.stackBase).read address = 0 := by
    rw [Memory.setPointer, Memory.read_write_of_ne (ne_sp_of_pos h), Memory.read_zero]
  have hpointer : (Memory.zero.setPointer .sp MemoryMap.stackBase).pointer .sp = stackCell 0 :=
    Memory.pointer_setPointer_self _ _ _
  refine ⟨⟨by decide, hpointer, fun w rest hsuffix => ?_⟩,
    ⟨hcells, fun index hindex => hzero ?_, fun place cell hcell => hzero ?_⟩⟩
  · simp [Store.empty] at hsuffix
  · have hle : index.toNat ≤ 7 := UInt16.le_iff_toNat_le.1 hindex
    rw [toNat_tempCell hindex]
    omega
  · have hlt : place < 240 :=
      Nat.lt_of_lt_of_le (List.getElem?_eq_some_iff.1 hcell).1 hcells
    rw [Assembly.toNat_variableCell (Nat.lt_trans hlt (by decide))]
    omega

theorem push (h : Holds cells store ram) (hroom : store.stack.length + 1 < 32512) (value : Word) :
    Holds cells (store.withStack (value :: store.stack)) (ram.push value) := by
  refine ⟨h.stack.push hroom value, (h.cells.write ?_ value).setPointer _⟩
  rw [h.stack.sp, toNat_stackCell h.stack.height]
  omega

section Top

variable {y : Word} {rest : List Word}

theorem drop (h : Holds cells store ram) (hstack : store.stack = y :: rest) :
    Holds cells (store.withStack rest) ram.drop :=
  ⟨(hstack ▸ h.stack).drop, h.cells.setPointer _⟩

theorem replaceTop (h : Holds cells store ram) (hstack : store.stack = y :: rest) (value : Word) :
    Holds cells (store.withStack (value :: rest)) (ram.replaceTop value) := by
  have hshows : ShowsStack (y :: rest) ram := hstack ▸ h.stack
  refine ⟨hshows.replaceTop value, h.cells.write ?_ value⟩
  rw [hshows.sp_sub_one, toNat_stackCell hshows.height_tail]
  omega

end Top

variable {static : Word → Word}

theorem operate (h : Holds cells store ram) {unit : String} {operator : Operator}
    (hstep : store.step? unit (.operate operator) = some next) :
    (ram.hasTop ∧ (operator.isUnary = false → ram.drop.hasTop)) ∧
      Holds cells next (ram.operate operator) := by
  rw [Store.step?] at hstep
  rw [Memory.operate]
  cases hunary : operator.isUnary with
  | true =>
      cases hstack : store.stack with
      | nil => simp [hunary, hstack] at hstep
      | cons y rest =>
          obtain rfl : store.withStack (operator.value 0 y :: rest) = next := by
            simpa [hunary, hstack] using hstep
          have hshows : ShowsStack (y :: rest) ram := hstack ▸ h.stack
          rw [if_pos rfl, hshows.top]
          exact ⟨⟨hshows.hasTop, by simp⟩, h.replaceTop hstack _⟩
  | false =>
      rcases hstack : store.stack with _ | ⟨y, _ | ⟨x, rest⟩⟩
      · simp [hunary, hstack] at hstep
      · simp [hunary, hstack] at hstep
      · obtain rfl : store.withStack (operator.value x y :: rest) = next := by
          simpa [hunary, hstack] using hstep
        have hshows : ShowsStack (y :: x :: rest) ram := hstack ▸ h.stack
        have hdrop := h.drop hstack
        rw [if_neg Bool.false_ne_true, hshows.top, hshows.drop.top]
        exact ⟨⟨hshows.hasTop, fun _ => hshows.drop.hasTop⟩, hdrop.replaceTop rfl _⟩

theorem pushStep (h : Holds cells store ram) {unit : String} {segment : Segment} {index : Word}
    (hdefect : (Command.push segment index).defect? = none)
    (hroom : store.stack.length + 1 < 32512)
    (hstatic : segment = .static → ∃ place, cells[place]? = some (unit, index) ∧
      static index = Assembly.variableCell place)
    (hstep : store.step? unit (.push segment index) = some next) :
    segmentGuard ram segment index ∧
      Holds cells next (ram.push (segment.value static ram index)) := by
  cases segment with
  | constant =>
      obtain rfl := Option.some.inj hstep
      exact ⟨fun p hp => by simp [Segment.base] at hp, h.push hroom _⟩
  | temp =>
      obtain rfl := Option.some.inj hstep
      refine ⟨fun p hp => by simp [Segment.base] at hp, ?_⟩
      have hindex : index ≤ 7 := Lowering.le_maxIndex_of_push hdefect
      have hread : Segment.temp.value static ram index = store.temp index :=
        h.cells.temp index hindex
      rw [hread]
      exact h.push hroom _
  | static =>
      obtain rfl := Option.some.inj hstep
      refine ⟨fun p hp => by simp [Segment.base] at hp, ?_⟩
      obtain ⟨place, hplace, hcell⟩ := hstatic rfl
      have hread : Segment.static.value static ram index = store.static unit index := by
        rw [Segment.value, Segment.cell?, Segment.base, hcell]
        exact h.cells.static place _ hplace
      rw [hread]
      exact h.push hroom _
  | _ => simp [Store.step?] at hstep

theorem popStep (h : Holds cells store ram) (hnodup : cells.Nodup) {unit : String}
    {segment : Segment} {index : Word} (hdefect : (Command.pop segment index).defect? = none)
    (hstatic : segment = .static → ∃ place, cells[place]? = some (unit, index) ∧
      static index = Assembly.variableCell place)
    (hstep : store.step? unit (.pop segment index) = some next) :
    (ram.hasTop ∧ segmentGuard ram segment index) ∧
      Holds cells next (ram.popInto (segment.cell? static ram index)) := by
  cases segment with
  | temp =>
      cases hstack : store.stack with
      | nil => simp [Store.step?, hstack] at hstep
      | cons y rest =>
          obtain rfl : (store.withStack rest).setTemp index y = next := by
            simpa [Store.step?, hstack] using hstep
          have hindex : index ≤ 7 := Lowering.le_maxIndex_of_pop hdefect
          have hshows : ShowsStack (y :: rest) ram := hstack ▸ h.stack
          have hdrop := h.drop hstack
          have hnat := toNat_tempCell hindex
          have hle : index.toNat ≤ 7 := UInt16.le_iff_toNat_le.1 hindex
          refine ⟨⟨hshows.hasTop, fun p hp => by simp [Segment.base] at hp⟩, ?_⟩
          rw [Segment.cell?, Segment.base, Memory.popInto, hshows.top]
          have hwrite : ShowsStack rest (ram.drop.write (tempCell index) y) :=
            hdrop.stack.write (by omega) (by omega) y
          exact ⟨hwrite, hdrop.cells.setTemp hindex y⟩
  | static =>
      cases hstack : store.stack with
      | nil => simp [Store.step?, hstack] at hstep
      | cons y rest =>
          obtain rfl : (store.withStack rest).setStatic unit index y = next := by
            simpa [Store.step?, hstack] using hstep
          have hshows : ShowsStack (y :: rest) ram := hstack ▸ h.stack
          have hdrop := h.drop hstack
          obtain ⟨place, hplace, hcell⟩ := hstatic rfl
          obtain ⟨hnat, hlt⟩ := h.cells.toNat_variableCell hplace
          refine ⟨⟨hshows.hasTop, fun p hp => by simp [Segment.base] at hp⟩, ?_⟩
          rw [Segment.cell?, Segment.base, Memory.popInto, hshows.top, hcell]
          exact ⟨hdrop.stack.write (by omega) (by omega) y,
            hdrop.cells.setStatic hnodup hplace y⟩
  | _ => simp [Store.step?] at hstep

/-- Where a command can be evaluated its guard holds, and it does to RAM what it does to the
store. -/
theorem step (h : Holds cells store ram) (hnodup : cells.Nodup) {unit : String} {command : Command}
    (hdefect : command.defect? = none) (hroom : store.stack.length + 1 < 32512)
    (static : Word → Word)
    (hstatic : ∀ index, staticCell? (unit, command) = some (unit, index) →
      ∃ place, cells[place]? = some (unit, index) ∧ static index = Assembly.variableCell place)
    (hstep : store.step? unit command = some next) :
    guard ram command ∧ Holds cells next (straightEffect static ram command) := by
  cases command with
  | operate operator => exact h.operate hstep
  | push segment index =>
      obtain ⟨hguard, hholds⟩ := h.pushStep hdefect hroom
        (fun hsegment => hstatic index (by rw [hsegment]; rfl)) hstep
      exact ⟨⟨h.stack.isStackCell_sp, hguard⟩, hholds⟩
  | pop segment index =>
      exact h.popStep hnodup hdefect
        (fun hsegment => hstatic index (by rw [hsegment]; rfl)) hstep
  | _ => simp [Store.step?] at hstep

end Holds

end Vm

end HackToolchain
