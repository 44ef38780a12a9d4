import HackToolchain.Assembly.Listing
import HackToolchain.Lowering.Context

/-!
# The block of a command

Every command becomes one block of assembly. Between blocks `SP` holds the address of the first free
cell of the stack, so that the top of the stack lies one below. `call` builds, and `return` takes
down, a frame of five words below the locals of the callee:

```text
LCL - 5   return address
LCL - 4   LCL of the caller
LCL - 3   ARG of the caller
LCL - 2   THIS of the caller
LCL - 1   THAT of the caller
LCL + 0   first local
```

The labels that a block generates carry a number that is drawn for it, so no two blocks generate the
same label.
-/

namespace HackToolchain

namespace Lowering

open Vm
open Assembly hiding Fault

abbrev Block := List (Statement Computation)

def load (symbol : String) : Statement Computation :=
  .instruction (.address (.symbol symbol))

def loadNumber (value : Word) : Statement Computation :=
  .instruction (.address (.number value))

def loadPointer (pointer : Pointer) : Statement Computation :=
  load pointer.symbol

def setA (comp : Comp) : Statement Computation :=
  .instruction (.compute (.assign ⟨true, false, false⟩ comp))

def setD (comp : Comp) : Statement Computation :=
  .instruction (.compute (.assign ⟨false, true, false⟩ comp))

def setM (comp : Comp) : Statement Computation :=
  .instruction (.compute (.assign ⟨false, false, true⟩ comp))

def setAM (comp : Comp) : Statement Computation :=
  .instruction (.compute (.assign ⟨true, false, true⟩ comp))

def setMD (comp : Comp) : Statement Computation :=
  .instruction (.compute (.assign ⟨false, true, true⟩ comp))

def jumpIf (comp : Comp) (condition : Jump) : Statement Computation :=
  .instruction (.compute (.branch comp condition))

def jump : Statement Computation :=
  jumpIf .zero .always

def pushD : Block :=
  [loadPointer .sp, setA (.source .m), setM .d, loadPointer .sp, setM (.incSource .m)]

/-- Pops into register D and leaves the address of the popped cell in A. -/
def popD : Block :=
  [loadPointer .sp, setAM (.decSource .m), setD (.source .m)]

def replaceTop (comp : Comp) : Block :=
  [loadPointer .sp, setA (.decSource .m), setM comp]

/-- Pops one operand into D and combines it with the other, which becomes the top. -/
def combine (comp : Comp) : Block :=
  popD ++ [setA (.decSource .a), setM comp]

/-- Replaces two operands by all ones if their difference satisfies a condition, else by zero. -/
def compare (name : String) (id : Nat) (condition : Jump) : Block :=
  let label := name ++ "_" ++ toString id
  popD ++ [setA (.decSource .a), setD (.subD .m), load (label ++ "_TRUE"), jumpIf .d condition] ++
    replaceTop .zero ++ [load (label ++ "_END"), jump, .label (label ++ "_TRUE")] ++
    replaceTop .minusOne ++ [.label (label ++ "_END")]

def readCell (context : Context) (segment : Segment) (index : Word) : Block :=
  match segment.base with
  | .constant => [loadNumber index, setD (.source .a)]
  | .pointer pointer =>
    [loadPointer pointer, setD (.source .m), loadNumber index, setA (.add .a), setD (.source .m)]
  | .fixed base => [loadNumber (base + index), setD (.source .m)]
  | .static => [load (context.staticSymbol index), setD (.source .m)]

/-- Pops into a cell. The address of a cell that a pointer leads to is parked in a scratch cell, since
D is needed for the popped word. The constant segment has no cells to pop into. -/
def popCell (context : Context) (segment : Segment) (index : Word) : Block :=
  match segment.base with
  | .constant => []
  | .pointer pointer =>
    [loadPointer pointer, setD (.source .m), loadNumber index, setD (.add .a),
      load MemoryMap.scratch, setM .d] ++ popD ++
      [load MemoryMap.scratch, setA (.source .m), setM .d]
  | .fixed base => popD ++ [loadNumber (base + index), setM .d]
  | .static => popD ++ [load (context.staticSymbol index), setM .d]

/-- Declares a function and pushes a zero for each of its locals, counting down in a scratch cell. -/
def functionBlock (id : Nat) (name : String) (locals : Word) : Block :=
  let again := name ++ "$$INIT_LOOP." ++ toString id
  let done := name ++ "$$INIT_END." ++ toString id
  [.label name, loadNumber locals, setD (.source .a), load done, jumpIf .d .le,
    load MemoryMap.scratch, setM .d, .label again, loadPointer .sp, setA (.source .m), setM .zero,
    loadPointer .sp, setM (.incSource .m), load MemoryMap.scratch, setMD (.decSource .m),
    load again, jumpIf .d .gt, .label done]

def savedPointers : List Pointer :=
  [.lcl, .arg, .this, .that]

def savePointer (pointer : Pointer) : Block :=
  [loadPointer pointer, setD (.source .m)] ++ pushD

/-- Pushes a frame, points `ARG` to the first argument and `LCL` behind the frame, and goes to the
function. -/
def callBlock (id : Nat) (name : String) (args : Word) : Block :=
  let back := name ++ "$$ret." ++ toString id
  [load back, setD (.source .a)] ++ pushD ++ savedPointers.flatMap savePointer ++
    [loadPointer .sp, setD (.source .m), loadNumber 5, setD (.subSource .a), loadNumber args,
      setD (.subSource .a), loadPointer .arg, setM .d, loadPointer .sp, setD (.source .m),
      loadPointer .lcl, setM .d, load name, jump, .label back]

/-- Takes the next word down from the frame that the scratch cell points into and writes it to a
pointer cell. -/
def restorePointer (pointer : Pointer) : Block :=
  [load MemoryMap.scratch, setAM (.decSource .m), setD (.source .m), loadPointer pointer, setM .d]

/-- Moves the returned word to the place of the first argument, gives the caller its pointers back and
goes to the return address. That address is read first: without arguments it lies where the returned
word goes. -/
def returnBlock : Block :=
  [loadPointer .lcl, setD (.source .m), load MemoryMap.scratch, setM .d, loadNumber 5,
    setA (.subSource .a), setD (.source .m), load MemoryMap.secondScratch, setM .d] ++ popD ++
    [loadPointer .arg, setA (.source .m), setM .d, loadPointer .arg, setD (.incSource .m),
      loadPointer .sp, setM .d] ++
    savedPointers.reverse.flatMap restorePointer ++
    [load MemoryMap.secondScratch, setA (.source .m), jump]

def bootstrapLines : List Line :=
  .comment "bootstrap" ::
    [loadNumber MemoryMap.stackBase, setD (.source .a), loadPointer .sp, setM .d].map .statement

def haltLines (id : Nat) : List Line :=
  let label := "END_" ++ toString id
  .comment "halt" :: [.label label, load label, jump].map .statement

end Lowering

end HackToolchain
