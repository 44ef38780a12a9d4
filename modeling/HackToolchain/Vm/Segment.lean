import HackToolchain.MemoryMap

/-!
# Memory segments

`push` and `pop` name a cell by a segment and an index. Four segments start where a pointer points
to, two have a fixed place, static cells are variables of the unit, and the constant segment is no
memory at all: its cell `n` holds the number `n`.
-/

namespace HackToolchain

namespace Vm

inductive Segment
  | argument
  | locals
  | this
  | that
  | constant
  | static
  | temp
  | pointer
  deriving Repr, DecidableEq

/-- Where the cells of a segment are. -/
inductive Base
  /-- From the address that a pointer cell holds. -/
  | pointer (pointer : Pointer)
  /-- From a fixed address. -/
  | fixed (address : Word)
  /-- Each in a variable of its own. -/
  | static
  /-- Nowhere: the index is the value. -/
  | constant
  deriving Repr, DecidableEq

namespace Segment

def name : Segment → String
  | argument => "argument"
  | locals => "local"
  | this => "this"
  | that => "that"
  | constant => "constant"
  | static => "static"
  | temp => "temp"
  | pointer => "pointer"

def base : Segment → Base
  | argument => .pointer .arg
  | locals => .pointer .lcl
  | this => .pointer .this
  | that => .pointer .that
  | constant => .constant
  | static => .static
  | temp => .fixed MemoryMap.tempBase
  | pointer => .fixed MemoryMap.pointerBase

def maxIndex : Segment → Word
  | pointer => 1
  | temp => 7
  | _ => MemoryMap.maxAddress

def all : List Segment :=
  [argument, locals, this, that, constant, static, temp, pointer]

def ofName? (text : String) : Option Segment :=
  all.find? (·.name == text)

@[simp] theorem ofName?_name (segment : Segment) : ofName? segment.name = some segment := by
  cases segment <;> decide

end Segment

end Vm

end HackToolchain
