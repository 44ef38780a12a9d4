import HackToolchain.Word

/-!
# The arithmetic unit

Six control bits steer the arithmetic unit: zero and negate the first operand, zero and negate the
second, add rather than conjoin, negate the result.
-/

namespace HackToolchain

namespace Machine

/-- An operand after its control bits `zero` and `negate`. -/
@[inline] def prepare (zero negate : Bool) (w : Word) : Word :=
  let w := if zero then 0 else w
  if negate then ~~~w else w

/-- The result of the arithmetic unit on `x` and `y`. Only the low six bits of `control` count. -/
def alu (control x y : Word) : Word :=
  let x := prepare (control.bit 5) (control.bit 4) x
  let y := prepare (control.bit 3) (control.bit 2) y
  let out := if control.bit 1 then x + y else x &&& y
  if control.bit 0 then ~~~out else out

end Machine

end HackToolchain
