import Shades.Memory
import Shades.Tagged

/-!
# Shades.Interp.Machine

The registers of the byte code interpreter.

An instruction of `insn-def.h` reads its immediates behind `pc`, takes its
operands from the stack of the current continuation frame and from `accu`, and
leaves its result in `accu`.  The stack lies in the frame itself:
`stack_start` is its fourth word.
-/

namespace Shades

/-- The variables of `interp` that instructions use. -/
structure Machine where
  memory : Memory
  cont : Nat
  pc : Nat
  sp : Nat
  accu : Nat

namespace Machine

/-- `pc[i]`. -/
def imm (s : Machine) (i : Nat) : Nat := s.memory.words (s.pc + i)

/-- `stack_start`. -/
def stackStart (s : Machine) : Nat := s.cont + 3

/-- `stack_start[i]`. -/
def pick (s : Machine) (i : Nat) : Nat := s.memory.words (s.stackStart + i)

/-- `sp[-1]`. -/
def top (s : Machine) : Nat := s.memory.words (s.sp - 1)

end Machine

end Shades
