import Shades.LongestMatch
import Shades.Shtring.CreateCode

/-!
# Shades.Asm.StringCode

The instruction `string_quote` (`insn-string.h`), and what the scanner of the
assembler does in a string literal (`asm_lex.l`, with `asm_string_char` and
`asm_string_end` in `asm.c`).
-/

namespace Shades

/-! ## characters -/

def tabChar : Nat := 0x09

def newlineChar : Nat := 0x0A

def quoteMark : Nat := 0x22

def backslash : Nat := 0x5C

def letterN : Nat := 0x6E

def letterT : Nat := 0x74

/-! ## writing a literal -/

/-- The `switch` of `string_quote` for the character `c`. -/
def quoteChar (c : Int) : List Nat :=
  if c = quoteMark then [backslash, quoteMark]
  else if c = tabChar then [backslash, letterT]
  else if c = newlineChar then [backslash, letterN]
  else if c = backslash then [backslash, backslash]
  else [(c % 256).toNat]

/-- The loop of `string_quote`: `n` characters from the position `pos` on. -/
def quoteLoop (signed : Bool) (words : Nat → Nat) (s : Nat) : Nat → Nat → Option (List Nat)
  | 0, _ => some []
  | n + 1, pos => do
    let c ← shtringCharat signed words s pos
    let buf ← quoteLoop signed words s n (pos + 1)
    some (quoteChar c ++ buf)

/-- `string_quote` for the shtring in the accumulator.  The shtring is `none` if the
instruction is tried again after the batch has been flushed.  The buffer has
`2 * len + 2` bytes, or 200 if that is more, and nothing is written past its end. -/
def stringQuote (firstGenerationSize : Nat) (aligned signed : Bool) (m : Memory) (s : Nat) :
    Option (Option Nat × Memory) := do
  let len := shtringLength m.words s
  let size := add32 (add32 len len) 2
  if m.canAllocate (shtringCreateMaxAllocation size) then do
    let chars ← quoteLoop signed m.words s len 0
    let buf := quoteMark :: chars ++ [quoteMark]
    assert (buf.length ≤ max size 200)
    let (q, m) ← shtringCreate firstGenerationSize aligned m buf
    -- a result of -1 is an assertion that fails
    assert (q.isSome)
    some (q, m)
  else some (none, m)

/-! ## reading a literal -/

/-- What the rules of `INSTRING` do: the end of the literal, a given character, or the
character that was read. -/
inductive StringAction where
  | stop
  | put (c : Nat)
  | putSelf

/-- The rules of `INSTRING`; `.` is any character but the newline. -/
def stringRules : List (ScanRule Nat StringAction) :=
  [⟨.text quoteMark [], .stop⟩,
   ⟨.text backslash [letterT], .put tabChar⟩,
   ⟨.text backslash [letterN], .put newlineChar⟩,
   ⟨.text backslash [quoteMark], .put quoteMark⟩,
   ⟨.char fun c => c != newlineChar, .putSelf⟩]

/-- The scanner in `INSTRING`: the characters given to `asm_string_char`, and the input
after the literal.  A character that no rule matches is echoed, and there is no literal
if the input ends. -/
def inString (input : List Nat) : Option (List Nat × List Nat) :=
  match _hmatch : longest input stringRules with
  | some (n, .stop) => some ([], input.drop n)
  | some (n, .put c) => (inString (input.drop n)).map fun (chars, rest) => (c :: chars, rest)
  | some (n, .putSelf) =>
    (inString (input.drop n)).map fun (chars, rest) => (input.headD 0 :: chars, rest)
  | none => if _hne : input = [] then none else inString input.tail
termination_by input.length
decreasing_by
  · exact length_drop_longest _hmatch
  · exact length_drop_longest _hmatch
  · rw [List.length_tail]
    have := List.length_pos_iff.mpr _hne
    omega

/-- The scanner at a string literal. -/
def readString : List Nat → Option (List Nat × List Nat)
  | [] => none
  | c :: input => if c = quoteMark then inString input else none

end Shades
