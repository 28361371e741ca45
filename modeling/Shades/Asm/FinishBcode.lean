import Shades.Halting
import Shades.Interp.Loaded

/-!
# Shades.Asm.FinishBcode

How the assembler makes byte code of a routine, `asm.c`, and brings it into the
database.

The declarations before the instructions set some variables, the instructions are
collected in a list, and at the end `asm_finish_bcode` makes one array of words of
them.  Then it calls `load_bcode` until that succeeds, with a commit after each
attempt, which makes room in the first generation.

Only a lack of room goes away with a commit, and not every one: `flush_batch` logs what
it has written in the first generation, so that is not empty afterwards.  The declared
stack depth is compared with the limit before it is set, so a frame that is too large is
found out only by `load_bcode`, each time.
-/

namespace Shades

/-! ## the code -/

/-- `asm_insn_t`.  The first word of an instruction is its code, and `byteBefore` is the
byte before the label of a branch in memory. -/
inductive AsmInsn where
  | label (label : List Nat)
  | branch (code : Nat) (byteBefore : Nat) (label : List Nat)
  | branchArg (code : Nat) (arg : Nat) (label : List Nat)
  | insn (code : Nat) (args : List Nat)
  | nop

/-- The variables of the assembler.  The types of the stack items are those of
`asm_stack_types` up to `asm_cur_stack_depth`. -/
structure Asm where
  errorsHaveOccurred : Bool
  accuType : WordType
  accuTypeIsGiven : Bool
  contIsReusable : Nat
  bcodeIsEntry : Bool
  stackTypes : List WordType
  maxStackDepth : Nat
  insns : List AsmInsn

namespace Asm

/-- The end of `asm_finish_bcode`. -/
def cleanups (a : Asm) : Asm :=
  { a with
    accuTypeIsGiven := false
    contIsReusable := 1
    stackTypes := []
    maxStackDepth := 0
    insns := []
    bcodeIsEntry := false }

end Asm

/-- `u.insn.word[0]--`.  In a branch that is the pointer to the label, or the argument. -/
def AsmInsn.meld : AsmInsn → AsmInsn
  | .insn code args => .insn (code - 1) args
  | .branch code byteBefore text =>
    .branch code 0 (if byteBefore = 0 then [] else byteBefore :: text)
  | .branchArg code arg text => .branchArg code ((arg + (2 ^ 32 - 1)) % 2 ^ 32) text
  | p => p

/-- The number of words of an instruction. -/
def AsmInsn.size : AsmInsn → Nat
  | .label .. => 0
  | .branch .. => 2
  | .branchArg .. => 3
  | .insn _ args => 1 + args.length
  | .nop => 0

/-- What `asm_resolve_ptrs` and `flush_batch` make of the database after the attempt `i`.
Cells move.  Afterwards the first generation has nothing but the cells that `flush_batch`
itself has allocated there, which take `logged` words. -/
structure Commits where
  commit : Nat → Tables → Tables
  logged : Nat → Tables → Nat
  start_eq : ∀ i s, (commit i s).memory.firstGenerationStart = s.memory.firstGenerationStart
  end_eq : ∀ i s, (commit i s).memory.firstGenerationEnd = s.memory.firstGenerationEnd
  ptr_eq : ∀ i s, (commit i s).memory.allocationPtr + logged i s = s.memory.firstGenerationStart

/-- The database after so many attempts that found it exhausted. -/
def Commits.after (commits : Commits) (s : Tables) : Nat → Tables
  | 0 => s
  | i + 1 => commits.commit i (commits.after s i)

section finish

variable {a a' : Asm} {routine : AsmRoutine} {raw : RawBcode} {firstGenerationSize : Nat}
  {commits : Commits} {s s' : Tables} {i : Nat} {r : LoadResult} {texts : List (List Nat)}

/-- Nothing has been declared, as the routine before leaves it. -/
structure Asm.Clean (a : Asm) : Prop where
  stackTypes : a.stackTypes = []
  maxStackDepth : a.maxStackDepth = 0

theorem Asm.clean_cleanups (a : Asm) : a.cleanups.Clean := ⟨rfl, rfl⟩

end finish

/-- The variables of the assembler before the first routine. -/
def Asm.start : Asm where
  errorsHaveOccurred := false
  accuType := .word
  accuTypeIsGiven := false
  contIsReusable := 0
  bcodeIsEntry := false
  stackTypes := []
  maxStackDepth := 0
  insns := []

end Shades
