import Mathlib.Data.List.Basic
import Shades.Memory

/-!
# Shades.CellDecls

The declaration blocks of `cells-def.h`: for every cell type, the words of a
cell with their types, in the order in which they are declared.

`cell_is_equal` and `tagged_is_equal` are made from these blocks, and so is the
collector.  A block is a list of declarations here; where it runs into an
assertion that fails, the list ends with `abort`.  Byte code declares the
immediates of its instructions, so their types are needed too.
-/

namespace Shades

/-- A declaration of a word of the cell, or the end of a block that fails. -/
inductive Decl where
  | field (type : WordType) (i : Nat)
  | abort
  deriving DecidableEq

/-- Declare the `n` words from the word `i` on. -/
def declare (type : WordType) (i n : Nat) : List Decl :=
  (List.range n).map fun j => .field type (i + j)

/-! ## byte code -/

/-- The instructions of `insn-def.h` and the files it includes, in their
order (`insn_t` has two codes for each). -/
inductive Insn where
  | getObjField
  | rebindObjField
  | tIsa
  | tBranchIfNotIsa
  | getObjMethod
  | insertObjField
  | declareObjIsa
  | insertObjMethod
  | makeNewProto
  | inheritNewProto
  | multipleInherit
  | bind
  | call
  | tailCall
  | «return»
  | callGlobal
  | callGlobal01
  | callGlobal2
  | callGlobal3
  | callGlobal4
  | callGlobalWithToAsContPtr
  | callGlobalWithToAsContPtr01
  | callGlobalWithToAsContPtr2
  | callGlobalWithToAsContPtr3
  | callGlobalWithToAsContPtr4
  | callGlobalWithNextBcodeAsPtr
  | callGlobalWithNextBcodeAsPtr01
  | callGlobalWithNextBcodeAsPtr2
  | callGlobalWithNextBcodeAsPtr3
  | callGlobalWithNextBcodeAsPtr4
  | callGlobalWithToAsContPtrAndNextBcodeAsPtr
  | callGlobalWithToAsContPtrAndNextBcodeAsPtr01
  | callGlobalWithToAsContPtrAndNextBcodeAsPtr2
  | callGlobalWithToAsContPtrAndNextBcodeAsPtr3
  | callGlobalWithToAsContPtrAndNextBcodeAsPtr4
  | tailCallGlobal
  | tailCallGlobal01
  | tailCallGlobal2
  | tailCallGlobal3
  | tailCallGlobal4
  | tailCallGlobalWithToAsContPtr
  | tailCallGlobalWithToAsContPtr01
  | tailCallGlobalWithToAsContPtr2
  | tailCallGlobalWithToAsContPtr3
  | tailCallGlobalWithToAsContPtr4
  | stringAppend
  | intToString
  | stringCmp
  | stringQuote
  | push
  | drop
  | dropN
  | pick
  | tLoadImm
  | getGlobal
  | setGlobal
  | tAdd
  | tAddImm
  | tSub
  | tSubImm
  | tNeg
  | tMul
  | tMulImm
  | tDiv
  | tMod
  | tCmpeq
  | tCmpne
  | tCmplt
  | tCmple
  | tCmpgt
  | tCmpge
  | tNot
  | tPrint
  | rCons
  | car
  | cdr
  | loadNull
  | loadImmString
  | tupleRef
  | tupleMake
  | branch
  | beq
  | bne
  | blt
  | ble
  | bgt
  | bge
  | tBranchIfFalse
  | tBranchIfTrue
  | tBranchIfNotCons
  | tBranchIfNotNull
  | tBranchIfNotNtuple
  | tCondEqPickPick
  | tCondLePickPick
  | tCondLtPickPick
  | tCondEqImmPick
  | tCondLeImmPick
  | tCondLtImmPick
  | tCondEqPickImm
  | tCondLePickImm
  | tCondLtPickImm
  | tCondEqImmImm
  | tCondLeImmImm
  | tCondLtImmImm
  | exit
  | genericEqual
  | listAppend
  | pop
  | dup
  | swap
  | exch
  | getRootPtr
  | setRootPtr
  | loadImm
  | add
  | addImm
  | sub
  | subImm
  | mul
  | mulImm
  | div
  | mod
  | sqrt
  | lshiftImm
  | tLshiftImm
  | rshiftImm
  | tRshiftImm
  | condEqPickPick
  | condLePickPick
  | condLtPickPick
  | condEqImmPick
  | condLeImmPick
  | condLtImmPick
  | condEqPickImm
  | condLePickImm
  | condLtPickImm
  | condEqImmImm
  | condLeImmImm
  | condLtImmImm
  | initRandom
  | randomNumber
  | printInt
  | printList
  | printCell
  | pickPrintCell
  | printCont
  | printTable
  | makeWordVector
  | copyWordVector
  | trieInsert
  | trieFind
  | getFieldValue
  | setFieldValue
  | cons
  | caar
  | cdar
  | cadr
  | cddr
  | gotoBcode
  | gotoSelf
  | die
  | spawn
  | netListen
  | netAccept
  | netReadChar
  | netWriteChar
  | netReadShtring
  | netWriteShtring
  | netClose
  deriving DecidableEq

/-- The immediates that an instruction declares, from `pc[1]` on. -/
def Insn.immTypes : Insn → List WordType
  | .loadImmString => [.nonnullPtr]
  | .tLoadImm => [.tagged]
  | .getObjField | .rebindObjField | .tBranchIfNotIsa | .insertObjField | .declareObjIsa
    | .makeNewProto | .multipleInherit | .bind | .tailCall | .dropN | .pick | .getGlobal
    | .setGlobal | .tAddImm | .tSubImm | .tMulImm | .tupleRef | .tupleMake | .branch | .beq
    | .bne | .blt | .ble | .bgt | .bge | .tBranchIfFalse | .tBranchIfTrue | .tBranchIfNotCons
    | .tBranchIfNotNull | .getRootPtr | .setRootPtr | .loadImm | .addImm | .subImm | .mulImm
    | .lshiftImm | .tLshiftImm | .rshiftImm | .tRshiftImm | .pickPrintCell | .makeWordVector
    | .copyWordVector | .gotoBcode | .netListen | .netAccept | .netReadChar | .netWriteChar
    | .netReadShtring | .netWriteShtring | .netClose => [.word]
  | .tailCallGlobalWithToAsContPtr | .tailCallGlobalWithToAsContPtr01
    | .tailCallGlobalWithToAsContPtr2 | .tailCallGlobalWithToAsContPtr3
    | .tailCallGlobalWithToAsContPtr4 => [.nonnullPtr, .word]
  | .tCondEqImmImm | .tCondLeImmImm | .tCondLtImmImm => [.tagged, .tagged]
  | .tCondEqImmPick | .tCondLeImmPick | .tCondLtImmPick => [.tagged, .word]
  | .tCondEqPickImm | .tCondLePickImm | .tCondLtPickImm => [.word, .tagged]
  | .getObjMethod | .insertObjMethod | .inheritNewProto | .call | .tailCallGlobal
    | .tailCallGlobal01 | .tailCallGlobal2 | .tailCallGlobal3 | .tailCallGlobal4
    | .tBranchIfNotNtuple | .tCondEqPickPick | .tCondLePickPick | .tCondLtPickPick
    | .condEqPickPick | .condLePickPick | .condLtPickPick | .condEqImmPick | .condLeImmPick
    | .condLtImmPick | .condEqPickImm | .condLePickImm | .condLtPickImm | .condEqImmImm
    | .condLeImmImm | .condLtImmImm => [.word, .word]
  | .callGlobalWithToAsContPtrAndNextBcodeAsPtr | .callGlobalWithToAsContPtrAndNextBcodeAsPtr01
    | .callGlobalWithToAsContPtrAndNextBcodeAsPtr2
    | .callGlobalWithToAsContPtrAndNextBcodeAsPtr3
    | .callGlobalWithToAsContPtrAndNextBcodeAsPtr4 => [.nonnullPtr, .word, .nonnullPtr]
  | .callGlobalWithToAsContPtr | .callGlobalWithToAsContPtr01 | .callGlobalWithToAsContPtr2
    | .callGlobalWithToAsContPtr3 | .callGlobalWithToAsContPtr4 => [.nonnullPtr, .word, .word]
  | .callGlobalWithNextBcodeAsPtr | .callGlobalWithNextBcodeAsPtr01
    | .callGlobalWithNextBcodeAsPtr2 | .callGlobalWithNextBcodeAsPtr3
    | .callGlobalWithNextBcodeAsPtr4 => [.word, .word, .nonnullPtr]
  | .callGlobal | .callGlobal01 | .callGlobal2 | .callGlobal3 | .callGlobal4 | .spawn =>
      [.word, .word, .word]
  | _ => []

/-- The number of words of an instruction.  `net_close` declares an immediate
that does not belong to it. -/
def Insn.size (insn : Insn) : Nat :=
  if insn = .netClose then 1 else insn.immTypes.length + 1

/-- The instruction with a code: `INSN_PUSH_AND_x` comes before `INSN_x`. -/
def insnOfCode (x : Nat) : Option Insn := if x < 2 * 169 then some (Insn.ofNat (x / 2)) else none

/-- The code of an instruction that does not push `accu` first. -/
def Insn.code (insn : Insn) : Nat := 2 * insn.ctorIdx + 1

/-- The loop over the instructions, up to the word `last`. -/
def codeDecls (words : Nat → Nat) (p last : Nat) : Nat → Nat → List Decl
  | 0, _ => []
  | fuel + 1, pc =>
    .field .word pc ::
      match insnOfCode (words (p + pc)) with
      | none => [.abort]
      | some insn =>
        insn.immTypes.mapIdx (fun i type => .field type (pc + 1 + i)) ++
          if pc + insn.size < last then codeDecls words p last fuel (pc + insn.size) else []

/-- `CELL_bcode`. -/
def bcodeDecls (words : Nat → Nat) (p : Nat) : List Decl :=
  let j := words (p + 3) + 7
  declare .word 1 6 ++ codeDecls words p j (words (p + 3) + 1) 7 ++ declare .word j (words (p + 2))

/-! ## frames and contexts -/

/-- The type with a code, as byte code describes the words of a stack. -/
def wordTypeOf (x : Nat) : Option WordType :=
  [WordType.word, .ptr, .nonnullPtr, .tagged, .void][x]?

/-- Declare the word `i` with the type that `x` stands for. -/
def declareAs (x i : Nat) : List Decl :=
  match wordTypeOf x with
  | none => [.abort]
  | some .void => []
  | some type => [.field type i]

/-- `CELL_cont`: the byte code knows the types of the words on the stack. -/
def contDecls (words : Nat → Nat) (p : Nat) : List Decl :=
  let p0 := words p
  let bcode := wordToPtr (words (p + 1))
  let bcode :=
    if cellType (words bcode) = CellType.forwardPointer.code then wordToPtr (words (bcode + 1))
    else bcode
  let stackDepth := if p0 &&& 0xFFF = 0xFFF then words (bcode + 2) else p0 &&& 0xFFF
  .field .nonnullPtr 1 :: .field .ptr 2 ::
    if stackDepth ≤ words (bcode + 2) then
      (List.range stackDepth).flatMap fun i => declareAs (words (bcode + 7 + words (bcode + 3) + i)) (3 + i)
    else [.abort]

/-- `CELL_context`. -/
def contextDecls (p0 : Nat) : List Decl :=
  .field .nonnullPtr 1 :: declareAs (p0 &&& 0xFFFFFF) 2 ++ declare .word 3 2

/-! ## all cells -/

/-- The type of a cell whose first word is given. -/
def cellTypeOf (p0 : Nat) : Option CellType :=
  if cellType p0 < 48 then some (CellType.ofNat (cellType p0)) else none

theorem cellTypeOf_eq_some {p0 : Nat} {t : CellType} :
    cellTypeOf p0 = some t ↔ cellType p0 = t.code := by
  have hofNat : ∀ n < 48, (CellType.ofNat n).code = n := by decide
  unfold cellTypeOf
  constructor
  · intro h
    split_ifs at h with hlt
    rw [← Option.some.inj h, hofNat _ hlt]
  · intro h
    have hlt : t.code < 48 := by cases t <;> decide
    rw [h, if_pos hlt, CellType.code, CellType.ofNat_ctorIdx]

/-- `MAX_GENERATION_SIZE`: the root block has 45 items. -/
def maxGenerationSize : Nat := (512 / 4 - 45) / 2

/-- The declaration block of the cell at `p`. -/
def cellDecls (words : Nat → Nat) (p : Nat) : List Decl :=
  let p0 := words p
  match cellTypeOf p0 with
  | none | some .bonk | some .forwardPointer => [.abort]
  | some .list => declare .tagged 1 2
  | some .object => declare .ptr 1 1
  | some .oidFreelist => [.field .word 1, .field .ptr 2]
  | some .oidObject => declare .ptr 1 2 ++ declare .word 3 1
  | some .wordVector => declare .word 1 (p0 &&& 0xFFFFFF)
  | some .internal => declare .ptr 1 internalNodeSize
  | some .leaf =>
    (List.range (p0 &&& 0xFFFFFF)).flatMap fun i =>
      [.field .word (2 * i + 1), .field .ptr (2 * i + 2)]
  | some .queue => declare .nonnullPtr 1 1 ++ declare .ptr 2 1 ++ declare .word 3 2
  | some .queueRev =>
    declare .nonnullPtr 1 1 ++ declare .ptr 2 1 ++ declare .word 3 2 ++ declare .ptr 5 4 ++
      declare .word 9 2
  | some .lqEntryPoint => declare .ptr 1 2
  | some .lqItem00 => declare .ptr 1 1
  | some .lqItem01 | some .lqItem10 => [.field .ptr 1, .field .nonnullPtr 2]
  | some .lqItem11 => .field .ptr 1 :: declare .nonnullPtr 2 2
  | some .priqItem => declare .ptr 1 3
  | some .ist234 => declare .tagged 1 (3 * (p0 &&& 0xFFFFFF) - 2)
  | some .avlInternal => declare .nonnullPtr 1 3
  | some .avlLeaf | some .history => [.field .nonnullPtr 1, .field .ptr 2]
  | some .quadTrie => declare .ptr 1 4
  | some .tuple =>
    declare .tagged 1 (p0 &&& 0xFFF) ++ declare .word ((p0 &&& 0xFFF) + 1) ((p0 >>> 12) &&& 0xFFF)
  | some .shtring => declare .word 1 3 ++ declare .ptr 4 1
  | some .shtringChunk => declare .word 1 (((p0 &&& 0xFFFFFF) + 3) / 4)
  | some .shtringNode => declare .word 1 2 ++ declare .nonnullPtr 3 (p0 &&& 0xFF)
  | some .shtringInternRoot => declare .nonnullPtr 1 2 ++ declare .word 3 1
  | some .shtringInternNode => [.field .ptr 1, .field .nonnullPtr 2, .field .word 3]
  | some .shtringCursor => .field .nonnullPtr 1 :: declare .word 2 2 ++ declare .ptr 4 1
  | some .bcode => bcodeDecls words p
  | some .cont => contDecls words p
  | some .context => contextDecls p0
  | some .generationPinfo =>
    .field .ptr 1 :: declare .word 2 2 ++ declare .word 4 (2 * (p0 &&& 0xFFF)) ++
      if p0 &&& 0xFFF < maxGenerationSize then [] else [.abort]
  | some .trie1234 => declare .tagged 1 4
  | some .trie123 | some .trie124 | some .trie134 | some .trie234 => declare .tagged 1 3
  | some .trie12 | some .trie13 | some .trie14 | some .trie23 | some .trie24 | some .trie34 =>
    declare .tagged 1 2
  | some .trie1 | some .trie2 | some .trie3 | some .trie4 => declare .tagged 1 1

/-! ## declarations that are read off words -/

/-- Two lists of declarations that are read off words: as long as the words
agree, the next declaration is the same. -/
inductive Follows (agree : Decl → Prop) : List Decl → List Decl → Prop
  | nil : Follows agree [] []
  | cons {d : Decl} {l l' : List Decl} (h : agree d → Follows agree l l') :
      Follows agree (d :: l) (d :: l')

section follows

variable {agree : Decl → Prop} {l l' : List Decl}

theorem Follows.refl (l : List Decl) : Follows agree l l := by
  induction l with
  | nil => exact .nil
  | cons d l ih => exact .cons fun _ => ih

/-- The same declarations before both lists. -/
theorem Follows.append (pre : List Decl) (h : (∀ d ∈ pre, agree d) → Follows agree l l') :
    Follows agree (pre ++ l) (pre ++ l') := by
  induction pre with
  | nil => exact h nofun
  | cons d pre ih => exact .cons fun hd => ih fun hpre => h (List.forall_mem_cons.mpr ⟨hd, hpre⟩)

/-- Where all words agree, so do the lists. -/
theorem Follows.eq (h : Follows agree l l') (hall : ∀ d ∈ l, agree d) : l' = l := by
  induction h with
  | nil => rfl
  | cons _ ih =>
    rw [List.forall_mem_cons] at hall
    rw [ih hall.1 hall.2]

end follows

@[simp] theorem mem_declare {type type' : WordType} {i j n : Nat} :
    Decl.field type' j ∈ declare type i n ↔ type' = type ∧ i ≤ j ∧ j < i + n := by
  unfold declare
  simp only [List.mem_map, List.mem_range, Decl.field.injEq]
  constructor
  · rintro ⟨k, hk, rfl, rfl⟩
    exact ⟨rfl, by omega, by omega⟩
  · rintro ⟨rfl, hle, hlt⟩
    exact ⟨j - i, by omega, rfl, by omega⟩

section bcode

variable {agree : Decl → Prop} {words words' : Nat → Nat} {p q : Nat}

/-- The declarations of the code are read off its words. -/
theorem codeDecls_follows (hagree : ∀ i, agree (.field .word i) → words (p + i) = words' (q + i))
    (tail : List Decl) {last fuel pc : Nat} :
    Follows agree (codeDecls words p last fuel pc ++ tail)
      (codeDecls words' q last fuel pc ++ tail) := by
  induction fuel generalizing pc with
  | zero => exact .refl tail
  | succ fuel ih =>
    rw [codeDecls, codeDecls, List.cons_append, List.cons_append]
    refine .cons fun hpc => ?_
    rw [← hagree pc hpc]
    cases insnOfCode (words (p + pc)) with
    | none => exact .refl _
    | some insn =>
      dsimp only
      rw [List.append_assoc, List.append_assoc]
      refine .append _ fun _ => ?_
      split_ifs
      · exact ih
      · exact .refl tail

theorem bcodeDecls_follows
    (hagree : ∀ i, agree (.field .word i) → words (p + i) = words' (q + i)) :
    Follows agree (bcodeDecls words p) (bcodeDecls words' q) := by
  unfold bcodeDecls
  dsimp only
  rw [List.append_assoc, List.append_assoc]
  refine .append _ fun h => ?_
  have hword (i : Nat) (hi : 1 ≤ i ∧ i < 1 + 6) : words (p + i) = words' (q + i) :=
    hagree i (h (.field .word i) (mem_declare.mpr ⟨rfl, hi⟩))
  rw [← hword 2 (by omega), ← hword 3 (by omega)]
  exact codeDecls_follows hagree _

/-- Byte code says how deep the stack is, how long the code is and what the
types on the stack are. -/
theorem mem_bcodeDecls {i : Nat} (hi : 1 ≤ i ∧ i < 7 ∨
    7 + words (p + 3) ≤ i ∧ i < 7 + words (p + 3) + words (p + 2)) :
    Decl.field .word i ∈ bcodeDecls words p := by
  unfold bcodeDecls
  simp only [List.mem_append, mem_declare]
  rcases hi with hi | hi
  · exact .inl (.inl ⟨trivial, by omega, by omega⟩)
  · exact .inr ⟨trivial, by omega, by omega⟩

/-- The stack of a frame is declared by the words of its byte code. -/
theorem contDecls_congr (hheader : words p = words' q)
    (hp : cellType (words (wordToPtr (words (p + 1)))) = CellType.bcode.code)
    (hq : cellType (words' (wordToPtr (words' (q + 1)))) = CellType.bcode.code)
    (h : ∀ i, Decl.field .word i ∈ bcodeDecls words (wordToPtr (words (p + 1))) →
      words (wordToPtr (words (p + 1)) + i) = words' (wordToPtr (words' (q + 1)) + i)) :
    contDecls words' q = contDecls words p := by
  have hne : CellType.bcode.code ≠ CellType.forwardPointer.code := by decide
  unfold contDecls
  simp only [hp, hq, if_neg hne, ← hheader]
  generalize wordToPtr (words (p + 1)) = r, wordToPtr (words' (q + 1)) = r' at h
  have htypes : ∀ i < words (r + 2),
      words' (r' + 7 + words (r + 3) + i) = words (r + 7 + words (r + 3) + i) := by
    intro i hi
    have hi := h (7 + words (r + 3) + i) (mem_bcodeDecls (.inr (by omega)))
    rw [show r' + 7 + words (r + 3) + i = r' + (7 + words (r + 3) + i) by omega, ← hi]
    congr 1
    omega
  rw [← h 2 (mem_bcodeDecls (by omega)), ← h 3 (mem_bcodeDecls (by omega))]
  generalize (if words p &&& 0xFFF = 0xFFF then words (r + 2) else words p &&& 0xFFF) = depth
  split_ifs with hdepth
  · refine congrArg _ (congrArg _ (List.flatMap_congr fun i hi => ?_))
    rw [htypes i (lt_of_lt_of_le (List.mem_range.mp hi) hdepth)]
  · rfl

end bcode

end Shades
