import Shades.Interp.Machine

/-!
# Shades.Interp.Calls

The instructions `bind`, `call` and `tail_call` of `insn-calls.h`.

A continuation frame that has not been called yet holds the arguments bound so
far, and their number is in the lowest 12 bits of its first word.  A call
copies them to a fresh frame and adds the arguments on the stack; the last
argument of all goes to `accu`, so a callee of `j` arguments starts with
`j - 1` words on its stack.
-/

namespace Shades

/-! ## the instructions -/

/-- `for (i = 0; i < n; i++) *p++ = q[i];` -/
def copyArguments (m : Memory) (p q : Nat) : Nat → Memory
  | 0 => m
  | n + 1 => copyArguments (m.set p (m.words q)) (p + 1) (q + 1) n

/-- The number of words of a continuation frame. -/
def contSize (p0 : Nat) : Nat := (p0 >>> 12) &&& 0xFFF

/-- The number of bound arguments of a continuation frame. -/
def contBound (p0 : Nat) : Nat := p0 &&& 0xFFF

def Exec.bind (s : Machine) : Option Machine := do
  let oldCont := wordToPtr s.accu
  let (newCont, m) := s.memory.rawAllocate (contSize (s.memory.words oldCont))
  let m := m.set newCont (add32 (m.words oldCont) (s.imm 1))
  assert (s.imm 1 < 0xFFF)
  let m := m.set (newCont + 1) (m.words (oldCont + 1))
  let m := m.set (newCont + 2) (m.words (oldCont + 2))
  assert (contBound (m.words oldCont) = 0)
  let sp := s.sp - s.imm 1
  some { s with
    memory := copyArguments m (newCont + 3) sp (s.imm 1)
    accu := ptrToWord newCont, sp := sp, pc := s.pc + 2 }

/-- The loop that copies the bound arguments.  It reads their number anew on
every turn, and ends with the number of words copied; that is at most
`0xFFF`. -/
def copyBound (m : Memory) (p protoCont : Nat) : Nat → Nat → Memory × Nat
  | 0, i => (m, i)
  | fuel + 1, i =>
    if i < contBound (m.words protoCont) then
      copyBound (m.set (p + i) (m.words (protoCont + 3 + i))) p protoCont fuel (i + 1)
    else (m, i)

/-- The first three words of the new frame. -/
def frameHead (m : Memory) (newCont protoCont next : Nat) : Memory :=
  let m := m.set newCont (m.words protoCont ||| 0xFFF)
  let m := m.set (newCont + 1) (m.words (protoCont + 1))
  m.set (newCont + 2) next

/-- What `call` and `tail_call` have in common: the frame of the callee, which
returns to `next`, with the bound and the passed arguments. -/
def newFrame (s : Machine) (next : Nat) : Machine :=
  let protoCont := wordToPtr s.accu
  let (newCont, m) := s.memory.rawAllocate (contSize (s.memory.words protoCont))
  let m := frameHead m newCont protoCont next
  let (m, i) := copyBound m (newCont + 3) protoCont 0x1000 0
  let p := newCont + 3 + i
  if s.imm 1 = 0 then
    { s with
      memory := m, cont := newCont
      accu := if contBound (m.words protoCont) ≠ 0 then m.words (p - 1) else s.accu }
  else
    let sp := s.sp - s.imm 1
    let m := copyArguments m p sp (s.imm 1 - 1)
    { s with memory := m, cont := newCont, sp := sp, accu := m.words (sp + s.imm 1 - 1) }

/-- `call`: the caller goes on with the byte code `pc[2]`, which `bcode_get`
finds. -/
def Exec.call (bcodeGet : Memory → Nat → Nat) (s : Machine) : Machine :=
  let callee := newFrame s (ptrToWord s.cont)
  let next := bcodeGet callee.memory (s.imm 2)
  { callee with memory := callee.memory.set (s.cont + 1) (ptrToWord next) }

def Exec.tailCall (s : Machine) : Machine :=
  let callee := newFrame s (s.memory.words (s.cont + 2))
  { callee with accu := callee.memory.words (callee.sp + s.imm 1 - 1) }

open Exec (call tailCall)

/-! ## what the callee starts with -/

/-- What byte code starts with at the label `run_cont`: the byte code itself,
the words on its stack and `accu`. -/
structure Entry where
  bcode : Nat
  slots : List Nat
  accu : Nat
  deriving DecidableEq

/-- `bcode[2]` is the depth of the stack at the entry. -/
def Machine.entry (s : Machine) : Entry :=
  let bcode := wordToPtr (s.memory.words (s.cont + 1))
  ⟨bcode, slice s.memory.words s.stackStart (s.memory.words (bcode + 2)), s.accu⟩

/-! ## copying words -/

/-- The same words at two places. -/
theorem slice_shift {words words' : Nat → Nat} {a b n : Nat}
    (h : ∀ i < n, words' (b + i) = words (a + i)) : slice words' b n = slice words a n := by
  refine List.ext_getElem? fun i => ?_
  by_cases hi : i < n
  · rw [slice_getElem? hi, slice_getElem? hi, h i hi]
  · rw [List.getElem?_eq_none (by simpa using hi), List.getElem?_eq_none (by simpa using hi)]

theorem slice_succ (words : Nat → Nat) (a n : Nat) :
    slice words a (n + 1) = slice words a n ++ [words (a + n)] := slice_add words a n 1

theorem copyArguments_outside {m : Memory} {p q n a : Nat} (ha : a < p ∨ p + n ≤ a) :
    (copyArguments m p q n).words a = m.words a := by
  induction n generalizing m p q with
  | zero => rfl
  | succ n ih => rw [copyArguments, ih (by omega), Memory.set_words, if_neg (by omega)]

@[simp] theorem copyArguments_allocationPtr (m : Memory) (p q n : Nat) :
    (copyArguments m p q n).allocationPtr = m.allocationPtr := by
  induction n generalizing m p q with
  | zero => rfl
  | succ n ih => exact ih _ _ _

@[simp] theorem copyArguments_firstGenerationEnd (m : Memory) (p q n : Nat) :
    (copyArguments m p q n).firstGenerationEnd = m.firstGenerationEnd := by
  induction n generalizing m p q with
  | zero => rfl
  | succ n ih => exact ih _ _ _

/-- The words copied, and those left alone. -/
theorem copyArguments_words {m : Memory} {p q n : Nat} (h : ∀ i < n, ∀ j < n, q + j ≠ p + i) (a : Nat) :
    (copyArguments m p q n).words a =
      if p ≤ a ∧ a < p + n then m.words (q + (a - p)) else m.words a := by
  induction n generalizing m p q with
  | zero =>
    rw [if_neg (by omega)]
    rfl
  | succ n ih =>
    have hstep := ih (m := m.set p (m.words q)) (p := p + 1) (q := q + 1) fun i hi j hj => by
      have := h (i + 1) (by omega) (j + 1) (by omega)
      omega
    rw [copyArguments, hstep, Memory.set_words, Memory.set_words]
    by_cases hin : p ≤ a ∧ a < p + (n + 1)
    · rw [if_pos hin]
      by_cases ha : a = p
      · rw [if_neg (by omega), if_pos ha, ha, Nat.sub_self, Nat.add_zero]
      · have hne := h 0 (by omega) (a - p) (by omega)
        rw [if_pos (by omega), if_neg (by omega), show q + 1 + (a - (p + 1)) = q + (a - p) by omega]
    · rw [if_neg hin, if_neg (by omega), if_neg (by omega)]

/-- As long as the first word of the continuation is not overwritten, its
bound arguments are copied. -/
theorem copyBound_eq {m : Memory} {p protoCont k n i fuel : Nat} (hk : contBound (m.words protoCont) = k)
    (hi : i + n = k) (hfuel : n < fuel) (hne : ∀ j < n, protoCont ≠ p + i + j) :
    copyBound m p protoCont fuel i = (copyArguments m (p + i) (protoCont + 3 + i) n, k) := by
  induction n generalizing m i fuel with
  | zero =>
    obtain ⟨fuel, rfl⟩ := Nat.exists_eq_add_one_of_ne_zero (Nat.ne_of_gt hfuel)
    rw [copyBound, if_neg (by omega), copyArguments, show i = k by omega]
  | succ n ih =>
    obtain ⟨fuel, rfl⟩ := Nat.exists_eq_add_one_of_ne_zero (show fuel ≠ 0 by omega)
    have hword := hne 0 (by omega)
    rw [copyBound, if_pos (by omega), ih _ (by omega) (by omega) fun j hj => ?_]
    · rfl
    · rwa [Memory.set_words, if_neg (by omega)]
    · have := hne (j + 1) (by omega)
      omega

/-! ## the frame of the callee -/

/-- The machine is about to call, with the arguments `args` on the stack, the
continuation at `p` with the words `cell` and the byte code `bcode`, whose
stack has `depth` words at the entry.  What is read is live, the cells do not
overlap, and the frame has room for the entry stack and the arguments. -/
structure CallReady (s : Machine) (p : Nat) (cell : List Nat) (bcode depth : Nat)
    (args : List Nat) : Prop where
  accu : s.accu = ptrToWord p
  cell_eq : slice s.memory.words p cell.length = cell
  size_eq : contSize (s.memory.words p) = cell.length
  bcode_eq : s.memory.words (p + 1) = ptrToWord bcode
  depth_eq : s.memory.words (bcode + 2) = depth
  depth_le : 3 + depth ≤ cell.length
  args_eq : s.imm 1 = args.length
  args_words : slice s.memory.words (s.sp - args.length) args.length = args
  args_le : s.stackStart + args.length ≤ s.sp
  args_fit : 3 + (contBound (s.memory.words p) + args.length - 1) ≤ cell.length
  cell_live : ∀ i < cell.length, s.memory.Live (p + i)
  bcode_live : s.memory.Live (bcode + 2)
  stack_live : ∀ a, s.cont < a → a < s.sp → s.memory.Live a
  bcode_ne : s.cont + 1 ≠ bcode + 2
  can : s.memory.canAllocate cell.length

/-- The arguments bound to a continuation. -/
def boundArgs (words : Nat → Nat) (p : Nat) : List Nat :=
  slice words (p + 3) (contBound (words p))

theorem contBound_lt (p0 : Nat) : contBound p0 < 0x1000 := by
  rw [contBound, show 0xFFF = 2 ^ 12 - 1 by decide, and_mask]
  omega

/-- The accumulator of the callee: the last argument, a passed one if there is
one, and what it was if there is none. -/
def calleeAccu (s : Machine) (p : Nat) : Nat :=
  if s.imm 1 ≠ 0 then s.top
  else if contBound (s.memory.words p) ≠ 0 then
    s.memory.words (p + 2 + contBound (s.memory.words p))
  else s.accu

section frame

variable {s : Machine} {p bcode depth F : Nat} {cell args : List Nat}
  (h : CallReady s p cell bcode depth args) (hF : s.memory.allocationPtr = F + cell.length)

include h

/-- The continuation itself, at the start of the call. -/
theorem CallReady.ptr : wordToPtr s.accu = p := by rw [h.accu, wordToPtr_ptrToWord]

/-- There is an address for the frame. -/
theorem CallReady.exists_frame : ∃ F, s.memory.allocationPtr = F + cell.length := by
  have hcan := h.can
  unfold Memory.canAllocate at hcan
  exact ⟨s.memory.allocationPtr - cell.length, by omega⟩

include hF

/-- The new frame is apart from everything live. -/
theorem CallReady.ne_frame {a i : Nat} (ha : s.memory.Live a) (hi : i < cell.length) :
    a ≠ F + i := by
  have hcan := h.can
  unfold Memory.canAllocate at hcan
  rcases ha with ha | ha <;> omega

/-- The memory once the first three words of the frame are written. -/
theorem CallReady.frameHead_words (next a : Nat) :
    (frameHead (s.memory.restoreAllocationPoint F) F p next).words a =
      if a = F + 2 then next
      else if a = F + 1 then s.memory.words (p + 1)
      else if a = F then s.memory.words p ||| 0xFFF
      else s.memory.words a := by
  have hdepth := h.depth_le
  have hne : p + 1 ≠ F := h.ne_frame hF (h.cell_live 1 (by omega)) (i := 0) (by omega)
  simp only [frameHead, Memory.set_words, Memory.restoreAllocationPoint_words, if_neg hne]

/-- What is live is still there. -/
theorem CallReady.frameHead_live {a : Nat} (next : Nat) (ha : s.memory.Live a) :
    (frameHead (s.memory.restoreAllocationPoint F) F p next).words a = s.memory.words a := by
  have hdepth := h.depth_le
  have h0 : a ≠ F := h.ne_frame hF ha (i := 0) (by omega)
  have h1 := h.ne_frame hF ha (i := 1) (by omega)
  have h2 := h.ne_frame hF ha (i := 2) (by omega)
  rw [h.frameHead_words hF, if_neg h2, if_neg h1, if_neg h0]

variable (hroom : 3 + contBound (s.memory.words p) ≤ cell.length)

include hroom

/-- The memory once the bound arguments are copied. -/
theorem CallReady.bound_words (next a : Nat) :
    (copyArguments (frameHead (s.memory.restoreAllocationPoint F) F p next) (F + 3) (p + 3)
      (contBound (s.memory.words p))).words a =
    if F + 3 ≤ a ∧ a < F + 3 + contBound (s.memory.words p) then
      s.memory.words (p + 3 + (a - (F + 3)))
    else (frameHead (s.memory.restoreAllocationPoint F) F p next).words a := by
  rw [copyArguments_words fun i hi j hj => ?_]
  · split_ifs with hin
    · rw [Nat.add_assoc p, h.frameHead_live hF _ (h.cell_live _ (by omega))]
    · rfl
  · have := h.ne_frame hF (h.cell_live (3 + j) (by omega)) (i := 3 + i) (by omega)
    omega

theorem CallReady.bound_live {a : Nat} (next : Nat) (ha : s.memory.Live a) :
    (copyArguments (frameHead (s.memory.restoreAllocationPoint F) F p next) (F + 3) (p + 3)
      (contBound (s.memory.words p))).words a = s.memory.words a := by
  rw [h.bound_words hF hroom, if_neg, h.frameHead_live hF _ ha]
  intro hin
  exact h.ne_frame hF ha (i := a - F) (by omega) (by omega)

/-- The memory once the passed arguments are there too. -/
theorem CallReady.args_words_frame (next a : Nat) :
    (copyArguments (copyArguments (frameHead (s.memory.restoreAllocationPoint F) F p next) (F + 3) (p + 3)
      (contBound (s.memory.words p))) (F + 3 + contBound (s.memory.words p)) (s.sp - args.length)
      (args.length - 1)).words a =
    if F + 3 + contBound (s.memory.words p) ≤ a ∧
        a < F + 3 + contBound (s.memory.words p) + (args.length - 1) then
      s.memory.words (s.sp - args.length + (a - (F + 3 + contBound (s.memory.words p))))
    else (copyArguments (frameHead (s.memory.restoreAllocationPoint F) F p next) (F + 3) (p + 3)
      (contBound (s.memory.words p))).words a := by
  have hfit := h.args_fit
  have hle := h.args_le
  unfold Machine.stackStart at hle
  have hlive {j : Nat} (hj : j < args.length - 1) : s.memory.Live (s.sp - args.length + j) :=
    h.stack_live _ (by omega) (by omega)
  rw [copyArguments_words fun i hi j hj => ?_]
  · split_ifs with hin
    · rw [h.bound_live hF hroom _ (hlive (by omega))]
    · rfl
  · have := h.ne_frame hF (hlive hj) (i := 3 + contBound (s.memory.words p) + i) (by omega)
    omega

theorem CallReady.args_live_frame {a : Nat} (next : Nat) (ha : s.memory.Live a) :
    (copyArguments (copyArguments (frameHead (s.memory.restoreAllocationPoint F) F p next) (F + 3) (p + 3)
      (contBound (s.memory.words p))) (F + 3 + contBound (s.memory.words p)) (s.sp - args.length)
      (args.length - 1)).words a = s.memory.words a := by
  have hfit := h.args_fit
  rw [h.args_words_frame hF hroom, if_neg, h.bound_live hF hroom _ ha]
  intro hin
  exact h.ne_frame hF ha (i := a - F) (by omega) (by omega)

/-- The call, where the bound arguments lie in the cell of the continuation. -/
theorem CallReady.newFrame_eq (next : Nat) : newFrame s next = { s with
    memory := copyArguments (copyArguments (frameHead (s.memory.restoreAllocationPoint F) F p next) (F + 3)
      (p + 3) (contBound (s.memory.words p))) (F + 3 + contBound (s.memory.words p))
      (s.sp - args.length) (args.length - 1)
    cont := F, sp := s.sp - args.length, accu := calleeAccu s p } := by
  have hdepth := h.depth_le
  have hle := h.args_le
  have hbound := contBound_lt (s.memory.words p)
  have hlive : s.memory.Live p := h.cell_live 0 (by omega)
  have hcopy := @copyBound_eq (frameHead (s.memory.restoreAllocationPoint F) F p next) (F + 3) p
    (contBound (s.memory.words p)) _ 0 0x1000
    (by rw [h.frameHead_live hF _ hlive]) (Nat.zero_add _) hbound fun j hj => by
      have := h.ne_frame hF hlive (i := 3 + j) (by omega)
      omega
  have hraw : s.memory.rawAllocate cell.length = (F, s.memory.restoreAllocationPoint F) := by
    have hsub : s.memory.allocationPtr - cell.length = F := by omega
    rw [Memory.rawAllocate, hsub]
    rfl
  unfold newFrame
  simp only [h.ptr, h.size_eq, hraw, hcopy, h.args_eq, Nat.add_zero, h.bound_live hF hroom _ hlive]
  unfold calleeAccu
  rw [h.args_eq]
  by_cases hn : args.length = 0
  · have haccu : (if contBound (s.memory.words p) ≠ 0 then
        (copyArguments (frameHead (s.memory.restoreAllocationPoint F) F p next) (F + 3) (p + 3)
          (contBound (s.memory.words p))).words (F + 3 + contBound (s.memory.words p) - 1)
        else s.accu) =
        if contBound (s.memory.words p) ≠ 0 then
          s.memory.words (p + 2 + contBound (s.memory.words p)) else s.accu := by
      split_ifs with hk
      · rw [h.bound_words hF hroom, if_pos (by omega),
          show p + 3 + (F + 3 + contBound (s.memory.words p) - 1 - (F + 3)) =
            p + 2 + contBound (s.memory.words p) by omega]
      · rfl
    rw [if_pos hn, haccu, hn]
    rfl
  · have htop : s.sp - args.length + args.length - 1 = s.sp - 1 := by
      unfold Machine.stackStart at hle
      omega
    have haccu := h.args_live_frame hF hroom next (a := s.sp - 1) (by
      unfold Machine.stackStart at hle
      exact h.stack_live _ (by omega) (by omega))
    rw [if_neg hn, if_pos hn, htop, haccu]
    rfl

/-- The frames for two return continuations differ in that word only. -/
theorem CallReady.newFrame_words (next next' : Nat) {a : Nat} (ha : a ≠ F + 2) :
    (newFrame s next).memory.words a = (newFrame s next').memory.words a := by
  rw [h.newFrame_eq hF hroom, h.newFrame_eq hF hroom]
  simp only [h.args_words_frame hF hroom, h.bound_words hF hroom, h.frameHead_words hF, if_neg ha]

/-- The words of the frame: the byte code, the return continuation, the bound
arguments and the passed ones. -/
theorem CallReady.newFrame_bcode (next : Nat) :
    (newFrame s next).memory.words (F + 1) = ptrToWord bcode := by
  rw [h.newFrame_eq hF hroom, ← h.bcode_eq]
  simp only
  rw [h.args_words_frame hF hroom, if_neg (by omega), h.bound_words hF hroom, if_neg (by omega),
    h.frameHead_words hF, if_neg (by omega), if_pos rfl]

theorem CallReady.newFrame_next (next : Nat) : (newFrame s next).memory.words (F + 2) = next := by
  rw [h.newFrame_eq hF hroom]
  simp only
  rw [h.args_words_frame hF hroom, if_neg (by omega), h.bound_words hF hroom, if_neg (by omega),
    h.frameHead_words hF, if_pos rfl]

theorem CallReady.newFrame_live (next : Nat) {a : Nat} (ha : s.memory.Live a) :
    (newFrame s next).memory.words a = s.memory.words a := by
  rw [h.newFrame_eq hF hroom]
  exact h.args_live_frame hF hroom next ha

theorem CallReady.newFrame_cont (next : Nat) : (newFrame s next).cont = F := by
  rw [h.newFrame_eq hF hroom]

theorem CallReady.newFrame_accu (next : Nat) : (newFrame s next).accu = calleeAccu s p := by
  rw [h.newFrame_eq hF hroom]

theorem CallReady.newFrame_sp (next : Nat) : (newFrame s next).sp = s.sp - args.length := by
  rw [h.newFrame_eq hF hroom]

/-- What a callee starts with whose frame was made by `newFrame`. -/
theorem CallReady.newFrame_entry (next : Nat) : (newFrame s next).entry =
    ⟨bcode, slice (newFrame s next).memory.words (F + 3) depth, calleeAccu s p⟩ := by
  unfold Machine.entry Machine.stackStart
  simp only [h.newFrame_cont hF hroom, h.newFrame_bcode hF hroom, wordToPtr_ptrToWord,
    h.newFrame_live hF hroom _ h.bcode_live, h.depth_eq, h.newFrame_accu hF hroom]

/-- The callee of `depth + 1` arguments finds them all in their order, the last
one in its accumulator. -/
theorem CallReady.newFrame_slots (next : Nat)
    (hcount : contBound (s.memory.words p) + args.length = depth + 1) :
    (newFrame s next).entry.slots ++ [(newFrame s next).entry.accu] =
      boundArgs s.memory.words p ++ args := by
  have hbound {i : Nat} (hi : i < contBound (s.memory.words p)) :
      (newFrame s next).memory.words (F + 3 + i) = s.memory.words (p + 3 + i) := by
    rw [h.newFrame_eq hF hroom]
    simp only
    rw [h.args_words_frame hF hroom, if_neg (by omega), h.bound_words hF hroom,
      if_pos (by omega), Nat.add_sub_cancel_left]
  have hargs {i : Nat} (hi : i < args.length - 1) :
      (newFrame s next).memory.words (F + 3 + contBound (s.memory.words p) + i) =
        s.memory.words (s.sp - args.length + i) := by
    rw [h.newFrame_eq hF hroom]
    simp only
    rw [h.args_words_frame hF hroom, if_pos (by omega), Nat.add_sub_cancel_left]
  have hle := h.args_le
  unfold Machine.stackStart at hle
  rw [h.newFrame_entry hF hroom]
  simp only [calleeAccu, h.args_eq, boundArgs]
  by_cases hn : args.length = 0
  · -- The last bound argument is the last of all.
    have hk : contBound (s.memory.words p) = depth + 1 := by omega
    rw [if_neg (by omega), if_pos (by omega), List.length_eq_zero_iff.mp hn, List.append_nil, hk,
      slice_succ, slice_shift fun i hi => hbound (by omega),
      show p + 2 + (depth + 1) = p + 3 + depth by omega]
  · obtain ⟨n, hlen⟩ := Nat.exists_eq_add_one_of_ne_zero hn
    have hdepth : depth = contBound (s.memory.words p) + n := by omega
    have hsp : s.sp - 1 = s.sp - args.length + n := by omega
    have hlast : args = slice s.memory.words (s.sp - args.length) n ++ [s.top] := by
      conv_lhs => rw [← h.args_words, hlen, slice_succ, ← hlen]
      rw [Machine.top, hsp]
    rw [if_pos hn, hdepth, slice_add, slice_shift fun i hi => hbound hi,
      slice_shift fun i hi => hargs (by omega), List.append_assoc, ← hlast]

/-- The word that `call` writes to the caller's frame is not one that the
callee starts with. -/
theorem CallReady.call_entry (bcodeGet : Memory → Nat → Nat) :
    (call bcodeGet s).entry = (newFrame s (ptrToWord s.cont)).entry := by
  have hdepth := h.depth_le
  have hle := h.args_le
  unfold Machine.stackStart at hle
  have hcaller : s.memory.Live (s.cont + 1) := h.stack_live _ (by omega) (by omega)
  have hne {i : Nat} (hi : i < cell.length) : F + i ≠ s.cont + 1 := (h.ne_frame hF hcaller hi).symm
  rw [h.newFrame_entry hF hroom]
  unfold call Machine.entry Machine.stackStart
  simp only [h.newFrame_cont hF hroom, Memory.set_words, if_neg (hne (i := 1) (by omega)),
    h.newFrame_bcode hF hroom, wordToPtr_ptrToWord, if_neg (Ne.symm h.bcode_ne),
    h.newFrame_live hF hroom _ h.bcode_live, h.depth_eq, h.newFrame_accu hF hroom]
  congr 1
  refine slice_congr fun i hi => ?_
  rw [Memory.set_words, if_neg (by have := hne (i := 3 + i) (by omega); omega)]

/-- A tail call leaves the word on top of the stack in `accu`, whatever the
number of arguments. -/
theorem CallReady.tailCall_entry : (tailCall s).entry =
    { (newFrame s (s.memory.words (s.cont + 2))).entry with accu := s.top } := by
  have hle := h.args_le
  unfold Machine.stackStart at hle
  have htop : (newFrame s (s.memory.words (s.cont + 2))).memory.words (s.sp - 1) = s.top :=
    h.newFrame_live hF hroom _ (h.stack_live _ (by omega) (by omega))
  unfold tailCall Machine.entry Machine.stackStart
  simp only [h.newFrame_sp hF hroom, h.args_eq]
  rw [show s.sp - args.length + args.length - 1 = s.sp - 1 by omega, htop]

end frame

/-! ## tail calls -/

/-- A machine that calls the continuation with the words `cell`, followed in
memory by the word `beyond`, with the arguments `args`. -/
def callMachine (cell args : List Nat) (bcode depth beyond : Nat) : Machine where
  memory := {
    words := fun a =>
      if a = bcode + 2 then depth
      else (0 :: (cell ++ (beyond :: 0 :: 0 :: 0 :: (args ++ [0, args.length])))).getD
        (a - (bcode + 3 + cell.length)) 0
    allocationPtr := bcode + 3 + cell.length
    firstGenerationEnd := bcode + 3
    firstGenerationStart := bcode + 3 + cell.length
    firstGenerationEnd_pos := by omega }
  cont := bcode + 2 * cell.length + 5
  pc := bcode + 2 * cell.length + args.length + 8
  sp := bcode + 2 * cell.length + args.length + 8
  accu := ptrToWord (bcode + 4 + cell.length)

section callMachine

variable (cell args : List Nat) (bcode depth beyond : Nat)

theorem callMachine_word {i : Nat} (hi : 0 < i) :
    (callMachine cell args bcode depth beyond).memory.words (bcode + 3 + cell.length + i) =
      (cell ++ (beyond :: 0 :: 0 :: 0 :: (args ++ [0, args.length]))).getD (i - 1) 0 := by
  obtain ⟨i, rfl⟩ := Nat.exists_eq_add_one_of_ne_zero (Nat.ne_of_gt hi)
  unfold callMachine
  simp only
  rw [if_neg (by omega), Nat.add_sub_cancel_left, List.getD_cons_succ, Nat.add_sub_cancel]

theorem callMachine_cell {i : Nat} (hi : i < cell.length) :
    (callMachine cell args bcode depth beyond).memory.words (bcode + 4 + cell.length + i) =
      cell.getD i 0 := by
  have hword := callMachine_word cell args bcode depth beyond (i := i + 1) (by omega)
  rw [Nat.add_sub_cancel, List.getD_append _ _ _ _ hi] at hword
  rw [← hword]
  congr 1
  omega

/-- What comes behind the cell. -/
theorem callMachine_behind {i : Nat} :
    (callMachine cell args bcode depth beyond).memory.words (bcode + 4 + 2 * cell.length + i) =
      (beyond :: 0 :: 0 :: 0 :: (args ++ [0, args.length])).getD i 0 := by
  have hword := callMachine_word cell args bcode depth beyond (i := cell.length + i + 1) (by omega)
  rw [List.getD_append_right _ _ _ _ (by omega), show cell.length + i + 1 - 1 - cell.length = i by omega]
    at hword
  rw [← hword]
  congr 1
  omega

theorem callReady_callMachine (hsize : contSize (cell.getD 0 0) = cell.length)
    (hbcode : cell.getD 1 0 = ptrToWord bcode) (hdepth : 3 + depth ≤ cell.length)
    (hfit : 3 + (contBound (cell.getD 0 0) + args.length - 1) ≤ cell.length) :
    CallReady (callMachine cell args bcode depth beyond) (bcode + 4 + cell.length) cell bcode depth
      args where
  accu := rfl
  cell_eq := by
    refine List.ext_getElem? fun i => ?_
    by_cases hi : i < cell.length
    · rw [slice_getElem? hi, callMachine_cell _ _ _ _ _ hi]
      simp [hi]
    · rw [List.getElem?_eq_none (by simpa using hi), List.getElem?_eq_none (by simpa using hi)]
  size_eq := by
    have := callMachine_cell cell args bcode depth beyond (i := 0) (by omega)
    rw [Nat.add_zero] at this
    rw [this, hsize]
  bcode_eq := by rw [callMachine_cell _ _ _ _ _ (by omega), hbcode]
  depth_eq := by simp [callMachine]
  depth_le := hdepth
  args_eq := by
    have := callMachine_behind cell args bcode depth beyond (i := args.length + 5)
    have haddr : bcode + 2 * cell.length + args.length + 8 + 1 =
        bcode + 4 + 2 * cell.length + (args.length + 5) := by omega
    show (callMachine cell args bcode depth beyond).memory.words
      (bcode + 2 * cell.length + args.length + 8 + 1) = _
    rw [haddr, this]
    simp
  args_words := by
    refine List.ext_getElem? fun i => ?_
    by_cases hi : i < args.length
    · have := callMachine_behind cell args bcode depth beyond (i := i + 4)
      have haddr : bcode + 2 * cell.length + args.length + 8 - args.length + i =
          bcode + 4 + 2 * cell.length + (i + 4) := by omega
      rw [slice_getElem? hi]
      show some ((callMachine cell args bcode depth beyond).memory.words
        (bcode + 2 * cell.length + args.length + 8 - args.length + i)) = _
      rw [haddr, this]
      simp [List.getElem?_append_left hi, hi]
    · rw [List.getElem?_eq_none (by simpa using hi), List.getElem?_eq_none (by simpa using hi)]
  args_le := by
    show bcode + 2 * cell.length + 5 + 3 + args.length ≤ bcode + 2 * cell.length + args.length + 8
    omega
  args_fit := by
    have := callMachine_cell cell args bcode depth beyond (i := 0) (by omega)
    rw [Nat.add_zero] at this
    rwa [this]
  cell_live i hi := .inr (by simp only [callMachine]; omega)
  bcode_live := .inl (by simp only [callMachine]; omega)
  stack_live a ha _ := .inr (by simp only [callMachine] at ha ⊢; omega)
  bcode_ne := by simp only [callMachine]; omega
  can := by simp only [callMachine, Memory.canAllocate]; omega

end callMachine

/-- The callees of a `call` (in the state `c`) and of a `tail_call` (in `t`)
from `s` start alike: they differ in the continuation to return to only, where
`call` also sets what its caller goes on with. -/
structure SameCallee (s c t : Machine) : Prop where
  entry : c.entry = t.entry
  cont : c.cont = t.cont
  words : ∀ a, a ≠ c.cont + 2 → a ≠ s.cont + 1 → c.memory.words a = t.memory.words a
  next_call : c.memory.words (c.cont + 2) = ptrToWord s.cont
  next_tailCall : t.memory.words (t.cont + 2) = s.memory.words (s.cont + 2)

/-- `tail_call` starts its callee like `call`, unless there is no argument to
pass and the word below the stack pointer is not the accumulator left by
`call`. -/
theorem call_tail_call (bcodeGet : Memory → Nat → Nat) {s : Machine} {p bcode depth : Nat}
    {cell args : List Nat} (h : CallReady s p cell bcode depth args)
    (hroom : 3 + contBound (s.memory.words p) ≤ cell.length) :
    SameCallee s (call bcodeGet s) (tailCall s) ↔ args ≠ [] ∨
      s.top = if contBound (s.memory.words p) ≠ 0 then
        s.memory.words (p + 2 + contBound (s.memory.words p)) else s.accu := by
  obtain ⟨F, hF⟩ := h.exists_frame
  have hdepth := h.depth_le
  have hcont (next : Nat) : (newFrame s next).cont = F := h.newFrame_cont hF hroom next
  have hslots (next next' : Nat) : slice (newFrame s next).memory.words (F + 3) depth =
      slice (newFrame s next').memory.words (F + 3) depth :=
    slice_congr fun i _ => h.newFrame_words hF hroom _ _ (by omega)
  -- Only the accumulators can differ.
  have hentry : (call bcodeGet s).entry = (tailCall s).entry ↔ calleeAccu s p = s.top := by
    rw [h.call_entry hF hroom, h.tailCall_entry hF hroom, h.newFrame_entry hF hroom,
      h.newFrame_entry hF hroom, hslots _ (s.memory.words (s.cont + 2))]
    simp
  have haccu : calleeAccu s p = s.top ↔ args ≠ [] ∨
      s.top = if contBound (s.memory.words p) ≠ 0 then
        s.memory.words (p + 2 + contBound (s.memory.words p)) else s.accu := by
    unfold calleeAccu
    rw [h.args_eq]
    by_cases hargs : args = []
    · simp [hargs, eq_comm]
    · simp [hargs]
  rw [← haccu, ← hentry]
  refine ⟨SameCallee.entry, fun heq => ⟨heq, ?_, fun a hnext hcaller => ?_, ?_, ?_⟩⟩
  · exact (hcont _).trans (hcont _).symm
  · have hne : a ≠ F + 2 := by
      rw [← hcont (ptrToWord s.cont)]
      exact hnext
    unfold call
    rw [Memory.set_words, if_neg hcaller]
    exact h.newFrame_words hF hroom _ _ hne
  · have hle := h.args_le
    unfold Machine.stackStart at hle
    have hne := h.ne_frame hF (h.stack_live (s.cont + 1) (by omega) (by omega)) (i := 2) (by omega)
    unfold call
    simp only
    rw [hcont, Memory.set_words, if_neg (Ne.symm hne), h.newFrame_next hF hroom]
  · unfold tailCall
    simp only
    rw [hcont, h.newFrame_next hF hroom]

/-- A function of one argument, which is bound, is called without another
one: `tail_call` takes the word below the empty stack. -/
theorem call_tail_call_bound :
    let s := callMachine [4 * 2 ^ 12 + 1, ptrToWord 7, 0, 9] [] 7 0 0
    CallReady s 15 [4 * 2 ^ 12 + 1, ptrToWord 7, 0, 9] 7 0 [] ∧
      ¬ SameCallee s (call (fun _ _ => 0) s) (tailCall s) := by
  intro s
  have h : CallReady s 15 [4 * 2 ^ 12 + 1, ptrToWord 7, 0, 9] 7 0 [] :=
    callReady_callMachine _ _ _ _ _ (by decide) (by decide) (by decide) (by decide)
  have hF : s.memory.allocationPtr = 10 + 4 := rfl
  refine ⟨h, fun hsame => ?_⟩
  have haccu := congrArg Entry.accu hsame.entry
  rw [h.call_entry hF (by decide), h.tailCall_entry hF (by decide), h.newFrame_entry hF (by decide)]
    at haccu
  exact absurd haccu (by decide)

/-- With an argument to pass the two agree. -/
theorem call_tail_call_one :
    let s := callMachine [4 * 2 ^ 12 + 1, ptrToWord 7, 0, 9] [13] 7 1 0
    SameCallee s (call (fun _ _ => 0) s) (tailCall s) := by
  intro s
  exact (call_tail_call _ (callReady_callMachine _ _ _ _ _ (by decide) (by decide) (by decide)
    (by decide)) (by decide)).mpr (.inl (by decide))

/-! ## binding arguments -/

theorem contSize_eq (p0 : Nat) : contSize p0 = p0 / 2 ^ 12 % 2 ^ 12 := by
  rw [contSize, show 0xFFF = 2 ^ 12 - 1 by decide, and_mask, Nat.shiftRight_eq_div_pow]

theorem contBound_eq (p0 : Nat) : contBound p0 = p0 % 2 ^ 12 := by
  rw [contBound, show 0xFFF = 2 ^ 12 - 1 by decide, and_mask]

/-- The first word of a continuation to which `k` arguments are bound. -/
theorem bound_header {p0 k : Nat} (hp0 : contBound p0 = 0) (hk : k < 0xFFF) :
    contBound (add32 p0 k) = k ∧ contSize (add32 p0 k) = contSize p0 := by
  rw [contBound_eq] at hp0
  rw [contBound_eq, contSize_eq, contSize_eq, add32]
  omega

/-- The words of the cell. -/
theorem CallReady.cell_word {s : Machine} {p bcode depth : Nat} {cell args : List Nat}
    (h : CallReady s p cell bcode depth args) {i : Nat} (hi : i < cell.length) :
    cell[i]? = some (s.memory.words (p + i)) := by
  conv_lhs => rw [← h.cell_eq]
  exact slice_getElem? hi

/-- Two calls of cells with the same words. -/
theorem CallReady.same_word {s s' : Machine} {p p' bcode bcode' depth depth' : Nat}
    {cell args args' : List Nat} (h : CallReady s p cell bcode depth args)
    (h' : CallReady s' p' cell bcode' depth' args') {i : Nat} (hi : i < cell.length) :
    s'.memory.words (p' + i) = s.memory.words (p + i) :=
  Option.some.inj ((h'.cell_word hi).symm.trans (h.cell_word hi))

/-- The new cell: its three first words, and the arguments if they fit. -/
structure Bound (s : Machine) (p : Nat) (cell : List Nat) (xs : List Nat) (s' : Machine) (F : Nat) :
    Prop where
  accu : s'.accu = ptrToWord F
  header : s'.memory.words F = add32 (s.memory.words p) xs.length
  bcode : s'.memory.words (F + 1) = s.memory.words (p + 1)
  args : 3 + xs.length ≤ cell.length → slice s'.memory.words (F + 3) xs.length = xs

/-- `bind`. -/
theorem CallReady.bind_spec {s : Machine} {p bcode depth F : Nat} {cell xs : List Nat}
    (h : CallReady s p cell bcode depth xs) (hF : s.memory.allocationPtr = F + cell.length)
    (hunbound : contBound (s.memory.words p) = 0) :
    ∃ s', Exec.bind s = some s' ∧ Bound s p cell xs s' F := by
  have hdepth := h.depth_le
  have hfit := h.args_fit
  have hle := h.args_le
  unfold Machine.stackStart at hle
  have hsize := h.size_eq
  rw [contSize_eq] at hsize
  have hlive {i : Nat} (hi : i < 3) : s.memory.Live (p + i) := h.cell_live i (by omega)
  have hne {i j : Nat} (hi : i < 3) (hj : j < 3) : p + i ≠ F + j :=
    h.ne_frame hF (hlive hi) (by omega)
  have hraw : s.memory.rawAllocate cell.length = (F, s.memory.restoreAllocationPoint F) := by
    have hsub : s.memory.allocationPtr - cell.length = F := by omega
    rw [Memory.rawAllocate, hsub]
    rfl
  have hp0 : p ≠ F := hne (i := 0) (j := 0) (by omega) (by omega)
  have hp1 : p + 1 ≠ F := hne (j := 0) (by omega) (by omega)
  have hp01 : p ≠ F + 1 := hne (i := 0) (by omega) (by omega)
  have hp02 : p ≠ F + 2 := hne (i := 0) (by omega) (by omega)
  unfold Exec.bind
  simp only [h.ptr, h.size_eq, hraw, h.args_eq, Memory.set_words, Memory.restoreAllocationPoint_words,
    if_neg hp0, if_neg hp01, if_neg hp02, assert_true hunbound, assert_true (show xs.length < 0xFFF by omega)]
  refine ⟨_, rfl, rfl, ?_, ?_, fun hroom => ?_⟩
  · simp only
    rw [copyArguments_outside (by omega)]
    simp
  · simp only
    rw [copyArguments_outside (by omega)]
    simp [hp1]
  · have hstack {j : Nat} (hj : j < xs.length) : s.memory.Live (s.sp - xs.length + j) :=
      h.stack_live _ (by omega) (by omega)
    conv_rhs => rw [← h.args_words]
    refine slice_shift fun i hi => ?_
    simp only
    rw [copyArguments_words fun i hi j hj => ?_, if_pos (by omega), Nat.add_sub_cancel_left]
    · have h0 : s.sp - xs.length + i ≠ F := h.ne_frame hF (hstack hi) (i := 0) (by omega)
      have h1 := h.ne_frame hF (hstack hi) (i := 1) (by omega)
      have h2 := h.ne_frame hF (hstack hi) (i := 2) (by omega)
      simp [h0, h1, h2]
    · have := h.ne_frame hF (hstack hj) (i := 3 + i) (by omega)
      omega

/-- Binding the arguments `xs` of the continuation with the words `cell`, and
calling the result with `n` more, starts the callee like the call with all of
them, wherever the two continuations are by then. -/
def BindThenCall (bcodeGet : Memory → Nat → Nat) (s : Machine) (cell : List Nat) (bcode depth : Nat)
    (xs : List Nat) (n : Nat) : Prop :=
  ∃ s₁, Exec.bind s = some s₁ ∧ ∀ (s₂ s₃ : Machine) (p₂ p₃ : Nat) (ys : List Nat), ys.length = n →
    CallReady s₂ p₂ (slice s₁.memory.words (wordToPtr s₁.accu) cell.length) bcode depth ys →
    CallReady s₃ p₃ cell bcode depth (xs ++ ys) →
    (call bcodeGet s₂).entry = (call bcodeGet s₃).entry

/-- All arguments arrive in their order. -/
theorem CallReady.call_slots (bcodeGet : Memory → Nat → Nat) {s : Machine} {p bcode depth : Nat}
    {cell args : List Nat} (h : CallReady s p cell bcode depth args)
    (hroom : 3 + contBound (s.memory.words p) ≤ cell.length)
    (hcount : contBound (s.memory.words p) + args.length = depth + 1) :
    (call bcodeGet s).entry.bcode = bcode ∧
      (call bcodeGet s).entry.slots ++ [(call bcodeGet s).entry.accu] =
        boundArgs s.memory.words p ++ args := by
  obtain ⟨F, hF⟩ := h.exists_frame
  rw [h.call_entry hF hroom]
  exact ⟨by rw [h.newFrame_entry hF hroom], h.newFrame_slots hF hroom _ hcount⟩

/-- An entry is determined by its byte code and its arguments. -/
theorem Entry.ext_args {e e' : Entry} (hbcode : e.bcode = e'.bcode)
    (hargs : e.slots ++ [e.accu] = e'.slots ++ [e'.accu]) : e = e' := by
  obtain ⟨hslots, haccu⟩ := List.append_inj' hargs rfl
  cases e
  cases e'
  simp_all

section callMachine

variable (cell args : List Nat) (bcode depth beyond : Nat)

/-- With one bound argument more than its cell has room for, a continuation
that is called without arguments gets the word behind its cell. -/
theorem call_beyond (bcodeGet : Memory → Nat → Nat) {k : Nat} (hk : k ≠ 0)
    (hsize : contSize (cell.getD 0 0) = cell.length) (hbcode : cell.getD 1 0 = ptrToWord bcode)
    (hdepth : 3 + depth ≤ cell.length) (hbound : contBound (cell.getD 0 0) = k)
    (hfull : cell.length = k + 2) :
    (call bcodeGet (callMachine cell [] bcode depth beyond)).entry.accu = beyond := by
  have h := callReady_callMachine cell [] bcode depth beyond hsize hbcode hdepth
    (by rw [hbound, List.length_nil]; omega)
  have hF : (callMachine cell [] bcode depth beyond).memory.allocationPtr =
      bcode + 3 + cell.length := rfl
  generalize hs : callMachine cell [] bcode depth beyond = s at h hF
  have hcell : s.memory.words (bcode + 4 + cell.length) = cell.getD 0 0 := by
    rw [← hs, ← Nat.add_zero (bcode + 4 + cell.length), callMachine_cell _ _ _ _ _ (by omega)]
  have hbeyond : s.memory.words (bcode + 4 + 2 * cell.length) = beyond := by
    have := callMachine_behind cell [] bcode depth beyond (i := 0)
    rwa [hs, Nat.add_zero] at this
  have hlive : s.memory.Live (bcode + 4 + cell.length) := h.cell_live 0 (by omega)
  have hcopy := @copyBound_eq
    (frameHead (s.memory.restoreAllocationPoint (bcode + 3)) (bcode + 3) (bcode + 4 + cell.length)
      (ptrToWord s.cont)) (bcode + 3 + 3) (bcode + 4 + cell.length) k _ 0 0x1000
    (by rw [h.frameHead_live hF _ hlive, hcell, hbound]) (Nat.zero_add _)
    (by rw [← hbound]; exact contBound_lt _) fun j hj => by omega
  -- The words read and written are apart, also with the one behind the cell.
  have hwords (a : Nat) := copyArguments_words
    (m := frameHead (s.memory.restoreAllocationPoint (bcode + 3)) (bcode + 3) (bcode + 4 + cell.length)
      (ptrToWord s.cont)) (p := bcode + 3 + 3 + 0) (q := bcode + 4 + cell.length + 3 + 0) (n := k)
    (fun i hi j hj => by omega) a
  have hlast := hwords (bcode + 3 + 3 + k - 1)
  rw [if_pos (by omega), h.frameHead_words hF, if_neg (by omega), if_neg (by omega),
    if_neg (by omega), show bcode + 4 + cell.length + 3 + 0 + (bcode + 3 + 3 + k - 1 -
      (bcode + 3 + 3 + 0)) = bcode + 4 + 2 * cell.length by omega, hbeyond] at hlast
  have hheader := hwords (bcode + 4 + cell.length)
  rw [if_neg (by omega), h.frameHead_live hF _ hlive, hcell] at hheader
  have hraw : s.memory.rawAllocate cell.length =
      (bcode + 3, s.memory.restoreAllocationPoint (bcode + 3)) := by
    have hsub : s.memory.allocationPtr - cell.length = bcode + 3 := by omega
    rw [Memory.rawAllocate, hsub]
    rfl
  have haccu : (newFrame s (ptrToWord s.cont)).accu = beyond := by
    unfold newFrame
    simp only [h.ptr, h.size_eq, hraw, hcopy, h.args_eq, List.length_nil, if_true, hheader, hbound,
      if_pos hk, hlast]
  exact haccu

end callMachine

section bind

variable {s : Machine} {p bcode depth n : Nat} {cell xs : List Nat}
  (h : CallReady s p cell bcode depth xs) (hunbound : contBound (s.memory.words p) = 0)
  (hcount : xs.length + n = depth + 1)

include h hunbound hcount

theorem bindThenCall_of_room (bcodeGet : Memory → Nat → Nat) (hroom : 3 + xs.length ≤ cell.length) :
    BindThenCall bcodeGet s cell bcode depth xs n := by
  obtain ⟨F, hF⟩ := h.exists_frame
  obtain ⟨s₁, hbind, hs₁⟩ := h.bind_spec hF hunbound
  have hdepth := h.depth_le
  have hsize := h.size_eq
  rw [contSize_eq] at hsize
  refine ⟨s₁, hbind, fun s₂ s₃ p₂ p₃ ys hys h₂ h₃ => ?_⟩
  rw [hs₁.accu, wordToPtr_ptrToWord] at h₂
  have hword {i : Nat} (hi : i < cell.length) : s₂.memory.words (p₂ + i) = s₁.memory.words (F + i) := by
    have hcell := h₂.cell_word (i := i) (by simpa using hi)
    rw [slice_getElem? hi] at hcell
    exact (Option.some.inj hcell).symm
  -- The bound cell holds the arguments `xs`.
  have hheader := bound_header hunbound (show xs.length < 0xFFF by omega)
  have hbound₂ : contBound (s₂.memory.words p₂) = xs.length := by
    have hword0 : s₂.memory.words p₂ = s₁.memory.words F := hword (i := 0) (by omega)
    rw [hword0, hs₁.header, hheader.1]
  have hargs₂ : boundArgs s₂.memory.words p₂ = xs := by
    rw [boundArgs, hbound₂, ← hs₁.args hroom]
    rw [length_slice]
    refine slice_shift fun i hi => ?_
    have := hword (i := 3 + i) (by omega)
    rwa [← Nat.add_assoc, ← Nat.add_assoc] at this
  have hbound₃ : contBound (s₃.memory.words p₃) = 0 := by
    have hword0 : s₃.memory.words p₃ = s.memory.words p := h.same_word h₃ (i := 0) (by omega)
    rw [hword0, hunbound]
  obtain ⟨hbcode₂, hslots₂⟩ := h₂.call_slots bcodeGet (by rw [hbound₂, length_slice]; exact hroom)
    (by rw [hbound₂]; omega)
  obtain ⟨hbcode₃, hslots₃⟩ := h₃.call_slots bcodeGet (by rw [hbound₃]; omega)
    (by rw [hbound₃, List.length_append]; omega)
  refine Entry.ext_args (hbcode₂.trans hbcode₃.symm) ?_
  rw [hslots₂, hslots₃, hargs₂, boundArgs, hbound₃]
  rfl

/-- Otherwise there is a state in which the word behind the cell is another
one. -/
theorem room_of_bindThenCall (bcodeGet : Memory → Nat → Nat) (hxs : xs ≠ [])
    (hb : BindThenCall bcodeGet s cell bcode depth xs n) : n ≠ 0 ∨ 3 + xs.length ≤ cell.length := by
  by_contra hnot
  rw [not_or, not_not, not_le] at hnot
  obtain ⟨rfl, hsmall⟩ := hnot
  obtain ⟨F, hF⟩ := h.exists_frame
  obtain ⟨s₁, hbind, hcall⟩ := hb
  obtain ⟨s₁', hbind', hs₁⟩ := h.bind_spec hF hunbound
  obtain rfl : s₁ = s₁' := Option.some.inj (hbind.symm.trans hbind')
  have hdepth := h.depth_le
  have hsize := h.size_eq
  have hpos : 0 < xs.length := List.length_pos_iff.mpr hxs
  have hlt : xs.length < 0xFFF := by
    rw [contSize_eq] at hsize
    omega
  have hheader := bound_header hunbound hlt
  rw [hs₁.accu, wordToPtr_ptrToWord] at hcall
  generalize hcell₁ : slice s₁.memory.words F cell.length = cell₁ at hcall
  have hlen : cell₁.length = cell.length := by rw [← hcell₁, length_slice]
  have hget {i : Nat} (hi : i < cell.length) : cell₁.getD i 0 = s₁.memory.words (F + i) := by
    rw [← hcell₁, List.getD_eq_getElem?_getD, slice_getElem? hi, Option.getD_some]
  have hget0 : cell₁.getD 0 0 = add32 (s.memory.words p) xs.length := by
    rw [hget (by omega), Nat.add_zero, hs₁.header]
  have hget1 : cell₁.getD 1 0 = ptrToWord bcode := by
    rw [hget (by omega), hs₁.bcode, h.bcode_eq]
  have hcell0 : cell.getD 0 0 = s.memory.words p := by
    rw [List.getD_eq_getElem?_getD, h.cell_word (i := 0) (by omega), Option.getD_some, Nat.add_zero]
  have hcell1 : cell.getD 1 0 = ptrToWord bcode := by
    rw [List.getD_eq_getElem?_getD, h.cell_word (i := 1) (by omega), Option.getD_some, h.bcode_eq]
  have hsize₁ : contSize (cell₁.getD 0 0) = cell₁.length := by
    rw [hget0, hheader.2, hsize, hlen]
  have h₂ := callReady_callMachine cell₁ [] bcode depth (xs.getLast hxs + 1) hsize₁ hget1 (by omega)
    (by rw [hget0, hheader.1, List.length_nil]; omega)
  have h₃ := callReady_callMachine cell xs bcode depth 0 (by rw [hcell0, hsize]) hcell1 (by omega)
    (by rw [hcell0]; exact h.args_fit)
  have heq := hcall _ _ _ _ [] rfl h₂ (by rwa [List.append_nil])
  have haccu₂ := call_beyond cell₁ bcode depth (xs.getLast hxs + 1) bcodeGet (k := xs.length)
    (by omega) hsize₁ hget1 (by omega) (by rw [hget0, hheader.1]) (by omega)
  have hbound₃ : contBound ((callMachine cell xs bcode depth 0).memory.words
      (bcode + 4 + cell.length)) = 0 := by
    have hword := h.same_word h₃ (i := 0) (by omega)
    simp only [Nat.add_zero] at hword
    rw [hword, hunbound]
  have hslots₃ := (h₃.call_slots bcodeGet (by rw [hbound₃]; omega) (by rw [hbound₃]; omega)).2
  rw [boundArgs, hbound₃, ← heq, haccu₂] at hslots₃
  have hlast := congrArg List.getLast? hslots₃
  rw [slice, List.nil_append, List.getLast?_append, List.getLast?_eq_some_getLast hxs] at hlast
  simp at hlast

/-- Binding and calling is calling, unless all arguments are bound and the
frame has no word more than the entry stack needs. -/
theorem bind_call (bcodeGet : Memory → Nat → Nat) (hxs : xs ≠ []) :
    BindThenCall bcodeGet s cell bcode depth xs n ↔ n ≠ 0 ∨ 3 + xs.length ≤ cell.length := by
  refine ⟨room_of_bindThenCall h hunbound hcount bcodeGet hxs, fun hroom => ?_⟩
  have hdepth := h.depth_le
  exact bindThenCall_of_room h hunbound hcount bcodeGet (by omega)

end bind

/-- The only argument of a function without a stack is bound: the frame has
three words, and the fourth one is written. -/
theorem bind_call_full :
    let s := callMachine [3 * 2 ^ 12, ptrToWord 7, 0] [9] 7 0 0
    CallReady s 14 [3 * 2 ^ 12, ptrToWord 7, 0] 7 0 [9] ∧
      ¬ BindThenCall (fun _ _ => 0) s [3 * 2 ^ 12, ptrToWord 7, 0] 7 0 [9] 0 := by
  intro s
  have h : CallReady s 14 [3 * 2 ^ 12, ptrToWord 7, 0] 7 0 [9] :=
    callReady_callMachine _ _ _ _ _ (by decide) (by decide) (by decide) (by decide)
  refine ⟨h, fun hcall => ?_⟩
  have hroom := room_of_bindThenCall h (by decide) rfl _ (by decide) hcall
  exact absurd hroom (by decide)

/-- The first of two arguments is bound. -/
theorem bind_call_first :
    let s := callMachine [4 * 2 ^ 12, ptrToWord 7, 0, 0] [9] 7 1 0
    BindThenCall (fun _ _ => 0) s [4 * 2 ^ 12, ptrToWord 7, 0, 0] 7 1 [9] 1 := by
  intro s
  exact (bind_call (callReady_callMachine _ _ _ _ _ (by decide) (by decide) (by decide)
    (by decide)) (by decide) rfl _ (by decide)).mpr (.inl (by decide))

end Shades
