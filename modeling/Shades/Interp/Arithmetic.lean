import Shades.Interp.Machine

/-!
# Shades.Interp.Arithmetic

The instructions of `insn-def.h` on tagged integers.

`t_add` and `t_sub` work on the tagged words and put the tag right afterwards;
`t_neg` and the multiplications remove the tag, compute with signed words and
put it back; `t_add_imm` and `t_sub_imm` take the addend times four, so the
tag stays as it is.  All of them are the operation on integers modulo
`2 ^ 30`.  The shifts leave the tag to be shifted with the integer, and the
comparisons compare the words without a sign.
-/

namespace Shades

/-! ## the instructions -/

def tAdd (s : Machine) : Option Machine := do
  assert (taggedIsWord s.accu)
  assert (taggedIsWord s.top)
  let accu := add32 s.accu s.top
  some { s with sp := s.sp - 1, accu := sub32 accu 1, pc := s.pc + 1 }

def tAddImm (s : Machine) : Option Machine := do
  assert (taggedIsWord s.accu)
  some { s with accu := add32 s.accu (s.imm 1), pc := s.pc + 2 }

def tSub (s : Machine) : Option Machine := do
  assert (taggedIsWord s.accu)
  assert (taggedIsWord s.top)
  let accu := sub32 s.top s.accu
  some { s with sp := s.sp - 1, accu := add32 accu 1, pc := s.pc + 1 }

def tSubImm (s : Machine) : Option Machine := do
  assert (taggedIsWord s.accu)
  some { s with accu := sub32 s.accu (s.imm 1), pc := s.pc + 2 }

def tNeg (s : Machine) : Option Machine := do
  assert (taggedIsWord s.accu)
  some { s with accu := signedWordToTagged (-taggedToSignedWord s.accu), pc := s.pc + 1 }

/-- The product of two signed words is a signed word again. -/
def tMul (s : Machine) : Option Machine := do
  assert (taggedIsWord s.accu)
  assert (taggedIsWord s.top)
  let tmp := signedWord (taggedToSignedWord s.accu * taggedToSignedWord s.top)
  some { s with sp := s.sp - 1, accu := signedWordToTagged tmp, pc := s.pc + 1 }

/-- The immediate is a word, so the product is one of words. -/
def tMulImm (s : Machine) : Option Machine := do
  assert (taggedIsWord s.accu)
  let product := toWord (toWord (taggedToSignedWord s.accu) * s.imm 1)
  some { s with accu := signedWordToTagged product, pc := s.pc + 2 }

def tLshiftImm (s : Machine) : Option Machine := do
  assert (taggedIsWord s.accu)
  some { s with accu := lshift32 s.accu (s.imm 1), pc := s.pc + 2 }

def tRshiftImm (s : Machine) : Option Machine := do
  assert (taggedIsWord s.accu)
  some { s with accu := s.accu >>> s.imm 1, pc := s.pc + 2 }

/-- An instruction that compares the word on the stack with `accu`, and loads
one of two words. -/
def tSelect (cmp : Nat → Nat → Bool) (yes no : Machine → Nat) (size : Nat) (s : Machine) :
    Machine :=
  { s with
    sp := s.sp - 1
    accu := if cmp s.top s.accu then yes s else no s
    pc := s.pc + size }

/-- The comparison instructions load a truth value. -/
def tCompare (cmp : Nat → Nat → Bool) : Machine → Machine :=
  tSelect cmp (fun _ => taggedTrue) (fun _ => taggedFalse) 1

def tCmplt : Machine → Machine := tCompare fun x y => x < y

def tCmple : Machine → Machine := tCompare fun x y => x ≤ y

def tCmpgt : Machine → Machine := tCompare fun x y => x > y

def tCmpge : Machine → Machine := tCompare fun x y => x ≥ y

/-- The word `stack_start[pc[i]]`. -/
def pickOperand (i : Nat) (s : Machine) : Nat := s.pick (s.imm i)

/-- The word `pc[i]`. -/
def immOperand (i : Nat) (s : Machine) : Nat := s.imm i

def tCondLePickPick : Machine → Machine :=
  tSelect (fun x y => x ≤ y) (pickOperand 1) (pickOperand 2) 3

def tCondLtPickPick : Machine → Machine :=
  tSelect (fun x y => x < y) (pickOperand 1) (pickOperand 2) 3

def tCondLeImmPick : Machine → Machine :=
  tSelect (fun x y => x ≤ y) (immOperand 1) (pickOperand 2) 3

def tCondLtImmPick : Machine → Machine :=
  tSelect (fun x y => x < y) (immOperand 1) (pickOperand 2) 3

def tCondLePickImm : Machine → Machine :=
  tSelect (fun x y => x ≤ y) (pickOperand 1) (immOperand 2) 3

def tCondLtPickImm : Machine → Machine :=
  tSelect (fun x y => x < y) (pickOperand 1) (immOperand 2) 3

def tCondLeImmImm : Machine → Machine :=
  tSelect (fun x y => x ≤ y) (immOperand 1) (immOperand 2) 3

def tCondLtImmImm : Machine → Machine :=
  tSelect (fun x y => x < y) (immOperand 1) (immOperand 2) 3

/-! ## arithmetic modulo `2 ^ 30` -/

theorem add32_toWord (i j : Int) : add32 (toWord i) (toWord j) = toWord (i + j) := by
  unfold add32 toWord
  omega

theorem sub32_toWord (i j : Int) : sub32 (toWord i) (toWord j) = toWord (i - j) := by
  unfold sub32 toWord
  omega

/-- Equal modulo `2 ^ 30`, equal as tagged words. -/
theorem tagWord_eq {i j : Int} (h : (2 : Int) ^ 30 ∣ i - j) : tagWord i = tagWord j := by
  rw [tagWord, tagWord, toWord_eq]
  omega

theorem tagWord_add (i j : Int) : sub32 (add32 (tagWord i) (tagWord j)) 1 = tagWord (i + j) := by
  have hone : (1 : Nat) = toWord 1 := by decide
  unfold tagWord
  rw [add32_toWord, hone, sub32_toWord]
  congr 1
  omega

theorem tagWord_sub (i j : Int) : add32 (sub32 (tagWord i) (tagWord j)) 1 = tagWord (i - j) := by
  have hone : (1 : Nat) = toWord 1 := by decide
  unfold tagWord
  rw [sub32_toWord, hone, add32_toWord]
  congr 1
  omega

theorem tagWord_add_imm (i k : Int) : add32 (tagWord i) (toWord (4 * k)) = tagWord (i + k) := by
  unfold tagWord
  rw [add32_toWord]
  congr 1
  omega

theorem tagWord_sub_imm (i k : Int) : sub32 (tagWord i) (toWord (4 * k)) = tagWord (i - k) := by
  unfold tagWord
  rw [sub32_toWord]
  congr 1
  omega

/-- A product of words taken modulo `2 ^ 32` is right modulo `2 ^ 30`. -/
theorem tagWord_mul_word (i k : Int) : tagWord (toWord (toWord i * toWord k)) = tagWord (i * k) := by
  refine tagWord_eq ?_
  have hi : (2 : Int) ^ 32 ∣ toWord i - i := by
    rw [toWord_cast]
    omega
  have hk : (2 : Int) ^ 32 ∣ toWord k - k := by
    rw [toWord_cast]
    omega
  have hik : (2 : Int) ^ 32 ∣ toWord i * toWord k - i * k := by
    have hsplit : (toWord i : Int) * toWord k - i * k =
        (toWord i - i) * toWord k + i * (toWord k - k) := by ring
    rw [hsplit]
    exact Int.dvd_add (Dvd.dvd.mul_right hi _) (Dvd.dvd.mul_left hk _)
  rw [toWord_cast]
  omega

section arithmetic

variable {s : Machine} (haccu : IsTaggedInt s.accu) (htop : IsTaggedInt s.top)

include haccu

theorem tNeg_eq : tNeg s =
    some { s with accu := tagWord (-taggedValue s.accu), pc := s.pc + 1 } := by
  unfold tNeg
  rw [assert_true haccu.tag, taggedToSignedWord_eq haccu, signedWordToTagged_eq]
  rfl

theorem tMulImm_eq {k : Int} (hk : s.imm 1 = toWord k) : tMulImm s =
    some { s with accu := tagWord (taggedValue s.accu * k), pc := s.pc + 2 } := by
  unfold tMulImm
  rw [assert_true haccu.tag, taggedToSignedWord_eq haccu, hk]
  simp only [Option.bind_eq_bind, Option.bind_some, signedWordToTagged_eq, tagWord_mul_word]

theorem tAddImm_eq {k : Int} (hk : s.imm 1 = toWord (4 * k)) : tAddImm s =
    some { s with accu := tagWord (taggedValue s.accu + k), pc := s.pc + 2 } := by
  unfold tAddImm
  rw [assert_true haccu.tag, hk, ← tagWord_add_imm, ← haccu.eq_tagWord]
  rfl

theorem tSubImm_eq {k : Int} (hk : s.imm 1 = toWord (4 * k)) : tSubImm s =
    some { s with accu := tagWord (taggedValue s.accu - k), pc := s.pc + 2 } := by
  unfold tSubImm
  rw [assert_true haccu.tag, hk, ← tagWord_sub_imm, ← haccu.eq_tagWord]
  rfl

include htop

theorem tAdd_eq : tAdd s = some { s with
    sp := s.sp - 1, accu := tagWord (taggedValue s.top + taggedValue s.accu), pc := s.pc + 1 } := by
  unfold tAdd
  rw [assert_true haccu.tag, assert_true htop.tag, Int.add_comm, ← tagWord_add,
    ← haccu.eq_tagWord, ← htop.eq_tagWord]
  rfl

theorem tSub_eq : tSub s = some { s with
    sp := s.sp - 1, accu := tagWord (taggedValue s.top - taggedValue s.accu), pc := s.pc + 1 } := by
  unfold tSub
  rw [assert_true haccu.tag, assert_true htop.tag, ← tagWord_sub, ← haccu.eq_tagWord,
    ← htop.eq_tagWord]
  rfl

theorem tMul_eq : tMul s = some { s with
    sp := s.sp - 1, accu := tagWord (taggedValue s.top * taggedValue s.accu), pc := s.pc + 1 } := by
  have hdvd := signedWord_dvd (taggedValue s.accu * taggedValue s.top)
  have hword : tagWord (signedWord (taggedValue s.accu * taggedValue s.top)) =
      tagWord (taggedValue s.top * taggedValue s.accu) := by
    refine tagWord_eq ?_
    rw [Int.mul_comm] at hdvd ⊢
    omega
  unfold tMul
  rw [assert_true haccu.tag, assert_true htop.tag, taggedToSignedWord_eq haccu,
    taggedToSignedWord_eq htop]
  simp only [Option.bind_eq_bind, Option.bind_some, signedWordToTagged_eq, hword]

end arithmetic

/-- The arithmetic instructions are exact modulo `2 ^ 30`, for all operands. -/
theorem tagged_arithmetic (s : Machine) (haccu : IsTaggedInt s.accu) :
    (IsTaggedInt s.top →
      (∃ s', tAdd s = some s' ∧ Represents s'.accu (taggedValue s.top + taggedValue s.accu)) ∧
      (∃ s', tSub s = some s' ∧ Represents s'.accu (taggedValue s.top - taggedValue s.accu)) ∧
      ∃ s', tMul s = some s' ∧ Represents s'.accu (taggedValue s.top * taggedValue s.accu)) ∧
    (∃ s', tNeg s = some s' ∧ Represents s'.accu (-taggedValue s.accu)) ∧
    (∀ k : Int, s.imm 1 = toWord k →
      ∃ s', tMulImm s = some s' ∧ Represents s'.accu (taggedValue s.accu * k)) ∧
    ∀ k : Int, s.imm 1 = toWord (4 * k) →
      (∃ s', tAddImm s = some s' ∧ Represents s'.accu (taggedValue s.accu + k)) ∧
      ∃ s', tSubImm s = some s' ∧ Represents s'.accu (taggedValue s.accu - k) := by
  refine ⟨fun htop => ⟨⟨_, tAdd_eq haccu htop, ?_⟩, ⟨_, tSub_eq haccu htop, ?_⟩,
    ⟨_, tMul_eq haccu htop, ?_⟩⟩, ⟨_, tNeg_eq haccu, ?_⟩, fun k hk => ⟨_, tMulImm_eq haccu hk, ?_⟩,
    fun k hk => ⟨⟨_, tAddImm_eq haccu hk, ?_⟩, ⟨_, tSubImm_eq haccu hk, ?_⟩⟩⟩
  all_goals
    dsimp only
    exact represents_tagWord _

/-- The product of `-2 ^ 29` and itself and the sum of the two overflow. -/
theorem tagged_arithmetic_overflow :
    let s : Machine := ⟨smallMemory [(9, 0x80000001)], 0, 20, 10, 0x80000001⟩
    (∃ s', tAdd s = some s' ∧ Represents s'.accu (-0x20000000 + -0x20000000)) ∧
      ∃ s', tMul s = some s' ∧ Represents s'.accu (-0x20000000 * -0x20000000) := by
  intro s
  have hval : taggedValue 0x80000001 = -0x20000000 := by decide
  obtain ⟨hadd, -, hmul⟩ := (tagged_arithmetic s (by decide)).1 (by decide)
  rw [show s.accu = 0x80000001 from rfl, show s.top = 0x80000001 from rfl, hval] at hadd hmul
  exact ⟨hadd, hmul⟩

/-! ## comparisons -/

/-- The two words are on the same side of zero. -/
def SameSign (x y : Nat) : Prop := taggedValue x < 0 ↔ taggedValue y < 0

instance (x y : Nat) : Decidable (SameSign x y) := inferInstanceAs (Decidable (_ ↔ _))

/-- A tagged word as a number. -/
theorem IsTaggedInt.cast_eq {w : Nat} (h : IsTaggedInt w) :
    (w : Int) = 4 * taggedValue w + 1 + if taggedValue w < 0 then 2 ^ 32 else 0 := by
  have hbounds := taggedValue_bounds w
  have heq : (w : Int) = (4 * taggedValue w + 1) % 2 ^ 32 := by
    rw [← toWord_cast, ← tagWord, ← h.eq_tagWord]
  rw [heq]
  split_ifs <;> omega

/-- The order of the words is the order of the integers on one side of zero
only; across it, all is the other way round. -/
theorem tagged_lt_iff {x y : Nat} (hx : IsTaggedInt x) (hy : IsTaggedInt y) :
    (x < y ↔ taggedValue x < taggedValue y) ↔ SameSign x y := by
  have hbx := taggedValue_bounds x
  have hby := taggedValue_bounds y
  have hcx := hx.cast_eq
  have hcy := hy.cast_eq
  unfold SameSign
  split_ifs at hcx hcy <;> omega

theorem sameSign_comm {x y : Nat} : SameSign x y ↔ SameSign y x := iff_comm

theorem tagged_le_iff {x y : Nat} (hx : IsTaggedInt x) (hy : IsTaggedInt y) :
    (x ≤ y ↔ taggedValue x ≤ taggedValue y) ↔ SameSign x y := by
  rw [← not_lt, ← not_lt, not_iff_not, tagged_lt_iff hy hx, sameSign_comm]

/-- An instruction of the family: what it does, which order it is for, and
the words it selects from. -/
structure OrderInsn where
  run : Machine → Machine
  order : Int → Int → Bool
  yes : Machine → Nat
  no : Machine → Nat

/-- The instructions that compare integers by their order. -/
def orderInsns : List OrderInsn := [
  ⟨tCmplt, fun a b => a < b, fun _ => taggedTrue, fun _ => taggedFalse⟩,
  ⟨tCmple, fun a b => a ≤ b, fun _ => taggedTrue, fun _ => taggedFalse⟩,
  ⟨tCmpgt, fun a b => a > b, fun _ => taggedTrue, fun _ => taggedFalse⟩,
  ⟨tCmpge, fun a b => a ≥ b, fun _ => taggedTrue, fun _ => taggedFalse⟩,
  ⟨tCondLePickPick, fun a b => a ≤ b, pickOperand 1, pickOperand 2⟩,
  ⟨tCondLtPickPick, fun a b => a < b, pickOperand 1, pickOperand 2⟩,
  ⟨tCondLeImmPick, fun a b => a ≤ b, immOperand 1, pickOperand 2⟩,
  ⟨tCondLtImmPick, fun a b => a < b, immOperand 1, pickOperand 2⟩,
  ⟨tCondLePickImm, fun a b => a ≤ b, pickOperand 1, immOperand 2⟩,
  ⟨tCondLtPickImm, fun a b => a < b, pickOperand 1, immOperand 2⟩,
  ⟨tCondLeImmImm, fun a b => a ≤ b, immOperand 1, immOperand 2⟩,
  ⟨tCondLtImmImm, fun a b => a < b, immOperand 1, immOperand 2⟩]

namespace OrderInsn

variable (i : OrderInsn) (s : Machine)

/-- The word to be selected when the integer on the stack stands in the order
to the integer `b`. -/
def select (a b : Int) : Nat := if i.order a b then i.yes s else i.no s

/-- The instruction decides by the signed order of the two integers. -/
def DecidesSigned : Prop := (i.run s).accu = i.select s (taggedValue s.top) (taggedValue s.accu)

/-- The instruction decides by the sign of the difference that `t_sub`
computes, unless that overflows. -/
def DecidesByDifference : Prop :=
  ∀ s', tSub s = some s' → taggedValue s'.accu = taggedValue s.top - taggedValue s.accu →
    (i.run s).accu = i.select s (taggedValue s'.accu) 0

/-- The comparison of words that stands for an order of integers. -/
structure Compares (i : OrderInsn) (cmp : Nat → Nat → Bool) : Prop where
  accu : ∀ s, (i.run s).accu = if cmp s.top s.accu then i.yes s else i.no s
  order : ∀ x y, IsTaggedInt x → IsTaggedInt y →
    (cmp x y = i.order (taggedValue x) (taggedValue y) ↔ SameSign x y)
  difference : ∀ a b, i.order a b = i.order (a - b) 0

theorem Compares.decidesSigned {i : OrderInsn} {cmp : Nat → Nat → Bool} (h : i.Compares cmp)
    {s : Machine} (htop : IsTaggedInt s.top) (haccu : IsTaggedInt s.accu) :
    i.DecidesSigned s ↔ SameSign s.top s.accu ∨ i.yes s = i.no s := by
  rw [← h.order _ _ htop haccu]
  unfold DecidesSigned select
  rw [h.accu s]
  cases cmp s.top s.accu <;> cases i.order (taggedValue s.top) (taggedValue s.accu) <;>
    simp [eq_comm]

/-- Where the signed order decides, so does the difference. -/
theorem Compares.decidesByDifference {i : OrderInsn} {cmp : Nat → Nat → Bool} (h : i.Compares cmp)
    {s : Machine} (hs : i.DecidesSigned s) : i.DecidesByDifference s := by
  intro s' _ hval
  rw [hs, hval]
  unfold select
  rw [h.difference]

section compares

variable (yes no : Machine → Nat) (size : Nat)

theorem compares_lt :
    Compares ⟨tSelect (fun x y => x < y) yes no size, fun a b => a < b, yes, no⟩
      fun x y => x < y where
  accu _ := rfl
  order x y hx hy := by simpa using tagged_lt_iff hx hy
  difference a b := by simp

theorem compares_le :
    Compares ⟨tSelect (fun x y => x ≤ y) yes no size, fun a b => a ≤ b, yes, no⟩
      fun x y => x ≤ y where
  accu _ := rfl
  order x y hx hy := by simpa using tagged_le_iff hx hy
  difference a b := by simp

theorem compares_gt :
    Compares ⟨tSelect (fun x y => x > y) yes no size, fun a b => a > b, yes, no⟩
      fun x y => x > y where
  accu _ := rfl
  order x y hx hy := by simpa [sameSign_comm] using tagged_lt_iff hy hx
  difference a b := by simp

theorem compares_ge :
    Compares ⟨tSelect (fun x y => x ≥ y) yes no size, fun a b => a ≥ b, yes, no⟩
      fun x y => x ≥ y where
  accu _ := rfl
  order x y hx hy := by simpa [sameSign_comm] using tagged_le_iff hy hx
  difference a b := by simp

end compares

theorem exists_compares {i : OrderInsn} (hi : i ∈ orderInsns) : ∃ cmp, i.Compares cmp := by
  simp only [orderInsns, List.mem_cons, List.not_mem_nil, or_false] at hi
  rcases hi with rfl | rfl | rfl | rfl | rfl | rfl | rfl | rfl | rfl | rfl | rfl | rfl
  · exact ⟨_, compares_lt _ _ 1⟩
  · exact ⟨_, compares_le _ _ 1⟩
  · exact ⟨_, compares_gt _ _ 1⟩
  · exact ⟨_, compares_ge _ _ 1⟩
  · exact ⟨_, compares_le _ _ 3⟩
  · exact ⟨_, compares_lt _ _ 3⟩
  · exact ⟨_, compares_le _ _ 3⟩
  · exact ⟨_, compares_lt _ _ 3⟩
  · exact ⟨_, compares_le _ _ 3⟩
  · exact ⟨_, compares_lt _ _ 3⟩
  · exact ⟨_, compares_le _ _ 3⟩
  · exact ⟨_, compares_lt _ _ 3⟩

end OrderInsn

/-- The ordering instructions decide by the signed order, and as the sign of
the difference, exactly when the operands are on the same side of zero or
there is nothing to decide. -/
theorem tagged_order {i : OrderInsn} (hi : i ∈ orderInsns) {s : Machine} (htop : IsTaggedInt s.top)
    (haccu : IsTaggedInt s.accu) :
    (i.DecidesSigned s ∧ i.DecidesByDifference s) ↔
      SameSign s.top s.accu ∨ i.yes s = i.no s := by
  obtain ⟨cmp, h⟩ := OrderInsn.exists_compares hi
  rw [← h.decidesSigned htop haccu]
  exact ⟨And.left, fun hs => ⟨hs, h.decidesByDifference hs⟩⟩

/-- `-1 < 1`, but `t_cmplt` says that it is not. -/
theorem tagged_order_negative :
    let s : Machine := ⟨smallMemory [(9, tagWord (-1))], 0, 20, 10, tagWord 1⟩
    ¬ ∀ i ∈ orderInsns, IsTaggedInt s.top → IsTaggedInt s.accu →
      i.DecidesSigned s ∧ i.DecidesByDifference s := by
  intro s h
  have hlt := (h _ List.mem_cons_self (by decide) (by decide)).1
  revert hlt
  unfold OrderInsn.DecidesSigned
  decide

/-- `-2 < -1` and `1 < 2` are decided right. -/
theorem tagged_order_same_sign :
    (OrderInsn.mk tCmplt (fun a b => a < b) (fun _ => taggedTrue) fun _ => taggedFalse).DecidesSigned
      ⟨smallMemory [(9, tagWord (-2))], 0, 20, 10, tagWord (-1)⟩ :=
  ((tagged_order List.mem_cons_self (by decide) (by decide)).mpr (.inl (by decide))).1

/-! ## shifts -/

/-- A shift to the left takes the tag along. -/
theorem tLshiftImm_eq {s : Machine} (haccu : IsTaggedInt s.accu) : tLshiftImm s =
    some { s with accu := lshift32 s.accu (s.imm 1), pc := s.pc + 2 } := by
  unfold tLshiftImm
  rw [assert_true haccu.tag]
  rfl

theorem tRshiftImm_eq {s : Machine} (haccu : IsTaggedInt s.accu) : tRshiftImm s =
    some { s with accu := s.accu >>> s.imm 1, pc := s.pc + 2 } := by
  unfold tRshiftImm
  rw [assert_true haccu.tag]
  rfl

theorem IsTaggedInt.represents {w : Nat} (h : IsTaggedInt w) : Represents w (taggedValue w) :=
  represents_iff.mpr h.eq_tagWord

theorem lshift32_represents {w n : Nat} (h : IsTaggedInt w) :
    Represents (lshift32 w n) (taggedValue w * 2 ^ n) ↔ n = 0 := by
  have hmod := h.mod_four
  have hlt := h.lt
  constructor
  · intro hrep
    by_contra hn
    -- The tag bit has left the lowest place.
    obtain ⟨m, rfl⟩ := Nat.exists_eq_add_one_of_ne_zero hn
    have heven : lshift32 w (m + 1) % 2 = 0 := by
      rw [lshift32_eq, pow_succ, ← Nat.mul_assoc]
      omega
    have htag := hrep.1.mod_four
    omega
  · rintro rfl
    have hword : lshift32 w 0 = w := by
      rw [lshift32_eq, pow_zero, Nat.mul_one, Nat.mod_eq_of_lt hlt]
    rw [hword, pow_zero, Int.mul_one]
    exact h.represents

/-- The integers whose upper bits happen to look like a tagged word. -/
def TagAfterShift (i : Int) (n : Nat) : Prop := 2 ≤ n ∧ 0 ≤ i ∧ i / 2 ^ (n - 2) % 4 = 1

/-- A word without bits in its upper end stands for a nonnegative integer. -/
theorem represents_of_lt {w : Nat} {i : Int} (hw : w < 2 ^ 30) (hlow : -2 ^ 29 ≤ i)
    (hhigh : i < 2 ^ 29) : Represents w i ↔ w % 4 = 1 ∧ ((w / 4 : Nat) : Int) = i := by
  have hvalue : taggedValue w = (w / 4 : Nat) := by
    unfold taggedValue
    exact Int.bmod_eq_of_le (by omega) (by omega)
  have hmod : Int.bmod i (2 ^ 30) = i := Int.bmod_eq_of_le (by omega) (by omega)
  unfold Represents
  rw [hvalue, hmod]
  exact and_congr_left' ⟨IsTaggedInt.mod_four, .of_mod_four (by omega)⟩

theorem rshift_represents {w n : Nat} (h : IsTaggedInt w) :
    Represents (w >>> n) (taggedValue w / 2 ^ n) ↔ n = 0 ∨ TagAfterShift (taggedValue w) n := by
  have hmod := h.mod_four
  have hlt := h.lt
  rw [Nat.shiftRight_eq_div_pow]
  match n with
  | 0 => simpa using h.represents
  | 1 =>
    -- One bit of the tag is left, and it is zero.
    have hodd : ¬ Represents (w / 2 ^ 1) (taggedValue w / 2 ^ 1) := by
      intro hrep
      have htag := hrep.1.mod_four
      omega
    constructor
    · exact fun hrep => absurd hrep hodd
    · rintro (h0 | ⟨htwo, -⟩) <;> omega
  | n + 2 =>
    have hquot : w / 2 ^ (n + 2) = w / 4 / 2 ^ n := by
      rw [Nat.div_div_eq_div_mul, Nat.pow_add, Nat.mul_comm]
    have hvalue : taggedValue w / 2 ^ (n + 2) = taggedValue w / 2 ^ n / 4 := by
      rw [Int.ediv_ediv_of_nonneg (by positivity), pow_add]
      rfl
    have hsmall : w / 4 / 2 ^ n ≤ w / 4 := Nat.div_le_self _ _
    have hbounds := taggedValue_bounds w
    have hcast := h.cast_eq
    unfold TagAfterShift
    rw [hquot, hvalue, Nat.add_sub_cancel]
    rcases lt_or_ge (taggedValue w) 0 with hneg | hnonneg
    · -- The shift fills in zeros, so a negative integer becomes nonnegative.
      have hlow : taggedValue w / 2 ^ n < 0 := Int.ediv_neg_of_neg_of_pos hneg (by positivity)
      have hge : taggedValue w ≤ taggedValue w / 2 ^ n := by
        rw [Int.le_ediv_iff_mul_le (by positivity)]
        have hpow : (0 : Int) < 2 ^ n := by positivity
        nlinarith
      rw [represents_of_lt (by omega) (by omega) (by omega)]
      generalize w / 4 / 2 ^ n = quotient
      omega
    · have hquotient : taggedValue w / 2 ^ n = (w / 4 / 2 ^ n : Nat) := by
        rw [if_neg (by omega)] at hcast
        have heq : taggedValue w = (w / 4 : Nat) := by omega
        rw [heq]
        push_cast
        rfl
      rw [hquotient]
      generalize w / 4 / 2 ^ n = quotient at hsmall
      rw [represents_of_lt (by omega) (by omega) (by omega)]
      omega

/-- `t_lshift_imm` leaves the tagged word of the shifted integer, modulo
`2 ^ 30`. -/
def LshiftRight (s : Machine) : Prop :=
  ∃ s', tLshiftImm s = some s' ∧ Represents s'.accu (taggedValue s.accu * 2 ^ s.imm 1)

/-- `t_rshift_imm` leaves the tagged word of the shifted integer. -/
def RshiftRight (s : Machine) : Prop :=
  ∃ s', tRshiftImm s = some s' ∧ Represents s'.accu (taggedValue s.accu / 2 ^ s.imm 1)

/-- The shifts leave tagged words by chance only. -/
theorem tagged_shift {s : Machine} (haccu : IsTaggedInt s.accu) (_ : s.imm 1 < 30) :
    (LshiftRight s ↔ s.imm 1 = 0) ∧
      (RshiftRight s ↔ s.imm 1 = 0 ∨ TagAfterShift (taggedValue s.accu) (s.imm 1)) := by
  constructor
  · rw [← lshift32_represents haccu, LshiftRight, tLshiftImm_eq haccu]
    simp
  · rw [← rshift_represents haccu, RshiftRight, tRshiftImm_eq haccu]
    simp

/-- `1 << 1` leaves the word `10`, whose tag is that of an OID. -/
theorem tagged_shift_one :
    let s : Machine := ⟨smallMemory [(21, 1)], 0, 20, 10, tagWord 1⟩
    ¬ (IsTaggedInt s.accu → s.imm 1 < 30 → LshiftRight s ∧ RshiftRight s) := by
  intro s h
  obtain ⟨⟨s', hs', htag, -⟩, -⟩ := h (by decide) (by decide)
  rw [tLshiftImm_eq (by decide)] at hs'
  cases hs'
  exact absurd htag (by decide)

/-- `1 >> 2` leaves the tagged word of `0`. -/
theorem tagged_shift_two : RshiftRight ⟨smallMemory [(21, 2)], 0, 20, 10, tagWord 1⟩ :=
  (tagged_shift (by decide) (by decide)).2.mpr (.inr (by unfold TagAfterShift; decide))

end Shades
