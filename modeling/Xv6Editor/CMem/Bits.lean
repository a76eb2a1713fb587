import Xv6Editor.CMem.Words

/-!
# Bits in a block

A block as an array of bits: the `i`-th bit is the bit `i % 8` of the byte `i / 8`.
`Block.setBit` and `Block.clearBit` change one of them, as C code does with the operators `|=` and
`&= ~`.
-/

namespace Xv6Editor

/-- The byte in which only the bit `i % 8` is set. -/
def mask (i : ℕ) : UInt8 := 1 <<< UInt8.ofNat (i % 8)

theorem mask_ne_zero (i : ℕ) : mask i ≠ 0 := by
  have h : ∀ k < 8, (1 : UInt8) <<< UInt8.ofNat k ≠ 0 := by decide
  exact h _ (Nat.mod_lt i (by decide))

theorem mask_and_mask {i j : ℕ} (hij : i % 8 ≠ j % 8) : mask i &&& mask j = 0 := by
  have h : ∀ k < 8, ∀ l < 8, k ≠ l →
      (1 : UInt8) <<< UInt8.ofNat k &&& (1 : UInt8) <<< UInt8.ofNat l = 0 := by decide
  exact h _ (Nat.mod_lt i (by decide)) _ (Nat.mod_lt j (by decide)) hij

theorem or_and_mask (x : UInt8) (i j : ℕ) :
    (x ||| mask i) &&& mask j = if i % 8 = j % 8 then mask j else x &&& mask j := by
  refine UInt8.eq_of_toBitVec_eq (BitVec.eq_of_getLsbD_eq fun k hk => ?_)
  split_ifs with h
  · rw [show mask i = mask j by rw [mask, mask, h]]
    generalize mask j = m
    simp
    grind
  · have := congrArg (fun y : UInt8 => y.toBitVec.getLsbD k) (mask_and_mask h)
    simp at this ⊢
    grind

theorem and_not_and_mask (x : UInt8) (i j : ℕ) :
    x &&& ~~~mask i &&& mask j = if i % 8 = j % 8 then 0 else x &&& mask j := by
  refine UInt8.eq_of_toBitVec_eq (BitVec.eq_of_getLsbD_eq fun k hk => ?_)
  split_ifs with h
  · rw [show mask i = mask j by rw [mask, mask, h]]
    generalize mask j = m
    simp
  · have := congrArg (fun y : UInt8 => y.toBitVec.getLsbD k) (mask_and_mask h)
    simp at this ⊢
    grind

namespace Block

variable {n : ℕ}

/-- The `i`-th bit of a block. -/
def bit (b : Block n) (i : ℕ) : Bool := b.byte (i / 8) &&& mask i != 0

/-- Set the `i`-th bit. -/
def setBit (b : Block n) (i : ℕ) : Block n := b.put (i / 8) [b.byte (i / 8) ||| mask i]

/-- Clear the `i`-th bit. -/
def clearBit (b : Block n) (i : ℕ) : Block n := b.put (i / 8) [b.byte (i / 8) &&& ~~~mask i]

theorem byte_putByte (b : Block n) {k : ℕ} (hk : k < n) (x : UInt8) (j : ℕ) :
    (b.put k [x]).byte j = if j = k then x else b.byte j := by
  rw [byte_put b hk]
  by_cases h : j = k
  · simp [h]
  · rw [if_neg (by simp; omega), if_neg h]

theorem bit_setBit (b : Block n) {i : ℕ} (hi : i < 8 * n) (j : ℕ) :
    (b.setBit i).bit j = (j == i || b.bit j) := by
  rw [bit, setBit, byte_putByte b (by omega)]
  by_cases hb : j / 8 = i / 8
  · rw [if_pos hb, or_and_mask]
    by_cases hm : i % 8 = j % 8
    · have hij : j = i := by omega
      simp [hij, mask_ne_zero]
    · have hij : j ≠ i := fun h => hm (by rw [h])
      rw [if_neg hm, ← hb, bit]
      simp [hij]
  · have hij : j ≠ i := fun h => hb (by rw [h])
    rw [if_neg hb, bit]
    simp [hij]

theorem bit_clearBit (b : Block n) {i : ℕ} (hi : i < 8 * n) (j : ℕ) :
    (b.clearBit i).bit j = (j != i && b.bit j) := by
  rw [bit, clearBit, byte_putByte b (by omega)]
  by_cases hb : j / 8 = i / 8
  · rw [if_pos hb, and_not_and_mask]
    by_cases hm : i % 8 = j % 8
    · have hij : j = i := by omega
      simp [hij]
    · have hij : j ≠ i := fun h => hm (by rw [h])
      rw [if_neg hm, ← hb, bit]
      simp [hij]
  · have hij : j ≠ i := fun h => hb (by rw [h])
    rw [if_neg hb, bit]
    simp [hij]

theorem bit_zero (i : ℕ) : (zero n).bit i = false := by
  simp [bit, byte_zero]

end Block

end Xv6Editor
