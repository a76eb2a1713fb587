import Mathlib.Data.Nat.Basic
import Mathlib.Tactic.Ring
import Xv6Editor.CMem.Bytes

/-!
# Little-endian numbers

`toLE w n` is the number `n` in `w` bytes, the lowest first, as the machine keeps it in memory,
and `ofLE bs` is the number that the bytes `bs` hold.  `slice m off w` are the `w` bytes of a region
from `off` on, `numAt w m off` is the number in them.

`Block.put` overwrites bytes of a block.  A block can be read as an array of numbers of 32 bits
(`Block.word`, `Block.setWord`).
-/

namespace Xv6Editor

/-- The lowest `w` bytes of `n`, the lowest first. -/
def toLE : ℕ → ℕ → List UInt8
  | 0, _ => []
  | w + 1, n => UInt8.ofNat n :: toLE w (n / 256)

/-- The number that the bytes hold. -/
def ofLE : List UInt8 → ℕ
  | [] => 0
  | b :: bs => b.toNat + 256 * ofLE bs

@[simp] theorem length_toLE (w n : ℕ) : (toLE w n).length = w := by
  induction w generalizing n with
  | zero => rfl
  | succ w ih => rw [toLE, List.length_cons, ih]

theorem ofLE_toLE (w n : ℕ) : ofLE (toLE w n) = n % 256 ^ w := by
  induction w generalizing n with
  | zero => rw [pow_zero, Nat.mod_one]; rfl
  | succ w ih =>
    have hb : (UInt8.ofNat n).toNat = n % 256 := by simp
    rw [toLE, ofLE, ih, hb, pow_succ', Nat.mod_mul]

theorem ofLE_toLE_of_lt {w n : ℕ} (h : n < 256 ^ w) : ofLE (toLE w n) = n := by
  rw [ofLE_toLE, Nat.mod_eq_of_lt h]

theorem toLE_ofLE (bs : List UInt8) : toLE bs.length (ofLE bs) = bs := by
  induction bs with
  | nil => rfl
  | cons b bs ih =>
    have hb := b.toNat_lt
    have hlow : UInt8.ofNat (b.toNat + 256 * ofLE bs) = b := by
      rw [← UInt8.toNat_inj, UInt8.toNat_ofNat']
      omega
    have hhigh : (b.toNat + 256 * ofLE bs) / 256 = ofLE bs := by omega
    rw [List.length_cons, ofLE, toLE, hlow, hhigh, ih]

theorem ofLE_lt (bs : List UInt8) : ofLE bs < 256 ^ bs.length := by
  induction bs with
  | nil => exact Nat.one_pos
  | cons b bs ih =>
    have hb := b.toNat_lt
    rw [List.length_cons, pow_succ', ofLE]
    omega

/-! ### Numbers in a region -/

/-- The `w` bytes from offset `off` on. -/
def slice (m : List UInt8) (off w : ℕ) : List UInt8 := (m.drop off).take w

/-- The number in the `w` bytes from offset `off` on. -/
def numAt (w : ℕ) (m : List UInt8) (off : ℕ) : ℕ := ofLE (slice m off w)

theorem getElem?_slice (m : List UInt8) (off w x : ℕ) :
    (slice m off w)[x]? = if x < w then m[off + x]? else none := by
  rw [slice, List.getElem?_take, List.getElem?_drop]

theorem getElem?_poke {m d : List UInt8} {off : ℕ} (h : off ≤ m.length) (x : ℕ) :
    (poke m off d)[x]? = if off ≤ x ∧ x < off + d.length then d[x - off]? else m[x]? := by
  have hlen : (m.take off).length = off := List.length_take_of_le h
  rw [poke, List.append_assoc, List.getElem?_append, hlen]
  split_ifs with h₁ h₂ h₃
  · omega
  · exact List.getElem?_take_of_lt h₁
  · rw [List.getElem?_append_left (by omega)]
  · rw [List.getElem?_append_right (by omega), List.getElem?_drop]
    congr 1
    omega

theorem slice_poke_self {m d : List UInt8} {off : ℕ} (h : off ≤ m.length) :
    slice (poke m off d) off d.length = d := by
  refine List.ext_getElem? fun x => ?_
  rw [getElem?_slice, getElem?_poke h]
  split_ifs with h₁ h₂
  · rw [Nat.add_sub_cancel_left]
  · omega
  · rw [List.getElem?_eq_none (by omega)]

theorem slice_poke_of_disjoint {m d : List UInt8} {off off' w : ℕ} (h : off ≤ m.length)
    (hd : off' + w ≤ off ∨ off + d.length ≤ off') :
    slice (poke m off d) off' w = slice m off' w := by
  refine List.ext_getElem? fun x => ?_
  rw [getElem?_slice, getElem?_slice, getElem?_poke h]
  split_ifs with h₁ h₂
  · omega
  · rfl
  · rfl

/-- A part of what was written. -/
theorem slice_poke_inside {m d : List UInt8} {off k w : ℕ} (h : off ≤ m.length)
    (hk : k + w ≤ d.length) : slice (poke m off d) (off + k) w = slice d k w := by
  refine List.ext_getElem? fun x => ?_
  rw [getElem?_slice, getElem?_slice, getElem?_poke h]
  split_ifs with h₁ h₂
  · congr 1
    omega
  · omega
  · rfl

theorem slice_append_right (a b : List UInt8) (k w : ℕ) :
    slice (a ++ b) (a.length + k) w = slice b k w := by
  rw [slice, slice, List.drop_append, List.drop_of_length_le (Nat.le_add_right _ _),
    List.nil_append, Nat.add_sub_cancel_left]

theorem numAt_append_right {a b : List UInt8} {n k w : ℕ} (h : a.length = n) :
    numAt w (a ++ b) (n + k) = numAt w b k := by
  rw [numAt, ← h, slice_append_right, numAt]

theorem numAt_toLE_append {w x : ℕ} (hx : x < 256 ^ w) (b : List UInt8) :
    numAt w (toLE w x ++ b) 0 = x := by
  rw [numAt, slice, List.drop_zero, List.take_left' (length_toLE w x), ofLE_toLE_of_lt hx]

/-- The bytes of an array of numbers of 32 bits. -/
def words (xs : List ℕ) : List UInt8 := xs.flatMap (toLE 4)

theorem length_words (xs : List ℕ) : (words xs).length = 4 * xs.length := by
  induction xs with
  | nil => rfl
  | cons x xs ih =>
    rw [words, List.flatMap_cons, List.length_append, length_toLE, List.length_cons]
    rw [words] at ih
    omega

theorem numAt_words {xs : List ℕ} (hx : ∀ x ∈ xs, x < 2 ^ 32) {k : ℕ} (hk : k < xs.length) :
    numAt 4 (words xs) (4 * k) = xs.get ⟨k, hk⟩ := by
  induction xs generalizing k with
  | nil => exact absurd hk (Nat.not_lt_zero k)
  | cons x xs ih =>
    rw [List.forall_mem_cons] at hx
    rw [words, List.flatMap_cons]
    cases k with
    | zero => exact numAt_toLE_append hx.1 _
    | succ k =>
      rw [Nat.mul_succ, Nat.add_comm, numAt_append_right (length_toLE 4 x)]
      exact ih hx.2 (Nat.lt_of_succ_lt_succ hk)

theorem numAt_lt (w : ℕ) (m : List UInt8) (off : ℕ) : numAt w m off < 256 ^ w := by
  refine (ofLE_lt _).trans_le (Nat.pow_le_pow_right (by decide) ?_)
  rw [slice, List.length_take]
  exact Nat.min_le_left _ _

theorem ofLE_zeros (k : ℕ) : ofLE (List.replicate k 0) = 0 := by
  induction k with
  | zero => rfl
  | succ k ih => simp [List.replicate_succ, ofLE, ih]

/-! ### Blocks -/

namespace Block

variable {n : ℕ}

/-- Overwrite the bytes from `off` on with `d`, which have to stay inside the block. -/
def put (b : Block n) (off : ℕ) (d : List UInt8) : Block n :=
  if h : off + d.length ≤ n then
    ⟨poke b.bytes off d, by rw [length_poke] <;> simp [length_bytes, h]⟩
  else b

theorem bytes_put {off : ℕ} {d : List UInt8} (b : Block n) (h : off + d.length ≤ n) :
    (b.put off d).bytes = poke b.bytes off d := by
  rw [put, dif_pos h]

/-- The byte at an offset. -/
def byte (b : Block n) (x : ℕ) : UInt8 := b.bytes.getD x 0

theorem byte_put {off : ℕ} {d : List UInt8} (b : Block n) (h : off + d.length ≤ n) (x : ℕ) :
    (b.put off d).byte x =
      if off ≤ x ∧ x < off + d.length then d.getD (x - off) 0 else b.byte x := by
  have hoff : off ≤ b.bytes.length := by
    rw [b.length_bytes]
    omega
  rw [byte, bytes_put b h, List.getD_eq_getElem?_getD, getElem?_poke hoff]
  split_ifs with hx
  · rw [List.getD_eq_getElem?_getD]
  · rw [byte, List.getD_eq_getElem?_getD]

theorem byte_zero (x : ℕ) : (zero n).byte x = 0 := by
  rw [byte, zero, List.getD_eq_getElem?_getD, List.getElem?_replicate]
  split_ifs <;> rfl

/-- The number in the `i`-th four bytes. -/
def word (b : Block n) (i : ℕ) : ℕ := numAt 4 b.bytes (4 * i)

/-- Put a number into the `i`-th four bytes. -/
def setWord (b : Block n) (i x : ℕ) : Block n := b.put (4 * i) (toLE 4 x)

theorem word_lt (b : Block n) (i : ℕ) : b.word i < 2 ^ 32 := numAt_lt 4 b.bytes (4 * i)

theorem word_zero (i : ℕ) : (zero n).word i = 0 := by
  rw [word, numAt, slice, zero, List.drop_replicate, List.take_replicate, ofLE_zeros]

theorem word_setWord (b : Block n) {i x : ℕ} (hi : 4 * i + 4 ≤ n) (hx : x < 2 ^ 32) (j : ℕ) :
    (b.setWord i x).word j = if j = i then x else b.word j := by
  have hoff : 4 * i ≤ b.bytes.length := by
    rw [b.length_bytes]
    omega
  have hput : (b.setWord i x).bytes = poke b.bytes (4 * i) (toLE 4 x) := bytes_put b (by simpa)
  rw [word, word, numAt, numAt, hput]
  split_ifs with h
  · have hs : slice (poke b.bytes (4 * i) (toLE 4 x)) (4 * i) 4 = toLE 4 x := by
      simpa using slice_poke_self (d := toLE 4 x) hoff
    rw [h, hs, ofLE_toLE_of_lt hx]
  · rw [slice_poke_of_disjoint hoff]
    rw [length_toLE]
    omega

end Block

end Xv6Editor
