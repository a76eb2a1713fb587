import Mathlib.Data.List.Basic
import Mathlib.Data.List.TakeWhile

/-!
# Byte regions and NUL-terminated strings

A *region* is a list of bytes: the memory behind one C array or one allocated block.  This file
is about regions in general; nothing in it depends on a particular program.

* `cstr m` is the C string that starts at the first byte of `m`; `m` is *terminated* when it
  holds a NUL at all (`0 ∈ m`), so that `strlen` stops inside it.
* `poke m off d` overwrites bytes in place.  A region never shrinks, and it keeps its length
  exactly when the write stays inside (`length_poke`), so an overrun is visible as growth.
* `strcpy m s` is the effect of the library function on the destination region.
* `Block n` is a region of exactly `n` bytes, with the length carried by the type.
-/

namespace Xv6Editor

/-- The C string at the start of a region: the bytes before the first NUL. -/
def cstr (m : List UInt8) : List UInt8 := m.takeWhile (· ≠ 0)

/-- Overwrite the bytes of `m` from offset `off` on with `d`. -/
def poke (m : List UInt8) (off : ℕ) (d : List UInt8) : List UInt8 :=
  m.take off ++ d ++ m.drop (off + d.length)

/-- `strcpy(m, s)`: the string and its terminator, over the start of the region. -/
def strcpy (m s : List UInt8) : List UInt8 := poke m 0 (s ++ [0])

/-- A string followed by zeros only, up to `n` bytes. -/
def pad (n : ℕ) (s : List UInt8) : List UInt8 := s ++ List.replicate (n - s.length) 0

theorem zero_notMem_cstr (m : List UInt8) : 0 ∉ cstr m := by
  intro h
  simpa using List.mem_takeWhile_imp h

theorem cstr_eq_self {s : List UInt8} (h : 0 ∉ s) : cstr s = s := by
  rw [cstr, List.takeWhile_eq_self_iff]
  intro a ha
  simpa using ne_of_mem_of_not_mem ha h

@[simp] theorem cstr_zero_cons (m : List UInt8) : cstr (0 :: m) = [] :=
  List.takeWhile_cons_of_neg (by simp)

theorem cstr_cons {c : UInt8} (h : c ≠ 0) (m : List UInt8) : cstr (c :: m) = c :: cstr m :=
  List.takeWhile_cons_of_pos (by simpa using h)

theorem cstr_append_zero (s t : List UInt8) : cstr (s ++ 0 :: t) = cstr s := by
  induction s with
  | nil => exact cstr_zero_cons t
  | cons a s ih =>
    by_cases ha : a = 0
    · rw [ha, List.cons_append, cstr_zero_cons, cstr_zero_cons]
    · rw [List.cons_append, cstr_cons ha, cstr_cons ha, ih]

theorem cstr_append {s : List UInt8} (t : List UInt8) (h : 0 ∉ s) :
    cstr (s ++ t) = s ++ cstr t := by
  have hs : ∀ a ∈ s, decide (a ≠ 0) = true := by
    intro a ha
    simpa using ne_of_mem_of_not_mem ha h
  rw [cstr, List.takeWhile_append_of_pos hs, cstr]

/-- A terminated region is its string, a NUL and a tail. -/
theorem exists_eq_cstr_append {m : List UInt8} (h : 0 ∈ m) : ∃ t, m = cstr m ++ 0 :: t := by
  induction m with
  | nil => simp at h
  | cons a m ih =>
    by_cases ha : a = 0
    · subst ha
      exact ⟨m, by rw [cstr_zero_cons]; rfl⟩
    · obtain ⟨t, ht⟩ := ih (by simpa [Ne.symm ha] using h)
      exact ⟨t, by rw [cstr_cons ha, List.cons_append, ← ht]⟩

theorem cstr_length_lt {m : List UInt8} (h : 0 ∈ m) : (cstr m).length < m.length := by
  obtain ⟨t, ht⟩ := exists_eq_cstr_append h
  have := congrArg List.length ht
  simp only [List.length_append, List.length_cons] at this
  omega

theorem cstr_sublist (m : List UInt8) : (cstr m).Sublist m := List.takeWhile_sublist _

/-- A write that stays inside the region keeps its length. -/
theorem length_poke {m d : List UInt8} {off : ℕ} (h : off + d.length ≤ m.length) :
    (poke m off d).length = m.length := by
  simp only [poke, List.length_append, List.length_take, List.length_drop]
  omega

theorem le_length_poke {m d : List UInt8} {off : ℕ} (h : off ≤ m.length) :
    off + d.length ≤ (poke m off d).length := by
  rw [poke, List.length_append, List.length_append, List.length_take_of_le h]
  omega

theorem poke_nil (m : List UInt8) (off : ℕ) : poke m off [] = m := by
  rw [poke, List.append_nil, List.length_nil, Nat.add_zero, List.take_append_drop]

/-- Two writes, the second where the first has ended, are one. -/
theorem poke_poke {m d e : List UInt8} {off : ℕ} (h : off ≤ m.length) :
    poke (poke m off d) (off + d.length) e = poke m off (d ++ e) := by
  have hlen : (m.take off ++ d).length = off + d.length := by
    rw [List.length_append, List.length_take_of_le h]
  rw [poke, poke, poke, List.take_left' hlen, List.drop_append, hlen,
    List.drop_of_length_le (by omega), List.nil_append, List.drop_drop, List.length_append,
    Nat.add_sub_cancel_left, ← List.append_assoc (m.take off), Nat.add_assoc]

/-- A write inside the first part of a region. -/
theorem poke_append {m d : List UInt8} {off : ℕ} (h : off + d.length ≤ m.length)
    (r : List UInt8) : poke (m ++ r) off d = poke m off d ++ r := by
  rw [poke, poke, List.take_append_of_le_length (by omega), List.drop_append_of_le_length h,
    List.append_assoc _ _ r]

theorem take_poke {m d : List UInt8} {off n : ℕ} (hd : off + d.length ≤ n) (hn : n ≤ m.length) :
    (poke m off d).take n = poke (m.take n) off d := by
  have hlen : off + d.length ≤ (m.take n).length := by rwa [List.length_take_of_le hn]
  have hsplit := poke_append hlen (m.drop n)
  rw [List.take_append_drop] at hsplit
  rw [hsplit]
  exact List.take_left' (by rw [length_poke hlen, List.length_take_of_le hn])

theorem strcpy_eq (m s : List UInt8) : strcpy m s = s ++ 0 :: m.drop (s.length + 1) := by
  simp [strcpy, poke]

theorem length_strcpy {m s : List UInt8} (h : s.length < m.length) :
    (strcpy m s).length = m.length :=
  length_poke (by simp; omega)

theorem zero_mem_strcpy (m s : List UInt8) : 0 ∈ strcpy m s := by simp [strcpy_eq]

@[simp] theorem cstr_strcpy (m : List UInt8) {s : List UInt8} (h : 0 ∉ s) :
    cstr (strcpy m s) = s := by
  rw [strcpy_eq, cstr_append_zero, cstr_eq_self h]

/-- Appending bytes and a NUL at the end of the string of a terminated region. -/
theorem cstr_poke_end {m : List UInt8} (d : List UInt8) (h : 0 ∈ m) :
    cstr (poke m (cstr m).length (d ++ [0])) = cstr m ++ cstr d := by
  obtain ⟨t, ht⟩ := exists_eq_cstr_append h
  have htake : m.take (cstr m).length = cstr m := by
    nth_rewrite 2 [ht]
    simp
  rw [poke, htake, List.append_assoc, cstr_append _ (zero_notMem_cstr m), List.append_assoc,
    List.singleton_append, cstr_append_zero]

theorem zero_mem_poke {m d : List UInt8} (off : ℕ) (h : 0 ∈ d) : 0 ∈ poke m off d := by
  simp [poke, h]

theorem length_pad {n : ℕ} {s : List UInt8} (h : s.length ≤ n) : (pad n s).length = n := by
  simp only [pad, List.length_append, List.length_replicate]
  omega

theorem cstr_pad_of_lt {n : ℕ} {s : List UInt8} (h : s.length < n) : cstr (pad n s) = cstr s := by
  obtain ⟨k, hk⟩ : ∃ k, n - s.length = k + 1 := ⟨n - s.length - 1, by omega⟩
  rw [pad, hk, List.replicate_succ, cstr_append_zero]

theorem cstr_pad {n : ℕ} {s : List UInt8} (hs : 0 ∉ s) (h : s.length < n) :
    cstr (pad n s) = s := by
  rw [cstr_pad_of_lt h, cstr_eq_self hs]

theorem strcpy_pad_nil {n : ℕ} {s : List UInt8} (h : s.length < n) :
    strcpy (pad n []) s = pad n s := by
  obtain ⟨k, hk⟩ : ∃ k, n - s.length = k + 1 := ⟨n - s.length - 1, by omega⟩
  have hd : n - (s.length + 1) = k := by omega
  rw [strcpy_eq]
  simp [pad, List.drop_replicate, hk, hd, List.replicate_succ]

/-- A region of exactly `n` bytes. -/
@[ext] structure Block (n : ℕ) where
  /-- The bytes. -/
  bytes : List UInt8
  /-- There are `n` of them. -/
  length_bytes : bytes.length = n

namespace Block

variable {n : ℕ}

/-- The block with the given bytes, if there are `n` of them. -/
def ofBytes (n : ℕ) (l : List UInt8) : Option (Block n) :=
  if h : l.length = n then some ⟨l, h⟩ else none

/-- `memset(b, 0, n)`. -/
def zero (n : ℕ) : Block n := ⟨List.replicate n 0, by simp⟩

/-- The C string in a block. -/
def str (b : Block n) : List UInt8 := cstr b.bytes

theorem ofBytes_of_length {l : List UInt8} (h : l.length = n) : ofBytes n l = some ⟨l, h⟩ :=
  dif_pos h

theorem bytes_of_ofBytes {l : List UInt8} {b : Block n} (h : ofBytes n l = some b) :
    b.bytes = l := by
  unfold ofBytes at h
  split_ifs at h
  cases h
  rfl

theorem bytes_zero : (zero n).bytes = pad n [] := by simp [zero, pad]

theorem zero_notMem_str (b : Block n) : 0 ∉ b.str := zero_notMem_cstr _

theorem length_str_lt {b : Block n} (h : 0 ∈ b.bytes) : b.str.length < n := by
  have := cstr_length_lt h
  rwa [b.length_bytes] at this

end Block

end Xv6Editor
