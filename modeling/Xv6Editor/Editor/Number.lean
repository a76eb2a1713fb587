import Mathlib.Data.Int.Basic
import Mathlib.Tactic.Ring
import Xv6Editor.CMem.Bytes

/-!
# Numbers in command lines and undo records

`stringtonumber` and `number2string` of `editor.c`, and `atoi` of xv6's `ulib.c`.  A `char` is a
signed byte (`schar`) and an `int` is a 32-bit two's complement number: the sums are taken in `ℤ`
and wrapped by `int32`.

* `stringtonumber_digits`, `atoi_digits` : the number is read modulo `2^32`.
* `stringtonumber_number2string` : a line number written into an undo record and followed by a
  space is read back unchanged.
-/

namespace Xv6Editor

/-- The value of an `int` computation, modulo `2^32`. -/
def int32 (x : ℤ) : ℤ := (x + 2147483648) % 4294967296 - 2147483648

/-- The value of a `char`. -/
def schar (c : UInt8) : ℤ := if c.toNat < 128 then c.toNat else c.toNat - 256

/-- The loop of `stringtonumber` from the current character on. -/
def stringtonumberFrom (number : ℤ) : List UInt8 → ℤ
  | [] => number
  | c :: src =>
    if c = ' '.toUInt8 then number
    else if schar c > 57 ∨ schar c < 48 then -1
    else stringtonumberFrom (int32 (10 * number + (schar c - 48))) src

/-- `stringtonumber(src)`, where `src` is the string up to its terminator. -/
def stringtonumber (src : List UInt8) : ℤ := stringtonumberFrom 0 src

/-- The loop of `atoi`. -/
def atoiFrom (n : ℤ) : List UInt8 → ℤ
  | [] => n
  | c :: s =>
    if 48 ≤ schar c ∧ schar c ≤ 57 then atoiFrom (int32 (n * 10 + schar c - 48)) s else n

/-- `atoi(s)`, where `s` is the string up to its terminator. -/
def atoi (s : List UInt8) : ℤ := atoiFrom 0 s

/-- The `do`-`while` loop of `number2string`: the digits of `num`, last one first.  `array_rvs`
has 20 bytes, more than an `int` has digits. -/
def digitsRvs : ℕ → ℤ → List UInt8
  | 0, _ => []
  | fuel + 1, num =>
    UInt8.ofInt (num.tmod 10 + 48) ::
      if num.tdiv 10 > 0 then digitsRvs fuel (num.tdiv 10) else []

/-- `number2string(num, array)`: the string left in `array`. -/
def number2string (num : ℤ) : List UInt8 :=
  let arrayRvs :=
    if num < 0 then digitsRvs 20 (int32 (-num)) ++ ['-'.toUInt8] else digitsRvs 20 num
  arrayRvs.reverse

theorem int32_of_lt {x : ℤ} (h0 : 0 ≤ x) (h : x < 2147483648) : int32 x = x := by
  unfold int32
  omega

/-- The character of a decimal digit. -/
def digitChar (d : ℕ) : UInt8 := UInt8.ofInt ((d : ℤ) + 48)

theorem digitChar_spec : ∀ d < 10,
    schar (digitChar d) = d + 48 ∧ digitChar d ≠ ' '.toUInt8 ∧ digitChar d ≠ 0 := by
  decide

theorem digitsRvs_succ (fuel n : ℕ) :
    digitsRvs (fuel + 1) n = digitChar (n % 10) ::
      if 0 < n / 10 then digitsRvs fuel ((n / 10 : ℕ) : ℤ) else [] := by
  have hm : (n : ℤ).tmod 10 = ((n % 10 : ℕ) : ℤ) := by
    rw [Int.tmod_eq_emod_of_nonneg (by omega)]
    omega
  have hd : (n : ℤ).tdiv 10 = ((n / 10 : ℕ) : ℤ) := by
    rw [Int.tdiv_eq_ediv_of_nonneg (by omega)]
    omega
  rw [digitsRvs, hm, hd]
  simp only [gt_iff_lt, Int.natCast_pos, digitChar]

/-- Every character the writer produces is a digit. -/
theorem mem_digitsRvs {fuel n : ℕ} {c : UInt8} (h : c ∈ digitsRvs fuel n) :
    ∃ d < 10, c = digitChar d := by
  induction fuel generalizing n with
  | zero => simp [digitsRvs] at h
  | succ fuel ih =>
    rw [digitsRvs_succ] at h
    rcases List.mem_cons.1 h with rfl | h
    · exact ⟨n % 10, by omega, rfl⟩
    · split_ifs at h
      · exact ih h
      · cases h

theorem number2string_natCast (n : ℕ) : number2string n = (digitsRvs 20 n).reverse := by
  simp [number2string]

/-- The number of bytes the editor needs for a line number. -/
theorem length_digitsRvs_le {fuel n k : ℕ} (h : n < 10 ^ k) (hk : 0 < k) :
    (digitsRvs fuel n).length ≤ k := by
  induction fuel generalizing n k with
  | zero => simp [digitsRvs]
  | succ fuel ih =>
    rw [digitsRvs_succ]
    split_ifs with hq
    · obtain ⟨k, rfl⟩ : ∃ j, k = j + 1 := ⟨k - 1, by omega⟩
      rw [pow_succ] at h
      have hk' : 0 < k := by
        rcases Nat.eq_zero_or_pos k with rfl | h'
        · simp at h; omega
        · exact h'
      have := ih (n := n / 10) (k := k) (by omega) hk'
      rw [List.length_cons]
      omega
    · simp only [List.length_cons, List.length_nil]
      omega

theorem number2string_ne_nil (n : ℕ) : number2string n ≠ [] := by
  rw [number2string_natCast, digitsRvs_succ]
  simp

theorem length_number2string_le {n k : ℕ} (h : n < 10 ^ k) (hk : 0 < k) :
    (number2string n).length ≤ k := by
  rw [number2string_natCast, List.length_reverse]
  exact length_digitsRvs_le h hk

theorem mem_number2string {n : ℕ} {c : UInt8} (h : c ∈ number2string n) :
    ∃ d < 10, c = digitChar d := by
  rw [number2string_natCast, List.mem_reverse] at h
  exact mem_digitsRvs h

theorem zero_notMem_number2string (n : ℕ) : 0 ∉ number2string n := by
  intro h
  obtain ⟨d, hd, h0⟩ := mem_number2string h
  exact (digitChar_spec d hd).2.2 h0.symm

theorem space_notMem_number2string (n : ℕ) : ' '.toUInt8 ∉ number2string n := by
  intro h
  obtain ⟨d, hd, h0⟩ := mem_number2string h
  exact (digitChar_spec d hd).2.1 h0.symm

/-! ### Digits of any number -/

/-- A decimal digit. -/
def IsDigit (c : UInt8) : Prop := 48 ≤ c.toNat ∧ c.toNat ≤ 57

instance (c : UInt8) : Decidable (IsDigit c) := inferInstanceAs (Decidable (_ ∧ _))

/-- The number written with the digits `d`, after the digits of `m`. -/
def decimalFrom (m : ℕ) (d : List UInt8) : ℕ := d.foldl (fun n c => 10 * n + (c.toNat - 48)) m

/-- The number written with the digits `d`. -/
def decimal (d : List UInt8) : ℕ := decimalFrom 0 d

variable {c : UInt8} {d : List UInt8}

theorem IsDigit.schar_eq (h : IsDigit c) : schar c = c.toNat :=
  if_pos (Nat.lt_of_le_of_lt h.2 (by decide))

theorem IsDigit.ne_of_lt {x : UInt8} (h : IsDigit c) (hx : x.toNat < 48) : c ≠ x := by
  rintro rfl
  exact absurd h.1 (Nat.not_le.2 hx)

/-- Wrapping in between makes no difference. -/
theorem int32_shift (x y : ℤ) : int32 (10 * int32 x + y) = int32 (10 * x + y) := by
  unfold int32
  omega

/-- `stringtonumber` computes the number modulo `2^32`. -/
theorem stringtonumberFrom_digits (hd : ∀ c ∈ d, IsDigit c) (m : ℕ) (t : List UInt8) :
    stringtonumberFrom (int32 m) (d ++ ' '.toUInt8 :: t) = int32 (decimalFrom m d) := by
  induction d generalizing m with
  | nil => rw [List.nil_append, stringtonumberFrom, if_pos rfl]; rfl
  | cons c d ih =>
    have hc := hd c List.mem_cons_self
    have h1 := hc.1
    have h2 := hc.2
    have hr : ¬(schar c > 57 ∨ schar c < 48) := by
      rw [hc.schar_eq]
      omega
    have hstep : int32 (10 * int32 m + (schar c - 48)) =
        int32 ((10 * m + (c.toNat - 48) : ℕ) : ℤ) := by
      rw [int32_shift, hc.schar_eq]
      congr 1
      omega
    rw [List.cons_append, stringtonumberFrom, if_neg (hc.ne_of_lt (by decide)), if_neg hr, hstep,
      ih (fun c hc => hd c (List.mem_cons_of_mem _ hc))]
    rfl

/-- So does `atoi`. -/
theorem atoiFrom_digits (hd : ∀ c ∈ d, IsDigit c) (m : ℕ) (t : List UInt8) :
    atoiFrom (int32 m) (d ++ ' '.toUInt8 :: t) = int32 (decimalFrom m d) := by
  induction d generalizing m with
  | nil => rw [List.nil_append, atoiFrom, if_neg (by decide)]; rfl
  | cons c d ih =>
    have hc := hd c List.mem_cons_self
    have h1 := hc.1
    have h2 := hc.2
    have hr : 48 ≤ schar c ∧ schar c ≤ 57 := by
      rw [hc.schar_eq]
      omega
    have hstep : int32 (int32 m * 10 + schar c - 48) =
        int32 ((10 * m + (c.toNat - 48) : ℕ) : ℤ) := by
      rw [Int.add_sub_assoc, Int.mul_comm, int32_shift, hc.schar_eq]
      congr 1
      omega
    rw [List.cons_append, atoiFrom, if_pos hr, hstep,
      ih (fun c hc => hd c (List.mem_cons_of_mem _ hc))]
    rfl

theorem stringtonumber_digits (hd : ∀ c ∈ d, IsDigit c) (t : List UInt8) :
    stringtonumber (d ++ ' '.toUInt8 :: t) = int32 (decimal d) :=
  stringtonumberFrom_digits hd 0 t

theorem atoi_digits (hd : ∀ c ∈ d, IsDigit c) (t : List UInt8) :
    atoi (d ++ ' '.toUInt8 :: t) = int32 (decimal d) :=
  atoiFrom_digits hd 0 t

/-- A number of `d.length` digits. -/
theorem decimalFrom_lt (hd : ∀ c ∈ d, IsDigit c) (m : ℕ) :
    decimalFrom m d < (m + 1) * 10 ^ d.length := by
  induction d generalizing m with
  | nil => simp [decimalFrom]
  | cons c d ih =>
    obtain ⟨h1, h2⟩ := hd c List.mem_cons_self
    have hm : 10 * m + (c.toNat - 48) + 1 ≤ (m + 1) * 10 := by omega
    calc decimalFrom m (c :: d) = decimalFrom (10 * m + (c.toNat - 48)) d := rfl
      _ < (10 * m + (c.toNat - 48) + 1) * 10 ^ d.length :=
        ih (fun c hc => hd c (List.mem_cons_of_mem _ hc)) _
      _ ≤ (m + 1) * 10 * 10 ^ d.length := Nat.mul_le_mul_right _ hm
      _ = (m + 1) * 10 ^ (c :: d).length := by rw [List.length_cons, pow_succ]; ring

theorem decimal_lt (hd : ∀ c ∈ d, IsDigit c) : decimal d < 10 ^ d.length := by
  have h := decimalFrom_lt hd 0
  rwa [Nat.zero_add, Nat.one_mul] at h

/-! ### Reading back -/

theorem isDigit_digitChar : ∀ d < 10, IsDigit (digitChar d) ∧ (digitChar d).toNat = d + 48 := by
  decide

theorem isDigit_of_mem_number2string {n : ℕ} (h : c ∈ number2string n) : IsDigit c := by
  obtain ⟨d, hd, rfl⟩ := mem_number2string h
  exact (isDigit_digitChar d hd).1

theorem decimal_concat (d : List UInt8) (c : UInt8) :
    decimal (d ++ [c]) = 10 * decimal d + (c.toNat - 48) := by
  rw [decimal, decimalFrom, List.foldl_append]
  rfl

/-- The digit loop writes the digits of the number, if it can go round often enough. -/
theorem decimal_digitsRvs {fuel n : ℕ} (h : n < 10 ^ (fuel + 1)) :
    decimal (digitsRvs (fuel + 1) n).reverse = n := by
  have hv := (isDigit_digitChar (n % 10) (Nat.mod_lt _ (by decide))).2
  rw [digitsRvs_succ, List.reverse_cons, decimal_concat, hv]
  split_ifs with hq
  · -- the digits before the last one
    cases fuel with
    | zero => omega
    | succ fuel =>
      rw [pow_succ] at h
      rw [decimal_digitsRvs (n := n / 10) (by omega)]
      omega
  · change 10 * 0 + _ = n
    omega

theorem decimal_number2string {n : ℕ} (h : n < 2147483648) : decimal (number2string n) = n := by
  rw [number2string_natCast]
  exact decimal_digitsRvs (by omega)

/-- A line number followed by a space and anything else is read back unchanged. -/
theorem stringtonumber_number2string {n : ℕ} (hn : n < 2147483648) (t : List UInt8) :
    stringtonumber (number2string n ++ ' '.toUInt8 :: t) = n := by
  rw [stringtonumber_digits (fun c hc => isDigit_of_mem_number2string hc),
    decimal_number2string hn, int32_of_lt (by omega) (by omega)]

end Xv6Editor
