import Xv6Editor.CMem.Trace
import Xv6Editor.Editor.Main

/-!
# Numerals

`number2string` writes a line number into an undo record, `stringtonumber` reads it back, and for a
`mod` both `stringtonumber` and `atoi` read the number on the command line.  The loops of the first
two are written a second time with a note of every value that they compute; `digitsRvsNoted_result`
and `stringtonumberNoted_result` say that they compute the same.

* `number2string_reads_back` : the numeral is the decimal one, it is read back as the number, and
  nothing overflows on the way.
* `atoi_agrees` : the two readers agree on every string that the first one accepts.
-/

namespace Xv6Editor

variable {fuel n m : ℕ} {num number : ℤ} {c : UInt8} {d s t : List UInt8}

/-! ### Writing -/

theorem toUInt8_digitChar : ∀ d < 10, (Nat.digitChar d).toUInt8 = digitChar d := by decide

/-- The digit loop writes the decimal numeral, from its end. -/
theorem reverse_digitsRvs (h : n < 10 ^ (fuel + 1)) :
    (digitsRvs (fuel + 1) n).reverse = (Nat.toDigits 10 n).map Char.toUInt8 := by
  induction fuel generalizing n with
  | zero =>
    have h10 : n < 10 := by simpa using h
    rw [digitsRvs_succ, if_neg (by omega), Nat.toDigits_eq_if (by decide), if_pos h10,
      Nat.mod_eq_of_lt h10, List.map_singleton, toUInt8_digitChar n h10]
    rfl
  | succ fuel ih =>
    rw [digitsRvs_succ, List.reverse_cons, Nat.toDigits_eq_if (by decide)]
    by_cases h10 : n < 10
    · rw [if_neg (by omega), if_pos h10, Nat.mod_eq_of_lt h10, List.map_singleton,
        toUInt8_digitChar n h10]
      rfl
    · rw [pow_succ] at h
      rw [if_pos (by omega), if_neg h10, ih (by omega), List.map_append, List.map_singleton,
        toUInt8_digitChar (n % 10) (Nat.mod_lt _ (by decide))]

theorem number2string_eq (h : n < 2147483648) : number2string n = bytesOf (toString n) := by
  rw [number2string_natCast, reverse_digitsRvs (by omega), bytesOf, Nat.toString_eq_repr,
    Nat.toList_repr]

/-- The last digit of a numeral. -/
theorem number2string_concat (h : n < 2147483648) : number2string n =
    if n < 10 then [digitChar n] else number2string (n / 10 : ℕ) ++ [digitChar (n % 10)] := by
  rw [number2string_natCast, reverse_digitsRvs (by omega), Nat.toDigits_eq_if (by decide)]
  split_ifs with h10
  · rw [List.map_singleton, toUInt8_digitChar n h10]
  · rw [List.map_append, List.map_singleton, number2string_natCast, reverse_digitsRvs (by omega),
      toUInt8_digitChar (n % 10) (Nat.mod_lt _ (by decide))]

/-- A numeral with a leading zero is that of zero. -/
theorem number2string_leading_zero (h : n < 2147483648) (hs : number2string n = '0'.toUInt8 :: t) :
    n = 0 := by
  induction n using Nat.strong_induction_on generalizing t with
  | _ n ih =>
    rw [number2string_concat h] at hs
    split_ifs at hs with h10
    · have hd : ∀ d < 10, digitChar d = '0'.toUInt8 → d = 0 := by decide
      exact hd n h10 (List.cons.inj hs).1
    · -- the leading digit is that of `n / 10`
      have hne : number2string (n / 10 : ℕ) ≠ [] := by
        rw [number2string_concat (by omega)]
        split_ifs
        · exact List.cons_ne_nil _ _
        · exact List.concat_ne_nil _ _
      obtain ⟨a, r, har⟩ := List.exists_cons_of_ne_nil hne
      rw [har, List.cons_append] at hs
      have := ih (n / 10) (by omega) (by omega) (har.trans (by rw [(List.cons.inj hs).1]))
      omega

/-- Compute a value and note it. -/
def compute (v : ℤ) : Traced ℤ Empty ℤ := do
  Traced.note v
  pure v

@[simp] theorem compute_result (v : ℤ) : (compute v).result = .ok v := rfl

theorem notes_compute {α : Type} {P : ℤ → Prop} {f : ℤ → Traced ℤ Empty α} {v : ℤ} (hv : P v)
    (hf : (f v).Notes P) : (compute v >>= f).Notes P := by
  refine .bind (.bind (.note hv) fun _ _ => .pure v) fun a ha => ?_
  rw [compute_result, Except.ok.injEq] at ha
  exact ha ▸ hf

/-- The digit loop with notes. -/
def digitsRvsNoted : ℕ → ℤ → Traced ℤ Empty (List UInt8)
  | 0, _ => pure []
  | fuel + 1, num => do
    let d ← compute (num.tmod 10)
    let c ← compute (d + 48)
    let num ← compute (num.tdiv 10)
    if num > 0 then
      let rest ← digitsRvsNoted fuel num
      pure (UInt8.ofInt c :: rest)
    else pure [UInt8.ofInt c]

/-- The values computed by the digit loop: the digit, its character and the rest of the number. -/
def digitsRvsValues (fuel : ℕ) (num : ℤ) : List ℤ := (digitsRvsNoted fuel num).events

theorem digitsRvsNoted_result (fuel : ℕ) (num : ℤ) :
    (digitsRvsNoted fuel num).result = .ok (digitsRvs fuel num) := by
  induction fuel generalizing num with
  | zero => rfl
  | succ fuel ih =>
    rw [digitsRvsNoted, Traced.result_bind_ok (compute_result _),
      Traced.result_bind_ok (compute_result _), Traced.result_bind_ok (compute_result _),
      Traced.result_ite, Traced.result_bind_ok (ih _), digitsRvs]
    split_ifs <;> rfl

theorem digitsRvsNoted_notes (h0 : 0 ≤ num) (h : num < 2147483648) :
    (digitsRvsNoted fuel num).Notes fun v => 0 ≤ v ∧ v ≤ 2147483647 := by
  induction fuel generalizing num with
  | zero => exact .pure _
  | succ fuel ih =>
    rw [digitsRvsNoted, Int.tmod_eq_emod_of_nonneg h0, Int.tdiv_eq_ediv_of_nonneg h0]
    refine notes_compute (by omega) (notes_compute (by omega) (notes_compute (by omega) ?_))
    exact .ite (fun _ => .bind (ih (by omega) (by omega)) fun _ _ => .pure _) fun _ => .pure _

/-! ### Reading back -/

/-- The loop of `stringtonumber` with notes. -/
def stringtonumberNoted (number : ℤ) : List UInt8 → Traced ℤ Empty ℤ
  | [] => pure number
  | c :: src =>
    if c = ' '.toUInt8 then pure number
    else if schar c > 57 ∨ schar c < 48 then pure (-1)
    else do
      let ten ← compute (10 * number)
      let digit ← compute (schar c - 48)
      let sum ← compute (ten + digit)
      stringtonumberNoted (int32 sum) src

/-- The values computed by the loop of `stringtonumber`, before they are stored: the product, the
digit and their sum. -/
def stringtonumberValues (number : ℤ) (src : List UInt8) : List ℤ :=
  (stringtonumberNoted number src).events

theorem stringtonumberNoted_result (number : ℤ) (src : List UInt8) :
    (stringtonumberNoted number src).result = .ok (stringtonumberFrom number src) := by
  induction src generalizing number with
  | nil => rfl
  | cons c src ih =>
    rw [stringtonumberNoted, stringtonumberFrom]
    split_ifs
    · rfl
    · rfl
    · rw [Traced.result_bind_ok (compute_result _), Traced.result_bind_ok (compute_result _),
        Traced.result_bind_ok (compute_result _), ih]

theorem le_decimalFrom (m : ℕ) (d : List UInt8) : m ≤ decimalFrom m d := by
  induction d generalizing m with
  | nil => exact le_rfl
  | cons c d ih => exact le_trans (by omega) (ih (10 * m + (c.toNat - 48)))

/-- Reading digits, no value is larger than the number they make. -/
theorem stringtonumberNoted_notes (hd : ∀ c ∈ d, IsDigit c) (h : decimalFrom m d < 2147483648) :
    (stringtonumberNoted m (d ++ ' '.toUInt8 :: t)).Notes
      fun v : ℤ => 0 ≤ v ∧ v ≤ decimalFrom m d := by
  induction d generalizing m with
  | nil =>
    rw [List.nil_append, stringtonumberNoted, if_pos rfl]
    exact .pure _
  | cons c d ih =>
    have hc := hd c List.mem_cons_self
    have h1 := hc.1
    have h2 := hc.2
    have hr : ¬(schar c > 57 ∨ schar c < 48) := by
      rw [hc.schar_eq]
      omega
    have hle : 10 * m + (c.toNat - 48) ≤ decimalFrom m (c :: d) := le_decimalFrom _ d
    have hsum : 10 * (m : ℤ) + (schar c - 48) = ((10 * m + (c.toNat - 48) : ℕ) : ℤ) := by
      rw [hc.schar_eq]
      omega
    rw [List.cons_append, stringtonumberNoted, if_neg (hc.ne_of_lt (by decide)), if_neg hr]
    refine notes_compute (by omega) (notes_compute (by rw [hc.schar_eq]; omega) ?_)
    rw [hsum]
    refine notes_compute (by omega) ?_
    rw [int32_of_lt (by omega) (by omega)]
    exact ih (fun c hc => hd c (List.mem_cons_of_mem _ hc)) h

/-- A number below `2^31` is written as its decimal numeral, and with a space and anything else
behind it the numeral is read back as the number.  No value in between is larger than an `int`. -/
theorem number2string_reads_back (hn : n < 2 ^ 31) (t : List UInt8) :
    (number2string n = bytesOf (toString n) ∧
      ∀ r, number2string n = '0'.toUInt8 :: r → n = 0) ∧
    stringtonumber (number2string n ++ ' '.toUInt8 :: t) = n ∧
    (∀ v ∈ digitsRvsValues 20 n, 0 ≤ v ∧ v ≤ 2 ^ 31 - 1) ∧
    ∀ v ∈ stringtonumberValues 0 (number2string n ++ ' '.toUInt8 :: t), 0 ≤ v ∧ v ≤ 2 ^ 31 - 1 := by
  have hdec := decimal_number2string hn
  refine ⟨⟨number2string_eq hn, fun r hr => number2string_leading_zero hn hr⟩,
    stringtonumber_number2string hn t, digitsRvsNoted_notes (by omega) (by omega),
    fun v hv => ?_⟩
  have hle : decimalFrom 0 (number2string n) < 2147483648 := hdec.trans_lt hn
  obtain ⟨h0, hv⟩ :=
    stringtonumberNoted_notes (m := 0) (fun c hc => isDigit_of_mem_number2string hc) hle v hv
  exact ⟨h0, by omega⟩

theorem number2string_reads_back_max :
    stringtonumber (number2string 2147483647 ++ ' '.toUInt8 :: bytesOf "x") = 2147483647 :=
  (number2string_reads_back (n := 2147483647) (by decide) _).2.1

/-! ### The two readers -/

/-- While `stringtonumber` does not reject a character, `atoi` computes the same number. -/
theorem atoiFrom_eq (h : 0 ≤ stringtonumberFrom number s) :
    atoiFrom number s = stringtonumberFrom number s := by
  induction s generalizing number with
  | nil => rfl
  | cons c s ih =>
    rw [stringtonumberFrom] at h ⊢
    split_ifs at h ⊢ with hsp hr
    · -- at a space both stop
      rw [atoiFrom, hsp, if_neg (by decide)]
    · omega
    · rw [atoiFrom, if_pos (by omega), Int.add_sub_assoc, Int.mul_comm]
      exact ih h

/-- `atoi` and `stringtonumber` agree on every string that `stringtonumber` accepts, so a `mod` with
a line number is about the line that was checked. -/
theorem atoi_agrees (h : stringtonumber s ≥ 0) :
    atoi s = stringtonumber s ∧
    ∀ lineNumber input, hasOp "mod" input = true → input.getD 3 0 = '-'.toUInt8 →
      cstr (input.drop 4) = s → parse lineNumber input =
        .mod (stringtonumber s) (cstr (input.drop (findSpace 8 input))) := by
  have heq : atoi s = stringtonumber s := atoiFrom_eq h
  refine ⟨heq, fun lineNumber input hop hc hs => ?_⟩
  have hins : hasOp "ins" input = false := by
    rw [hasOp, decide_eq_true_eq] at hop
    rw [hasOp, hop]
    decide
  rw [parse]
  simp only [hins, hop, hc, hs, heq, h, and_self, if_true, Bool.false_eq_true, if_false]

theorem atoi_agrees_wrapped :
    stringtonumber (bytesOf "4294967297 x") ≥ 0 ∧ atoi (bytesOf "4294967297 x") = 1 :=
  ⟨by decide, (atoi_agrees (s := bytesOf "4294967297 x") (by decide)).1.trans (by decide)⟩

end Xv6Editor
