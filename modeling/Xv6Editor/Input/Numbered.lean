import Xv6Editor.Edit.Insert
import Xv6Editor.Edit.Delete
import Xv6Editor.Input.Lines
import Xv6Editor.Runs.Undo

/-!
# Numbered commands

A line `ins-d c`, `mod-d c` or `del-d c` with digits `d`.  The command loop reads the number modulo
`2^32`, and looks for the space before the content in the first eight bytes of the line only, so the
content is found if there are at most three digits.

* `NumOp.parse_line` : the command that is made of such a line.
* `numbered_iff` : when the line does what it says.
-/

namespace Xv6Editor

/-- The operations with a line number. -/
inductive NumOp
  | ins
  | mod
  | del
  deriving DecidableEq

namespace NumOp

/-- The operation as it is typed. -/
def word : NumOp → String
  | .ins => "ins"
  | .mod => "mod"
  | .del => "del"

/-- The line `op-d c`. -/
def line (op : NumOp) (d c : Line) : Line :=
  bytesOf op.word ++ '-'.toUInt8 :: (d ++ ' '.toUInt8 :: c)

def command : NumOp → ℤ → Line → Command
  | .ins, n, c => .ins n c
  | .mod, n, c => .mod n c
  | .del, n, _ => .del n

/-- The line numbers of the operation in a text of `k` lines. -/
def Valid (op : NumOp) (k : ℕ) (n : ℤ) : Prop :=
  match op with
  | .ins => 1 ≤ n ∧ n ≤ k + 1
  | .mod | .del => 1 ≤ n ∧ n ≤ k

/-- The lines after the operation on line `n` with the content `c`. -/
def performed (op : NumOp) (ls : List Line) (n : ℤ) (c : Line) : List Line :=
  match op with
  | .ins => inserted ls n c
  | .mod => ls.set (n - 1).toNat c
  | .del => deleted ls n

variable {op : NumOp} {c d x : Line} {k : ℕ}

/-! ### Reading the line -/

theorem typed_line (op : NumOp) (hd : ∀ c ∈ d, IsDigit c) (hc : Typed c) : Typed (op.line d c) := by
  have hw : Typed (bytesOf op.word) := by
    unfold Typed
    cases op <;> decide +kernel
  intro x hx
  rw [line, List.mem_append, List.mem_cons, List.mem_append, List.mem_cons] at hx
  rcases hx with hx | rfl | hx | rfl | hx
  · exact hw x hx
  · decide
  · have h := hd x hx
    exact ⟨h.ne_of_lt (by decide), h.ne_of_lt (by decide), h.ne_of_lt (by decide)⟩
  · decide
  · exact hc x hx

theorem pad_line (hlen : (op.line d c).length ≤ 254) : ∃ z, pad 256 (op.line d c) =
    bytesOf op.word ++ '-'.toUInt8 :: (d ++ ' '.toUInt8 :: (c ++ 0 :: z)) := by
  obtain ⟨k, hk⟩ : ∃ k, 256 - (op.line d c).length = k + 1 :=
    Nat.exists_eq_succ_of_ne_zero (by omega)
  refine ⟨List.replicate k 0, ?_⟩
  rw [pad, hk, List.replicate_succ, line]
  simp only [List.append_assoc, List.cons_append]

theorem space_notMem (op : NumOp) (hd : ∀ c ∈ d, IsDigit c) :
    ' '.toUInt8 ∉ bytesOf op.word ++ '-'.toUInt8 :: d := by
  rw [List.mem_append, List.mem_cons]
  rintro (h | h | h)
  · exact absurd h (by cases op <;> decide)
  · exact absurd h (by decide)
  · exact (hd _ h).ne_of_lt (by decide) rfl

theorem length_head (op : NumOp) (d : Line) :
    (bytesOf op.word ++ '-'.toUInt8 :: d).length = d.length + 4 := by
  cases op <;> simp [bytesOf, word]

theorem extra_of_short (hd : ∀ c ∈ d, IsDigit c) (hc : 0 ∉ c) (h3 : d.length ≤ 3)
    (hlen : (op.line d c).length ≤ 254) :
    cstr ((pad 256 (op.line d c)).drop (findSpace 8 (pad 256 (op.line d c)))) = c := by
  obtain ⟨z, hz⟩ := pad_line hlen
  have hlen := length_head op d
  rw [hz, ← List.cons_append, ← List.append_assoc, findSpace_append (space_notMem op hd) (by omega),
    ← List.drop_drop, List.drop_left, List.drop_one, List.tail_cons, cstr_append_zero,
    cstr_eq_self hc]

theorem extra_of_long (hd : ∀ c ∈ d, IsDigit c) (h3 : ¬d.length ≤ 3)
    (hlen : (op.line d c).length ≤ 254) :
    cstr ((pad 256 (op.line d c)).drop (findSpace 8 (pad 256 (op.line d c)))) = [] := by
  have htake : (pad 256 (op.line d c)).take 8 = (bytesOf op.word ++ '-'.toUInt8 :: d).take 8 := by
    have := length_head op d
    rw [pad, line, ← List.cons_append, ← List.append_assoc, List.append_assoc,
      List.take_append_of_le_length (by omega)]
  have hfind : findSpace 8 (pad 256 (op.line d c)) = 255 := by
    rw [findSpace, htake, List.findIdx?_eq_none_iff.2]
    intro x hx
    simpa using ne_of_mem_of_not_mem (List.mem_of_mem_take hx) (space_notMem op hd)
  rw [hfind, pad, List.drop_append, List.drop_of_length_le (by omega), List.nil_append,
    List.drop_replicate]
  cases 256 - (op.line d c).length - (255 - (op.line d c).length) <;> rfl

theorem parse_line (op : NumOp) (hd : ∀ c ∈ d, IsDigit c) (hc : Typed c)
    (hlen : (op.line d c).length ≤ 254) (ln : ℤ) :
    parse ln (pad 256 (op.line d c)) =
      if 0 ≤ int32 (decimal d) then
        op.command (int32 (decimal d)) (if d.length ≤ 3 then c else [])
      else .invalid := by
  have h0 := hc.zero_notMem
  have hextra : cstr ((pad 256 (op.line d c)).drop (findSpace 8 (pad 256 (op.line d c)))) =
      if d.length ≤ 3 then c else [] := by
    split_ifs with h3
    · exact extra_of_short hd h0 h3 hlen
    · exact extra_of_long hd h3 hlen
  obtain ⟨z, hz⟩ := pad_line hlen
  have harg : cstr ((pad 256 (op.line d c)).drop 4) = d ++ ' '.toUInt8 :: c := by
    have hnul : 0 ∉ d ++ ' '.toUInt8 :: c := by
      rw [List.mem_append, List.mem_cons]
      rintro (h | h | h)
      · exact (hd 0 h).ne_of_lt (by decide) rfl
      · exact absurd h (by decide)
      · exact h0 h
    have hdrop : ∀ r, (bytesOf op.word ++ '-'.toUInt8 :: r).drop 4 = r := by
      cases op <;> exact fun _ => rfl
    rw [hz, hdrop, ← List.cons_append, ← List.append_assoc, cstr_append_zero, cstr_eq_self hnul]
  have hdash : (pad 256 (op.line d c)).getD 3 0 = '-'.toUInt8 := by
    rw [hz]
    cases op <;> rfl
  have hins : hasOp "ins" (pad 256 (op.line d c)) = decide (op = .ins) := by
    rw [hz]
    cases op <;> rfl
  have hmod : hasOp "mod" (pad 256 (op.line d c)) = decide (op = .mod) := by
    rw [hz]
    cases op <;> rfl
  have hdel : hasOp "del" (pad 256 (op.line d c)) = decide (op = .del) := by
    rw [hz]
    cases op <;> rfl
  have hspace : '-'.toUInt8 ≠ ' '.toUInt8 := by decide
  have hzero : '-'.toUInt8 ≠ 0 := by decide
  simp only [parse, hextra, harg, hdash, hins, hmod, hdel, stringtonumber_digits hd, atoi_digits hd,
    true_and, ge_iff_le, hspace, hzero, or_self, if_false]
  cases op <;> simp [command]

/-! ### Doing what it says -/

/-- The line `op-d c` for the number `n` does what it says, in a state `s` with `k` lines in which
`rest` comes after it: with a valid number the operation is performed, and nothing else is read;
otherwise nothing is changed. -/
def Means (op : NumOp) (n : ℕ) (c : Line) (k : ℕ) (s : State) (rest : List UInt8) : Prop :=
  (op.Valid k n → ∃ s', promptStep noDisplay s = .ok s' ∧
    s'.lines = op.performed s.lines n c ∧ s'.changed = true ∧ s'.stdin = rest) ∧
  (¬op.Valid k n → ∃ s', promptStep noDisplay s = .ok s' ∧
    s'.lines = s.lines ∧ s'.changed = s.changed ∧ s'.log = s.log)

/-- The digits `d` are read as they should be in a text of `k` lines. -/
def ReadRight (op : NumOp) (d : Line) (k : ℕ) : Prop :=
  match op with
  | .ins | .mod => d.length ≤ 3 ∨ ¬op.Valid k (int32 (decimal d))
  | .del => op.Valid k (int32 (decimal d)) → decimal d ≤ k

/-- `s` is at a prompt with the document `v` of at most 254 lines, and the next line of its input is
`op-d c`. -/
structure Prompt (op : NumOp) (d c : Line) (s : State) (v : Doc) (rest : List UInt8) : Prop where
  abs : Abs False s v
  lines_ne : v.lines ≠ []
  length_le : v.lines.length ≤ 254
  digits : ∀ c ∈ d, IsDigit c
  typed : Typed c
  fits : (op.line d c).length ≤ 254
  stdin_eq : s.stdin = op.line d c ++ '\n'.toUInt8 :: rest

variable {s : State} {v v' : Doc} {rest st : List UInt8} {n : ℤ}

instance (op : NumOp) (k : ℕ) (n : ℤ) : Decidable (op.Valid k n) := by
  cases op <;> exact inferInstanceAs (Decidable (_ ∧ _))

theorem Valid.pos (h : op.Valid k n) : 1 ≤ n := by
  cases op <;> exact h.1

theorem Valid.le (h : op.Valid k n) : n ≤ k + 1 := by
  cases op with
  | ins => exact h.2
  | mod | del => exact h.2.trans (Int.le_add_one le_rfl)

theorem Valid.int32_eq {m : ℕ} (hk : k ≤ 254) (h : op.Valid k m) : int32 m = m := by
  have := h.le
  exact int32_of_lt (Int.natCast_nonneg m) (by omega)

theorem exec_valid (h : op.Valid v.lines.length n) (extra : Line)
    (hr : op ≠ .del → v.readContent extra = some (c, { v with stdin := st }))
    (hst : op = .del → st = v.stdin) :
    ∃ v', v.exec (op.command n extra) = some v' ∧ v'.lines = op.performed v.lines n c ∧
      v'.changed = true ∧ v'.stdin = st := by
  obtain ⟨m, rfl⟩ : ∃ m : ℕ, n = (m + 1 : ℕ) := ⟨(n - 1).toNat, by have := h.pos; omega⟩
  cases op with
  | ins =>
    obtain ⟨h1, h2⟩ := h
    rw [command, Doc.exec, Doc.ins, if_neg (by omega), hr (by decide), toNat_line_number]
    exact ⟨_, rfl, (inserted_eq (show m ≤ v.lines.length by omega)).symm, rfl, rfl⟩
  | mod =>
    obtain ⟨h1, h2⟩ := h
    rw [command, Doc.exec, Doc.mod, if_neg (by omega), hr (by decide)]
    exact ⟨_, rfl, rfl, rfl, rfl⟩
  | del =>
    obtain ⟨h1, h2⟩ := h
    rw [command, Doc.exec, Doc.del, if_neg (by omega), toNat_line_number]
    exact ⟨_, rfl, (deleted_eq (by omega)).symm, rfl, (hst rfl).symm⟩

theorem exec_invalid (h : ¬op.Valid v.lines.length n) (extra : Line) :
    v.exec (op.command n extra) = some v := by
  cases op with
  | ins =>
    rw [Valid] at h
    rw [command, Doc.exec, Doc.ins, if_pos (by omega)]
  | mod =>
    rw [Valid] at h
    rw [command, Doc.exec, Doc.mod, if_pos (by omega)]
  | del =>
    rw [Valid] at h
    rw [command, Doc.exec, Doc.del, if_pos (by omega)]

namespace Prompt

/-- The round of the command loop that reads the line. -/
theorem round (R : Prompt op d c s v rest)
    (hv : { v with stdin := rest }.exec (if 0 ≤ int32 (decimal d) then
        op.command (int32 (decimal d)) (if d.length ≤ 3 then c else []) else .invalid) = some v') :
    ∃ s', promptStep noDisplay s = .ok s' ∧ Abs False s' v' := by
  have hlen := R.fits
  have A : Abs False (State.print { s with stdin := rest } [.lit ">>> ", .sgr [1, 33], .sgr [0]])
      { v with stdin := rest } :=
    { (R.abs.toMem.withStdin rest).print _ with lineNumber_eq := R.abs.lineNumber_eq }
  have hfits := parse_fits s.lineNumber (length_pad (show (op.line d c).length ≤ 256 by omega))
  rw [promptStep_line noDisplay (typed_line op R.digits R.typed) hlen R.stdin_eq]
  rw [parse_line op R.digits R.typed hlen] at hfits ⊢
  refine A.exec_ok R.lines_ne (R.length_le.trans (by decide)) hfits ?_ hv
  split_ifs
  all_goals cases op <;> nofun

/-- With a valid number that is read right, the operation is performed. -/
theorem performs (R : Prompt op d c s v rest) (hc : c ≠ [])
    (hw : op.Valid v.lines.length (int32 (decimal d))) (h3 : op ≠ .del → d.length ≤ 3) :
    ∃ s', promptStep noDisplay s = .ok s' ∧
      s'.lines = op.performed v.lines (int32 (decimal d)) c ∧ s'.changed = true ∧
      s'.stdin = rest := by
  obtain ⟨v', hv, hl, hch, hst⟩ := exec_valid (v := { v with stdin := rest }) (c := c) hw
    (if d.length ≤ 3 then c else [])
    (fun hop => by rw [if_pos (h3 hop), Doc.readContent, if_neg hc]) fun _ => rfl
  obtain ⟨s', hs', A'⟩ := R.round (by rw [if_pos (Int.le_trans (by decide) hw.pos)]; exact hv)
  exact ⟨s', hs', A'.lines_eq.trans hl, A'.changed_eq.trans hch, A'.stdin_eq.trans hst⟩

/-- With a number that is read as an invalid one, nothing is changed. -/
theorem refuses (R : Prompt op d c s v rest)
    (hw : ¬op.Valid v.lines.length (int32 (decimal d))) :
    ∃ s', promptStep noDisplay s = .ok s' ∧ s'.lines = v.lines ∧ s'.changed = v.changed ∧
      s'.log = v.log := by
  have hv : { v with stdin := rest }.exec (if 0 ≤ int32 (decimal d) then
      op.command (int32 (decimal d)) (if d.length ≤ 3 then c else []) else .invalid) =
      some { v with stdin := rest } := by
    by_cases h : 0 ≤ int32 (decimal d)
    · rw [if_pos h]
      exact exec_invalid (v := { v with stdin := rest }) hw _
    · rw [if_neg h]
      rfl
  obtain ⟨s', hs', A'⟩ := R.round hv
  exact ⟨s', hs', A'.lines_eq, A'.changed_eq, A'.log_eq⟩

/-- With more than three digits the content is asked for. -/
theorem asks (R : Prompt op d c s v (bytesOf "x\n"))
    (hw : op.Valid v.lines.length (int32 (decimal d))) (hop : op ≠ .del) (h3 : ¬d.length ≤ 3) :
    ∃ s', promptStep noDisplay s = .ok s' ∧ s'.changed = true ∧ s'.stdin = [] := by
  obtain ⟨v', hv, -, hch, hst⟩ := exec_valid (v := { v with stdin := bytesOf "x\n" })
    (c := bytesOf "x") hw (if d.length ≤ 3 then c else []) (fun _ => by rw [if_neg h3]; rfl)
    fun h => absurd h hop
  obtain ⟨s', hs', A'⟩ := R.round (by rw [if_pos (Int.le_trans (by decide) hw.pos)]; exact hv)
  exact ⟨s', hs', A'.changed_eq.trans hch, A'.stdin_eq.trans hst⟩

end Prompt

theorem exists_prompt (hk1 : 1 ≤ k) (hk : k ≤ 254) (hd : ∀ c ∈ d, IsDigit c) (hc : Typed c)
    (hlen : (op.line d c).length ≤ 254) (rest : List UInt8) :
    ∃ s v, Prompt op d c s v rest ∧ v.lines.length = k ∧ v.changed = false := by
  have hmem : ∀ l ∈ List.replicate k ([] : Line), l = [] := fun l hl => List.eq_of_mem_replicate hl
  obtain ⟨s, v, A, hl, hst, hch⟩ := exists_abs (op.line d c ++ '\n'.toUInt8 :: rest)
    (List.ne_nil_of_length_pos (by rw [List.length_replicate]; exact hk1))
    (fun l hl => by rw [hmem l hl]; exact List.not_mem_nil)
    (fun l hl => by rw [hmem l hl]; decide)
    (show (List.replicate k ([] : Line)).length ≤ 256 by rw [List.length_replicate]; omega)
  have hlenk : v.lines.length = k := by rw [hl, List.length_replicate]
  exact ⟨s, v, ⟨A, List.ne_nil_of_length_pos (by omega), by omega, hd, hc, hlen,
    A.stdin_eq.trans hst⟩, hlenk, hch⟩

theorem readRight_iff (hop : op ≠ .del) :
    op.ReadRight d k ↔ d.length ≤ 3 ∨ ¬op.Valid k (int32 (decimal d)) := by
  cases op with
  | ins | mod => exact Iff.rfl
  | del => exact absurd rfl hop

theorem ReadRight.int32_eq (h : op.ReadRight d k) (hk : k ≤ 254) (hd : ∀ c ∈ d, IsDigit c)
    (hw : op.Valid k (int32 (decimal d))) : int32 (decimal d) = decimal d := by
  have hlt : decimal d < 1000 := by
    by_cases hop : op = .del
    · subst hop
      exact Nat.lt_of_le_of_lt (h hw) (by omega)
    · have h3 := ((readRight_iff hop).1 h).resolve_right (not_not.2 hw)
      exact Nat.lt_of_lt_of_le (decimal_lt hd) (Nat.pow_le_pow_right (by decide) h3)
  exact int32_of_lt (by omega) (by omega)

/-- A numbered command does what it says in every text of `k` lines if and only if its number is
read right: for `ins` and `mod` it has at most three digits, or is no valid number when it has been
wrapped; for `del`, it is at most `k` if it is a valid number when it has been wrapped. -/
theorem numbered_iff (op : NumOp) (hd : ∀ c ∈ d, IsDigit c) (hc : Typed c) (hc0 : c ≠ [])
    (hlen : (op.line d c).length ≤ 254) (hk1 : 1 ≤ k) (hk : k ≤ 254) :
    (∀ s rest, RepInv s k → s.stdin = op.line d c ++ '\n'.toUInt8 :: rest →
      op.Means (decimal d) c k s rest) ↔ op.ReadRight d k := by
  constructor
  · intro h
    by_contra hr
    obtain ⟨s, v, R, rfl, hch⟩ := exists_prompt hk1 hk hd hc hlen (bytesOf "x\n")
    obtain ⟨hvalid, hinvalid⟩ := h s _ (R.abs.repInv R.lines_ne (by omega)) R.stdin_eq
    have hchanged : s.changed = false := R.abs.changed_eq.trans hch
    by_cases hop : op = .del
    · -- the number wraps around to that of a line, which is deleted
      subst hop
      obtain ⟨hw, hN⟩ := Classical.not_imp.1 hr
      obtain ⟨s', hs, -, hs', -⟩ := R.performs hc0 hw (absurd rfl)
      obtain ⟨s'', hs₂, -, hs'', -⟩ := hinvalid fun hN' => hN (by have := hN'.2; omega)
      cases hs.symm.trans hs₂
      exact absurd (hs'.symm.trans (hs''.trans hchanged)) (by decide)
    · -- the content is not found, and the next line is read in its place
      rw [readRight_iff hop, not_or, not_not] at hr
      obtain ⟨s', hs, hs', hst⟩ := R.asks hr.2 hop hr.1
      by_cases hN : op.Valid v.lines.length (decimal d)
      · obtain ⟨s'', hs₂, -, -, hst'⟩ := hvalid hN
        cases hs.symm.trans hs₂
        exact absurd (hst.symm.trans hst') (by decide)
      · obtain ⟨s'', hs₂, -, hs'', -⟩ := hinvalid hN
        cases hs.symm.trans hs₂
        exact absurd (hs'.symm.trans (hs''.trans hchanged)) (by decide)
  · intro hr s rest R hs
    obtain ⟨v, A, rfl⟩ := R.abs
    have P : Prompt op d c s v rest :=
      ⟨A, List.ne_nil_of_length_pos hk1, hk, hd, hc, hlen, hs⟩
    rw [Means, A.lines_eq, A.changed_eq, A.log_eq]
    constructor
    · intro hN
      have heq := hN.int32_eq hk
      have hw : op.Valid v.lines.length (int32 (decimal d)) := by rwa [heq]
      have h := P.performs hc0 hw fun hop =>
        ((readRight_iff hop).1 hr).resolve_right (not_not.2 hw)
      rwa [heq] at h
    · intro hN
      refine P.refuses fun hw => hN ?_
      rwa [hr.int32_eq hk hd hw] at hw

theorem numbered_session : ∃ s s', s.lines = [bytesOf "a", bytesOf "b"] ∧
    s.stdin = bytesOf "mod-02 c d\nrb\n" ∧ promptStep noDisplay s = .ok s' ∧
    s'.lines = [bytesOf "a", bytesOf "c d"] ∧ s'.stdin = bytesOf "rb\n" := by
  obtain ⟨s, A⟩ := exists_session False (bytesOf "a\nb") (bytesOf "mod-02 c d\nrb\n") False.elim
  have hl : s.lines = [bytesOf "a", bytesOf "b"] := A.lines_eq.trans (by decide)
  have htyped : Typed (bytesOf "c d") := by
    unfold Typed
    decide +kernel
  have hmeans := (numbered_iff (k := 2) (d := bytesOf "02") .mod (by decide +kernel) htyped
    (by decide) (by decide) (by decide) (by decide)).2 (.inl (by decide)) s (bytesOf "rb\n")
    (A.repInv (by decide) (by decide)) A.stdin_eq
  obtain ⟨s', hs, hl', -, hst⟩ := hmeans.1 (by decide)
  rw [hl] at hl'
  exact ⟨s, s', hl, A.stdin_eq, hs, hl', hst⟩

/-- The content of `ins-0001 x` is not found: the next line is inserted in its place. -/
theorem numbered_four_digits : ∃ s₀ s,
    main noDisplay (.session (some (bytesOf "a")) (bytesOf "ins-0001 x\ny\n")) [bytesOf "a"] =
      .ok s₀ ∧
    promptStep noDisplay s₀ = .ok s ∧ s.lines = [bytesOf "y", bytesOf "a"] := by
  obtain ⟨s₀, hm, A⟩ := main_shown noDisplay
    (.session (some (bytesOf "a")) (bytesOf "ins-0001 x\ny\n")) [bytesOf "a"] rfl
    (shows_noDisplay _)
  obtain ⟨s, hs, A', -⟩ := A.step_shown (Boot.doc_wf _ _) (by decide) rfl (shows_noDisplay _)
  exact ⟨s₀, s, hm, hs, A'.lines_eq⟩

end NumOp

end Xv6Editor
