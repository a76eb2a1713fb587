import Xv6Editor.Editor.Commands

/-!
# Undo records

An undo record is the string `op-n content`.  `undoRecord_eq` says which string the three calls
of `strcat_n` leave behind: `strcat_n` refuses to go past 255 bytes, and then the record has no
content.  `decode` is what `com_rollback` reads out of a record.

* `IsRecord` : the strings that `com_ins` and `com_mod` record.
* `decode_undoRecord_ins`, `decode_undoRecord_mod` : what is read back.
-/

namespace Xv6Editor

/-- What an undo record asks for. -/
inductive Undoing
  /-- Delete line `n`. -/
  | remove (n : ℤ)
  /-- Put `content` into line `n`. -/
  | rewrite (n : ℤ) (content : Line)
  /-- Nothing. -/
  | nothing
  deriving DecidableEq

/-- What `com_rollback` reads out of a record of `com_ins` or `com_mod`. -/
def decode (r : Line) : Undoing :=
  if hasOp "ins" r then .remove (stringtonumber (r.drop 4))
  else if hasOp "mod" r then .rewrite (stringtonumber (r.drop 4)) (r.drop (findSpace 10 r))
  else .nothing

/-- The strings that `com_ins` and `com_mod` record. -/
def IsRecord (r : Line) : Prop :=
  ∃ op ∈ ["ins-", "mod-"], ∃ n c, 1 ≤ n ∧ n ≤ 256 ∧ r = undoRecord op (n : ℕ) c

/-- The content of the record for line `n`: it is left out if the record gets too long. -/
def recordContent (n : ℕ) (c : Line) : Line :=
  if c.length + ((number2string n).length + 5) < 256 then cstr c else []

variable {op : String} {n bound : ℕ} {a c t r : Line}

/-! ### Writing a record -/

theorem cstr_strcatN {m : List UInt8} (src : List UInt8) (h : 0 ∈ m) (len : ℕ) :
    cstr (strcatN m src len) =
      if len + (cstr m).length < 256 then cstr m ++ cstr (src.take len) else cstr m := by
  simp only [strcatN]
  split_ifs with h0
  · simp [h0, cstr]
  · rfl
  · omega
  · rfl
  · exact cstr_poke_end _ h
  · omega

theorem zero_mem_strcatN {m : List UInt8} (src : List UInt8) (h : 0 ∈ m) (len : ℕ) :
    0 ∈ strcatN m src len := by
  simp only [strcatN]
  split_ifs
  · exact h
  · exact h
  · exact zero_mem_poke _ (by simp)

theorem op_spec : ∀ op ∈ ["ins-", "mod-"],
    (bytesOf op).length = 4 ∧ 0 ∉ bytesOf op ∧ ' '.toUInt8 ∉ bytesOf op := by
  decide

theorem undoRecord_eq (hop : op ∈ ["ins-", "mod-"]) (hn : n ≤ 256) (c : Line) :
    undoRecord op n c =
      bytesOf op ++ number2string n ++ ' '.toUInt8 :: recordContent n c := by
  have hlen := op_spec op hop
  have hd : (number2string n).length ≤ 3 := length_number2string_le (by omega) (by omega)
  have hs : cstr (bytesOf " ") = [' '.toUInt8] := by decide
  -- the operation and the number fit, and so does the space
  have h0 : 0 ∈ bytesOf op ++ [0] := by simp
  have h1 : cstr (strcatN (bytesOf op ++ [0]) (number2string n) (number2string n).length) =
      bytesOf op ++ number2string n := by
    rw [cstr_strcatN _ h0, cstr_append_zero, cstr_eq_self hlen.2.1, if_pos (by omega),
      List.take_length, cstr_eq_self (zero_notMem_number2string n)]
  have h2 := cstr_strcatN (bytesOf " ") (zero_mem_strcatN (number2string n) h0
    (number2string n).length) 1
  rw [h1, if_pos (by simp; omega), List.take_of_length_le (by decide), hs] at h2
  -- the content may be refused
  have h3 := cstr_strcatN c (zero_mem_strcatN (bytesOf " ")
    (zero_mem_strcatN (number2string n) h0 (number2string n).length) 1) c.length
  rw [h2, List.take_length] at h3
  change cstr (strcatN (strcatN (strcatN (bytesOf op ++ [0]) _ _) _ 1) c c.length) = _
  rw [h3, recordContent]
  simp only [List.length_append, List.length_singleton, hlen.1]
  rw [show c.length + (4 + (number2string n).length + 1) =
    c.length + ((number2string n).length + 5) by omega]
  split_ifs <;> simp

theorem recordContent_length (hn : n ≤ 256) (c : Line) :
    (number2string n).length + 5 + (recordContent n c).length < 256 := by
  have hd : (number2string n).length ≤ 3 := length_number2string_le (by omega) (by omega)
  have hc := (cstr_sublist c).length_le
  unfold recordContent
  split_ifs with h
  · omega
  · rw [List.length_nil]
    omega

theorem zero_notMem_recordContent (n : ℕ) (c : Line) : 0 ∉ recordContent n c := by
  unfold recordContent
  split_ifs
  · exact zero_notMem_cstr c
  · simp

/-- A record is a string of at most 255 bytes. -/
theorem IsRecord.spec (h : IsRecord r) : 0 ∉ r ∧ r.length < 256 := by
  obtain ⟨op, hop, n, c, -, hn, rfl⟩ := h
  rw [undoRecord_eq hop hn]
  have hlen := op_spec op hop
  have hc := recordContent_length hn c
  constructor
  · simp only [List.mem_append, List.mem_cons, not_or]
    exact ⟨⟨hlen.2.1, zero_notMem_number2string n⟩, by decide, zero_notMem_recordContent n c⟩
  · simp only [List.length_append, List.length_cons, hlen.1]
    omega

theorem isRecord_ins (hn : n ≤ 255) (c : Line) : IsRecord (undoRecord "ins-" (n + 1 : ℕ) c) :=
  ⟨"ins-", by simp, n + 1, c, Nat.le_add_left 1 n, Nat.succ_le_succ hn, rfl⟩

theorem isRecord_mod (hn : n ≤ 255) (c : Line) : IsRecord (undoRecord "mod-" (n + 1 : ℕ) c) :=
  ⟨"mod-", by simp, n + 1, c, Nat.le_add_left 1 n, Nat.succ_le_succ hn, rfl⟩

/-! ### Reading a record -/

theorem findSpace_append (ha : ' '.toUInt8 ∉ a) (hb : a.length < bound) :
    findSpace bound (a ++ ' '.toUInt8 :: t) = a.length + 1 := by
  obtain ⟨k, rfl⟩ := Nat.exists_eq_add_of_lt hb
  have hf : ((a ++ ' '.toUInt8 :: t).take (a.length + k + 1)).findIdx? (· = ' '.toUInt8) =
      some a.length := by
    rw [show a.length + k + 1 = a.length + (k + 1) by omega, List.take_length_add_append,
      List.take_succ_cons, List.findIdx?_append, List.findIdx?_eq_none_iff.2
        (fun x hx => by simpa using ne_of_mem_of_not_mem hx ha), List.findIdx?_cons]
    simp
  rw [findSpace, hf]

/-- The three things `com_rollback` reads: the operation, the number and where the content
starts.  The bytes behind the record do not matter. -/
theorem record_read (hop : op ∈ ["ins-", "mod-"]) (hn : n ≤ 256) (t : List UInt8) :
    (bytesOf op ++ number2string n ++ ' '.toUInt8 :: t).take 3 = (bytesOf op).take 3 ∧
    (bytesOf op ++ number2string n ++ ' '.toUInt8 :: t).drop 4 =
      number2string n ++ ' '.toUInt8 :: t ∧
    (bytesOf op ++ number2string n ++ ' '.toUInt8 :: t).drop
      (findSpace 10 (bytesOf op ++ number2string n ++ ' '.toUInt8 :: t)) = t := by
  have hlen := op_spec op hop
  have hd : (number2string n).length ≤ 3 := length_number2string_le (by omega) (by omega)
  have hsp : ' '.toUInt8 ∉ bytesOf op ++ number2string n := by
    rw [List.mem_append, not_or]
    exact ⟨hlen.2.2, space_notMem_number2string n⟩
  refine ⟨?_, ?_, ?_⟩
  · rw [List.append_assoc, List.take_append_of_le_length (by omega)]
  · rw [List.append_assoc, ← hlen.1, List.drop_left]
  · rw [findSpace_append hsp (by simp [hlen.1]; omega), ← List.drop_drop, List.drop_left]
    rfl

theorem decode_undoRecord_ins (hn : n ≤ 256) (c : Line) :
    decode (undoRecord "ins-" n c) = .remove n := by
  rw [undoRecord_eq (by simp) hn]
  obtain ⟨h3, h4, -⟩ := record_read (show "ins-" ∈ _ by simp) hn (recordContent n c)
  have hi : hasOp "ins" (bytesOf "ins-" ++ number2string n ++ ' '.toUInt8 :: recordContent n c) :=
    by simp only [hasOp, h3]; decide
  rw [decode, if_pos hi, h4, stringtonumber_number2string (by omega)]

theorem decode_undoRecord_mod (hn : n ≤ 256) (c : Line) :
    decode (undoRecord "mod-" n c) = .rewrite n (recordContent n c) := by
  rw [undoRecord_eq (by simp) hn]
  obtain ⟨h3, h4, hc⟩ := record_read (show "mod-" ∈ _ by simp) hn (recordContent n c)
  have hi : hasOp "ins" (bytesOf "mod-" ++ number2string n ++ ' '.toUInt8 :: recordContent n c) =
    false := by simp only [hasOp, h3]; decide
  have hm : hasOp "mod" (bytesOf "mod-" ++ number2string n ++ ' '.toUInt8 :: recordContent n c) :=
    by simp only [hasOp, h3]; decide
  rw [decode, if_neg (by rw [hi]; simp), if_pos hm, h4, hc,
    stringtonumber_number2string (by omega)]

end Xv6Editor
