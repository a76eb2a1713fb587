import Xv6Editor.Rep.Edit

/-!
# The command loop computes on documents

The commands of `editor.c` do to memory what those of `Doc/Basic.lean` do to a document:
`Abs.exec` for one command, `Abs.promptStep` for a round of the command loop.  `Abs zt s d` adds to
`Mem zt s d` what holds at the prompt: there is a line, and the cached line number is right.
-/

namespace Xv6Editor

/-- The text and the log of `s` are those of `d`. -/
def TextOf (zt : Prop) (d : Doc) (s : State) : Prop := ∃ ps qs, Rep zt s ps d.lines qs d.log

/-- The result `r` of a command function that makes the document `o` of what was in memory, and
leaves the cached line number `ln` alone. -/
def Computes (disp : Display) (zt : Prop) (ln : ℤ) (o : Option Doc) (r : Except Halt State) :
    Prop :=
  match o with
  | none => r = fail (.inputIndex (-1))
  | some d => EndsIn disp (TextOf zt d) (fun s => Mem zt s d ∧ s.lineNumber = ln) r

variable {disp : Display} {zt : Prop} {s s' : State} {d d' : Doc} {ps qs : List Ptr}
  {ls log : List Line} {n : ℤ} {m : ℕ} {c extra : Line} {r : Except Halt State} {flag : Bool}

/-! ### Insertion, change and deletion -/

theorem Mem.print (M : Mem zt s d) (out : List Piece) : Mem zt (s.print out) d := by
  obtain ⟨ps, qs, H⟩ := M.rep
  exact { M with rep := ⟨ps, qs, H.congr rfl rfl rfl rfl⟩ }

/-- Showing the text, or not, changes nothing in memory. -/
theorem Mem.autoDisplay (M : Mem zt s d) :
    EndsIn disp (TextOf zt d) (fun s' => Mem zt s' d ∧ s'.lineNumber = s.lineNumber)
      (autoDisplay disp s) :=
  .autoDisplay M.rep (fun out => ⟨M.print out, rfl⟩) ⟨M, rfl⟩

theorem insLines_of_lt (hm : m < ls.length) (c : Line) : insLines ls m c = ls.insertIdx m c := by
  rw [insLines, insPos, if_neg (by omega)]

theorem insLines_length (ls : List Line) (c : Line) :
    insLines ls ls.length c =
      if ls.getLast? = some [] then ls.insertIdx (ls.length - 1) c else ls ++ [c] := by
  rw [insLines, insPos]
  simp only [true_and]
  split_ifs
  · rfl
  · exact List.insertIdx_length_self

/-- `com_ins`, called by the command loop (`flag`) or by `com_rollback`. -/
theorem Mem.comIns_flag (M : Mem zt s d) (h0 : d.lines ≠ []) (hk : d.lines.length ≤ 255)
    (hx : 0 ∉ extra) (hlen : extra.length < 256) (n : ℤ) (flag : Bool) :
    Computes disp zt s.lineNumber (d.insFlag n extra flag) (comIns disp s n extra flag) := by
  obtain ⟨ps, qs, H⟩ := M.rep
  have hg := H.getLineNumber_eq
  unfold Doc.insFlag Doc.ins
  by_cases hn : n ≤ 0 ∨ n > d.lines.length + 1
  · rw [if_pos hn, Xv6Editor.comIns, if_pos (by omega)]
    cases flag <;> exact .ok ⟨M.print _, rfl⟩
  · rw [if_neg hn]
    obtain ⟨m, rfl, hm⟩ : ∃ m : ℕ, n = (m + 1 : ℕ) ∧ m ≤ d.lines.length :=
      ⟨(n - 1).toNat, by omega, by omega⟩
    rw [toNat_line_number]
    obtain ⟨hd, hr⟩ | ⟨c, st, out, hd, hr, hc, hc'⟩ := M.readContent hx hlen
    · rw [hd]
      rw [Xv6Editor.comIns, if_neg (by omega)]
      simp only [hr, bind, Except.bind, fail]
      rfl
    · rw [hd]
      rcases Nat.lt_or_eq_of_le hm with hlt | rfl
      · obtain ⟨l, hl⟩ : ∃ l, d.lines[m]? = some l := ⟨_, List.getElem?_eq_getElem hlt⟩
        obtain ⟨t, cs, h, u, ps', qs', hi, H'⟩ := H.comIns_lt disp hlt hk hl hr hc hc' flag
        rw [hi]
        refine Mem.autoDisplay
          { rep := ⟨ps', qs', ?_⟩, changed_eq := rfl, stdin_eq := rfl, disk_eq := M.disk_eq,
            page0_eq := M.page0_eq }
        have hu : ¬Doc.Unrecorded { d with stdin := st } m := fun h => by
          have := h.1
          simp only at this
          omega
        cases flag <;>
          simpa only [Doc.insert, insLines_of_lt hlt, if_neg hu, hl, Option.getD_some] using H'
      · obtain ⟨l, hl⟩ : ∃ l, d.lines.getLast? = some l :=
          ⟨_, List.getLast?_eq_some_getLast h0⟩
        obtain ⟨t, nr, cs, h, u, ps', qs', hi, -, H'⟩ :=
          H.comIns_length disp hk hl hr hc hc' flag
        rw [hi]
        refine Mem.autoDisplay
          { rep := ⟨ps', qs', ?_⟩, changed_eq := rfl, stdin_eq := rfl, disk_eq := M.disk_eq,
            page0_eq := M.page0_eq }
        cases flag <;>
          simpa [Doc.insert, Doc.Unrecorded, insLines_length, hl, ← M.page0_eq] using H'

theorem Mem.comIns (M : Mem zt s d) (h0 : d.lines ≠ []) (hk : d.lines.length ≤ 255)
    (hx : 0 ∉ extra) (hlen : extra.length < 256) (n : ℤ) :
    Computes disp zt s.lineNumber (d.ins n extra) (comIns disp s n extra true) :=
  d.insFlag_true n extra ▸ M.comIns_flag h0 hk hx hlen n true

theorem Mem.comMod (M : Mem zt s d) (hx : 0 ∉ extra) (hlen : extra.length < 256) (n : ℤ)
    (flag : Bool) :
    Computes disp zt s.lineNumber (d.mod n extra flag) (comMod disp s n extra flag) := by
  obtain ⟨ps, qs, H⟩ := M.rep
  have hg := H.getLineNumber_eq
  unfold Doc.mod
  split_ifs with hn
  · rw [Xv6Editor.comMod, if_pos (by omega)]
    exact .ok ⟨M.print _, rfl⟩
  · obtain ⟨m, rfl, hm⟩ := exists_line_number hn
    rw [toNat_line_number]
    obtain ⟨hd, hr⟩ | ⟨c, st, out, hd, hr, hc, hc'⟩ := M.readContent hx hlen
    · rw [hd]
      rw [Xv6Editor.comMod, if_neg (by omega)]
      simp only [hr, bind, Except.bind, fail]
      rfl
    · rw [hd]
      obtain ⟨l, hl⟩ : ∃ l, d.lines[m]? = some l := ⟨_, List.getElem?_eq_getElem hm⟩
      obtain ⟨cs, h, u, qs', hi, H'⟩ := H.comMod disp hm hl hr hc hc' flag
      rw [hi]
      refine Mem.autoDisplay
        { rep := ⟨ps, qs', ?_⟩, changed_eq := rfl, stdin_eq := rfl, disk_eq := M.disk_eq,
          page0_eq := M.page0_eq }
      simpa only [Doc.replace, hl, Option.getD_some] using H'

theorem Mem.comDel (M : Mem zt s d) (hk : d.lines.length ≤ 255) (n : ℤ) (flag : Bool) :
    Computes disp zt s.lineNumber (some (d.del n)) (comDel disp s n flag) := by
  obtain ⟨ps, qs, H⟩ := M.rep
  have hg := H.getLineNumber_eq
  unfold Doc.del
  split_ifs with hn
  · rw [Xv6Editor.comDel, if_pos (by omega)]
    exact .ok ⟨M.print _, rfl⟩
  · obtain ⟨m, rfl, hm⟩ := exists_line_number hn
    rw [toNat_line_number]
    obtain ⟨t, h, ps', hi, H', -⟩ := H.comDel disp hm hk flag
    rw [hi]
    exact Mem.autoDisplay (s := { s with text := t, heap := h, changed := true })
      { M with rep := ⟨ps', qs, H'⟩, changed_eq := rfl }

/-! ### Undo -/

/-- At the prompt the cached line number is right. -/
structure Abs (zt : Prop) (s : State) (d : Doc) : Prop extends Mem zt s d where
  lineNumber_eq : s.lineNumber = d.lines.length - 1

theorem Mem.updateLineNumber (M : Mem zt s d) : Abs zt (updateLineNumber s) d := by
  obtain ⟨ps, qs, H⟩ := M.rep
  exact { M with
    rep := ⟨ps, qs, H.congr rfl rfl rfl rfl⟩
    lineNumber_eq := H.getLineNumber_eq }

/-- An error that is not an access outside the array `text`. -/
def Halt.InText (e : Halt) : Prop := ∀ i, e ≠ .fault (.textIndex i)

/-- How a command ends that makes no document: the input is at its end, or `exit()` is called. -/
def Halt.IsLast (e : Halt) : Prop := e = .fault (.inputIndex (-1)) ∨ ∃ s, e = .exited s

theorem Halt.IsLast.inText {e : Halt} (h : e.IsLast) : e.InText := by
  obtain rfl | ⟨s, rfl⟩ := h
  · exact fun _ => nofun
  · exact fun _ => nofun

/-- What a round of the command loop does if it makes the document `o` of the one in memory. -/
def Reaches (disp : Display) (zt : Prop) (o : Option Doc) (r : Except Halt State) : Prop :=
  match o with
  | none => ∃ e, r = .error e ∧ e.IsLast
  | some d => EndsIn disp (TextOf zt d) (Abs zt · d) r

/-- If the round comes back, there is such a document. -/
theorem Reaches.exists_doc {o : Option Doc} (h : Reaches disp zt o r) (hr : r = .ok s) :
    ∃ d, o = some d ∧ Abs zt s d := by
  cases o with
  | none =>
    obtain ⟨e, he, -⟩ := h
    cases hr.symm.trans he
  | some d => exact ⟨d, rfl, EndsIn.of_ok h hr⟩

theorem Computes.updateLineNumber {ln : ℤ} {o : Option Doc} (h : Computes disp zt ln o r) :
    Reaches disp zt o (r >>= fun s => .ok (updateLineNumber s)) := by
  cases o with
  | none =>
    rw [show r = _ from h]
    exact ⟨_, rfl, Or.inl rfl⟩
  | some d => exact EndsIn.bind_ok h fun s hs => hs.1.updateLineNumber

theorem strAt_of_drop {p : Ptr} {b : Block 256} {off : ℕ} {x t : Line}
    (hp : s.heap.get p = some b) (hd : b.bytes.drop off = x ++ 0 :: t) (hx : 0 ∉ x) :
    s.strAt p off = .ok x := by
  simp only [State.strAt, State.block, hp, bind, Except.bind, hd]
  rw [if_pos (by simp), cstr_append_zero, cstr_eq_self hx]

/-- The second half of `com_rollback`: the copy of the record, in the block `p`, is read and
followed. -/
def replay (disp : Display) (s : State) (p : Ptr) : Except Halt State := do
  let input := (← s.block p).bytes
  if hasOp "ins" input then
    let line := stringtonumber (← s.strAt p 4)
    .ok (updateLineNumber (← comDel disp s line false))
  else if hasOp "mod" input then
    let line := stringtonumber (← s.strAt p 4)
    let content ← s.strAt p (findSpace 10 input)
    .ok (updateLineNumber (← comMod disp s line content false))
  else if hasOp "del" input then
    let line := stringtonumber (← s.strAt p 4)
    let content ← s.strAt p (findSpace 10 input)
    .ok (updateLineNumber (← comIns disp s line content false))
  else .ok s

/-- `com_rollback` with a record on the log: the newest one is copied into a new block and taken
off, and then the copy is followed. -/
theorem Mem.comRollback_replay (disp : Display) (M : Mem zt s d) {r : Line}
    (hlast : d.log.getLast? = some r) :
    ∃ s' p b junk, Mem zt s' { d with log := d.log.dropLast } ∧ s'.nullReads = s.nullReads ∧
      s'.heap.get p = some b ∧ b.bytes = r ++ 0 :: junk ∧
      comRollback disp s = replay disp s' p := by
  obtain ⟨ps, qs, H⟩ := M.rep
  obtain ⟨hp, hq⟩ := H.malloc_notMem
  obtain ⟨hr0, hr1⟩ := H.log_spec (List.mem_of_getLast? hlast)
  have hlog : d.log ≠ [] := by rintro h; rw [h] at hlast; cases hlast
  have hpos : 0 < d.log.length := List.length_pos_of_ne_nil hlog
  obtain ⟨q, r', -, hr', hcp, hstr⟩ := H.malloc.exists_record (i := d.log.length - 1) (by omega)
  obtain rfl : r' = r := by
    rw [List.getLast?_eq_getElem?] at hlast
    exact Option.some.inj (hr'.symm.trans hlast)
  have hub : ((d.log.length - 1 : ℕ) : ℤ) = s.malloc.2.upperBound := by
    have := H.malloc.upperBound_eq
    have := H.length_log
    omega
  rw [hub] at hcp
  obtain ⟨b, hb, -⟩ := isLine_strcpy False (b := s.heap.junk s.heap.next) hr0 hr1 False.elim
  obtain ⟨h, hs⟩ := Heap.exists_store (Heap.get_malloc_self (h := s.heap)) b
  have hcpy : s.malloc.2.strcpy s.malloc.1 r' = .ok { s with heap := h } :=
    strcpy_ok (Heap.get_malloc_self (h := s.heap)) hb hs
  have hbytes : b.bytes = Xv6Editor.strcpy (s.heap.junk s.heap.next).bytes r' :=
    Block.bytes_of_ofBytes hb
  refine ⟨{ s with heap := h, upperBound := s.upperBound - 1 }, s.malloc.1, b, _,
    { M with rep := ⟨ps, qs.dropLast, (H.malloc.store_other hp hq hs).pop hlog⟩ },
    rfl, Heap.get_store_self hs, hbytes.trans (strcpy_eq ..), ?_⟩
  change _ = s.upperBound at hub
  rw [Xv6Editor.comRollback, if_neg (by omega)]
  simp only [bind, Except.bind, hcp, hstr, hcpy]
  rfl

/-- `com_rollback` with a record of `com_ins` or `com_mod` on the log. -/
theorem Mem.comRollback_eq (disp : Display) (M : Mem zt s d) {r : Line} (hr : IsRecord r)
    (hlast : d.log.getLast? = some r) :
    ∃ s', Mem zt s' { d with log := d.log.dropLast } ∧ comRollback disp s =
      match decode r with
      | .remove n =>
        Xv6Editor.comDel disp s' n false >>= fun s => .ok (Xv6Editor.updateLineNumber s)
      | .rewrite n c =>
        Xv6Editor.comMod disp s' n c false >>= fun s => .ok (Xv6Editor.updateLineNumber s)
      | .nothing => .ok s' := by
  obtain ⟨s', p, b, junk, M', -, hget, hbytes, hroll⟩ := M.comRollback_replay disp hlast
  refine ⟨s', M', hroll.trans ?_⟩
  -- what is read from the copy
  obtain ⟨op, hop, k, c, -, hk, rfl⟩ := hr
  rw [undoRecord_eq hop hk, List.append_assoc, List.cons_append] at hbytes
  obtain ⟨h3, h4, hsp⟩ := record_read hop hk (recordContent k c ++ 0 :: junk)
  rw [← hbytes] at h3 h4 hsp
  have hnum : s'.strAt p 4 = .ok (number2string k ++ ' '.toUInt8 :: recordContent k c) :=
    strAt_of_drop (t := junk) hget (by rw [h4]; simp) (by
      simp only [List.mem_append, List.mem_cons, not_or]
      exact ⟨zero_notMem_number2string k, by decide, zero_notMem_recordContent k c⟩)
  have hcont : s'.strAt p (findSpace 10 b.bytes) = .ok (recordContent k c) :=
    strAt_of_drop hget hsp (zero_notMem_recordContent k c)
  have hblock : s'.block p = .ok b := by simp only [State.block, hget]
  have hstn := stringtonumber_number2string (n := k) (by omega) (recordContent k c)
  simp only [List.mem_cons, List.not_mem_nil, or_false] at hop
  obtain rfl | rfl := hop
  · have hi : hasOp "ins" b.bytes = true := by simp only [hasOp, h3]; decide
    rw [decode_undoRecord_ins hk]
    simp only [replay, bind, Except.bind, hblock, hi, hnum, hstn, if_true]
  · have hi : hasOp "ins" b.bytes = false := by simp only [hasOp, h3]; decide
    have hm : hasOp "mod" b.bytes = true := by simp only [hasOp, h3]; decide
    rw [decode_undoRecord_mod hk]
    simp only [replay, bind, Except.bind, hblock, hi, hm, hnum, hstn, hcont, if_true,
      Bool.false_eq_true, if_false]

theorem Mem.comRollback_nil (disp : Display) (M : Mem zt s d) (hlast : d.log.getLast? = none) :
    comRollback disp s = .ok (s.print (alarm "couldn't rollback")) := by
  obtain ⟨ps, qs, H⟩ := M.rep
  have hu := H.upperBound_eq
  rw [H.length_log, List.getLast?_eq_none_iff.1 hlast, List.length_nil] at hu
  rw [Xv6Editor.comRollback, if_pos (by omega)]

theorem Abs.comRollback (A : Abs zt s d) (hk : d.lines.length ≤ 255)
    (hr : ∀ r, d.log.getLast? = some r → IsRecord r) :
    Reaches disp zt d.rollback (comRollback disp s) := by
  unfold Doc.rollback
  cases hlast : d.log.getLast? with
  | none =>
    rw [A.comRollback_nil disp hlast]
    exact .ok { A.toMem.print _ with lineNumber_eq := A.lineNumber_eq }
  | some r =>
    obtain ⟨s', M, he⟩ := A.comRollback_eq disp (hr r hlast) hlast
    rw [he]
    obtain ⟨op, hop, k, c, -, hk', rfl⟩ := hr r hlast
    simp only [List.mem_cons, List.not_mem_nil, or_false] at hop
    obtain rfl | rfl := hop
    · simp only [decode_undoRecord_ins hk']
      exact (M.comDel hk k false).updateLineNumber
    · have hlen := recordContent_length hk' c
      simp only [decode_undoRecord_mod hk']
      exact (M.comMod (zero_notMem_recordContent k c) (by omega) k false).updateLineNumber

/-! ### Scans -/

/-- A scan over the slots of the text goes over the pointers and stops at the first NULL; `I` is an
invariant of its rounds, and `E` holds of the errors they end with. -/
theorem scanSlots_rule {σ : Type} (body : ℕ → Ptr → σ → Except Halt σ) (E : Halt → Prop) {k : ℕ}
    (hk : 0 < k) : ∀ (ps : List Ptr) {I : ℕ → σ → Prop} {j : ℕ} {a : σ}, I 0 a →
    (∀ i p a, ps[i]? = some p → I i a →
      (∃ a', body (j + i) p a = .ok a' ∧ I (i + 1) a') ∨ ∃ e, body (j + i) p a = .error e ∧ E e) →
    (∃ a', scanSlots body (ps.map some ++ List.replicate k none) j a = .ok a' ∧ I ps.length a') ∨
      ∃ e, scanSlots body (ps.map some ++ List.replicate k none) j a = .error e ∧ E e
  | [], I, j, a, h0, _ => by
    obtain ⟨k, rfl⟩ := Nat.exists_eq_succ_of_ne_zero hk.ne'
    exact .inl ⟨a, rfl, h0⟩
  | p :: ps, I, j, a, h0, hb => by
    simp only [List.map_cons, List.cons_append, scanSlots]
    obtain ⟨a', ha, hI⟩ | ⟨e, he, hE⟩ := hb 0 p a rfl h0
    · rw [Nat.add_zero] at ha
      simp only [ha, bind, Except.bind]
      refine scanSlots_rule body E hk ps (I := fun i => I (i + 1)) hI fun i q b hq hi => ?_
      have := hb (i + 1) q b hq hi
      rwa [show j + (i + 1) = j + 1 + i by omega] at this
    · rw [Nat.add_zero] at he
      exact .inr ⟨e, by simp only [he, bind, Except.bind], hE⟩

/-- A scan of an array without a NULL ends outside of it, if it does not end before. -/
theorem scanSlots_full {σ : Type} (body : ℕ → Ptr → σ → Except Halt σ) (ps : List Ptr)
    (I : σ → Prop) {j : ℕ} {a : σ} (h0 : I a)
    (h : ∀ i p a, ps[i]? = some p → I a → ∃ a', body (j + i) p a = .ok a' ∧ I a') :
    scanSlots body (ps.map some) j a = fail (.textIndex (j + ps.length : ℕ)) := by
  induction ps generalizing j a with
  | nil => rfl
  | cons p ps ih =>
    obtain ⟨a', ha, hI⟩ := h 0 p a rfl h0
    rw [Nat.add_zero] at ha
    simp only [List.map_cons, scanSlots, ha, bind, Except.bind]
    rw [ih hI fun i q b hq hi => ?_, List.length_cons, Nat.add_right_comm, Nat.add_assoc]
    obtain ⟨b', hb, hI⟩ := h (i + 1) q b hq hi
    exact ⟨b', by rw [← hb, Nat.add_assoc, Nat.add_comm 1], hI⟩

theorem Rep.showText (H : Rep zt s ps ls qs log) (hk : ls.length ≤ 255) :
    ∃ out, showText s = .ok out := by
  have hlen := H.length_eq
  have hscan := scanSlots_rule (showRound s) (fun _ => False) (k := 256 - ps.length)
    (by omega) ps (I := fun _ _ => True) (j := 0) (a := []) trivial fun i p out hp _ => by
      obtain ⟨l, b, -, hb, hbl⟩ := H.lines_holds.exists_block hp
      exact .inl ⟨_, by simp only [showRound, strAt_eq hb hbl, bind, Except.bind]; rfl, trivial⟩
  obtain ⟨out, ho, -⟩ | ⟨e, -, he⟩ := hscan
  · rw [Xv6Editor.showText, H.text_eq, slots, ho]
    exact ⟨_, rfl⟩
  · exact he.elim

end Xv6Editor
