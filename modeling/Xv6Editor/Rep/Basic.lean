import Xv6Editor.Editor.Main

/-!
# What a state represents

`Rep zt s ps ls qs log` says that the memory of `s` represents the list of lines `ls` and the
undo log `log`: the slots of `text` hold the pointers `ps` and then NULL, the block behind the
`i`-th of them holds the `i`-th line, `command_set[0..upper_bound]` hold the pointers `qs` to the
undo records, and all these blocks are different.  If `zt` holds, the bytes of every line after
its terminator are zero.

The lemmas say what the memory operations of `Editor/State.lean` do to the represented lists, so
that the loops of the commands can be followed on lists.
-/

namespace Xv6Editor

/-- A block that holds the line `l`, with zeros behind it if `zt`. -/
def IsLine (zt : Prop) (b : Block 256) (l : Line) : Prop :=
  0 ∈ b.bytes ∧ b.str = l ∧ (zt → b.bytes = pad 256 l)

/-- The array `text` with the pointers `ps` in it. -/
def slots (ps : List Ptr) : List (Option Ptr) :=
  ps.map some ++ List.replicate (256 - ps.length) none

/-- The state represents the lines `ls` and the undo log `log`. -/
structure Rep (zt : Prop) (s : State) (ps : List Ptr) (ls : List Line) (qs : List Ptr)
    (log : List Line) : Prop where
  text_eq : s.text.toList = slots ps
  length_ps : ps.length ≤ 256
  lines_holds : s.heap.Holds (IsLine zt) ps ls
  commands_eq : s.commandSet.toList.take qs.length = qs.map some
  length_qs : qs.length ≤ 20
  upperBound_eq : s.upperBound = qs.length - 1
  log_holds : s.heap.Holds (IsLine False) qs log
  nodup : (ps ++ qs).Nodup

variable {zt : Prop} {s s' : State} {ps qs : List Ptr} {ls log : List Line} {i : ℕ} {p : Ptr}
  {l c : Line}

/-! ### Lines in blocks -/

theorem IsLine.zero_notMem {b : Block 256} (h : IsLine zt b l) : 0 ∉ l :=
  h.2.1 ▸ b.zero_notMem_str

theorem IsLine.length_lt {b : Block 256} (h : IsLine zt b l) : l.length < 256 :=
  h.2.1 ▸ Block.length_str_lt h.1

theorem IsLine.mono {zt' : Prop} {b : Block 256} (h : IsLine zt b l) (hz : zt' → zt) :
    IsLine zt' b l :=
  ⟨h.1, h.2.1, fun h' => h.2.2 (hz h')⟩

theorem isLine_zero (zt : Prop) : IsLine zt (Block.zero 256) [] :=
  ⟨List.mem_replicate.2 ⟨by decide, rfl⟩,
    by rw [Block.str, Block.bytes_zero, cstr_pad List.not_mem_nil (by decide)],
    fun _ => Block.bytes_zero⟩

/-- `strcpy` into a block; the bytes behind the string are zero if they were before. -/
theorem isLine_strcpy (zt : Prop) {b : Block 256} (hc : 0 ∉ c) (hlen : c.length < 256)
    (hz : zt → b.bytes = pad 256 []) :
    ∃ b', Block.ofBytes 256 (strcpy b.bytes c) = some b' ∧ IsLine zt b' c := by
  have hl : (strcpy b.bytes c).length = 256 := by
    rw [length_strcpy (by rw [b.length_bytes]; exact hlen), b.length_bytes]
  refine ⟨⟨_, hl⟩, Block.ofBytes_of_length hl, zero_mem_strcpy _ _, cstr_strcpy _ hc, fun h => ?_⟩
  change strcpy b.bytes c = _
  rw [hz h, strcpy_pad_nil hlen]

/-! ### Slots -/

theorem length_slots (h : ps.length ≤ 256) : (slots ps).length = 256 := by
  simp [slots, h]

theorem getElem?_slots (hi : i < 256) (h : ps.length ≤ 256) : (slots ps)[i]? = some ps[i]? := by
  rcases Nat.lt_or_ge i ps.length with hlt | hge
  · rw [slots, List.getElem?_append_left (by simpa using hlt), List.getElem?_map,
      List.getElem?_eq_getElem hlt]
    rfl
  · rw [slots, List.getElem?_append_right (by simpa using hge), List.length_map,
      List.getElem?_replicate_of_lt (by omega), List.getElem?_eq_none hge]

theorem findIdx_slots (ps : List Ptr) : (slots ps).findIdx Option.isNone = ps.length := by
  have h : ∀ k, (ps.map some ++ List.replicate k none).findIdx Option.isNone = ps.length := by
    intro k
    induction ps with
    | nil => cases k <;> simp [List.replicate_succ, List.findIdx_cons]
    | cons p ps ih => simp [List.findIdx_cons, ih]
  exact h _

theorem takeWhile_slots (ps : List Ptr) :
    ((slots ps).takeWhile Option.isSome).filterMap id = ps := by
  have h : ∀ k, ((ps.map some ++ List.replicate k none).takeWhile Option.isSome).filterMap id
      = ps := by
    intro k
    induction ps with
    | nil => cases k <;> simp [List.replicate_succ]
    | cons p ps ih => simp
  exact h _

theorem slots_set_length (h : ps.length < 256) (p : Ptr) :
    (slots ps).set ps.length (some p) = slots (ps ++ [p]) := by
  obtain ⟨k, hk⟩ : ∃ k, 256 - ps.length = k + 1 := ⟨255 - ps.length, by omega⟩
  have hk' : 256 - (ps.length + 1) = k := by omega
  simp [slots, hk, hk', List.replicate_succ, List.set_append_right]

theorem slots_set_lt (hi : i < ps.length) (p : Ptr) :
    (slots ps).set i (some p) = slots (ps.set i p) := by
  rw [slots, List.set_append_left _ _ (by simpa using hi)]
  simp [slots, List.map_set]

theorem slots_concat_set (h : ps.length < 256) (p : Ptr) :
    (slots (ps ++ [p])).set ps.length none = slots ps := by
  obtain ⟨k, hk⟩ : ∃ k, 256 - ps.length = k + 1 := ⟨255 - ps.length, by omega⟩
  have hk' : 256 - (ps.length + 1) = k := by omega
  simp [slots, hk, hk', List.replicate_succ, List.set_append_right]

/-! ### Memory operations -/

theorem putBytes_eq {bs : List UInt8} {b : Block 256} {h : Heap (Block 256)}
    (hb : Block.ofBytes 256 bs = some b) (hs : s.heap.store p b = some h) :
    s.putBytes p bs = .ok { s with heap := h } := by
  simp [State.putBytes, hb, hs]

theorem memset_eq {h : Heap (Block 256)} (hs : s.heap.store p (Block.zero 256) = some h) :
    s.memset p = .ok { s with heap := h } :=
  putBytes_eq (Block.ofBytes_of_length (Block.zero 256).length_bytes) hs

theorem strcpy_ok {b b' : Block 256} {h : Heap (Block 256)} (hp : s.heap.get p = some b)
    (hb : Block.ofBytes 256 (strcpy b.bytes c) = some b') (hs : s.heap.store p b' = some h) :
    s.strcpy p c = .ok { s with heap := h } := by
  simp only [State.strcpy, State.block, hp]
  exact putBytes_eq hb hs

theorem strAt_eq {b : Block 256} (hp : s.heap.get p = some b) (hb : IsLine zt b l) :
    s.strAt p 0 = .ok l := by
  have h0 : 0 ∈ b.bytes.drop 0 := hb.1
  simp only [State.strAt, State.block, hp, bind, Except.bind, if_pos h0]
  exact congrArg _ hb.2.1

theorem slot_of_text (ht : s.text.toList = slots ps) (hps : ps.length ≤ 256) (hi : i < 256) :
    s.slot i = .ok ps[i]? := by
  have h : s.text[i]? = some ps[i]? := by
    rw [← Vector.getElem?_toList, ht, getElem?_slots hi hps]
  simp only [State.slot, h]

theorem slotPtr_of_text (ht : s.text.toList = slots ps) (hps : ps.length ≤ 256)
    (hp : ps[i]? = some p) : s.slotPtr i = .ok p := by
  have hi : i < 256 := by
    obtain ⟨h, -⟩ := List.getElem?_eq_some_iff.1 hp
    omega
  simp only [State.slotPtr, slot_of_text ht hps hi, hp, bind, Except.bind]

theorem slotStr_of_text (ht : s.text.toList = slots ps) (hps : ps.length ≤ 256)
    (hp : ps[i]? = some p) {b : Block 256} (hb : s.heap.get p = some b) (hl : IsLine zt b l) :
    s.slotStr i = .ok (l, s) := by
  have hi : i < 256 := by
    obtain ⟨h, -⟩ := List.getElem?_eq_some_iff.1 hp
    omega
  simp only [State.slotStr, slot_of_text ht hps hi, hp, bind, Except.bind, strAt_eq hb hl]

theorem setSlot_eq (hi : i < 256) (o : Option Ptr) :
    s.setSlot i o = .ok { s with text := s.text.set i o } := dif_pos hi

namespace Rep

theorem congr (H : Rep zt s ps ls qs log) (ht : s'.text = s.text) (hh : s'.heap = s.heap)
    (hc : s'.commandSet = s.commandSet) (hu : s'.upperBound = s.upperBound) :
    Rep zt s' ps ls qs log where
  text_eq := by rw [ht, H.text_eq]
  length_ps := H.length_ps
  lines_holds := by rw [hh]; exact H.lines_holds
  commands_eq := by rw [hc, H.commands_eq]
  length_qs := H.length_qs
  upperBound_eq := by rw [hu, H.upperBound_eq]
  log_holds := by rw [hh]; exact H.log_holds
  nodup := H.nodup

theorem length_eq (H : Rep zt s ps ls qs log) : ps.length = ls.length := H.lines_holds.1

theorem length_log (H : Rep zt s ps ls qs log) : qs.length = log.length := H.log_holds.1

theorem nodup_ps (H : Rep zt s ps ls qs log) : ps.Nodup := (List.nodup_append.1 H.nodup).1

theorem nodup_qs (H : Rep zt s ps ls qs log) : qs.Nodup := (List.nodup_append.1 H.nodup).2.1

theorem ne_of_mem (H : Rep zt s ps ls qs log) {q : Ptr} (hp : p ∈ ps) (hq : q ∈ qs) : p ≠ q :=
  (List.nodup_append.1 H.nodup).2.2 p hp q hq

theorem mono {zt' : Prop} (H : Rep zt s ps ls qs log) (hz : zt' → zt) :
    Rep zt' s ps ls qs log :=
  { H with
    lines_holds := ⟨H.lines_holds.1, fun i p x hp hx =>
      let ⟨b, hb, hl⟩ := H.lines_holds.2 i p x hp hx
      ⟨b, hb, hl.mono hz⟩⟩ }

theorem line_spec (H : Rep zt s ps ls qs log) (hl : l ∈ ls) : 0 ∉ l ∧ l.length < 256 := by
  obtain ⟨i, hi⟩ := List.mem_iff_getElem?.1 hl
  obtain ⟨hlt, -⟩ := List.getElem?_eq_some_iff.1 hi
  rw [← H.length_eq] at hlt
  obtain ⟨b, -, hb⟩ := H.lines_holds.2 i _ l (List.getElem?_eq_getElem hlt) hi
  exact ⟨hb.zero_notMem, hb.length_lt⟩

theorem getLineNumber_eq (H : Rep zt s ps ls qs log) :
    getLineNumber s.text = ls.length - 1 := by
  rw [getLineNumber, H.text_eq, findIdx_slots, H.length_eq]

theorem slot_eq (H : Rep zt s ps ls qs log) (hi : i < 256) : s.slot i = .ok ps[i]? :=
  slot_of_text H.text_eq H.length_ps hi

theorem exists_ptr (H : Rep zt s ps ls qs log) (hi : i < ls.length) : ∃ p, ps[i]? = some p :=
  ⟨_, List.getElem?_eq_getElem (H.length_eq ▸ hi)⟩

theorem slotPtr_eq (H : Rep zt s ps ls qs log) (hp : ps[i]? = some p) : s.slotPtr i = .ok p :=
  slotPtr_of_text H.text_eq H.length_ps hp

theorem strAt_line (H : Rep zt s ps ls qs log) (hp : ps[i]? = some p) (hl : ls[i]? = some l) :
    s.strAt p 0 = .ok l := by
  obtain ⟨b, hb, hb'⟩ := H.lines_holds.2 i p l hp hl
  exact strAt_eq hb hb'

theorem slotStr_eq (H : Rep zt s ps ls qs log) (hl : ls[i]? = some l) :
    s.slotStr i = .ok (l, s) := by
  obtain ⟨hlt, -⟩ := List.getElem?_eq_some_iff.1 hl
  obtain ⟨p, hp⟩ := H.exists_ptr hlt
  obtain ⟨b, hb, hb'⟩ := H.lines_holds.2 i p l hp hl
  exact slotStr_of_text H.text_eq H.length_ps hp hb hb'

theorem slotStr_null (H : Rep zt s ps ls qs log) (hi : ls.length ≤ i) (hi' : i < 256) :
    s.slotStr i = .ok (s.page0, { s with nullReads := s.nullReads ++ [i] }) := by
  have hp : ps[i]? = none := List.getElem?_eq_none (by rw [H.length_eq]; exact hi)
  simp only [State.slotStr, H.slot_eq hi', hp, bind, Except.bind]

theorem store_line (H : Rep zt s ps ls qs log) (hp : ps[i]? = some p) {b : Block 256}
    {h : Heap (Block 256)} (hs : s.heap.store p b = some h) (hb : IsLine zt b c) :
    Rep zt { s with heap := h } ps (ls.set i c) qs log where
  text_eq := H.text_eq
  length_ps := H.length_ps
  lines_holds := H.lines_holds.store H.nodup_ps hp hs hb
  commands_eq := H.commands_eq
  length_qs := H.length_qs
  upperBound_eq := H.upperBound_eq
  log_holds := H.log_holds.store_of_notMem
    (fun hq => H.ne_of_mem (List.mem_of_getElem? hp) hq rfl) hs
  nodup := H.nodup

/-- `memset(text[i], 0, MAX_LINE_LENGTH)` empties line `i`. -/
theorem memsetSlot (H : Rep zt s ps ls qs log) (hi : i < ls.length) :
    ∃ h, s.memsetSlot i = .ok { s with heap := h } ∧
      Rep zt { s with heap := h } ps (ls.set i []) qs log := by
  obtain ⟨p, hp⟩ := H.exists_ptr hi
  obtain ⟨-, b, -, hb, -⟩ := H.lines_holds.exists_block hp
  obtain ⟨h, hs⟩ := Heap.exists_store hb (Block.zero 256)
  refine ⟨h, ?_, H.store_line hp hs (isLine_zero zt)⟩
  simp only [State.memsetSlot, H.slotPtr_eq hp, bind, Except.bind, memset_eq hs]

/-- `strcpy(text[i], c)` sets line `i`; over an empty line it keeps the bytes behind it zero. -/
theorem strcpySlot (H : Rep zt s ps ls qs log) (hi : i < ls.length) (hc : 0 ∉ c)
    (hlen : c.length < 256) (hz : zt → ls[i]? = some []) :
    ∃ h, s.strcpySlot i c = .ok { s with heap := h } ∧
      Rep zt { s with heap := h } ps (ls.set i c) qs log := by
  obtain ⟨p, hp⟩ := H.exists_ptr hi
  obtain ⟨l, b, hl, hb, hbl⟩ := H.lines_holds.exists_block hp
  obtain ⟨b', hb', hbc⟩ := isLine_strcpy zt (b := b) hc hlen fun h => by
    rw [hz h] at hl
    cases hl
    exact hbl.2.2 h
  obtain ⟨h, hs⟩ := Heap.exists_store hb b'
  refine ⟨h, ?_, H.store_line hp hs hbc⟩
  simp only [State.strcpySlot, H.slotPtr_eq hp, bind, Except.bind, strcpy_ok hb hb' hs]

theorem memset_strcpy (H : Rep zt s ps ls qs log) (hi : i < ls.length) (hc : 0 ∉ c)
    (hlen : c.length < 256) :
    ∃ h h', s.memsetSlot i = .ok { s with heap := h } ∧
      Rep zt { s with heap := h } ps (ls.set i []) qs log ∧
      State.strcpySlot { s with heap := h } i c = .ok { s with heap := h' } ∧
      Rep zt { s with heap := h' } ps (ls.set i c) qs log := by
  obtain ⟨h, hm, H₁⟩ := H.memsetSlot hi
  obtain ⟨h', hc', H₂⟩ := H₁.strcpySlot (i := i) (by simpa using hi) hc hlen (by simp [hi])
  rw [List.set_set] at H₂
  exact ⟨h, h', hm, H₁, hc', H₂⟩

theorem malloc (H : Rep zt s ps ls qs log) : Rep zt s.malloc.2 ps ls qs log where
  text_eq := H.text_eq
  length_ps := H.length_ps
  lines_holds := H.lines_holds.malloc
  commands_eq := H.commands_eq
  length_qs := H.length_qs
  upperBound_eq := H.upperBound_eq
  log_holds := H.log_holds.malloc
  nodup := H.nodup

/-- A new block in the first free slot, once something is stored in it. -/
theorem concat (H : Rep zt s ps ls qs log) (hk : ls.length < 256) {t : Vector (Option Ptr) 256}
    (ht : t.toList = s.text.toList.set ls.length (some s.malloc.1)) {b : Block 256}
    {h : Heap (Block 256)} (hs : s.malloc.2.heap.store s.malloc.1 b = some h)
    (hb : IsLine zt b c) :
    Rep zt { s with text := t, heap := h } (ps ++ [s.malloc.1]) (ls ++ [c]) qs log := by
  have hps : s.malloc.1 ∉ ps := fun hm => Heap.malloc_ne (H.lines_holds.isSome hm) rfl
  have hqs : s.malloc.1 ∉ qs := fun hm => Heap.malloc_ne (H.log_holds.isSome hm) rfl
  have hnd : (ps ++ [s.malloc.1] ++ qs).Nodup := by
    rw [List.append_assoc, List.singleton_append, List.nodup_middle]
    refine List.nodup_cons.2 ⟨?_, H.nodup⟩
    rw [List.mem_append]
    exact fun h => h.elim hps hqs
  exact
    { text_eq := by
        change t.toList = _
        rw [ht, H.text_eq, ← H.length_eq, slots_set_length (by rw [H.length_eq]; exact hk)]
      length_ps := by
        rw [List.length_append, H.length_eq]
        exact hk
      lines_holds := (H.malloc.lines_holds.store_of_notMem hps hs).concat
        (Heap.get_store_self hs) hb
      commands_eq := H.commands_eq
      length_qs := H.length_qs
      upperBound_eq := H.upperBound_eq
      log_holds := H.malloc.log_holds.store_of_notMem hqs hs
      nodup := hnd }

/-- `text[k] = malloc(...)` for the first free slot `k`: the lines can still be read, and clearing
the new block makes it an empty last line. -/
theorem alloc_memset (H : Rep zt s ps ls qs log) (hk : ls.length < 256) :
    ∃ t h₁ h₂, s.malloc.2.setSlot ls.length (some s.malloc.1) =
        .ok { s with text := t, heap := h₁ } ∧
      (∀ i l, ls[i]? = some l → State.slotStr { s with text := t, heap := h₁ } i =
        .ok (l, { s with text := t, heap := h₁ })) ∧
      State.memsetSlot { s with text := t, heap := h₁ } ls.length =
        .ok { s with text := t, heap := h₂ } ∧
      Rep zt { s with text := t, heap := h₂ } (ps ++ [s.malloc.1]) (ls ++ [[]]) qs log := by
  have hlen := H.length_eq
  obtain ⟨h₂, hs⟩ := Heap.exists_store (p := s.malloc.1) (Heap.get_malloc_self (h := s.heap))
    (Block.zero 256)
  have hset : (s.text.set ls.length (some s.malloc.1)).toList = slots (ps ++ [s.malloc.1]) := by
    rw [Vector.toList_set, H.text_eq, ← hlen, slots_set_length (by omega)]
  have hle : (ps ++ [s.malloc.1]).length ≤ 256 := by simp; omega
  refine ⟨s.text.set ls.length (some s.malloc.1), s.malloc.2.heap, h₂, setSlot_eq hk _,
    fun i l hl => ?_, ?_, H.concat hk (Vector.toList_set hk) hs (isLine_zero zt)⟩
  · obtain ⟨hlt, -⟩ := List.getElem?_eq_some_iff.1 hl
    obtain ⟨p, hp⟩ := H.exists_ptr hlt
    obtain ⟨b, hb, hb'⟩ := H.malloc.lines_holds.2 i p l hp hl
    exact slotStr_of_text hset hle (by rw [List.getElem?_append_left (by omega), hp]) hb hb'
  · have hp : (ps ++ [s.malloc.1])[ls.length]? = some s.malloc.1 := by simp [← hlen]
    have hptr := slotPtr_of_text
      (s := { s with text := s.text.set ls.length (some s.malloc.1), heap := s.malloc.2.heap })
      hset hle hp
    simp only [State.memsetSlot, hptr, bind, Except.bind]
    exact memset_eq hs

/-- `free(text[k-1]); text[k-1] = 0;` removes the last line. -/
theorem free_last (H : Rep zt s ps ls qs log) (h0 : 0 < ls.length) :
    ∃ p t h, s.slotPtr (ls.length - 1) = .ok p ∧ s.free p = .ok { s with heap := h } ∧
      State.setSlot { s with heap := h } (ls.length - 1) none =
        .ok { s with text := t, heap := h } ∧
      Rep zt { s with text := t, heap := h } ps.dropLast ls.dropLast qs log ∧
      ps.getLast? = some p ∧ h.get p = none := by
  have hlen := H.length_eq
  have hle := H.length_ps
  obtain ⟨ps', p, rfl⟩ : ∃ ps' p, ps = ps' ++ [p] := by
    rcases List.eq_nil_or_concat ps with rfl | ⟨ps', p, rfl⟩
    · simp at hlen; omega
    · exact ⟨ps', p, by simp⟩
  have hk : ls.length - 1 = ps'.length := by rw [← hlen]; simp
  have hlt : ps'.length < 256 := by simp at hle; omega
  have hp : (ps' ++ [p])[ps'.length]? = some p := by simp
  obtain ⟨-, b, -, hb, -⟩ := H.lines_holds.exists_block hp
  obtain ⟨h, hs⟩ := Heap.exists_free hb
  have hfree : s.free p = .ok { s with heap := h } := by simp [State.free, hs]
  have hnd := H.nodup_ps
  have hp' : p ∉ ps' := by
    rw [List.nodup_append] at hnd
    exact fun hm => hnd.2.2 p hm p (by simp) rfl
  have hq : p ∉ qs := fun hm => H.ne_of_mem (by simp) hm rfl
  rw [hk]
  refine ⟨p, s.text.set ps'.length none, h, H.slotPtr_eq hp, hfree, setSlot_eq hlt _, ?_,
    List.getLast?_concat, Heap.get_free_self hs⟩
  rw [List.dropLast_concat]
  exact
    { text_eq := by
        change (s.text.set ps'.length none).toList = _
        rw [Vector.toList_set, H.text_eq, slots_concat_set hlt]
      length_ps := by omega
      lines_holds := by
        have := H.lines_holds.dropLast
        rw [List.dropLast_concat] at this
        exact this.congr fun q hq => Heap.get_free_of_ne hs (ne_of_mem_of_not_mem hq hp')
      commands_eq := H.commands_eq
      length_qs := H.length_qs
      upperBound_eq := H.upperBound_eq
      log_holds := H.log_holds.congr fun q hq' =>
        Heap.get_free_of_ne hs (ne_of_mem_of_not_mem hq' hq)
      nodup := by
        have := H.nodup
        rw [List.append_assoc, List.singleton_append, List.nodup_middle] at this
        exact (List.nodup_cons.1 this).2 }

end Rep

end Xv6Editor
