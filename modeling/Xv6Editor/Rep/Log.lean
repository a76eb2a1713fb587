import Xv6Editor.Rep.Basic
import Xv6Editor.Doc.Basic

/-!
# The undo log in memory

`record_command` adds a record to `command_set`, in a new block while there are fewer than 20, and
else by moving the strings one block down.  Either way the represented log is `Undo.push 20`.
-/

namespace Xv6Editor

variable {zt : Prop} {s : State} {ps qs : List Ptr} {ls log : List Line} {i : ℕ} {p : Ptr}
  {c r : Line}

namespace Rep

theorem store_other (H : Rep zt s ps ls qs log) (hp : p ∉ ps) (hq : p ∉ qs) {b : Block 256}
    {h : Heap (Block 256)} (hs : s.heap.store p b = some h) :
    Rep zt { s with heap := h } ps ls qs log :=
  { H with
    lines_holds := H.lines_holds.store_of_notMem hp hs
    log_holds := H.log_holds.store_of_notMem hq hs }

theorem malloc_notMem (H : Rep zt s ps ls qs log) : s.malloc.1 ∉ ps ∧ s.malloc.1 ∉ qs :=
  ⟨fun hm => Heap.malloc_ne (H.lines_holds.isSome hm) rfl,
    fun hm => Heap.malloc_ne (H.log_holds.isSome hm) rfl⟩

theorem store_log (H : Rep zt s ps ls qs log) (hp : qs[i]? = some p) {b : Block 256}
    {h : Heap (Block 256)} (hs : s.heap.store p b = some h) (hb : IsLine False b c) :
    Rep zt { s with heap := h } ps ls qs (log.set i c) :=
  { H with
    lines_holds := H.lines_holds.store_of_notMem
      (fun hm => H.ne_of_mem hm (List.mem_of_getElem? hp) rfl) hs
    log_holds := H.log_holds.store H.nodup_qs hp hs hb }

theorem log_spec (H : Rep zt s ps ls qs log) (hr : r ∈ log) : 0 ∉ r ∧ r.length < 256 := by
  obtain ⟨i, hi⟩ := List.mem_iff_getElem?.1 hr
  obtain ⟨hlt, -⟩ := List.getElem?_eq_some_iff.1 hi
  rw [← H.length_log] at hlt
  obtain ⟨b, -, hb⟩ := H.log_holds.2 i _ r (List.getElem?_eq_getElem hlt) hi
  exact ⟨hb.zero_notMem, hb.length_lt⟩

theorem commandPtr_eq (H : Rep zt s ps ls qs log) (hq : qs[i]? = some p) :
    s.commandPtr i = .ok p := by
  obtain ⟨hlt, -⟩ := List.getElem?_eq_some_iff.1 hq
  have h : s.commandSet[i]? = some (some p) := by
    rw [← Vector.getElem?_toList, ← List.getElem?_take_of_lt hlt, H.commands_eq,
      List.getElem?_map, hq]
    rfl
  simp [State.commandPtr, h]

theorem exists_record (H : Rep zt s ps ls qs log) (hi : i < log.length) :
    ∃ q r, qs[i]? = some q ∧ log[i]? = some r ∧ s.commandPtr i = .ok q ∧ s.strAt q 0 = .ok r := by
  have hq : qs[i]? = some _ := List.getElem?_eq_getElem (H.length_log ▸ hi)
  obtain ⟨r, b, hr, hb, hbr⟩ := H.log_holds.exists_block hq
  exact ⟨_, r, hq, hr, H.commandPtr_eq hq, strAt_eq hb hbr⟩

theorem strcpy_log (H : Rep zt s ps ls qs log) (hp : qs[i]? = some p) (hc : 0 ∉ c)
    (hlen : c.length < 256) :
    ∃ h, s.strcpy p c = .ok { s with heap := h } ∧
      Rep zt { s with heap := h } ps ls qs (log.set i c) := by
  obtain ⟨-, b, -, hb, -⟩ := H.log_holds.exists_block hp
  obtain ⟨b', hb', hbc⟩ := isLine_strcpy False (b := b) hc hlen False.elim
  obtain ⟨h, hs⟩ := Heap.exists_store hb b'
  exact ⟨h, strcpy_ok hb hb' hs, H.store_log hp hs hbc⟩

/-! ### Recording -/

/-- The loop that moves the records down, for its last `k` rounds. -/
theorem shiftCommands {k : ℕ} (H : Rep zt s ps ls qs log) (hq : log.length = 20) (hk : k ≤ 19) :
    ∃ h log', shiftCommands k s = .ok { s with heap := h } ∧
      Rep zt { s with heap := h } ps ls qs log' ∧
      ∀ j, log'[j]? = if 19 - k ≤ j ∧ j < 19 then log[j + 1]? else log[j]? := by
  induction k generalizing s log with
  | zero => exact ⟨s.heap, log, rfl, H, fun j => by rw [if_neg (by omega)]⟩
  | succ k ih =>
    have hcast : (19 : ℤ) - k = ((19 - k : ℕ) : ℤ) := by omega
    have hcast' : ((19 - k : ℕ) : ℤ) - 1 = ((18 - k : ℕ) : ℤ) := by omega
    obtain ⟨q, r, -, hr, hpq, hstr⟩ := H.exists_record (i := 19 - k) (by omega)
    obtain ⟨q', -, hq', -, hpq', -⟩ := H.exists_record (i := 18 - k) (by omega)
    obtain ⟨hr0, hr1⟩ := H.log_spec (List.mem_of_getElem? hr)
    obtain ⟨h, hc, H₁⟩ := H.strcpy_log hq' hr0 hr1
    obtain ⟨h', log', hs, H₂, hlog⟩ := ih H₁ (by rw [List.length_set, hq]) (by omega)
    refine ⟨h', log', ?_, H₂, fun j => ?_⟩
    · simp only [Xv6Editor.shiftCommands, hcast, hcast', hpq, hpq', hstr, bind, Except.bind, hc, hs]
    · rw [hlog]
      rcases Nat.lt_trichotomy j (18 - k) with hj | rfl | hj
      · rw [if_neg (by omega), if_neg (by omega), List.getElem?_set_ne (by omega)]
      · rw [if_neg (by omega), if_pos (by omega), List.getElem?_set_self (by omega),
          show 18 - k + 1 = 19 - k by omega, hr]
      · rw [List.getElem?_set_ne (by omega), List.getElem?_set_ne (by omega)]
        congr 1
        exact propext (by omega)

theorem concat_log {q : Ptr} {b : Block 256} (H : Rep zt s ps ls qs log) (hlt : qs.length < 20)
    (hps : q ∉ ps) (hqs : q ∉ qs) (hb : s.heap.get q = some b) (hbc : IsLine False b c) :
    Rep zt { s with
      commandSet := s.commandSet.set qs.length (some q)
      upperBound := s.upperBound + 1 } ps ls (qs ++ [q]) (log ++ [c]) where
  text_eq := H.text_eq
  length_ps := H.length_ps
  lines_holds := H.lines_holds
  commands_eq := by
    have hl : qs.length < s.commandSet.toList.length := by simp; omega
    simp only [Vector.toList_set, List.length_append, List.length_singleton, List.map_append,
      List.map_cons, List.map_nil]
    rw [List.take_add_one, List.getElem?_set_self hl, List.take_set_of_le le_rfl, H.commands_eq]
    rfl
  length_qs := by rw [List.length_append, List.length_singleton]; omega
  upperBound_eq := by
    have := H.upperBound_eq
    simp
    omega
  log_holds := H.log_holds.concat hb hbc
  nodup := by
    rw [← List.append_assoc, List.nodup_append]
    refine ⟨H.nodup, List.nodup_singleton _, ?_⟩
    rintro a ha b hb rfl
    rw [List.mem_singleton] at hb
    subst hb
    exact (List.mem_append.1 ha).elim hps hqs

theorem record_new (H : Rep zt s ps ls qs log) (hq : log.length < 20) (hc : 0 ∉ c)
    (hlen : c.length < 256) :
    ∃ cs h, recordCommand s c =
        .ok { s with commandSet := cs, heap := h, upperBound := s.upperBound + 1 } ∧
      Rep zt { s with commandSet := cs, heap := h, upperBound := s.upperBound + 1 } ps ls
        (qs ++ [s.malloc.1]) (log ++ [c]) := by
  have hu := H.upperBound_eq
  have hlt : qs.length < 20 := H.length_log.trans_lt hq
  obtain ⟨b, hb, hbc⟩ := isLine_strcpy False (b := s.heap.junk s.heap.next) hc hlen
    False.elim
  obtain ⟨h, hs⟩ := Heap.exists_store (Heap.get_malloc_self (h := s.heap)) b
  have hidx : s.upperBound + 1 = (qs.length : ℤ) := by omega
  have hset : s.malloc.2.setCommandPtr (s.upperBound + 1) s.malloc.1 = .ok { s with
      heap := s.heap.malloc.2
      commandSet := s.commandSet.set qs.length (some s.malloc.1) } := by
    rw [hidx]
    exact dif_pos (by omega)
  have hcpy := strcpy_ok (s := { s with
    heap := s.heap.malloc.2
    commandSet := s.commandSet.set qs.length (some s.malloc.1) })
    (Heap.get_malloc_self (h := s.heap)) hb hs
  obtain ⟨hps, hqs⟩ := H.malloc_notMem
  refine ⟨s.commandSet.set qs.length (some s.malloc.1), h, ?_,
    (H.malloc.store_other hps hqs hs).concat_log hlt hps hqs (Heap.get_store_self hs) hbc⟩
  rw [Xv6Editor.recordCommand, if_pos (by omega)]
  change (s.malloc.2.setCommandPtr (s.upperBound + 1) s.malloc.1 >>= _) = _
  rw [hset]
  change (State.strcpy _ s.heap.malloc.1 c >>= _) = _
  rw [hcpy]
  rfl

/-- A record in a full log takes the place of the oldest one. -/
theorem record_full (H : Rep zt s ps ls qs log) (hq : log.length = 20) (hc : 0 ∉ c)
    (hlen : c.length < 256) :
    ∃ h, recordCommand s c = .ok { s with heap := h } ∧
      Rep zt { s with heap := h } ps ls qs (log.drop 1 ++ [c]) := by
  have hu : s.upperBound = 19 := by
    have := H.upperBound_eq
    have := H.length_log
    omega
  obtain ⟨h, log', hs, H₁, hlog⟩ := H.shiftCommands (k := 19) hq le_rfl
  have hlen' : log'.length = 20 := by rw [← H₁.length_log, H.length_log, hq]
  obtain ⟨q, -, hq', -, hpq, -⟩ := H₁.exists_record (i := 19) (by omega)
  obtain ⟨h', hcpy, H₂⟩ := H₁.strcpy_log hq' hc hlen
  have heq : log'.set 19 c = log.drop 1 ++ [c] := by
    apply List.ext_getElem?
    intro j
    rw [List.getElem?_set, hlog]
    rcases Nat.lt_trichotomy j 19 with hj | rfl | hj
    · rw [if_neg (by omega), if_pos (by omega), List.getElem?_append_left (by simp; omega),
        List.getElem?_drop, Nat.add_comm]
    · simp [hlen', hq]
    · rw [if_neg (by omega), if_neg (by omega), List.getElem?_eq_none (by omega),
        List.getElem?_eq_none (by simp; omega)]
  refine ⟨h', ?_, heq ▸ H₂⟩
  have hpq' : State.commandPtr { s with heap := h } s.upperBound = .ok q := by
    rw [hu]
    exact hpq
  rw [Xv6Editor.recordCommand, if_neg (by omega)]
  simp only [bind, Except.bind, hs, hpq', hcpy]
  rw [← hu]

theorem recordCommand (H : Rep zt s ps ls qs log) (hc : 0 ∉ c) (hlen : c.length < 256) :
    ∃ cs h u qs', recordCommand s c =
        .ok { s with commandSet := cs, heap := h, upperBound := u } ∧
      Rep zt { s with commandSet := cs, heap := h, upperBound := u } ps ls qs'
        (Undo.push 20 log c) := by
  have hle : log.length ≤ 20 := H.length_log ▸ H.length_qs
  rcases Nat.lt_or_eq_of_le hle with hlt | heq
  · obtain ⟨cs, h, hr, H'⟩ := H.record_new hlt hc hlen
    rw [Undo.push_of_lt hlt]
    exact ⟨cs, h, _, _, hr, H'⟩
  · obtain ⟨h, hr, H'⟩ := H.record_full heq hc hlen
    rw [Undo.push_of_eq heq (by omega)]
    exact ⟨s.commandSet, h, s.upperBound, qs, hr, H'⟩

/-! ### Taking a record off -/

/-- Lowering `upper_bound` takes the newest record off the log. -/
theorem pop (H : Rep zt s ps ls qs log) (h0 : log ≠ []) :
    Rep zt { s with upperBound := s.upperBound - 1 } ps ls qs.dropLast log.dropLast := by
  have hpos : 0 < qs.length := by rw [H.length_log]; exact List.length_pos_of_ne_nil h0
  exact
    { H with
      commands_eq := by
        rw [List.map_dropLast, ← H.commands_eq, List.length_dropLast, List.dropLast_eq_take,
          List.take_take, List.length_take, Vector.length_toList]
        have := H.length_qs
        congr 1
        omega
      length_qs := by rw [List.length_dropLast]; have := H.length_qs; omega
      upperBound_eq := by
        have := H.upperBound_eq
        simp only [List.length_dropLast]
        omega
      log_holds := H.log_holds.dropLast
      nodup := H.nodup.sublist ((List.dropLast_sublist qs).append_left ps) }

end Rep

end Xv6Editor
