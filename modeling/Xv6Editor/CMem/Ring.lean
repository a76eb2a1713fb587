import Mathlib.Data.List.Basic
import Mathlib.Data.Nat.ModEq
import Mathlib.Logic.Function.Basic
import Mathlib.Tactic.NormNum

/-!
# Ring buffers with free-running counters

A buffer of `cap` places is used as a ring: an element with the number `i` stands at `i % cap`.
The numbers are counted in 32 bits and never reset, so they wrap around after `2 ^ 32` elements.
Nothing goes wrong then if `cap` divides `2 ^ 32`.

* `Window cap buf a xs` : the elements with the numbers `a`, `a + 1`, ... are `xs`.
* `Window.push` : a new element at the end of a window that is not full.
* `Ahead r n w` : the counter `w` is `n` ahead of `r`.
-/

namespace Xv6Editor

variable {β : Type*} {cap a b : ℕ} {buf buf' : ℕ → β} {x : β} {xs ys : List β}

/-- From the number `a` on the ring holds `xs`. -/
def Window (cap : ℕ) (buf : ℕ → β) : ℕ → List β → Prop
  | _, [] => True
  | a, x :: xs => buf (a % cap) = x ∧ Window cap buf (a + 1) xs

@[simp] theorem window_nil : Window cap buf a [] := trivial

@[simp] theorem window_cons :
    Window cap buf a (x :: xs) ↔ buf (a % cap) = x ∧ Window cap buf (a + 1) xs :=
  Iff.rfl

theorem window_append :
    Window cap buf a (xs ++ ys) ↔ Window cap buf a xs ∧ Window cap buf (a + xs.length) ys := by
  induction xs generalizing a with
  | nil => simp
  | cons x xs ih =>
    rw [List.cons_append, window_cons, window_cons, ih, and_assoc, List.length_cons,
      Nat.add_right_comm, Nat.add_assoc]

theorem Window.congr (h : Window cap buf a xs)
    (hag : ∀ i < xs.length, buf' ((a + i) % cap) = buf ((a + i) % cap)) :
    Window cap buf' a xs := by
  induction xs generalizing a with
  | nil => trivial
  | cons x xs ih =>
    obtain ⟨hx, hxs⟩ := h
    refine ⟨(hag 0 (Nat.succ_pos _)).trans hx, ih hxs fun i hi => ?_⟩
    have := hag (i + 1) (Nat.succ_lt_succ hi)
    rwa [← Nat.add_assoc, Nat.add_right_comm] at this

/-- A window depends on its number modulo the size of the buffer only. -/
theorem Window.of_mod_eq (h : Window cap buf a xs) (hab : a % cap = b % cap) :
    Window cap buf b xs := by
  induction xs generalizing a b with
  | nil => trivial
  | cons x xs ih =>
    obtain ⟨hx, hxs⟩ := h
    exact ⟨hab ▸ hx, ih hxs (Nat.ModEq.add_right 1 hab)⟩

/-- The elements of a window, read one after the other. -/
theorem Window.map_range (h : Window cap buf a xs) :
    (List.range xs.length).map (fun i => buf ((a + i) % cap)) = xs := by
  induction xs generalizing a with
  | nil => rfl
  | cons x xs ih =>
    obtain ⟨hx, hxs⟩ := h
    rw [List.length_cons, List.range_succ_eq_map, List.map_cons, List.map_map, Nat.add_zero, hx]
    congr 1
    rw [← ih hxs, List.length_map, List.length_range]
    refine List.map_congr_left fun i _ => ?_
    show buf ((a + (i + 1)) % cap) = buf ((a + 1 + i) % cap)
    rw [Nat.add_right_comm, Nat.add_assoc]

theorem Window.push (h : Window cap buf a xs) (hlen : xs.length < cap) (x : β) :
    Window cap (Function.update buf ((a + xs.length) % cap) x) a (xs ++ [x]) := by
  refine window_append.2 ⟨h.congr fun i hi => ?_, Function.update_self .., trivial⟩
  refine Function.update_of_ne (fun hc => ?_) ..
  have hmod : i % cap = xs.length % cap := Nat.ModEq.add_left_cancel' a hc
  rw [Nat.mod_eq_of_lt (hi.trans hlen), Nat.mod_eq_of_lt hlen] at hmod
  exact hi.ne hmod

/-! ### Counters -/

/-- The counter `w` is `n` ahead of `r`. -/
def Ahead (r : UInt32) (n : ℕ) (w : UInt32) : Prop := w = r + UInt32.ofNat n

section Counters

variable {r w e : UInt32} {m n : ℕ}

theorem ahead_zero : Ahead r 0 r := by
  unfold Ahead
  simp

theorem Ahead.trans (h : Ahead r m w) (h' : Ahead w n e) : Ahead r (m + n) e := by
  unfold Ahead at *
  rw [h', h, UInt32.ofNat_add, UInt32.add_assoc]

theorem Ahead.succ (h : Ahead r n w) : Ahead r (n + 1) (w + 1) := h.trans rfl

theorem Ahead.pred (h : Ahead r (n + 1) w) : Ahead r n (w - 1) := by
  unfold Ahead at *
  rw [h, UInt32.ofNat_add, ← UInt32.add_assoc]
  exact UInt32.add_sub_cancel ..

theorem Ahead.tail (h : Ahead r (n + 1) w) : Ahead (r + 1) n w := by
  unfold Ahead at *
  rw [h, Nat.add_comm, UInt32.ofNat_add, ← UInt32.add_assoc]
  rfl

/-- The distance can be computed, also when the counter ahead has wrapped around. -/
theorem Ahead.sub_eq (h : Ahead r n w) : w - r = UInt32.ofNat n := by
  rw [h, UInt32.add_comm, UInt32.add_sub_cancel]

theorem Ahead.eq_add_iff (h : Ahead r n w) (hn : n < 2 ^ 32) {c : UInt32} :
    w = r + c ↔ n = c.toNat := by
  constructor
  · intro hw
    have hc : UInt32.ofNat n = c := by rw [← h.sub_eq, hw, UInt32.add_comm, UInt32.add_sub_cancel]
    rw [← hc, UInt32.toNat_ofNat_of_lt' hn]
  · rintro rfl
    rw [h, UInt32.ofNat_toNat]

theorem Ahead.eq_iff (h : Ahead r n w) (hn : n < 2 ^ 32) : r = w ↔ n = 0 := by
  rw [eq_comm]
  simpa using h.eq_add_iff hn (c := 0)

theorem Ahead.lt_iff (h : Ahead r n w) (hn : n < 2 ^ 32) {c : UInt32} :
    w - r < c ↔ n < c.toNat := by
  rw [h.sub_eq, UInt32.lt_iff_toNat_lt, UInt32.toNat_ofNat_of_lt' hn]

/-- The place of an element in the buffer can be computed, also after wrapping around. -/
theorem Ahead.mod_eq (h : Ahead r n w) (hcap : cap ∣ 2 ^ 32) :
    w.toNat % cap = (r.toNat + n) % cap := by
  rw [h, UInt32.toNat_add, UInt32.toNat_ofNat', Nat.mod_mod_of_dvd _ hcap, Nat.add_mod,
    Nat.mod_mod_of_dvd _ hcap, ← Nat.add_mod]

end Counters

end Xv6Editor
