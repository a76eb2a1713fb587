import Mathlib.Data.Nat.Notation
import Mathlib.Logic.Function.Basic

/-!
# Ownership

`f x` is the place that `x` owns, or `0` if it owns none.  `Owns f U` says that every place that is
owned is in use and has only one owner.  The rules are for the two changes there are: someone takes
a place that nobody has, or some give their places back.
-/

namespace Xv6Editor

variable {ι : Type*} {f : ι → ℕ} {U U' : ℕ → Prop} {b : ℕ} {x : ι}

/-- The places that are owned are in `U` and have only one owner. -/
structure Owns (f : ι → ℕ) (U : ℕ → Prop) : Prop where
  mem : ∀ x, f x ≠ 0 → U (f x)
  inj : ∀ x y, f x ≠ 0 → f x = f y → x = y

namespace Owns

theorem empty (U : ℕ → Prop) : Owns (fun _ : ι => 0) U :=
  ⟨fun _ h => absurd rfl h, fun _ _ h => absurd rfl h⟩

/-- A place that nobody has is taken. -/
theorem take [DecidableEq ι] (h : Owns f U) (hfree : ∀ y, f y ≠ 0 → f y ≠ b)
    (hU : ∀ c, U c → U' c) (hb : U' b) (hb0 : b ≠ 0) : Owns (Function.update f x b) U' := by
  refine ⟨fun y hy => ?_, fun y z hy hyz => ?_⟩
  · by_cases hyx : y = x
    · rw [hyx, Function.update_self]
      exact hb
    · rw [Function.update_of_ne hyx] at hy ⊢
      exact hU _ (h.mem y hy)
  · by_cases hyx : y = x <;> by_cases hzx : z = x
    · rw [hyx, hzx]
    · rw [hyx, Function.update_self, Function.update_of_ne hzx] at hyz
      exact absurd hyz.symm (hfree z (hyz ▸ hb0))
    · rw [Function.update_of_ne hyx] at hy
      rw [hzx, Function.update_self, Function.update_of_ne hyx] at hyz
      exact absurd hyz (hfree y hy)
    · rw [Function.update_of_ne hyx] at hy
      rw [Function.update_of_ne hyx, Function.update_of_ne hzx] at hyz
      exact h.inj y z hy hyz

/-- Some of the owners give their places back. -/
theorem drop {f' : ι → ℕ} (h : Owns f U) (hf : ∀ x, f' x ≠ 0 → f' x = f x)
    (hU : ∀ x, f' x ≠ 0 → U (f x) → U' (f x)) : Owns f' U' := by
  refine ⟨fun x hx => ?_, fun x y hx hxy => ?_⟩
  · have hx' := hf x hx
    rw [hx']
    exact hU x hx (h.mem x (hx' ▸ hx))
  · have hx' := hf x hx
    have hy' := hf y (hxy ▸ hx)
    exact h.inj x y (hx' ▸ hx) (hx'.symm.trans (hxy.trans hy'))

end Owns

end Xv6Editor
