import Mathlib.Logic.Basic

/-!
# Postconditions of fallible computations

`Ensures P r` says that what the computation `r` returns, if it returns, has the property `P`;
`EnsuresOr P E r` says moreover that the error it ends with, if it does not return, has `E`.
The rules follow the shape of a program: `ok` and `error` for its ends, `bind` for a sequence,
`ite` for a branch.
-/

namespace Xv6Editor

universe u

variable {ε : Type*} {α β : Type u} {P : α → Prop} {Q : β → Prop}

/-- The result, if there is one, has `P`. -/
def Ensures (P : α → Prop) (r : Except ε α) : Prop := ∀ a, r = .ok a → P a

namespace Ensures

theorem ok {a : α} (h : P a) : Ensures P (.ok a : Except ε α) := by
  rintro _ ⟨⟩
  exact h

theorem error (e : ε) : Ensures P (.error e) := by
  rintro _ ⟨⟩

theorem bind {r : Except ε α} {f : α → Except ε β} (h : Ensures P r)
    (hf : ∀ a, P a → Ensures Q (f a)) : Ensures Q (r >>= f) := by
  cases r with
  | error e => exact error e
  | ok a => exact hf a (h a rfl)

theorem ite {p : Prop} [Decidable p] {r r' : Except ε α} (h : p → Ensures P r)
    (h' : ¬p → Ensures P r') : Ensures P (if p then r else r') := by
  split
  · exact h ‹_›
  · exact h' ‹_›

/-- A branch before a common continuation. -/
theorem ite_bind {p : Prop} [Decidable p] {r r' : Except ε α} {f : α → Except ε β}
    (h : p → Ensures P r) (h' : ¬p → Ensures P r') (hf : ∀ a, P a → Ensures Q (f a)) :
    Ensures Q (if p then r >>= f else r' >>= f) :=
  .ite (fun hp => (h hp).bind hf) fun hp => (h' hp).bind hf

theorem trivial (r : Except ε α) : Ensures (fun _ => True) r := fun _ _ => True.intro

end Ensures

variable {E : ε → Prop}

/-- The result has `P`, or the error has `E`. -/
def EnsuresOr (P : α → Prop) (E : ε → Prop) (r : Except ε α) : Prop :=
  Ensures P r ∧ ∀ e, r = .error e → E e

namespace EnsuresOr

theorem ok {a : α} (h : P a) : EnsuresOr P E (.ok a) := ⟨.ok h, nofun⟩

theorem error {e : ε} (h : E e) : EnsuresOr P E (.error e) := by
  refine ⟨.error e, ?_⟩
  rintro _ ⟨⟩
  exact h

theorem imp {P' : α → Prop} {E' : ε → Prop} {r : Except ε α} (h : EnsuresOr P E r)
    (hP : ∀ a, P a → P' a) (hE : ∀ e, E e → E' e) : EnsuresOr P' E' r :=
  ⟨fun a ha => hP a (h.1 a ha), fun e he => hE e (h.2 e he)⟩

theorem bind {r : Except ε α} {f : α → Except ε β} (h : EnsuresOr P E r)
    (hf : ∀ a, P a → EnsuresOr Q E (f a)) : EnsuresOr Q E (r >>= f) := by
  cases r with
  | error e => exact error (h.2 e rfl)
  | ok a => exact hf a (h.1 a rfl)

theorem ite {p : Prop} [Decidable p] {r r' : Except ε α} (h : p → EnsuresOr P E r)
    (h' : ¬p → EnsuresOr P E r') : EnsuresOr P E (if p then r else r') := by
  split
  · exact h ‹_›
  · exact h' ‹_›

/-- A branch before a common continuation. -/
theorem ite_bind {p : Prop} [Decidable p] {r r' : Except ε α} {f : α → Except ε β}
    (h : p → EnsuresOr P E r) (h' : ¬p → EnsuresOr P E r') (hf : ∀ a, P a → EnsuresOr Q E (f a)) :
    EnsuresOr Q E (if p then r >>= f else r' >>= f) :=
  .ite (fun hp => (h hp).bind hf) fun hp => (h' hp).bind hf

end EnsuresOr

end Xv6Editor
