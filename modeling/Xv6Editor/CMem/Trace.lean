import Mathlib.Control.Monad.Writer

/-!
# Computations with a trace

`Traced τ ε α` is a fallible computation that notes events of type `τ` on its way.  The events noted
before an error are kept.  It is meant for a second version of a program that only adds notes: the
`result` of the second version is that of the first (`result_bind`), and its `events` say what
happened on the way.

* `quiet r` runs a computation without notes, `note e` notes an event.
* `Notes P x` says that every event has `P`; the rules follow the shape of a program.
-/

namespace Xv6Editor

/-- A fallible computation that notes events. -/
def Traced (τ ε : Type) : Type → Type := ExceptT ε (WriterT (List τ) Id)

namespace Traced

variable {τ ε α β : Type}

instance : Monad (Traced τ ε) := inferInstanceAs (Monad (ExceptT ε (WriterT (List τ) Id)))

/-- What was noted, up to the end or to the error. -/
def events (x : Traced τ ε α) : List τ := (WriterT.run (ExceptT.run x)).2

/-- The computation without its notes. -/
def result (x : Traced τ ε α) : Except ε α := (WriterT.run (ExceptT.run x)).1

/-- Note an event. -/
def note (e : τ) : Traced τ ε Unit := ExceptT.lift (tell [e])

/-- A computation without notes. -/
def quiet (r : Except ε α) : Traced τ ε α := ExceptT.mk (pure r)

variable {x : Traced τ ε α} {f : α → Traced τ ε β} {P : τ → Prop}

/-! ### Results and events -/

@[simp] theorem result_pure (a : α) : (pure a : Traced τ ε α).result = .ok a := rfl

@[simp] theorem events_pure (a : α) : (pure a : Traced τ ε α).events = [] := rfl

@[simp] theorem result_note (e : τ) : (note e : Traced τ ε Unit).result = .ok () := rfl

@[simp] theorem events_note (e : τ) : (note e : Traced τ ε Unit).events = [e] := rfl

@[simp] theorem result_quiet (r : Except ε α) : (quiet r : Traced τ ε α).result = r := rfl

@[simp] theorem events_quiet (r : Except ε α) : (quiet r : Traced τ ε α).events = [] := rfl

/-- The notes do not change what is computed. -/
@[simp] theorem result_bind (x : Traced τ ε α) (f : α → Traced τ ε β) :
    (x >>= f).result = x.result >>= fun a => (f a).result :=
  match x with
  | (.ok _, _) => rfl
  | (.error _, _) => rfl

theorem result_bind_ok {a : α} (h : x.result = .ok a) (f : α → Traced τ ε β) :
    (x >>= f).result = (f a).result := by
  rw [result_bind, h]
  rfl

@[simp] theorem result_ite {p : Prop} [Decidable p] (x y : Traced τ ε α) :
    (if p then x else y).result = if p then x.result else y.result :=
  apply_ite result p x y

theorem events_bind_ok {a : α} (h : x.result = .ok a) (f : α → Traced τ ε β) :
    (x >>= f).events = x.events ++ (f a).events :=
  match x, h with
  | (.ok _, _), rfl => rfl

theorem events_bind_error {e : ε} (h : x.result = .error e) (f : α → Traced τ ε β) :
    (x >>= f).events = x.events :=
  match x, h with
  | (.error _, es), rfl => List.append_nil es

@[simp] theorem events_bind_pure (x : Traced τ ε α) (f : α → β) :
    (x >>= fun a => pure (f a)).events = x.events := by
  cases h : x.result with
  | error e => exact events_bind_error h _
  | ok a => rw [events_bind_ok h, events_pure, List.append_nil]

@[simp] theorem events_quiet_bind (r : Except ε α) (f : α → Except ε β) :
    (quiet r >>= fun a => quiet (f a) : Traced τ ε β).events = [] := by
  cases r with
  | error e => rfl
  | ok a => rfl

/-! ### Events with a property -/

/-- Every event has `P`. -/
def Notes (P : τ → Prop) (x : Traced τ ε α) : Prop := ∀ e ∈ x.events, P e

namespace Notes

theorem pure (a : α) : Notes P (Pure.pure a : Traced τ ε α) := by
  intro e he
  cases he

theorem quiet (r : Except ε α) : Notes P (Traced.quiet r : Traced τ ε α) := by
  intro e he
  cases he

theorem note {e : τ} (h : P e) : Notes P (Traced.note e : Traced τ ε Unit) := by
  intro e' he
  rw [events_note, List.mem_singleton] at he
  exact he ▸ h

theorem bind (hx : Notes P x) (hf : ∀ a, x.result = .ok a → Notes P (f a)) :
    Notes P (x >>= f) := by
  intro e he
  cases h : x.result with
  | error err =>
    rw [events_bind_error h] at he
    exact hx e he
  | ok a =>
    rw [events_bind_ok h, List.mem_append] at he
    exact he.elim (hx e) (hf a h e)

theorem ite {p : Prop} [Decidable p] {y : Traced τ ε α} (h : p → Notes P x)
    (h' : ¬p → Notes P y) : Notes P (if p then x else y) := by
  split
  · exact h ‹_›
  · exact h' ‹_›

end Notes

end Traced

end Xv6Editor
