import Xv6Editor.CMem.Ensures

/-!
# Programs over a machine

`Prog C R α` is a program that reaches the machine below it only by commands: `C` are the commands
and `R c` are the answers to `c`.  Its data and its control flow are those of Lean.  What a command
does to a state is said by an interpretation, and the same program can be run in several of them.

* `Runs P i p s a s'` : in the interpretation `i` the program `p` takes the state `s` to `s'` and
  returns `a`, and its commands have `P`.  The rules follow the shape of a program.
* `Takes P i Pre p a Post` : the same from every state with `Pre`, as a rule for specifications.
* `run_follows` : if every command of one machine is followed by another machine, then so is every
  program.  The second machine may be interrupted on its way.
-/

namespace Xv6Editor

/-- Programs with the commands `C`, which are answered by values of `R`. -/
inductive Prog (C : Type) (R : C → Type) (α : Type) : Type
  | pure (a : α)
  | call (c : C) (k : R c → Prog C R α)

namespace Prog

variable {C : Type} {R : C → Type} {α β σ τ ε ε' : Type} {P : C → Prop}

/-- Sequencing. -/
protected def bind : Prog C R α → (α → Prog C R β) → Prog C R β
  | .pure a, f => f a
  | .call c k, f => .call c fun r => (k r).bind f

instance : Monad (Prog C R) where
  pure := .pure
  bind := Prog.bind

/-- A single command. -/
def command (c : C) : Prog C R (R c) := .call c .pure

/-- Run a program, with `i` for its commands. -/
def run (i : ∀ c, σ → Except ε (R c × σ)) : Prog C R α → σ → Except ε (α × σ)
  | .pure a, s => .ok (a, s)
  | .call c k, s => do
    let x ← i c s
    (k x.1).run i x.2

/-- The commands that are reached have `P`. -/
def Meets (P : C → Prop) (i : ∀ c, σ → Except ε (R c × σ)) : Prog C R α → σ → Prop
  | .pure _, _ => True
  | .call c k, s => P c ∧ ∀ r s', i c s = .ok (r, s') → (k r).Meets P i s'

/-- The program takes `s` to `s'` and returns `a`, and its commands have `P`. -/
def Runs (P : C → Prop) (i : ∀ c, σ → Except ε (R c × σ)) (p : Prog C R α) (s : σ) (a : α)
    (s' : σ) : Prop :=
  p.run i s = .ok (a, s') ∧ p.Meets P i s

variable {i : ∀ c, σ → Except ε (R c × σ)} {s s' s'' : σ} {a : α} {b : β}

theorem Meets.imp {P' : C → Prop} (h : ∀ c, P c → P' c) {p : Prog C R α} (hp : p.Meets P i s) :
    p.Meets P' i s := by
  induction p generalizing s with
  | pure a => trivial
  | call c k ih => exact ⟨h c hp.1, fun r s' hr => ih r (hp.2 r s' hr)⟩

namespace Runs

theorem imp {P' : C → Prop} (h : ∀ c, P c → P' c) {p : Prog C R α} (hp : p.Runs P i s a s') :
    p.Runs P' i s a s' :=
  ⟨hp.1, hp.2.imp h⟩

theorem pure (a : α) (s : σ) : Runs P i (Pure.pure a : Prog C R α) s a s := ⟨rfl, True.intro⟩

theorem call {c : C} {k : R c → Prog C R α} {r : R c} (hc : P c) (h : i c s = .ok (r, s'))
    (hk : Runs P i (k r) s' a s'') : Runs P i (.call c k) s a s'' := by
  refine ⟨?_, hc, fun r₁ s₁ h₁ => ?_⟩
  · rw [run, h]
    exact hk.1
  · cases h.symm.trans h₁
    exact hk.2

theorem command {c : C} {r : R c} (hc : P c) (h : i c s = .ok (r, s')) :
    Runs P i (Prog.command c) s r s' :=
  call hc h (pure r s')

theorem bind {p : Prog C R α} {f : α → Prog C R β} (hp : Runs P i p s a s')
    (hf : Runs P i (f a) s' b s'') : Runs P i (p >>= f) s b s'' := by
  induction p generalizing s with
  | pure a' =>
    cases hp.1
    exact hf
  | call c k ih =>
    obtain ⟨hrun, hc, hk⟩ := hp
    rw [run] at hrun
    cases h : i c s with
    | error e =>
      rw [h] at hrun
      cases hrun
    | ok x =>
      rw [h] at hrun
      exact call hc h (ih x.1 ⟨hrun, hk x.1 x.2 h⟩)

end Runs

/-- From every state with `Pre` the program returns `a`, and then `Post` holds. -/
def Takes (P : C → Prop) (i : ∀ c, σ → Except ε (R c × σ)) (Pre : σ → Prop) (p : Prog C R α)
    (a : α) (Post : σ → Prop) : Prop :=
  ∀ s, Pre s → ∃ s', p.Runs P i s a s' ∧ Post s'

namespace Takes

variable {Pre Mid Post : σ → Prop}

theorem pure (a : α) : Takes P i Pre (Pure.pure a : Prog C R α) a Pre :=
  fun s hs => ⟨s, .pure a s, hs⟩

theorem command {c : C} {r : R c} (hc : P c)
    (h : ∀ s, Pre s → ∃ s', i c s = .ok (r, s') ∧ Post s') :
    Takes P i Pre (Prog.command c) r Post := by
  intro s hs
  obtain ⟨s', hr, hs'⟩ := h s hs
  exact ⟨s', .command hc hr, hs'⟩

theorem bind {p : Prog C R α} {f : α → Prog C R β} (hp : Takes P i Pre p a Mid)
    (hf : Takes P i Mid (f a) b Post) : Takes P i Pre (p >>= f) b Post := by
  intro s hs
  obtain ⟨s₁, hr₁, hs₁⟩ := hp s hs
  obtain ⟨s₂, hr₂, hs₂⟩ := hf s₁ hs₁
  exact ⟨s₂, hr₁.bind hr₂, hs₂⟩

end Takes

/-! ### Two machines -/

/-- What the result `r` of one machine demands of the result `r'` of a machine that follows it:
`Rel` relates the states and `Err` the errors.  The second machine may also be interrupted by an
error with `E`. -/
def Follows (Rel : σ → τ → Prop) (Err : ε → ε' → Prop) (E : ε' → Prop) (r : Except ε (α × σ))
    (r' : Except ε' (α × τ)) : Prop :=
  match r with
  | .ok x => EnsuresOr (fun y => y.1 = x.1 ∧ Rel x.2 y.2) E r'
  | .error e => EnsuresOr (fun _ => False) (fun e' => Err e e' ∨ E e') r'

variable {Rel : σ → τ → Prop} {Err : ε → ε' → Prop} {E : ε' → Prop} {t : τ}
  {j : ∀ c, τ → Except ε' (R c × τ)}

/-- If every command is followed, then so is every program. -/
theorem run_follows
    (h : ∀ c s t, P c → Rel s t → Follows Rel Err E (i c s) (j c t)) (p : Prog C R α)
    (hst : Rel s t) (hp : p.Meets P i s) : Follows Rel Err E (p.run i s) (p.run j t) := by
  induction p generalizing s t with
  | pure a => exact .ok ⟨rfl, hst⟩
  | call c k ih =>
    have hc := h c s t hp.1 hst
    rw [run, run]
    cases hi : i c s with
    | error e =>
      rw [hi] at hc
      exact EnsuresOr.bind hc fun _ hf => hf.elim
    | ok x =>
      rw [hi] at hc
      have hk := hp.2 x.1 x.2 hi
      change Follows Rel Err E ((k x.1).run i x.2) _
      unfold Follows at hc ⊢
      cases hr : (k x.1).run i x.2 with
      | error e =>
        refine EnsuresOr.bind (EnsuresOr.imp hc (fun _ => id) fun _ => .inr) fun y hy => ?_
        have := ih x.1 hy.2 hk
        rw [hr] at this
        exact hy.1 ▸ this
      | ok z =>
        refine EnsuresOr.bind hc fun y hy => ?_
        have := ih x.1 hy.2 hk
        rw [hr] at this
        exact hy.1 ▸ this

end Prog

end Xv6Editor
