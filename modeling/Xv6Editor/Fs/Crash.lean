import Mathlib.Data.List.Forall2
import Xv6Editor.Fs.Blocks

/-!
# Power failures

The history of a system: it is switched on, it runs transactions one after the other, and at any
moment the power can fail, also while `initlog` is still recovering from the failure before.

* `shows_of_history` : after every history the blocks are those that the transactions that came to
  their end have made, together with some of those that were cut off, each of them as a whole and in
  their order.
-/

namespace Xv6Editor

namespace Fs

/-- The system: it is running, or it is switched off. -/
inductive Sys
  | up (m : Machine)
  | off (disk : Blocks)

variable {α : Type}

/-- What happens to the system. -/
inductive Event (α : Type)
  /-- A transaction comes to its end. -/
  | commit (p : Code α)
  /-- The power fails during a transaction. -/
  | cut (p : Code α)
  /-- The power fails between two transactions. -/
  | fail
  /-- The system is switched on. -/
  | boot
  /-- The power fails while the system recovers. -/
  | bootCut

/-- The code that an event runs. -/
def Event.code : Event α → Option (Code α)
  | .commit p => some p
  | .cut p => some p
  | .fail => none
  | .boot => none
  | .bootCut => none

/-- How an event changes the system.  When the power will fail is not known. -/
inductive Step : Sys → Event α → Sys → Prop
  | commit {p : Code α} {a : α} {m m' : Machine} (h : transaction p m = .ok (a, m')) :
      Step (.up m) (.commit p) (.up m')
  | cut {p : Code α} {m : Machine} {d : Blocks} (h : transaction p m = .error (.crash d)) :
      Step (.up m) (.cut p) (.off d)
  | fail (m : Machine) : Step (.up m) .fail (.off m.disk)
  | boot {d : Blocks} {power : Option ℕ} {m : Machine} (h : initlog (Fs.boot d power) = .ok m) :
      Step (.off d) .boot (.up m)
  | bootCut {d d' : Blocks} {power : Option ℕ}
      (h : initlog (Fs.boot d power) = .error (.crash d')) : Step (.off d) .bootCut (.off d')

/-- A history: events one after the other. -/
inductive History : Sys → List (Event α) → Sys → Prop
  | nil (s : Sys) : History s [] s
  | cons {s s' s'' : Sys} {e : Event α} {es : List (Event α)} (h : Step s e s')
      (hs : History s' es s'') : History s (e :: es) s''

/-- What recovery would make of the system: the blocks `v`. -/
def Shows (sb : Superblock) (v : Blocks) : Sys → Prop
  | .up m => Quiet sb v m
  | .off disk => Durable sb v disk

/-- What a transaction makes of the blocks. -/
def apply (sb : Superblock) (v : Blocks) (p : Code α) : Blocks :=
  match p.run (Txn.exec sb.nlog) (.start v) with
  | .ok (_, t) => t.view
  | .error _ => v

/-- The code keeps to the blocks below the log, and it releases its buffers or panics. -/
structure Sound (sb : Superblock) (v : Blocks) (p : Code α) : Prop where
  home : p.Meets (Home sb) (Txn.exec sb.nlog) (.start v)
  released : EnsuresOr (fun r => r.2.held = ∅) (fun e => ∃ q, e = .panic q)
    (p.run (Txn.exec sb.nlog) (.start v))

/-- The transactions of an event that have taken effect. -/
inductive Event.Effects : Event α → List (Code α) → Prop
  | commit (p : Code α) : Effects (.commit p) [p]
  | cut_lost (p : Code α) : Effects (.cut p) []
  | cut_kept (p : Code α) : Effects (.cut p) [p]
  | fail : Effects .fail []
  | boot : Effects .boot []
  | bootCut : Effects .bootCut []

variable {sb : Superblock} {v d : Blocks} {m m' : Machine} {s s' : Sys} {p : Code α} {a : α}
  {e : Event α} {es : List (Event α)}

/-- A transaction from the blocks `v`: it panics, or all of it happens, or the power fails. -/
theorem Sound.transaction (S : Sound sb v p) (hsb : 1 < sb.start) (Q : Quiet sb v m) :
    EnsuresOr (fun r => Quiet sb (apply sb v p) r.2)
      (fun e => (∃ q, e = .panic q) ∨ ∃ d, e = .crash d ∧
        (Durable sb v d ∨ Durable sb (apply sb v p) d)) (Fs.transaction p m) := by
  have hpower : False → m.power = none := False.elim
  cases hr : p.run (Txn.exec sb.nlog) (.start v) with
  | ok x =>
    obtain ⟨b, t⟩ := x
    have happly : apply sb v p = t.view := by rw [apply, hr]
    rw [happly]
    refine (Q.transaction hsb hpower ⟨hr, S.home⟩ (S.released.1 _ hr)).imp (fun r h => h.2.1) ?_
    rintro e ⟨-, h⟩
    exact .inr h
  | error e =>
    obtain ⟨q, rfl⟩ := S.released.2 e hr
    refine (Q.transaction_error hpower S.home hr).imp (fun _ => False.elim) fun e he => ?_
    rcases he with (h | h) | ⟨-, d, h, D⟩
    · cases h
    · exact .inl ⟨q, h⟩
    · exact .inr ⟨d, h, .inl D⟩

theorem Quiet.durable (Q : Quiet sb v m) : Durable sb v m.disk := by
  refine ⟨Q.super, [], Q.head, Nat.succ_pos _, fun i s hi => ?_, fun s hs _ => Q.home s hs⟩
  cases hi

theorem Step.shows (h : Step s e s') (hsb : 1 < sb.start) (hs : Shows sb v s)
    (hp : ∀ p, e.code = some p → Sound sb v p) :
    ∃ ps, e.Effects ps ∧ Shows sb (ps.foldl (apply sb) v) s' := by
  cases h with
  | commit h => exact ⟨_, .commit _, ((hp _ rfl).transaction hsb hs).1 _ h⟩
  | @cut p m d h =>
    rcases ((hp p rfl).transaction hsb hs).2 _ h with ⟨q, hq⟩ | ⟨d', hd, D⟩
    · cases hq
    · cases hd
      rcases D with D | D
      · exact ⟨_, .cut_lost p, D⟩
      · exact ⟨_, .cut_kept p, D⟩
  | fail m => exact ⟨_, .fail, Quiet.durable hs⟩
  | boot h => exact ⟨_, .boot, ((initlog_spec hsb hs _).1 _ h).1⟩
  | bootCut h =>
    obtain ⟨-, d, hd, D⟩ := (initlog_spec hsb hs _).2 _ h
    cases hd
    exact ⟨_, .bootCut, D⟩

theorem Event.Effects.code {ps : List (Code α)} (h : e.Effects ps) (hp : p ∈ ps) :
    e.code = some p := by
  cases h with
  | commit q => exact congrArg some (List.eq_of_mem_singleton hp).symm
  | cut_kept q => exact congrArg some (List.eq_of_mem_singleton hp).symm
  | cut_lost => cases hp
  | fail => cases hp
  | boot => cases hp
  | bootCut => cases hp

/-! ### Specified code -/

variable {S : Finset ℕ} {v' : Blocks}

theorem Does.sound (h : Does sb S v ∅ p a v' ∅) (hS : S.card ≤ 7) (hn : S.card + 1 < sb.nlog) :
    Sound sb v p ∧ apply sb v p = v' := by
  obtain ⟨t, ⟨hrun, hmeets⟩, ht⟩ := h _ (.start hS hn v)
  refine ⟨⟨hmeets.imp fun _ => Within.home, ?_⟩, ?_⟩
  · rw [hrun]
    exact .ok ht.held
  · rw [apply, hrun]
    exact ht.view

theorem Does.exists_transaction (h : Does sb S v ∅ p a v' ∅) (hS : S.card ≤ 7)
    (hn : S.card + 1 < sb.nlog) (hsb : 1 < sb.start) (Q : Quiet sb v m) (hp : m.power = none) :
    ∃ m', Fs.transaction p m = .ok (a, m') ∧ Quiet sb v' m' ∧ m'.power = none := by
  obtain ⟨hok, herr⟩ := h.transaction hS hn hsb Q fun _ : True => hp
  cases hr : Fs.transaction p m with
  | error e => exact absurd trivial (herr e hr).1
  | ok x =>
    obtain ⟨b, m'⟩ := x
    obtain ⟨rfl, Q', hp'⟩ := hok _ hr
    exact ⟨m', rfl, Q', hp' trivial⟩

theorem Durable.exists_boot (D : Durable sb v d) (hsb : 1 < sb.start) :
    ∃ m, initlog (boot d none) = .ok m ∧ Quiet sb v m ∧ m.power = none := by
  obtain ⟨hok, herr⟩ := initlog_spec hsb D none
  cases hr : initlog (boot d none) with
  | error e => exact absurd rfl (herr e hr).1
  | ok m =>
    obtain ⟨Q, hp⟩ := hok m hr
    exact ⟨m, rfl, Q, hp rfl⟩

/-! ### Histories -/

/-- Whatever the transactions are that keep an invariant `G` of the blocks: after every history the
system shows what the transactions have made of the blocks that came to their end, and some of those
that were cut off. -/
theorem shows_of_history (G : Blocks → Prop) (P : Code α → Prop)
    (hG : ∀ v p, G v → P p → Sound sb v p ∧ G (apply sb v p)) (hsb : 1 < sb.start) (hv : G v)
    (hs : Shows sb v s) (h : History s es s') (hP : ∀ e ∈ es, ∀ p, e.code = some p → P p) :
    ∃ pss, List.Forall₂ Event.Effects es pss ∧
      Shows sb (pss.flatten.foldl (apply sb) v) s' ∧ G (pss.flatten.foldl (apply sb) v) := by
  induction h generalizing v with
  | nil s => exact ⟨[], .nil, hs, hv⟩
  | @cons s s₁ s₂ e es hstep _ ih =>
    rw [List.forall_mem_cons] at hP
    obtain ⟨ps, heff, hs₁⟩ := hstep.shows hsb hs fun p hp => (hG v p hv (hP.1 p hp)).1
    have hv₁ : G (ps.foldl (apply sb) v) := by
      refine List.foldlRecOn ps _ hv fun w hw p hp => ?_
      exact (hG w p hw (hP.1 p (heff.code hp))).2
    obtain ⟨pss, hes, hshow, hend⟩ := ih hv₁ hs₁ hP.2
    refine ⟨ps :: pss, .cons heff hes, ?_⟩
    rw [List.flatten_cons, List.foldl_append]
    exact ⟨hshow, hend⟩

/-- The superblock of `mkfs`. -/
def mkfsSuper : Superblock := ⟨1024, 985, 200, 10⟩

/-- A disk of zeros with a superblock. -/
def blankDisk (sb : Superblock) : Blocks :=
  Function.update (fun _ => Block.zero 512) 1 sb.toSector

theorem durable_blankDisk (sb : Superblock) (hsb : sb.Small) (h : 1 < sb.start) :
    Durable sb (blankDisk sb) (blankDisk sb) := by
  refine ⟨?_, [], ?_, Nat.succ_pos _, fun i s hi => ?_, fun s _ _ => rfl⟩
  · rw [blankDisk, Function.update_self, Superblock.ofSector_toSector hsb]
  · rw [blankDisk, Function.update_of_ne h.ne', getHead, Block.word_zero]
    rfl
  · cases hi

theorem bzero_does (v : Blocks) :
    Does mkfsSuper {40} v ∅ (Code.bzero 40) () (Function.update v 40 (Block.zero 512)) ∅ :=
  .bzero (by decide) (by decide) (Finset.mem_singleton_self 40) (Finset.notMem_empty 40)
    (Nat.zero_le 1)

/-- The system is switched on, a block is cleared, the power fails, it is switched on again. -/
theorem shows_of_history_bzero : ∃ m,
    History (.off (blankDisk mkfsSuper)) [.boot, .commit (Code.bzero 40), .fail, .boot] (.up m) ∧
      ∃ pss, List.Forall₂ Event.Effects
          [.boot, .commit (Code.bzero 40), .fail, .boot] pss ∧
        Shows mkfsSuper (pss.flatten.foldl (apply mkfsSuper) (blankDisk mkfsSuper)) (.up m) ∧
          True := by
  have hsb : 1 < mkfsSuper.start := by decide
  have hlog : ({40} : Finset ℕ).card + 1 < mkfsSuper.nlog := by decide
  have D := durable_blankDisk mkfsSuper (by decide) hsb
  obtain ⟨m₁, h₁, Q₁, hp₁⟩ := D.exists_boot hsb
  obtain ⟨m₂, h₂, Q₂, -⟩ := (bzero_does _).exists_transaction (by decide) hlog hsb Q₁ hp₁
  obtain ⟨m₃, h₃, -, -⟩ := Q₂.durable.exists_boot hsb
  have hist : History (.off (blankDisk mkfsSuper))
      [.boot, .commit (Code.bzero 40), .fail, .boot] (.up m₃) :=
    .cons (.boot h₁) (.cons (.commit h₂) (.cons (.fail m₂) (.cons (.boot h₃) (.nil _))))
  have hs : Shows mkfsSuper (blankDisk mkfsSuper) (.off (blankDisk mkfsSuper)) := D
  refine ⟨m₃, hist, shows_of_history (fun _ => True) (fun p => p = Code.bzero 40) ?_ hsb trivial hs
    hist ?_⟩
  · rintro v p - rfl
    exact ⟨((bzero_does v).sound (by decide) hlog).1, trivial⟩
  · intro e he p hp
    simp at he
    rcases he with rfl | rfl | rfl | rfl <;> cases hp
    rfl

end Fs

end Xv6Editor
