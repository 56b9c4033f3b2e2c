import Mathlib.Logic.Relation
import Mathlib.Order.WellFounded
import PortRag.Foundation.Table

set_option autoImplicit false

/-!
# Foundation: advisory file locks

Tasks that lock files as `flock` does: any number of tasks share a file, or one task has it for
itself.  Which locks a task holds, and which one it waits for, are read off the task, so a system
of tasks has no lock table of its own.

The rules are two.  A system whose tasks lock only what is free keeps them apart.  And where a
rank falls along every edge of the waits-for graph, no tasks wait for one another in a circle, and
behind every task that waits there is one that does not.
-/

namespace PortRag.Foundation

/-- How a task locks a file. -/
inductive LockKind where
  | shared
  | exclusive
  deriving DecidableEq

/-- A lock on a file. -/
structure FileLock (κ : Type) where
  kind : LockKind
  file : κ
  deriving DecidableEq

/-- Two locks that cannot be held together by two tasks. -/
def FileLock.Conflicts {κ : Type} (a b : FileLock κ) : Prop :=
  a.file = b.file ∧ ¬(a.kind = .shared ∧ b.kind = .shared)

instance {κ : Type} [DecidableEq κ] (a b : FileLock κ) : Decidable (a.Conflicts b) :=
  inferInstanceAs (Decidable (_ ∧ _))

theorem FileLock.Conflicts.symm {κ : Type} {a b : FileLock κ} (h : a.Conflicts b) :
    b.Conflicts a :=
  ⟨h.1.symm, fun hshared => h.2 ⟨hshared.2, hshared.1⟩⟩

/-- What a task holds, and what it waits for. -/
structure Locking (τ κ : Type) where
  held : τ → List (FileLock κ)
  wanted : τ → Option (FileLock κ)

section Tasks

variable {τ κ ι : Type} [DecidableEq κ] {key : τ → ι}

/-- The task stands in the way of the lock. -/
def Locking.blocks (L : Locking τ κ) (lock : FileLock κ) (t : τ) : Bool :=
  (L.held t).any (fun own => decide (own.Conflicts lock))

/-- No other task stands in the way of the lock. -/
def Locking.free [DecidableEq ι] (L : Locking τ κ) (tasks : Table ι τ key) (i : ι)
    (lock : FileLock κ) : Bool :=
  tasks.rows.all (fun t => decide (key t = i) || !L.blocks lock t)

/-- No two tasks hold conflicting locks. -/
def Locking.Apart (L : Locking τ κ) (tasks : Table ι τ key) : Prop :=
  ∀ a ∈ tasks.rows, ∀ b ∈ tasks.rows, key a ≠ key b → ∀ lock ∈ L.held a, L.blocks lock b = false

variable {L : Locking τ κ} {tasks : Table ι τ key}

theorem Locking.blocks_iff {lock : FileLock κ} {t : τ} :
    L.blocks lock t = true ↔ ∃ own ∈ L.held t, own.Conflicts lock := by
  unfold Locking.blocks
  rw [List.any_eq_true]
  simp only [decide_eq_true_eq]

theorem Locking.free_iff [DecidableEq ι] {i : ι} {lock : FileLock κ} :
    L.free tasks i lock = true ↔ ∀ t ∈ tasks.rows, key t ≠ i → L.blocks lock t = false := by
  unfold Locking.free
  rw [List.all_eq_true]
  constructor
  · intro h t ht hne
    have hthis := h t ht
    rw [decide_eq_false hne, Bool.false_or, Bool.not_eq_true'] at hthis
    exact hthis
  · intro h t ht
    by_cases hkey : key t = i
    · rw [decide_eq_true hkey, Bool.true_or]
    · rw [h t ht hkey, Bool.not_false, Bool.or_true]

/-- A lock that is held is in nobody's way. -/
theorem Locking.Apart.free [DecidableEq ι] (h : L.Apart tasks) {t : τ} (ht : t ∈ tasks.rows)
    {lock : FileLock κ} (hlock : lock ∈ L.held t) : L.free tasks (key t) lock = true :=
  Locking.free_iff.mpr fun other hother hne => h t ht other hother hne.symm lock hlock

/-- Whoever has a file for itself is the only one with a lock on it. -/
theorem Locking.Apart.alone (h : L.Apart tasks) {a b : τ} (ha : a ∈ tasks.rows) {file : κ}
    (hlock : ⟨.exclusive, file⟩ ∈ L.held a) (hb : b ∈ tasks.rows) (hne : key a ≠ key b) :
    ∀ lock ∈ L.held b, lock.file ≠ file := by
  intro lock hown hfile
  have hblocks : L.blocks ⟨.exclusive, file⟩ b = true :=
    Locking.blocks_iff.mpr ⟨lock, hown, hfile, fun hshared => by cases hshared.2⟩
  exact absurd (hblocks.symm.trans (h a ha b hb hne _ hlock)) (by decide)

theorem Locking.apart_empty : L.Apart (.empty : Table ι τ key) :=
  fun _ ha => absurd ha List.not_mem_nil

/-- Tasks may end. -/
theorem Locking.Apart.keep (h : L.Apart tasks) (p : τ → Bool) : L.Apart (tasks.keep p) :=
  fun a ha b hb => h a (List.mem_filter.mp ha).1 b (List.mem_filter.mp hb).1

/-- A task may go on that holds no more than it did, but for locks that were free. -/
theorem Locking.Apart.set [DecidableEq ι] (h : L.Apart tasks) {t : τ}
    (hheld : ∀ lock ∈ L.held t, (∃ old ∈ tasks.rows, key old = key t ∧ lock ∈ L.held old) ∨
      L.free tasks (key t) lock = true) : L.Apart (tasks.set t) := by
  -- the locks of the task that goes on are in nobody's way
  have hfree : ∀ lock ∈ L.held t, L.free tasks (key t) lock = true := by
    intro lock hlock
    rcases hheld lock hlock with ⟨old, hold, hkey, hown⟩ | hfree
    · rw [← hkey]
      exact h.free hold hown
    · exact hfree
  intro a ha b hb hne lock hlock
  rcases Table.mem_set ha with rfl | hother
  · rcases Table.mem_set hb with hb | hb
    · exact (hne (congrArg key hb).symm).elim
    · exact Locking.free_iff.mp (hfree lock hlock) b hb hne.symm
  · rcases Table.mem_set hb with hb | hb
    · subst hb
      by_contra hblocks
      rw [Bool.not_eq_false, Locking.blocks_iff] at hblocks
      obtain ⟨own, hown, hconflict⟩ := hblocks
      have hapart := Locking.free_iff.mp (hfree own hown) a hother hne
      have hblocked : L.blocks own a = true :=
        Locking.blocks_iff.mpr ⟨lock, hlock, hconflict.symm⟩
      exact absurd (hblocked.symm.trans hapart) (by decide)
    · exact h a hother b hb hne lock hlock

/-! ## Waiting -/

/-- One task waits for a lock that another one holds. -/
def Locking.Waits (L : Locking τ κ) (tasks : Table ι τ key) (a b : τ) : Prop :=
  a ∈ tasks.rows ∧ b ∈ tasks.rows ∧ key a ≠ key b ∧
    ∃ lock, L.wanted a = some lock ∧ L.blocks lock b = true

/-- Where a rank falls along every edge, nobody waits for itself in the end. -/
theorem Locking.not_circular {rank : τ → Nat}
    (hrank : ∀ a b, L.Waits tasks a b → rank b < rank a) (a : τ) :
    ¬Relation.TransGen (L.Waits tasks) a a := by
  have hfalls : ∀ b, Relation.TransGen (L.Waits tasks) a b → rank b < rank a := by
    intro b h
    induction h with
    | single hstep => exact hrank _ _ hstep
    | tail _ hstep ih => exact lt_trans (hrank _ _ hstep) ih
  exact fun h => absurd (hfalls a h) (lt_irrefl _)

/-- Where a rank falls along every edge, a task that waits for nobody is behind every task. -/
theorem Locking.exists_unblocked {rank : τ → Nat}
    (hrank : ∀ a b, L.Waits tasks a b → rank b < rank a) (a : τ) :
    ∃ b, Relation.ReflTransGen (L.Waits tasks) a b ∧ ∀ c, ¬L.Waits tasks b c := by
  induction hn : rank a using Nat.strongRecOn generalizing a with
  | ind n ih =>
      by_cases hblocked : ∃ c, L.Waits tasks a c
      · obtain ⟨c, hc⟩ := hblocked
        obtain ⟨b, hb, hfree⟩ := ih (rank c) (hn ▸ hrank a c hc) c rfl
        exact ⟨b, .head hc hb, hfree⟩
      · exact ⟨a, .refl, fun c hc => hblocked ⟨c, hc⟩⟩

end Tasks

end PortRag.Foundation
