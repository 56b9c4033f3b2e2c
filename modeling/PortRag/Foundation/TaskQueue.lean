import Mathlib.Data.List.Basic

set_option autoImplicit false

/-!
# Foundation: a queue that counts unfinished tasks

The unbounded queue of an event loop, as far as one thread sees it: entries are put at the
end and taken from the front, every entry counts as unfinished until its consumer reports
it done, and whoever joins the queue is woken when that count falls to zero.  A queue is
balanced when it counts its entries and what its consumers hold.
-/

namespace PortRag.Foundation

/-- The entries, the count of unfinished tasks, and how often that count has fallen to
zero. -/
structure TaskQueue (α : Type) where
  entries : List α
  unfinished : Nat
  woken : Nat
  deriving DecidableEq, Inhabited

namespace TaskQueue

variable {α : Type}

/-- A queue just made. -/
def empty : TaskQueue α := ⟨[], 0, 0⟩

/-- `put_nowait`. -/
def put (q : TaskQueue α) (item : α) : TaskQueue α :=
  { q with entries := q.entries ++ [item], unfinished := q.unfinished + 1 }

/-- `task_done`, which raises when it is called more often than there were tasks. -/
def taskDone (q : TaskQueue α) : Option (TaskQueue α) :=
  if q.unfinished = 0 then none
  else some { q with
    unfinished := q.unfinished - 1
    woken := if q.unfinished = 1 then q.woken + 1 else q.woken }

/-- Every entry taken at once, by `get_nowait`. -/
def drained (q : TaskQueue α) : TaskQueue α := { q with entries := [] }

/-- Reports the items done one after another, putting back those to be kept just before. -/
def requeue (keep : α → Bool) : List α → TaskQueue α → Option (TaskQueue α)
  | [], q => some q
  | item :: rest, q => (if keep item then q.put item else q).taskDone >>= requeue keep rest

/-- The count is that of the entries and of `busy` items that consumers hold. -/
def Balanced (q : TaskQueue α) (busy : Nat) : Prop :=
  q.unfinished = q.entries.length + busy

/-- Between two states of a queue its joiners were woken only if all work was done. -/
def Quiet (q q' : TaskQueue α) : Prop := q'.woken ≠ q.woken → q'.unfinished = 0

theorem balanced_empty : (empty : TaskQueue α).Balanced 0 := rfl

theorem quiet_of_woken {q q' : TaskQueue α} (h : q'.woken = q.woken) : q.Quiet q' :=
  fun hne => absurd h hne

theorem Balanced.put {q : TaskQueue α} {busy : Nat} (h : q.Balanced busy) (item : α) :
    (q.put item).Balanced busy := by
  have hcount : q.unfinished = q.entries.length + busy := h
  simp only [Balanced, TaskQueue.put, List.length_append, List.length_singleton]
  omega

theorem Balanced.taken {q : TaskQueue α} {busy : Nat} {item : α} {rest : List α}
    (h : q.Balanced busy) (hentries : q.entries = item :: rest) :
    ({ q with entries := rest } : TaskQueue α).Balanced (busy + 1) := by
  have hcount : q.unfinished = q.entries.length + busy := h
  simp only [Balanced, hentries, List.length_cons] at hcount ⊢
  omega

theorem Balanced.drained {q : TaskQueue α} {busy : Nat} (h : q.Balanced busy) :
    q.drained.Balanced (q.entries.length + busy) := by
  have hcount : q.unfinished = q.entries.length + busy := h
  simp only [Balanced, TaskQueue.drained, List.length_nil]
  omega

theorem taskDone_entries {q q' : TaskQueue α} (h : q.taskDone = some q') :
    q'.entries = q.entries := by
  unfold taskDone at h
  split at h
  · cases h
  · cases h
    rfl

/-- A queue that counts a held item can be told that it is done. -/
theorem Balanced.taskDone_eq {q : TaskQueue α} {busy : Nat} (h : q.Balanced (busy + 1)) :
    ∃ q', q.taskDone = some q' ∧ q'.entries = q.entries ∧ q'.Balanced busy ∧ q.Quiet q' := by
  have hcount : q.unfinished = q.entries.length + (busy + 1) := h
  have hpos : q.unfinished ≠ 0 := by omega
  refine ⟨_, if_neg hpos, rfl, ?_, ?_⟩
  · show q.unfinished - 1 = q.entries.length + busy
    omega
  · intro hwoken
    by_cases hone : q.unfinished = 1
    · show q.unfinished - 1 = 0
      omega
    · exact absurd (if_neg hone) hwoken

/-- The queue after a requeue: what was in it, then the items kept, in their order. -/
theorem requeue_eq {keep : α → Bool} {items : List α} {q : TaskQueue α} {busy : Nat}
    (h : q.Balanced (items.length + busy)) :
    ∃ q', requeue keep items q = some q' ∧ q'.entries = q.entries ++ items.filter keep ∧
      q'.Balanced busy ∧ q.Quiet q' := by
  induction items generalizing q with
  | nil => exact ⟨q, rfl, by simp, by simpa using h, quiet_of_woken rfl⟩
  | cons item rest ih =>
      have hlength : (item :: rest).length + busy = rest.length + busy + 1 := by
        simp only [List.length_cons]
        omega
      rw [hlength] at h
      by_cases hkeep : keep item
      · obtain ⟨done, hdone, hentries, hbalanced, hquiet⟩ := (h.put item).taskDone_eq
        obtain ⟨q', hq', hentries', hbalanced', hquiet'⟩ := ih hbalanced
        refine ⟨q', ?_, ?_, hbalanced', ?_⟩
        · rw [requeue, if_pos hkeep, hdone]
          exact hq'
        · rw [hentries', hentries, List.filter_cons_of_pos hkeep]
          simp [put]
        · intro hwoken
          have hsame : done.woken = q.woken := by
            by_contra hne
            have hzero := hquiet hne
            have hcount : done.unfinished = done.entries.length + (rest.length + busy) := hbalanced
            rw [hentries, hzero] at hcount
            simp only [put, List.length_append, List.length_singleton] at hcount
            omega
          exact hquiet' (hsame ▸ hwoken)
      · obtain ⟨done, hdone, hentries, hbalanced, hquiet⟩ := h.taskDone_eq
        obtain ⟨q', hq', hentries', hbalanced', hquiet'⟩ := ih hbalanced
        refine ⟨q', ?_, ?_, hbalanced', ?_⟩
        · rw [requeue, if_neg hkeep, hdone]
          exact hq'
        · rw [hentries', hentries, List.filter_cons_of_neg hkeep]
        · intro hwoken
          by_cases hsame : done.woken = q.woken
          · exact hquiet' (hsame ▸ hwoken)
          · have hzero := hquiet hsame
            have hcount : done.unfinished = done.entries.length + (rest.length + busy) := hbalanced
            have hrest : rest = [] := List.eq_nil_of_length_eq_zero (by omega)
            subst hrest
            rw [requeue] at hq'
            cases hq'
            exact hzero

end TaskQueue

end PortRag.Foundation
