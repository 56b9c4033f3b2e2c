import PortRag.Foundation.Trace

set_option autoImplicit false

/-!
# Foundation: row locks without snapshots

A store of rows and the transactions that are open on it.  A statement reads the rows as
they are committed when it runs, so two statements of one transaction may see two states.
A transaction may hold one row, for share or for update; a change of a row is committed by
the transaction that holds it for update.  Rows that do not exist yet are inserted without
a lock.

The rule is that of two-phase locking: while a transaction holds a row, the row stays as it
was when the transaction got hold of it.
-/

namespace PortRag.Foundation

/-- How a transaction holds a row. -/
inductive LockMode where
  | share
  | update
  deriving DecidableEq

/-- Two transactions hold one row only when both share it. -/
def LockMode.Compatible (a b : LockMode) : Prop := a = .share ∧ b = .share

/-- What is committed, and which row each transaction holds. -/
structure Locked (σ ι κ : Type) where
  store : σ
  held : ι → Option (LockMode × κ)

variable {σ ι κ ν : Type}

/-- Transaction `i` may have row `k` in this way now. -/
def Locked.Grants (s : Locked σ ι κ) (i : ι) (mode : LockMode) (k : κ) : Prop :=
  ∀ j other, j ≠ i → s.held j = some (other, k) → other.Compatible mode

/-- One step of one transaction; `view s k` is the row `k` of `s`. -/
inductive LockStep [DecidableEq ι] (view : σ → κ → Option ν) : Locked σ ι κ → Locked σ ι κ → Prop where
  | acquire {s : Locked σ ι κ} {i : ι} {mode : LockMode} {k : κ} (hrow : (view s.store k).isSome)
      (hfree : s.Grants i mode k) :
      LockStep view s ⟨s.store, Function.update s.held i (some (mode, k))⟩
  | commit {s : Locked σ ι κ} {i : ι} {k : κ} {store' : σ} (hheld : s.held i = some (.update, k))
      (hframe : ∀ other, other ≠ k → view store' other = view s.store other) :
      LockStep view s ⟨store', Function.update s.held i none⟩
  | insert {s : Locked σ ι κ} {store' : σ}
      (hframe : ∀ k, (view s.store k).isSome → view store' k = view s.store k) :
      LockStep view s ⟨store', s.held⟩
  | release {s : Locked σ ι κ} {i : ι} :
      LockStep view s ⟨s.store, Function.update s.held i none⟩
  | read {s : Locked σ ι κ} : LockStep view s s

/-- The rows held exist, and only sharers hold a row together. -/
structure Locked.Sound (view : σ → κ → Option ν) (s : Locked σ ι κ) : Prop where
  exists_row : ∀ {i mode k}, s.held i = some (mode, k) → (view s.store k).isSome
  compatible : ∀ {i j mode other k}, i ≠ j → s.held i = some (mode, k) →
    s.held j = some (other, k) → mode.Compatible other

theorem Locked.sound_of_free {view : σ → κ → Option ν} {s : Locked σ ι κ}
    (h : ∀ i, s.held i = none) : s.Sound view where
  exists_row := fun {i _ _} hheld => by rw [h i] at hheld; cases hheld
  compatible := fun {i _ _ _ _} _ hheld => by rw [h i] at hheld; cases hheld

namespace LockStep

variable [DecidableEq ι] {view : σ → κ → Option ν} {s s' : Locked σ ι κ}

/-- A transaction that still holds its row found it as it was. -/
theorem unchanged (h : LockStep view s s') (hs : s.Sound view) {i : ι} {mode mode' : LockMode}
    {k : κ} (hbefore : s.held i = some (mode, k)) (hafter : s'.held i = some (mode', k)) :
    view s'.store k = view s.store k := by
  cases h with
  | acquire => rfl
  | release => rfl
  | read => rfl
  | insert hframe => exact hframe k (hs.exists_row hbefore)
  | @commit j k' store' hheld hframe =>
      by_cases hk : k = k'
      · -- the committing transaction holds `k` for update, so nobody else holds it
        subst hk
        by_cases hij : i = j
        · subst hij
          simp at hafter
        · have hshared := hs.compatible (Ne.symm hij) hheld hbefore
          cases hshared.1
      · exact hframe k hk

/-- Locks stay sound: the rows held exist, and only sharers hold a row together.  A commit may
remove a row that was held, but only its own, which nobody shares with it. -/
theorem sound (h : LockStep view s s') (hs : s.Sound view) : s'.Sound view := by
  obtain ⟨hrow, hshare⟩ := hs
  cases h with
  | read => exact ⟨hrow, hshare⟩
  | insert hframe =>
      refine ⟨fun hheld => ?_, hshare⟩
      rw [hframe _ (hrow hheld)]
      exact hrow hheld
  | release =>
      refine ⟨fun {j mode k} hheld => ?_, fun {j j' mode other k} hne hheld hheld' => ?_⟩
      · simp only [Function.update_apply] at hheld
        split at hheld
        · cases hheld
        · exact hrow hheld
      · simp only [Function.update_apply] at hheld hheld'
        split at hheld
        · cases hheld
        split at hheld'
        · cases hheld'
        exact hshare hne hheld hheld'
  | @commit i k' store' hi hframe =>
      -- what others hold is another row, since `i` holds its row for update
      have hother : ∀ {j mode k}, Function.update s.held i none j = some (mode, k) →
          s.held j = some (mode, k) ∧ k ≠ k' := by
        intro j mode k hheld
        rw [Function.update_apply] at hheld
        split at hheld
        · cases hheld
        · next hj =>
            refine ⟨hheld, fun hk => ?_⟩
            subst hk
            cases (hshare (Ne.symm hj) hi hheld).1
      refine ⟨fun hheld => ?_, fun hne hheld hheld' => ?_⟩
      · obtain ⟨hheld, hk⟩ := hother hheld
        rw [hframe _ hk]
        exact hrow hheld
      · exact hshare hne (hother hheld).1 (hother hheld').1
  | @acquire i mode₀ k₀ hi hfree =>
      refine ⟨fun {j mode k} hheld => ?_, fun {j j' mode other k} hne hheld hheld' => ?_⟩
      · simp only [Function.update_apply] at hheld
        split at hheld
        · cases hheld
          exact hi
        · exact hrow hheld
      · simp only [Function.update_apply] at hheld hheld'
        split at hheld
        · next hj =>
            cases hheld
            rw [if_neg (fun hj' => hne (hj.trans hj'.symm))] at hheld'
            have hcompat := hfree j' other (fun hj' => hne (hj.trans hj'.symm)) hheld'
            exact ⟨hcompat.2, hcompat.1⟩
        · next hj =>
            split at hheld'
            · cases hheld'
              exact hfree j mode hj hheld
            · exact hshare hne hheld hheld'

end LockStep

end PortRag.Foundation
