import Mathlib.Data.List.Forall2
import Mathlib.Data.List.Zip

set_option autoImplicit false

/-!
# Foundation: taking successful computations apart

Inversion of `Except` computations: from a successful sequence to its successful steps,
without unfolding the monad.
-/

namespace PortRag.Foundation

variable {ε α β : Type}

theorem bind_eq_ok {x : Except ε α} {f : α → Except ε β} {b : β} :
    (x >>= f) = .ok b ↔ ∃ a, x = .ok a ∧ f a = .ok b := by
  cases x with
  | error e => simp [bind, Except.bind]
  | ok a => simp [bind, Except.bind]

theorem map_eq_ok {x : Except ε α} {f : α → β} {b : β} :
    x.map f = .ok b ↔ ∃ a, x = .ok a ∧ f a = b := by
  cases x with
  | error e => simp [Except.map]
  | ok a => simp [Except.map]

theorem mapError_eq_ok {ε' : Type} {x : Except ε α} {f : ε → ε'} {a : α} :
    x.mapError f = .ok a ↔ x = .ok a := by
  cases x with
  | error e => simp [Except.mapError]
  | ok a => simp [Except.mapError]

theorem pure_eq_ok {a b : α} : (pure a : Except ε α) = .ok b ↔ a = b := by
  simp [pure, Except.pure]

theorem exists_of_isOk {x : Except ε α} (h : x.isOk = true) : ∃ a, x = .ok a := by
  cases x with
  | error e => cases h
  | ok a => exact ⟨a, rfl⟩

/-- A failed sequence failed in one of its steps. -/
theorem bind_eq_error {x : Except ε α} {f : α → Except ε β} {e : ε} :
    (x >>= f) = .error e ↔ x = .error e ∨ ∃ a, x = .ok a ∧ f a = .error e := by
  cases x with
  | error e' => simp [bind, Except.bind]
  | ok a => simp [bind, Except.bind]

theorem map_eq_error {x : Except ε α} {f : α → β} {e : ε} :
    x.map f = .error e ↔ x = .error e := by
  cases x with
  | error e' => simp [Except.map]
  | ok a => simp [Except.map]

/-- A failed `mapM` failed on one of its elements. -/
theorem exists_of_mapM_eq_error {f : α → Except ε β} {xs : List α} {e : ε}
    (h : xs.mapM f = .error e) : ∃ x ∈ xs, f x = .error e := by
  induction xs with
  | nil => cases h
  | cons x rest ih =>
      rw [List.mapM_cons, bind_eq_error] at h
      rcases h with h | ⟨y, _, h⟩
      · exact ⟨x, List.mem_cons_self, h⟩
      · rcases bind_eq_error.mp h with h | ⟨ys, _, h⟩
        · obtain ⟨x', hx', hfail⟩ := ih h
          exact ⟨x', List.mem_cons_of_mem _ hx', hfail⟩
        · cases h

/-- A `mapM` that cannot fail is a `map`. -/
theorem mapM_ok_map (f : α → β) (xs : List α) :
    xs.mapM (fun x => (.ok (f x) : Except ε β)) = .ok (xs.map f) := by
  induction xs with
  | nil => rfl
  | cons x rest ih => rw [List.mapM_cons, ih]; rfl

/-- A loop whose every turn succeeds. -/
theorem exists_mapM_ok {f : α → Except ε β} {xs : List α} (h : ∀ x ∈ xs, ∃ y, f x = .ok y) :
    ∃ ys, xs.mapM f = .ok ys := by
  induction xs with
  | nil => exact ⟨[], rfl⟩
  | cons x rest ih =>
      obtain ⟨y, hy⟩ := h x List.mem_cons_self
      obtain ⟨ys, hys⟩ := ih (fun x' hx' => h x' (List.mem_cons_of_mem _ hx'))
      rw [List.mapM_cons, hy, hys]
      exact ⟨y :: ys, rfl⟩

/-- A `mapM` depends on its function at the elements only. -/
theorem mapM_congr {f g : α → Except ε β} {xs : List α} (h : ∀ x ∈ xs, f x = g x) :
    xs.mapM f = xs.mapM g := by
  induction xs with
  | nil => rfl
  | cons x rest ih =>
      have hrest := ih (fun y hy => h y (List.mem_cons_of_mem _ hy))
      rw [List.mapM_cons, List.mapM_cons, h x List.mem_cons_self, hrest]

/-- A successful `mapM` computed each element in its place. -/
theorem mapM_eq_ok {f : α → Except ε β} {xs : List α} {ys : List β} :
    xs.mapM f = .ok ys ↔ List.Forall₂ (fun x y => f x = .ok y) xs ys := by
  induction xs generalizing ys with
  | nil =>
      rw [List.mapM_nil, pure_eq_ok, List.forall₂_nil_left_iff]
      exact eq_comm
  | cons x rest ih =>
      rw [List.mapM_cons, bind_eq_ok, List.forall₂_cons_left_iff]
      constructor
      · rintro ⟨y, hy, h⟩
        obtain ⟨ys', hys', h⟩ := bind_eq_ok.mp h
        exact ⟨y, ys', hy, ih.mp hys', (pure_eq_ok.mp h).symm⟩
      · rintro ⟨y, ys', hy, hys', rfl⟩
        exact ⟨y, hy, bind_eq_ok.mpr ⟨ys', ih.mpr hys', rfl⟩⟩

/-- Pointwise relations between a list and its image under a related `mapM`. -/
theorem Forall₂.comp_mapM {γ : Type} {f : β → Except ε γ} {R : α → β → Prop} {S : α → γ → Prop}
    (hstep : ∀ a b c, R a b → f b = .ok c → S a c) {xs : List α} {ys : List β} {zs : List γ}
    (hR : List.Forall₂ R xs ys) (hf : ys.mapM f = .ok zs) : List.Forall₂ S xs zs := by
  have hzs := mapM_eq_ok.mp hf
  clear hf
  induction hR generalizing zs with
  | nil => cases hzs; exact .nil
  | cons hab _ ih =>
      cases hzs with
      | cons hbc htail => exact .cons (hstep _ _ _ hab hbc) (ih htail)

/-- Every element of the second list is related to one of the first. -/
theorem Forall₂.exists_left {R : α → β → Prop} {xs : List α} {ys : List β}
    (h : List.Forall₂ R xs ys) : ∀ y ∈ ys, ∃ x ∈ xs, R x y := by
  induction h with
  | nil => simp
  | cons hxy _ ih =>
      intro y hy
      rcases List.mem_cons.mp hy with rfl | hy
      · exact ⟨_, List.mem_cons_self, hxy⟩
      · obtain ⟨x, hx, hR⟩ := ih y hy
        exact ⟨x, List.mem_cons_of_mem _ hx, hR⟩

/-- A relation between indexed elements and a second list, with the index moved over to the
second list. -/
theorem Forall₂.zipIdx_swap {R : α → ℕ → β → Prop} {xs : List α} {ys : List β} {k : ℕ}
    (h : List.Forall₂ (fun (x : α × ℕ) y => R x.1 x.2 y) (xs.zipIdx k) ys) :
    List.Forall₂ (fun (y : β × ℕ) x => R x y.2 y.1) (ys.zipIdx k) xs := by
  induction xs generalizing ys k with
  | nil => cases h; exact .nil
  | cons x rest ih =>
      rw [List.zipIdx_cons] at h
      cases h with
      | cons hxy htail =>
          rw [List.zipIdx_cons]
          exact .cons hxy (ih htail)

end PortRag.Foundation
