import PortRag.Foundation.Except
import Mathlib.Data.List.Sort

set_option autoImplicit false

/-!
# Foundation: simulation of fallible computations

`Follows F R x y` relates a computation `x` to one `y` that it imitates: `x` returns
something related by `R` to what `y` returns, or raises what `y` raises, or raises a failure
of its own, one of `F`.  The relation composes along sequencing, so a function built from
parts that follow theirs follows the function built from those.
-/

namespace PortRag.Foundation

variable {ε α β γ δ : Type}

/-- `x` imitates `y` up to `R` and up to the failures `F`. -/
def Follows (F : ε → Prop) (R : α → β → Prop) (x : Except ε α) (y : Except ε β) : Prop :=
  (∀ a, x = .ok a → ∃ b, y = .ok b ∧ R a b) ∧ ∀ e, x = .error e → F e ∨ y = .error e

namespace Follows

variable {F : ε → Prop} {R : α → β → Prop} {S : γ → δ → Prop}

theorem ok {a : α} {b : β} (h : R a b) : Follows F R (.ok a) (.ok b) :=
  ⟨fun _ ha => ⟨b, rfl, Except.ok.inj ha ▸ h⟩, fun _ he => (by cases he)⟩

theorem pure {a : α} {b : β} (h : R a b) : Follows F R (Pure.pure a) (Pure.pure b) := ok h

theorem error (e : ε) : Follows F R (.error e : Except ε α) (.error e) :=
  ⟨fun _ ha => (by cases ha), fun _ he => .inr (by cases he; rfl)⟩

theorem refl {S : α → α → Prop} (hS : ∀ a, S a a) (x : Except ε α) : Follows F S x x := by
  cases x with
  | error e => exact error e
  | ok a => exact ok (hS a)

/-- A failure of `x`'s own. -/
theorem failed {e : ε} (h : F e) (y : Except ε β) : Follows F R (.error e : Except ε α) y := by
  refine ⟨fun _ ha => (by cases ha), fun e' he => .inl ?_⟩
  cases he
  exact h

/-- Sequences of imitations are imitations. -/
theorem bind {x : Except ε α} {y : Except ε β} {f : α → Except ε γ} {g : β → Except ε δ}
    (hxy : Follows F R x y) (hfg : ∀ a b, R a b → Follows F S (f a) (g b)) :
    Follows F S (x >>= f) (y >>= g) := by
  cases x with
  | error e =>
      rcases hxy.2 e rfl with he | rfl
      · exact failed he _
      · exact error e
  | ok a =>
      obtain ⟨b, rfl, hab⟩ := hxy.1 a rfl
      exact hfg a b hab

theorem map {x : Except ε α} {y : Except ε β} {f : α → γ} {g : β → δ}
    (hxy : Follows F R x y) (hfg : ∀ a b, R a b → S (f a) (g b)) :
    Follows F S (x.map f) (y.map g) := by
  cases x with
  | error e =>
      rcases hxy.2 e rfl with he | rfl
      · exact failed he _
      · exact error e
  | ok a =>
      obtain ⟨b, rfl, hab⟩ := hxy.1 a rfl
      exact ok (hfg a b hab)

theorem mono {F' : ε → Prop} {R' : α → β → Prop} {x : Except ε α} {y : Except ε β}
    (h : Follows F R x y) (hF : ∀ e, F e → F' e) (hR : ∀ a b, R a b → R' a b) :
    Follows F' R' x y := by
  constructor
  · intro a ha
    obtain ⟨b, hb, hab⟩ := h.1 a ha
    exact ⟨b, hb, hR a b hab⟩
  · intro e he
    exact (h.2 e he).imp (hF e) id

/-- A computation imitates its own image. -/
theorem of_map {x : Except ε α} {g : α → β} (h : ∀ a, x = .ok a → R a (g a)) :
    Follows F R x (x.map g) := by
  cases x with
  | error e => exact error e
  | ok a => exact ok (h a rfl)

/-- Translated errors, where there are no failures of `x`'s own. -/
theorem mapError {ε' : Type} {F' : ε' → Prop} {x : Except ε α} {y : Except ε β} {f : ε → ε'}
    (h : Follows F R x y) (hF : ∀ e, ¬F e) : Follows F' R (x.mapError f) (y.mapError f) := by
  cases x with
  | error e =>
      rcases h.2 e rfl with he | rfl
      · exact absurd he (hF e)
      · exact error (f e)
  | ok a =>
      obtain ⟨b, rfl, hab⟩ := h.1 a rfl
      exact ok hab

/-- The result of an imitation, together with where it came from. -/
theorem and_ok {x : Except ε α} {y : Except ε β} (h : Follows F R x y) :
    Follows F (fun a b => R a b ∧ x = .ok a) x y := by
  refine ⟨fun a ha => ?_, h.2⟩
  obtain ⟨b, hb, hab⟩ := h.1 a ha
  exact ⟨b, hb, hab, ha⟩

/-- A loop over related lists, with an imitation at each element. -/
theorem mapM {P : γ → δ → Prop} {f : γ → Except ε α} {g : δ → Except ε β} {xs : List γ}
    {ys : List δ} (hxs : List.Forall₂ P xs ys) (hfg : ∀ x y, P x y → Follows F R (f x) (g y)) :
    Follows F (List.Forall₂ R) (xs.mapM f) (ys.mapM g) := by
  induction hxs with
  | nil => exact pure .nil
  | cons hxy _ ih =>
      rw [List.mapM_cons, List.mapM_cons]
      refine bind (hfg _ _ hxy) (fun a b hab => ?_)
      exact bind ih (fun as bs habs => pure (.cons hab habs))

/-- An imitation of results themselves that has no failures of its own is the same
computation. -/
theorem eq {x y : Except ε α} (h : Follows F Eq x y) (hF : ∀ e, ¬F e) : x = y := by
  cases x with
  | error e =>
      rcases h.2 e rfl with he | hy
      · exact absurd he (hF e)
      · exact hy.symm
  | ok a =>
      obtain ⟨b, hy, rfl⟩ := h.1 a rfl
      exact hy.symm

end Follows

/-- Lists related element by element by equality are equal. -/
theorem eq_of_forall₂_eq {xs ys : List α} (h : List.Forall₂ Eq xs ys) : xs = ys :=
  List.forall₂_eq_eq_eq ▸ h

/-- A list related to another by the graph of a function and a predicate. -/
theorem eq_map_of_forall₂ {P : α → Prop} {f : α → β} {xs : List α} {ys : List β}
    (h : List.Forall₂ (fun x y => P x ∧ y = f x) xs ys) : (∀ x ∈ xs, P x) ∧ ys = xs.map f := by
  obtain ⟨hP, hgraph⟩ := (List.forall₂_and_left xs ys).mp h
  have hmap : List.Forall₂ Eq (xs.map f) ys :=
    List.forall₂_map_left_iff.mpr (hgraph.imp (fun _ _ hxy => hxy.symm))
  exact ⟨hP, (eq_of_forall₂_eq hmap).symm⟩

namespace Follows

variable {F : ε → Prop}

/-- A loop over a list and the loop over its image. -/
theorem mapM_map {R : α → β → Prop} {f : γ → Except ε α} {g : δ → Except ε β} {h : γ → δ}
    {xs : List γ} (hfg : ∀ x ∈ xs, Follows F R (f x) (g (h x))) :
    Follows F (List.Forall₂ R) (xs.mapM f) ((xs.map h).mapM g) := by
  have hxs : List.Forall₂ (fun x y => Follows F R (f x) (g y)) xs (xs.map h) :=
    List.forall₂_map_right_iff.mpr (List.forall₂_same.mpr hfg)
  exact mapM hxs (fun _ _ hxy => hxy)

theorem mapM_map_eq {f : γ → Except ε α} {g : δ → Except ε α} {h : γ → δ} {xs : List γ}
    (hfg : ∀ x ∈ xs, Follows F Eq (f x) (g (h x))) :
    Follows F Eq (xs.mapM f) ((xs.map h).mapM g) :=
  (mapM_map hfg).mono (fun _ he => he) (fun _ _ => eq_of_forall₂_eq)

end Follows

end PortRag.Foundation
