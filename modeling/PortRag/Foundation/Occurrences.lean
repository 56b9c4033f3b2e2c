import Mathlib.Data.List.Basic
import Mathlib.Data.List.Forall2
import Mathlib.Algebra.BigOperators.Group.List.Basic
import Mathlib.Algebra.GroupWithZero.Nat

set_option autoImplicit false

/-!
# Texts inside texts

Texts that occur one behind the other in another text, and a way to count: characters that
separate weigh nothing, all others weigh one.  A text made of pieces weighs what the pieces
weigh, so nothing more can occur in it beside them.
-/

namespace PortRag.Foundation

variable {α : Type}

/-! ## Occurrences -/

/-- The texts occur in the last one, each behind its predecessor. -/
def OccurIn : List (List α) → List α → Prop
  | [], _ => True
  | x :: xs, text => ∃ before after, text = before ++ (x ++ after) ∧ OccurIn xs after

/-- The texts occur in a list of texts, none across two of them. -/
def OccurAmong (xs texts : List (List α)) : Prop :=
  ∃ groups : List (List (List α)), groups.flatten = xs ∧ List.Forall₂ OccurIn groups texts

theorem OccurIn.prepend {xs : List (List α)} {text : List α} (h : OccurIn xs text)
    (before : List α) : OccurIn xs (before ++ text) := by
  cases xs with
  | nil => trivial
  | cons x xs =>
      obtain ⟨first, after, rfl, hrest⟩ := h
      exact ⟨before ++ first, after, (List.append_assoc _ _ _).symm, hrest⟩

theorem OccurIn.append {xs ys : List (List α)} {s t : List α} (hx : OccurIn xs s)
    (hy : OccurIn ys t) : OccurIn (xs ++ ys) (s ++ t) := by
  induction xs generalizing s with
  | nil => exact hy.prepend s
  | cons x xs ih =>
      obtain ⟨before, after, rfl, hrest⟩ := hx
      exact ⟨before, after ++ t, by simp only [List.append_assoc], ih hrest⟩

theorem OccurAmong.append {xs ys ss ts : List (List α)} (hx : OccurAmong xs ss)
    (hy : OccurAmong ys ts) : OccurAmong (xs ++ ys) (ss ++ ts) := by
  obtain ⟨gs, rfl, hgs⟩ := hx
  obtain ⟨hs, rfl, hhs⟩ := hy
  exact ⟨gs ++ hs, List.flatten_append, List.rel_append hgs hhs⟩

/-! ## Weights -/

section Weights

variable (light : α → Bool)

/-- The number of characters that are not light. -/
def weight (text : List α) : Nat := text.countP (fun c => !light c)

/-- The weight of all texts of a list. -/
def weights (texts : List (List α)) : Nat := (texts.map (weight light)).sum

/-- A text with a character that is not light. -/
def heavy (text : List α) : Bool := text.any (fun c => !light c)

theorem weight_append (s t : List α) : weight light (s ++ t) = weight light s + weight light t :=
  List.countP_append

theorem weights_append (xs ys : List (List α)) :
    weights light (xs ++ ys) = weights light xs + weights light ys := by
  simp [weights]

theorem weight_eq_zero {text : List α} : weight light text = 0 ↔ heavy light text = false := by
  rw [weight, heavy, List.countP_eq_zero, List.any_eq_false]

/-- A text is made of the pieces and of light characters. -/
structure MadeOf (xs : List (List α)) (text : List α) : Prop where
  weighs : weights light xs = weight light text
  occur : OccurIn (xs.filter (heavy light)) text

/-- A list of texts is made of the pieces and of light characters. -/
structure AllMadeOf (xs texts : List (List α)) : Prop where
  weighs : weights light xs = weights light texts
  occur : OccurAmong (xs.filter (heavy light)) texts

variable {light}

theorem MadeOf.of_light {text : List α} (h : heavy light text = false) : MadeOf light [] text :=
  ⟨((weight_eq_zero _).mpr h).symm, trivial⟩

theorem MadeOf.single (x : List α) : MadeOf light [x] x := by
  refine ⟨by simp [weights], ?_⟩
  cases hx : heavy light x with
  | true =>
      rw [List.filter_cons_of_pos hx]
      exact ⟨[], [], by simp, trivial⟩
  | false =>
      rw [List.filter_cons_of_neg (by simp [hx])]
      trivial

theorem MadeOf.append {xs ys : List (List α)} {s t : List α} (hx : MadeOf light xs s)
    (hy : MadeOf light ys t) : MadeOf light (xs ++ ys) (s ++ t) := by
  refine ⟨?_, ?_⟩
  · rw [weights_append, weight_append, hx.weighs, hy.weighs]
  · rw [List.filter_append]
    exact hx.occur.append hy.occur

/-- Nothing heavy among the pieces of a light text. -/
theorem MadeOf.filter_eq_nil {xs : List (List α)} {text : List α} (h : MadeOf light xs text)
    (htext : heavy light text = false) : xs.filter (heavy light) = [] := by
  refine List.filter_eq_nil_iff.mpr fun x hx hheavy => ?_
  have hsum : weights light xs = 0 := h.weighs.trans ((weight_eq_zero _).mpr htext)
  have hzero : weight light x = 0 :=
    List.sum_eq_zero_iff_forall_eq_nat.mp hsum _ (List.mem_map_of_mem hx)
  rw [(weight_eq_zero _).mp hzero] at hheavy
  cases hheavy

theorem AllMadeOf.nil : AllMadeOf light [] [] := ⟨rfl, [], rfl, .nil⟩

theorem AllMadeOf.append {xs ys ss ts : List (List α)} (hx : AllMadeOf light xs ss)
    (hy : AllMadeOf light ys ts) : AllMadeOf light (xs ++ ys) (ss ++ ts) := by
  refine ⟨?_, ?_⟩
  · rw [weights_append, weights_append, hx.weighs, hy.weighs]
  · rw [List.filter_append]
    exact hx.occur.append hy.occur

theorem MadeOf.all {xs : List (List α)} {text : List α} (h : MadeOf light xs text) :
    AllMadeOf light xs [text] :=
  ⟨by rw [h.weighs]; simp [weights],
    [xs.filter (heavy light)], by simp, .cons h.occur .nil⟩

/-- A light text may be left out. -/
theorem MadeOf.all_nil {xs : List (List α)} {text : List α} (h : MadeOf light xs text)
    (htext : heavy light text = false) : AllMadeOf light xs [] := by
  refine ⟨?_, ?_⟩
  · rw [h.weighs, (weight_eq_zero _).mpr htext]
    rfl
  · rw [h.filter_eq_nil htext]
    exact ⟨[], rfl, .nil⟩

/-- Joining texts with light separators. -/
theorem MadeOf.join {pieces : List (List (List α))} {texts : List (List α)} {sep : List α}
    (hsep : heavy light sep = false) (h : List.Forall₂ (MadeOf light) pieces texts) :
    MadeOf light pieces.flatten (sep.intercalate texts) := by
  induction h with
  | nil => exact .of_light rfl
  | @cons xs text pieces texts hfirst hrest ih =>
      cases texts with
      | nil =>
          cases hrest
          simpa using hfirst
      | cons t ts =>
          have hsepLight : MadeOf light [] sep := .of_light hsep
          rw [List.flatten_cons, List.intercalate_cons_cons]
          simpa using hfirst.append (hsepLight.append ih)

/-- Texts that are light may be left out before the others are joined, and the join is still made of
all the pieces: the pieces of a light text are light themselves. -/
theorem MadeOf.join_filter {pieces : List (List (List α))} {texts : List (List α)} {sep : List α}
    (keep : List α → Bool) (hkeep : ∀ text, keep text = false → heavy light text = false)
    (hsep : heavy light sep = false) (h : List.Forall₂ (MadeOf light) pieces texts) :
    MadeOf light pieces.flatten (sep.intercalate (texts.filter keep)) := by
  have hkept : ∃ kept, List.Forall₂ (MadeOf light) kept (texts.filter keep) ∧
      weights light kept.flatten = weights light pieces.flatten ∧
      kept.flatten.filter (heavy light) = pieces.flatten.filter (heavy light) := by
    induction h with
    | nil => exact ⟨[], .nil, rfl, rfl⟩
    | @cons xs text pieces texts hfirst _ ih =>
        obtain ⟨kept, hkept, hweighs, hheavy⟩ := ih
        cases htext : keep text with
        | true =>
            refine ⟨xs :: kept, ?_, ?_, ?_⟩
            · rw [List.filter_cons_of_pos htext]
              exact .cons hfirst hkept
            · rw [List.flatten_cons, List.flatten_cons, weights_append, weights_append, hweighs]
            · rw [List.flatten_cons, List.flatten_cons, List.filter_append, List.filter_append,
                hheavy]
        | false =>
            have hlight := hkeep text htext
            refine ⟨kept, ?_, ?_, ?_⟩
            · rw [List.filter_cons_of_neg (by simp [htext])]
              exact hkept
            · rw [List.flatten_cons, weights_append, hfirst.weighs, (weight_eq_zero _).mpr hlight,
                Nat.zero_add, hweighs]
            · rw [List.flatten_cons, List.filter_append, hfirst.filter_eq_nil hlight, hheavy]
              rfl
  obtain ⟨kept, hkept, hweighs, hheavy⟩ := hkept
  have hjoined := MadeOf.join hsep hkept
  exact ⟨hweighs.symm.trans hjoined.weighs, hheavy ▸ hjoined.occur⟩

end Weights

end PortRag.Foundation
