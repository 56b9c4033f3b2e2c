import Mathlib.Data.List.Basic
import Mathlib.Data.List.Forall2
import Mathlib.Data.List.TakeWhile

set_option autoImplicit false

/-!
# Foundation: pieces and windows

A list cut into pieces of one length, the starts of windows that overlap, and what trimming
takes off a list at both ends.
-/

namespace PortRag.Foundation

variable {α β : Type}

/-- The multiples of a step below a bound. -/
def multiples (n step : Nat) : List Nat :=
  (List.range ((n + step - 1) / step)).map (· * step)

theorem mem_multiples {n step start : Nat} (hstep : 0 < step) :
    start ∈ multiples n step ↔ step ∣ start ∧ start < n := by
  rw [multiples, List.mem_map]
  constructor
  · rintro ⟨i, hi, rfl⟩
    refine ⟨Nat.dvd_mul_left step i, ?_⟩
    have hbound : (i + 1) * step ≤ n + step - 1 :=
      (Nat.le_div_iff_mul_le hstep).mp (List.mem_range.mp hi)
    rw [Nat.succ_mul] at hbound
    omega
  · rintro ⟨⟨i, rfl⟩, hlt⟩
    refine ⟨i, List.mem_range.mpr ?_, Nat.mul_comm i step⟩
    refine (Nat.le_div_iff_mul_le hstep).mpr ?_
    rw [Nat.succ_mul, Nat.mul_comm i step]
    omega

theorem multiples_pairwise {n step : Nat} (hstep : 0 < step) :
    (multiples n step).Pairwise (· < ·) := by
  rw [multiples, List.pairwise_map]
  exact List.pairwise_lt_range.imp (fun h => Nat.mul_lt_mul_of_pos_right h hstep)

/-- A position lies in the window that starts at the last multiple of the step before it. -/
theorem window_of_position {n step width k : Nat} (hstep : 0 < step) (hwidth : step ≤ width)
    (hk : k < n) : k / step * step ∈ multiples n step ∧ k / step * step ≤ k ∧
      k < k / step * step + width := by
  have hle := Nat.div_mul_le_self k step
  have hlt : k < k / step * step + step := by
    have hmod := Nat.mod_lt k hstep
    have hdiv := Nat.div_add_mod k step
    rw [Nat.mul_comm] at hdiv
    omega
  exact ⟨(mem_multiples hstep).mpr ⟨Nat.dvd_mul_left _ _, by omega⟩, hle, by omega⟩

/-! ## Pieces -/

/-- Consecutive pieces of one length make up what they were cut from. -/
theorem flatten_pieces (xs : List α) (size n : Nat) :
    ((List.range n).map (fun i => (xs.drop (i * size)).take size)).flatten = xs.take (n * size) := by
  induction n with
  | zero => simp
  | succ n ih =>
      rw [List.range_succ, List.map_append, List.flatten_append, ih, Nat.succ_mul, List.take_add]
      simp

/-- The pieces of a list, the last of which may be shorter. -/
def pieces (size : Nat) (xs : List α) : List (List α) :=
  (multiples xs.length size).map (fun start => (xs.drop start).take size)

theorem pieces_flatten {size : Nat} (hsize : 0 < size) (xs : List α) :
    (pieces size xs).flatten = xs := by
  have hmap : pieces size xs = (List.range ((xs.length + size - 1) / size)).map
      (fun i => (xs.drop (i * size)).take size) := by
    rw [pieces, multiples, List.map_map]
    rfl
  rw [hmap, flatten_pieces]
  apply List.take_of_length_le
  have hmod := Nat.mod_lt (xs.length + size - 1) hsize
  have hdiv := Nat.div_add_mod (xs.length + size - 1) size
  rw [Nat.mul_comm] at hdiv
  omega

theorem length_of_mem_pieces {size : Nat} (hsize : 0 < size) {xs piece : List α}
    (h : piece ∈ pieces size xs) : 0 < piece.length ∧ piece.length ≤ size := by
  obtain ⟨start, hstart, rfl⟩ := List.mem_map.mp h
  have hlt := ((mem_multiples hsize).mp hstart).2
  rw [List.length_take, List.length_drop]
  omega

/-- Lists that agree in the lengths of their pieces pair up piece by piece. -/
theorem zip_flatten {xss : List (List α)} {yss : List (List β)}
    (h : List.Forall₂ (fun xs ys => ys.length = xs.length) xss yss) :
    xss.flatten.zip yss.flatten = (xss.zip yss).flatMap (fun z => z.1.zip z.2) ∧
      yss.flatten.length = xss.flatten.length := by
  induction h with
  | nil => exact ⟨rfl, rfl⟩
  | cons hlength _ ih =>
      refine ⟨?_, ?_⟩
      · rw [List.flatten_cons, List.flatten_cons, List.zip_append hlength.symm, ih.1]
        rfl
      · rw [List.flatten_cons, List.flatten_cons, List.length_append, List.length_append, hlength,
          ih.2]

/-- A part of a window is a part of the list. -/
theorem append_of_window {xs before mid after : List α} {start width : Nat}
    (h : (xs.drop start).take width = before ++ mid ++ after) :
    xs = xs.take start ++ before ++ mid ++ (after ++ xs.drop (start + width)) := by
  have hsplit : xs = xs.take start ++ ((xs.drop start).take width ++ xs.drop (start + width)) := by
    rw [← List.drop_drop, List.take_append_drop, List.take_append_drop]
  rw [h] at hsplit
  conv_lhs => rw [hsplit]
  simp only [List.append_assoc]

/-! ## Trimming -/

/-- Trimming takes off elements with the property, at the start and at the end. -/
theorem trim_spec (p : α → Bool) (xs : List α) : ∃ before after,
    xs = before ++ ((xs.dropWhile p).reverse.dropWhile p).reverse ++ after ∧
      (∀ x ∈ before, p x = true) ∧ ∀ x ∈ after, p x = true := by
  refine ⟨xs.takeWhile p, ((xs.dropWhile p).reverse.takeWhile p).reverse, ?_, ?_, ?_⟩
  · rw [List.append_assoc, ← List.reverse_append, List.takeWhile_append_dropWhile,
      List.reverse_reverse, List.takeWhile_append_dropWhile]
  · exact fun x hx => List.mem_takeWhile_imp hx
  · exact fun x hx => List.mem_takeWhile_imp (List.mem_reverse.mp hx)

/-- An element without the property stays, where it was. -/
theorem position_of_trim {p : α → Bool} {xs before mid after : List α}
    (h : xs = before ++ mid ++ after) (hbefore : ∀ x ∈ before, p x = true)
    (hafter : ∀ x ∈ after, p x = true) {k : Nat} {x : α} (hk : xs[k]? = some x)
    (hx : p x = false) : before.length ≤ k ∧ k < before.length + mid.length := by
  subst h
  have hin : ∀ part : List α, (∀ y ∈ part, p y = true) → ∀ i : Nat, part[i]? ≠ some x := by
    intro part hpart i hi
    rw [hpart x (List.mem_of_getElem? hi)] at hx
    cases hx
  constructor
  · by_contra hlt
    rw [List.append_assoc, List.getElem?_append_left (by omega)] at hk
    exact hin before hbefore k hk
  · by_contra hlt
    rw [List.getElem?_append_right (by rw [List.length_append]; omega)] at hk
    exact hin after hafter _ hk

end PortRag.Foundation
