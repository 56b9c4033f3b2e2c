import Mathlib.Data.List.Basic

set_option autoImplicit false

/-!
# Foundation: reading by lines

`readline` of a stream, with a bound on the length of a line, and the loop that reads lines until
the stream ends.  Lines that are short enough and hold no separator are read back one by one.
-/

namespace PortRag.Foundation

variable {α : Type} [DecidableEq α]

/-- The next line with its separator, at most `size` long, and what is left. -/
def readline (stop : α) : Nat → List α → List α × List α
  | 0, rest => ([], rest)
  | _ + 1, [] => ([], [])
  | size + 1, a :: rest =>
      if a = stop then ([a], rest)
      else ((a :: (readline stop size rest).1), (readline stop size rest).2)

/-- The lines up to the first empty one, `fuel` lines at most. -/
def readlines (stop : α) (size : Nat) : Nat → List α → List (List α)
  | 0, _ => []
  | fuel + 1, content =>
      if (readline stop size content).1 = [] then []
      else (readline stop size content).1 :: readlines stop size fuel (readline stop size content).2

variable {stop : α} {size : Nat}

theorem readline_line {line : List α} (hstop : stop ∉ line) (hsize : line.length < size)
    (rest : List α) : readline stop size (line ++ stop :: rest) = (line ++ [stop], rest) := by
  induction line generalizing size with
  | nil =>
      obtain ⟨size, rfl⟩ := Nat.exists_eq_succ_of_ne_zero (Nat.ne_of_gt hsize)
      rw [List.nil_append, readline, if_pos rfl]
      rfl
  | cons a line ih =>
      obtain ⟨size, rfl⟩ := Nat.exists_eq_succ_of_ne_zero (Nat.ne_of_gt (Nat.zero_lt_of_lt hsize))
      rw [List.mem_cons, not_or] at hstop
      have hrest : readline stop size (line ++ stop :: rest) = (line ++ [stop], rest) :=
        ih hstop.2 (by simpa using hsize)
      rw [List.cons_append, readline, if_neg (fun h => hstop.1 h.symm), hrest]
      rfl

/-- Lines that were written are read back. -/
theorem readlines_lines {lines : List (List α)}
    (h : ∀ line ∈ lines, stop ∉ line ∧ line.length < size) {fuel : Nat}
    (hfuel : lines.length < fuel) :
    readlines stop size fuel (lines.flatMap (fun line => line ++ [stop])) =
      lines.map (fun line => line ++ [stop]) := by
  induction lines generalizing fuel with
  | nil =>
      obtain ⟨fuel, rfl⟩ := Nat.exists_eq_succ_of_ne_zero (Nat.ne_of_gt hfuel)
      have hnone : (readline stop size ([] : List α)).1 = [] := by cases size <;> rfl
      rw [List.flatMap_nil, readlines, if_pos hnone]
      rfl
  | cons line lines ih =>
      obtain ⟨fuel, rfl⟩ := Nat.exists_eq_succ_of_ne_zero (Nat.ne_of_gt (Nat.zero_lt_of_lt hfuel))
      obtain ⟨hstop, hsize⟩ := h line List.mem_cons_self
      have hread := readline_line hstop hsize (lines.flatMap (fun line => line ++ [stop]))
      have hrest : readlines stop size fuel (lines.flatMap (fun line => line ++ [stop])) =
          lines.map (fun line => line ++ [stop]) :=
        ih (fun l hl => h l (List.mem_cons_of_mem _ hl)) (by simpa using hfuel)
      rw [List.flatMap_cons, List.append_assoc, List.singleton_append, readlines, hread,
        if_neg (by simp), hrest, List.map_cons]

end PortRag.Foundation
