import Mathlib.Data.List.Sort
import PortRag.Foundation.Except

set_option autoImplicit false

/-!
# Foundation: keyset scans

A scan reads a collection in pages: the first `limit` rows after the last key it has seen,
in the order of their keys, until a page is empty.  A visit may change the state, also the
rows it has passed.  When it leaves the rows after the visited one alone, the scan visits
every row of the collection once, in the order of the keys.
-/

namespace PortRag.Foundation

variable {κ ρ σ ε : Type} [LinearOrder κ] (key : ρ → κ)

/-- The rows after a key. -/
def rowsAfter (after : Option κ) (rows : List ρ) : List ρ :=
  rows.filter (fun r => after.all (fun k => k < key r))

/-- The rows after a key, in the order of their keys. -/
def inOrder (after : Option κ) (rows : List ρ) : List ρ :=
  (rowsAfter key after rows).mergeSort (fun a b => key a ≤ key b)

/-- The scan, with a bound on the number of its pages; `spent` is raised when the bound is
reached. -/
def scan (rows : σ → List ρ) (visit : σ → ρ → Except ε σ) (limit : Nat) (spent : ε) :
    Nat → Option κ → σ → Except ε σ
  | 0, _, _ => .error spent
  | fuel + 1, after, s =>
      let page := (inOrder key after (rows s)).take limit
      match page.getLast? with
      | none => .ok s
      | some last => do
          let s' ← page.foldlM visit s
          scan rows visit limit spent fuel (some (key last)) s'

section Order

theorem inOrder_perm (after : Option κ) (rows : List ρ) :
    (inOrder key after rows).Perm (rowsAfter key after rows) :=
  List.mergeSort_perm _ _

theorem inOrder_sorted (after : Option κ) (rows : List ρ) :
    (inOrder key after rows).Pairwise (fun a b => key a ≤ key b) := by
  have hsorted := @List.pairwise_mergeSort _ (fun a b : ρ => decide (key a ≤ key b))
    (fun a b c hab hbc => by
      simp only [decide_eq_true_eq] at hab hbc ⊢
      exact le_trans hab hbc)
    (fun a b => by
      simp only [Bool.or_eq_true, decide_eq_true_eq]
      exact le_total _ _)
    (rowsAfter key after rows)
  exact hsorted.imp (fun h => by simpa using h)

/-- With unique keys the order is strict. -/
theorem inOrder_strict {after : Option κ} {rows : List ρ} (hkeys : (rows.map key).Nodup) :
    (inOrder key after rows).Pairwise (fun a b => key a < key b) := by
  have hsub : (rowsAfter key after rows).Sublist rows := List.filter_sublist
  have hnodup : ((inOrder key after rows).map key).Nodup :=
    ((inOrder_perm key after rows).map key).nodup_iff.mpr ((hsub.map key).nodup hkeys)
  have hne : (inOrder key after rows).Pairwise (fun a b => key a ≠ key b) :=
    List.pairwise_map.mp hnodup
  exact (inOrder_sorted key after rows).imp₂ (fun _ _ hle hdiffers => lt_of_le_of_ne hle hdiffers) hne

/-- Rows in strict order are determined by their members. -/
theorem eq_of_strict {xs ys : List ρ} (hx : xs.Pairwise (fun a b => key a < key b))
    (hy : ys.Pairwise (fun a b => key a < key b)) (h : xs.Perm ys) : xs = ys := by
  refine h.eq_of_pairwise ?_ hx hy
  intro a b _ _ hab hba
  exact absurd (lt_trans hab hba) (lt_irrefl _)

/-- The last row of a strict list has the greatest key. -/
theorem le_of_getLast? {page : List ρ} {last : ρ} (h : page.Pairwise (fun a b => key a < key b))
    (hlast : page.getLast? = some last) : ∀ r ∈ page, key r ≤ key last := by
  obtain ⟨init, rfl⟩ := List.getLast?_eq_some_iff.mp hlast
  intro r hr
  rcases List.mem_append.mp hr with hr | hr
  · exact le_of_lt ((List.pairwise_append.mp h).2.2 r hr last List.mem_cons_self)
  · rw [List.mem_singleton.mp hr]

/-- The rows after the last one of a page are those that the page left: with distinct keys the page
is the part of the list up to its last key. -/
theorem inOrder_rest {after : Option κ} {rows : List ρ} (hkeys : (rows.map key).Nodup)
    {limit : Nat} {last : ρ} (hlast : ((inOrder key after rows).take limit).getLast? = some last) :
    inOrder key (some (key last)) rows = (inOrder key after rows).drop limit := by
  have hstrict : (inOrder key after rows).Pairwise (fun a b => key a < key b) :=
    inOrder_strict key hkeys
  have hpage : last ∈ (inOrder key after rows).take limit := List.mem_of_getLast? hlast
  have hafter : after.all (fun k => k < key last) = true := by
    have hmem := (inOrder_perm key after rows).mem_iff.mp (List.mem_of_mem_take hpage)
    exact (List.mem_filter.mp hmem).2
  apply eq_of_strict key
  · exact inOrder_strict key hkeys
  · exact hstrict.sublist (List.drop_sublist _ _)
  -- what follows the page is what lies after its last row
  have hfilter : (inOrder key after rows).filter (fun r => key last < key r) =
      (inOrder key after rows).drop limit := by
    have hsplit := hstrict
    rw [← List.take_append_drop limit (inOrder key after rows)] at hsplit
    obtain ⟨hfirst, -, hacross⟩ := List.pairwise_append.mp hsplit
    have hnone : ((inOrder key after rows).take limit).filter (fun r => key last < key r) = [] := by
      rw [List.filter_eq_nil_iff]
      intro r hr
      simpa using le_of_getLast? key hfirst hlast r hr
    have hall : ((inOrder key after rows).drop limit).filter (fun r => key last < key r) =
        (inOrder key after rows).drop limit := by
      rw [List.filter_eq_self]
      intro r hr
      simpa using hacross last hpage r hr
    calc (inOrder key after rows).filter (fun r => key last < key r)
        = ((inOrder key after rows).take limit ++ (inOrder key after rows).drop limit).filter
            (fun r => key last < key r) := by rw [List.take_append_drop]
      _ = (inOrder key after rows).drop limit := by
          rw [List.filter_append, hnone, hall, List.nil_append]
  have hrows : rowsAfter key (some (key last)) rows =
      (rowsAfter key after rows).filter (fun r => key last < key r) := by
    rw [rowsAfter, rowsAfter, List.filter_filter]
    apply List.filter_congr
    intro r _
    cases after with
    | none => simp
    | some k =>
        have hk : k < key last := by simpa using hafter
        by_cases hr : key last < key r
        · simp [hr, lt_trans hk hr]
        · simp [hr]
  rw [← hfilter]
  refine (inOrder_perm key _ _).trans ?_
  rw [hrows]
  exact ((inOrder_perm key after rows).filter _).symm

end Order

section Scan

variable {key} {rows : σ → List ρ} {visit : σ → ρ → Except ε σ}

/-- Visits of rows up to a key leave the rows after it alone. -/
theorem rowsAfter_foldlM {k : κ} {page : List ρ} {s s' : σ}
    (hvisit : ∀ s r s', visit s r = .ok s' →
      rowsAfter key (some (key r)) (rows s') = rowsAfter key (some (key r)) (rows s))
    (hpage : ∀ r ∈ page, key r ≤ k) (h : page.foldlM visit s = .ok s') :
    rowsAfter key (some k) (rows s') = rowsAfter key (some k) (rows s) := by
  induction page generalizing s with
  | nil =>
      cases h
      rfl
  | cons r rest ih =>
      obtain ⟨mid, hmid, h⟩ := bind_eq_ok.mp h
      rw [ih (fun x hx => hpage x (List.mem_cons_of_mem _ hx)) h]
      have hr := hpage r List.mem_cons_self
      have hfilter : ∀ xs : List ρ, rowsAfter key (some k) xs =
          (rowsAfter key (some (key r)) xs).filter (fun x => k < key x) := by
        intro xs
        rw [rowsAfter, rowsAfter, List.filter_filter]
        apply List.filter_congr
        intro x _
        by_cases hx : k < key x
        · simp [hx, lt_of_le_of_lt hr hx]
        · simp [hx]
      rw [hfilter, hfilter, hvisit _ _ _ hmid]

/-- A scan whose visits leave the rows to come alone visits all rows in order. -/
theorem scan_eq_foldlM {limit : Nat} {spent : ε} (hlimit : 0 < limit)
    (hkeys : ∀ s, ((rows s).map key).Nodup)
    (hvisit : ∀ s r s', visit s r = .ok s' →
      rowsAfter key (some (key r)) (rows s') = rowsAfter key (some (key r)) (rows s))
    {fuel : Nat} {after : Option κ} {s : σ} (hfuel : (rowsAfter key after (rows s)).length < fuel) :
    scan key rows visit limit spent fuel after s = (inOrder key after (rows s)).foldlM visit s := by
  induction fuel generalizing after s with
  | zero => exact absurd hfuel (Nat.not_lt_zero _)
  | succ fuel ih =>
      have hlength := (inOrder_perm key after (rows s)).length_eq
      unfold scan
      dsimp only
      split
      · next hnone =>
          have hempty : inOrder key after (rows s) = [] := by
            have htake := List.getLast?_eq_none_iff.mp hnone
            rcases List.take_eq_nil_iff.mp htake with hzero | hnil
            · omega
            · exact hnil
          rw [hempty]
          rfl
      · next last hlast =>
          have hrest := inOrder_rest key (hkeys s) hlast
          have hpage := le_of_getLast? key
            ((inOrder_strict key (hkeys s)).sublist (List.take_sublist limit _)) hlast
          rw [← List.take_append_drop limit (inOrder key after (rows s)), List.foldlM_append]
          rw [List.take_append_drop]
          cases hfold : ((inOrder key after (rows s)).take limit).foldlM visit s with
          | error e => rfl
          | ok s' =>
              have hsame := rowsAfter_foldlM hvisit hpage hfold
              have hnext : inOrder key (some (key last)) (rows s') =
                  (inOrder key after (rows s)).drop limit := by
                rw [inOrder, hsame]
                exact hrest
              have hfewer : (rowsAfter key (some (key last)) (rows s')).length < fuel := by
                have hmem := List.length_pos_of_mem (List.mem_of_mem_take (List.mem_of_getLast? hlast))
                rw [← (inOrder_perm key (some (key last)) (rows s')).length_eq, hnext,
                  List.length_drop]
                omega
              exact (ih hfewer).trans (by rw [hnext]; rfl)

end Scan

end PortRag.Foundation
