import Mathlib.Data.List.Sort
import Mathlib.Algebra.GroupWithZero.Nat
import Mathlib.Order.Lattice

set_option autoImplicit false

/-!
# Foundation: the first few of a ranking

`Selects key k rows out`: `out` may be the answer to "order these rows by key and give the
first `k`", whatever the order among rows of one key.  The answer to two branches cut to `k`
first and ranked together afterwards is an answer to the whole.  `Pages` is the same behind an
offset; where keys differ, successive pages make up the sorted rows.
-/

namespace PortRag.Foundation

variable {α κ : Type} [LinearOrder κ]

/-- The rows in the order of their keys, rows of one key in the order given. -/
def sortedBy (key : α → κ) (rows : List α) : List α :=
  rows.mergeSort (fun a b => decide (key a ≤ key b))

theorem sortedBy_perm (key : α → κ) (rows : List α) : (sortedBy key rows).Perm rows :=
  List.mergeSort_perm _ _

theorem sortedBy_pairwise (key : α → κ) (rows : List α) :
    (sortedBy key rows).Pairwise (fun a b => key a ≤ key b) := by
  have hle : ∀ a b c : α, decide (key a ≤ key b) → decide (key b ≤ key c) → decide (key a ≤ key c) := by
    simp only [decide_eq_true_eq]
    exact fun a b c hab hbc => le_trans hab hbc
  have htotal : ∀ a b : α, decide (key a ≤ key b) || decide (key b ≤ key a) := by
    simp only [Bool.or_eq_true, decide_eq_true_eq]
    exact fun a b => le_total _ _
  exact (List.pairwise_mergeSort hle htotal rows).imp (fun h => of_decide_eq_true h)

/-- Some sorted arrangement of the rows begins with `out`, which is cut at `k`. -/
def Selects (key : α → κ) (k : Nat) (rows out : List α) : Prop :=
  ∃ sorted : List α, sorted.Perm rows ∧ sorted.Pairwise (fun a b => key a ≤ key b) ∧
    out = sorted.take k

namespace Selects

variable {key : α → κ} {k : Nat} {rows out : List α}

theorem length (h : Selects key k rows out) : out.length = min k rows.length := by
  obtain ⟨sorted, hperm, -, rfl⟩ := h
  rw [List.length_take, hperm.length_eq]

theorem sorted (h : Selects key k rows out) : out.Pairwise (fun a b => key a ≤ key b) := by
  obtain ⟨sorted, -, hsorted, rfl⟩ := h
  exact hsorted.sublist (List.take_sublist _ _)

/-- The rows left out, none of which comes before a row given. -/
theorem rest (h : Selects key k rows out) :
    ∃ left, (out ++ left).Perm rows ∧ ∀ a ∈ out, ∀ b ∈ left, key a ≤ key b := by
  obtain ⟨sorted, hperm, hsorted, rfl⟩ := h
  refine ⟨sorted.drop k, by rw [List.take_append_drop]; exact hperm, ?_⟩
  rw [← List.take_append_drop k sorted] at hsorted
  exact (List.pairwise_append.mp hsorted).2.2

/-- Rows in order, cut at `k`, of which none left out comes before one given, are an answer. -/
theorem of_rest (hlength : out.length = min k rows.length)
    (hsorted : out.Pairwise (fun a b => key a ≤ key b)) {left : List α}
    (hperm : (out ++ left).Perm rows) (hleft : ∀ a ∈ out, ∀ b ∈ left, key a ≤ key b) :
    Selects key k rows out := by
  refine ⟨out ++ sortedBy key left, ((sortedBy_perm key left).append_left out).trans hperm, ?_, ?_⟩
  · refine List.pairwise_append.mpr ⟨hsorted, sortedBy_pairwise key left, fun a ha b hb => ?_⟩
    exact hleft a ha b ((sortedBy_perm key left).subset hb)
  · have hcount : out.length + left.length = rows.length := by
      rw [← List.length_append]
      exact hperm.length_eq
    by_cases hcut : out.length = k
    · rw [← hcut, List.take_left]
    · have hnone : left = [] := List.eq_nil_of_length_eq_zero (by omega)
      subst hnone
      rw [sortedBy, List.mergeSort_nil, List.append_nil, List.take_of_length_le (by omega)]

/-- All answers have the same keys. -/
theorem map_key {out' : List α} (h : Selects key k rows out) (h' : Selects key k rows out') :
    out.map key = out'.map key := by
  obtain ⟨sorted, hperm, hsorted, rfl⟩ := h
  obtain ⟨sorted', hperm', hsorted', rfl⟩ := h'
  have hkeys : (sorted.map key).Pairwise (fun a b : κ => a ≤ b) := List.pairwise_map.mpr hsorted
  have hkeys' : (sorted'.map key).Pairwise (fun a b : κ => a ≤ b) :=
    List.pairwise_map.mpr hsorted'
  have hsame : sorted.map key = sorted'.map key :=
    List.Perm.eq_of_pairwise (fun a b _ _ hab hba => le_antisymm hab hba) hkeys hkeys'
      ((hperm.trans hperm'.symm).map key)
  rw [List.map_take, List.map_take, hsame]

/-- Cutting two branches first and ranking what is left of them ranks the whole: a row left out
of its branch has `k` rows of the branch before it, and a row given after one of these would
make more than `k`. -/
theorem merge {first second shownFirst shownSecond : List α}
    (hfirst : Selects key k first shownFirst) (hsecond : Selects key k second shownSecond)
    (hout : Selects key k (shownFirst ++ shownSecond) out) :
    Selects key k (first ++ second) out := by
  obtain ⟨left, hperm, hleft⟩ := hout.rest
  obtain ⟨left₁, hperm₁, hleft₁⟩ := hfirst.rest
  obtain ⟨left₂, hperm₂, hleft₂⟩ := hsecond.rest
  have hlength := hout.length
  rw [List.length_append, hfirst.length, hsecond.length] at hlength
  have hbranch : ∀ {branch shown gone : List α}, Selects key k branch shown →
      (shown ++ gone).Perm branch → (∀ a ∈ shown, ∀ b ∈ gone, key a ≤ key b) →
      shown.Sublist (shownFirst ++ shownSecond) →
      ∀ a ∈ out, ∀ b ∈ gone, key a ≤ key b := by
    intro branch shown gone hselects hpermBranch hgone hsub a ha b hb
    by_contra hnot
    have hfull : k ≤ shown.length := by
      have hpos : 0 < gone.length := List.length_pos_of_mem hb
      have hcount := hpermBranch.length_eq
      rw [List.length_append] at hcount
      have hcut := hselects.length
      omega
    -- the rows before `b` are among those given, or they would come after `a`
    have hcounts : (shownFirst ++ shownSecond).countP (fun x => key x ≤ key b) =
        out.countP (fun x => key x ≤ key b) := by
      rw [← hperm.countP_eq, List.countP_append]
      have hnone : left.countP (fun x => key x ≤ key b) = 0 := by
        refine List.countP_eq_zero.mpr fun x hx hbefore => hnot ?_
        exact le_trans (hleft a ha x hx) (of_decide_eq_true hbefore)
      rw [hnone, Nat.add_zero]
    have hall : shown.countP (fun x => key x ≤ key b) = shown.length :=
      List.countP_eq_length.mpr fun x hx => decide_eq_true (hgone x hx b hb)
    have hmost : out.countP (fun x => key x ≤ key b) < out.length := by
      refine lt_of_le_of_ne List.countP_le_length fun heq => hnot ?_
      exact of_decide_eq_true (List.countP_eq_length.mp heq a ha)
    have hmore : shown.countP (fun x => key x ≤ key b) ≤
        (shownFirst ++ shownSecond).countP (fun x => key x ≤ key b) := hsub.countP_le
    have hbound := hout.length
    omega
  have hall : (out ++ (left ++ (left₁ ++ left₂))).Perm (first ++ second) := by
    have hshown : (out ++ left ++ (left₁ ++ left₂)).Perm
        (shownFirst ++ shownSecond ++ (left₁ ++ left₂)) := hperm.append_right _
    have hswap : (shownFirst ++ shownSecond ++ (left₁ ++ left₂)).Perm
        ((shownFirst ++ left₁) ++ (shownSecond ++ left₂)) := by
      rw [List.append_assoc, List.append_assoc]
      refine List.Perm.append_left _ ?_
      rw [← List.append_assoc, ← List.append_assoc]
      exact List.perm_append_comm.append_right _
    rw [← List.append_assoc]
    exact (hshown.trans hswap).trans (hperm₁.append hperm₂)
  refine of_rest ?_ hout.sorted hall ?_
  · rw [hlength, List.length_append]
    omega
  · intro a ha b hb
    rcases List.mem_append.mp hb with hb | hb
    · exact hleft a ha b hb
    rcases List.mem_append.mp hb with hb | hb
    · exact hbranch hfirst hperm₁ hleft₁ (List.sublist_append_left _ _) a ha b hb
    · exact hbranch hsecond hperm₂ hleft₂ (List.sublist_append_right _ _) a ha b hb

end Selects

/-! ## Pages -/

/-- Some sorted arrangement of the rows has `out` after its first `offset` rows, cut at
`limit`. -/
def Pages (key : α → κ) (offset limit : Nat) (rows out : List α) : Prop :=
  ∃ sorted : List α, sorted.Perm rows ∧ sorted.Pairwise (fun a b => key a ≤ key b) ∧
    out = (sorted.drop offset).take limit

section Pages

variable {key : α → κ} {rows out : List α}

/-- Rows with different keys have one order. -/
theorem eq_sortedBy (hkeys : (rows.map key).Nodup) {sorted : List α} (hperm : sorted.Perm rows)
    (hsorted : sorted.Pairwise (fun a b => key a ≤ key b)) : sorted = sortedBy key rows := by
  refine List.Perm.eq_of_pairwise ?_ hsorted (sortedBy_pairwise key rows)
    (hperm.trans (sortedBy_perm key rows).symm)
  intro a b ha hb hab hba
  exact List.inj_on_of_nodup_map hkeys (hperm.subset ha) ((sortedBy_perm key rows).subset hb)
    (le_antisymm hab hba)

theorem Pages.eq {offset limit : Nat} (h : Pages key offset limit rows out)
    (hkeys : (rows.map key).Nodup) : out = ((sortedBy key rows).drop offset).take limit := by
  obtain ⟨sorted, hperm, hsorted, rfl⟩ := h
  rw [eq_sortedBy hkeys hperm hsorted]

/-- Lists of the same keys, place by place, are sorted alike. -/
theorem forall₂_sortedBy {β : Type} {key' : β → κ} {R : α → β → Prop} {others : List β}
    (h : List.Forall₂ R rows others) (hkey : ∀ a b, R a b → key a = key' b) :
    List.Forall₂ R (sortedBy key rows) (sortedBy key' others) := by
  have hzip : ∀ z ∈ rows.zip others, R z.1 z.2 := fun z hz => (List.forall₂_iff_zip.mp h).2 hz
  have hfst : (rows.zip others).map Prod.fst = rows := List.map_fst_zip (le_of_eq h.length_eq)
  have hsnd : (rows.zip others).map Prod.snd = others := List.map_snd_zip (ge_of_eq h.length_eq)
  have hleft : (sortedBy (fun z => key z.1) (rows.zip others)).map Prod.fst = sortedBy key rows := by
    conv_rhs => rw [← hfst]
    exact List.map_mergeSort (fun _ _ _ _ => rfl)
  have hright : (sortedBy (fun z => key z.1) (rows.zip others)).map Prod.snd =
      sortedBy key' others := by
    conv_rhs => rw [← hsnd]
    refine List.map_mergeSort (fun a ha b hb => ?_)
    simp only [hkey _ _ (hzip a ha), hkey _ _ (hzip b hb)]
  rw [← hleft, ← hright]
  refine List.forall₂_map_left_iff.mpr (List.forall₂_map_right_iff.mpr ?_)
  exact List.forall₂_same.mpr (fun z hz => hzip z ((sortedBy_perm _ _).subset hz))

/-- Each slice starts where the one before it ends. -/
def Successive : Nat → List (Nat × Nat) → Prop
  | _, [] => True
  | start, (offset, limit) :: rest => offset = start ∧ Successive (start + limit) rest

/-- Successive slices make one slice. -/
theorem flatMap_slices {start : Nat} {slices : List (Nat × Nat)} (h : Successive start slices)
    (xs : List α) :
    slices.flatMap (fun z => (xs.drop z.1).take z.2) =
      (xs.drop start).take (slices.map Prod.snd).sum := by
  induction slices generalizing start with
  | nil => simp
  | cons z rest ih =>
      obtain ⟨rfl, hrest⟩ := h
      rw [List.flatMap_cons, ih hrest, List.map_cons, List.sum_cons, List.take_add,
        List.drop_drop]

end Pages

end PortRag.Foundation
