import Mathlib.Data.List.Nodup
import Mathlib.Data.List.Basic
import Mathlib.Order.Lattice

set_option autoImplicit false

/-!
# Foundation: keyed tables

A table of a relational store is a list of rows in which no primary key occurs
twice.  The primary key is a function of the row, and its uniqueness is a field of
the structure, so a table that breaks the key constraint cannot be built: an insert
that would break it is refused, as the store's own constraint refuses it.

Row order is the order of insertion and carries no meaning; results that have an
order sort.
-/

namespace PortRag.Foundation

/-- Rows of type `ρ` with pairwise different keys. -/
structure Table (κ ρ : Type) (key : ρ → κ) where
  rows : List ρ
  keys_nodup : (rows.map key).Nodup

namespace Table

variable {κ ρ : Type} {key : ρ → κ}

/-- The table without rows. -/
def empty : Table κ ρ key := ⟨[], by simp⟩

@[simp] theorem empty_rows : (empty : Table κ ρ key).rows = [] := rfl

@[ext] theorem ext {t u : Table κ ρ key} (h : t.rows = u.rows) : t = u := by
  cases t; cases u; simp_all

/-- Two rows of one table with the same key are the same row. -/
theorem eq_of_key {t : Table κ ρ key} {a b : ρ} (ha : a ∈ t.rows) (hb : b ∈ t.rows)
    (h : key a = key b) : a = b :=
  List.inj_on_of_nodup_map t.keys_nodup ha hb h

theorem rows_nodup (t : Table κ ρ key) : t.rows.Nodup :=
  t.keys_nodup.of_map key

/-- Keep the rows that satisfy `p`. -/
def keep (t : Table κ ρ key) (p : ρ → Bool) : Table κ ρ key :=
  ⟨t.rows.filter p, (List.filter_sublist.map key).nodup t.keys_nodup⟩

@[simp] theorem keep_rows (t : Table κ ρ key) (p : ρ → Bool) :
    (t.keep p).rows = t.rows.filter p := rfl

/-- Rewrite every row by a function that leaves the key alone. -/
def rewrite (t : Table κ ρ key) (f : ρ → ρ) (hf : ∀ r, key (f r) = key r) : Table κ ρ key :=
  ⟨t.rows.map f, by
    have hcomp : key ∘ f = key := funext hf
    rw [List.map_map, hcomp]
    exact t.keys_nodup⟩

@[simp] theorem rewrite_rows (t : Table κ ρ key) (f : ρ → ρ) (hf : ∀ r, key (f r) = key r) :
    (t.rewrite f hf).rows = t.rows.map f := rfl

/-- A rewrite keeps every key that was there. -/
theorem exists_rewrite {t : Table κ ρ key} {f : ρ → ρ} (hf : ∀ r, key (f r) = key r) {k : κ}
    (h : ∃ r ∈ t.rows, key r = k) : ∃ r ∈ (t.rewrite f hf).rows, key r = k := by
  obtain ⟨r, hr, hk⟩ := h
  exact ⟨f r, List.mem_map_of_mem hr, (hf r).trans hk⟩

/-- Functions that agree on the rows rewrite a table alike. -/
theorem rewrite_congr {t : Table κ ρ key} {f g : ρ → ρ} {hf : ∀ r, key (f r) = key r}
    {hg : ∀ r, key (g r) = key r} (h : ∀ r ∈ t.rows, f r = g r) :
    t.rewrite f hf = t.rewrite g hg :=
  ext (List.map_congr_left h)

theorem rewrite_keep (t : Table κ ρ key) (f : ρ → ρ) (hf : ∀ r, key (f r) = key r)
    {p q : ρ → Bool} (h : ∀ r ∈ t.rows, q (f r) = p r) :
    (t.keep p).rewrite f hf = (t.rewrite f hf).keep q := by
  apply ext
  simp only [rewrite_rows, keep_rows, List.filter_map]
  congr 1
  apply List.filter_congr
  exact fun r hr => (h r hr).symm

variable [DecidableEq κ]

/-- The row with key `k`, if there is one. -/
def find? (t : Table κ ρ key) (k : κ) : Option ρ := t.rows.find? (fun r => key r = k)

theorem find?_eq_some_iff {t : Table κ ρ key} {k : κ} {r : ρ} :
    t.find? k = some r ↔ r ∈ t.rows ∧ key r = k := by
  constructor
  · intro h
    exact ⟨List.mem_of_find?_eq_some h, by simpa using List.find?_some h⟩
  · rintro ⟨hr, rfl⟩
    cases hfind : t.find? (key r) with
    | none =>
        have hnone := List.find?_eq_none.mp hfind r hr
        simp at hnone
    | some found =>
        have hkey : key found = key r := by simpa using List.find?_some hfind
        rw [eq_of_key (List.mem_of_find?_eq_some hfind) hr hkey]

theorem find?_eq_none_iff {t : Table κ ρ key} {k : κ} :
    t.find? k = none ↔ ∀ r ∈ t.rows, key r ≠ k := by
  simp [find?]

theorem find?_mem {t : Table κ ρ key} {k : κ} {r : ρ} (h : t.find? k = some r) : r ∈ t.rows :=
  (find?_eq_some_iff.mp h).1

theorem find?_key {t : Table κ ρ key} {k : κ} {r : ρ} (h : t.find? k = some r) : key r = k :=
  (find?_eq_some_iff.mp h).2

theorem find?_of_mem {t : Table κ ρ key} {r : ρ} (h : r ∈ t.rows) : t.find? (key r) = some r :=
  find?_eq_some_iff.mpr ⟨h, rfl⟩

/-- Among some rows of a table, a row is found by its key. -/
theorem find?_among {t : Table κ ρ key} {rows : List ρ} (hrows : ∀ r ∈ rows, r ∈ t.rows) {r : ρ}
    (h : r ∈ rows) : rows.find? (fun x => key x = key r) = some r := by
  cases hfind : rows.find? (fun x => key x = key r) with
  | none =>
      have hne := List.find?_eq_none.mp hfind r h
      simp at hne
  | some found =>
      have hkey : key found = key r := by simpa using List.find?_some hfind
      have hmem := hrows found (List.mem_of_find?_eq_some hfind)
      exact congrArg some (eq_of_key hmem (hrows r h) hkey)

@[simp] theorem find?_empty (k : κ) : (empty : Table κ ρ key).find? k = none := rfl

theorem find?_rewrite (t : Table κ ρ key) (f : ρ → ρ) (hf : ∀ r, key (f r) = key r) (k : κ) :
    (t.rewrite f hf).find? k = (t.find? k).map f := by
  simp only [find?, rewrite_rows, List.find?_map, Function.comp_def, hf]

theorem find?_keep (t : Table κ ρ key) (p : ρ → Bool) (k : κ) :
    (t.keep p).find? k = (t.find? k).filter p := by
  cases hfind : t.find? k with
  | none =>
      rw [Option.filter_none, find?_eq_none_iff]
      intro r hr
      exact find?_eq_none_iff.mp hfind r (List.mem_of_mem_filter hr)
  | some r =>
      obtain ⟨hr, hk⟩ := find?_eq_some_iff.mp hfind
      by_cases hp : p r = true
      · rw [Option.filter_some, if_pos hp, find?_eq_some_iff]
        exact ⟨List.mem_filter.mpr ⟨hr, hp⟩, hk⟩
      · rw [Option.filter_some, if_neg hp, find?_eq_none_iff]
        intro other hother hkey
        have hmem := List.mem_filter.mp hother
        have heq : other = r := eq_of_key hmem.1 hr (hkey.trans hk.symm)
        exact hp (heq ▸ hmem.2)

/-- Replace the row that has the key of `r`, if there is one, by `r`. -/
def put (t : Table κ ρ key) (r : ρ) : Table κ ρ key :=
  t.rewrite (fun old => if key old = key r then r else old) (by
    intro old
    split
    · next h => exact h.symm
    · rfl)

@[simp] theorem put_rows (t : Table κ ρ key) (r : ρ) :
    (t.put r).rows = t.rows.map (fun old => if key old = key r then r else old) := rfl

theorem find?_put_self {t : Table κ ρ key} {r old : ρ} (h : t.find? (key r) = some old) :
    (t.put r).find? (key r) = some r := by
  rw [put, find?_rewrite, h]
  simp [find?_key h]

theorem find?_put_of_ne (t : Table κ ρ key) {r : ρ} {k : κ} (h : k ≠ key r) :
    (t.put r).find? k = t.find? k := by
  rw [put, find?_rewrite]
  cases hfind : t.find? k with
  | none => rfl
  | some old =>
      have hne : key old ≠ key r := by rw [find?_key hfind]; exact h
      simp [hne]

/-- Putting the image of a row is rewriting the row of that key. -/
theorem put_rows_of_mem {t : Table κ ρ key} {f : ρ → ρ} {old : ρ} (hold : old ∈ t.rows)
    (hf : key (f old) = key old) :
    (t.put (f old)).rows = t.rows.map (fun r => if key r = key old then f r else r) := by
  rw [put_rows]
  apply List.map_congr_left
  intro r hr
  rw [hf]
  split
  · next hkey => rw [eq_of_key hr hold hkey]
  · rfl

/-- Putting a row back where it stands changes nothing. -/
theorem put_of_find? {t : Table κ ρ key} {r : ρ} (h : t.find? (key r) = some r) : t.put r = t := by
  apply ext
  rw [put_rows]
  obtain ⟨hr, -⟩ := find?_eq_some_iff.mp h
  refine (List.map_congr_left fun old hold => ?_).trans (List.map_id _)
  split
  · next hkey => exact (eq_of_key hold hr hkey).symm
  · rfl

/-- The other rows of a table are untouched by `put`, in their order. -/
theorem filter_put (t : Table κ ρ key) (r : ρ) (p : ρ → Bool)
    (hp : ∀ old ∈ t.rows, key old = key r → p old = false) (hr : p r = false) :
    (t.put r).rows.filter p = t.rows.filter p := by
  rw [put_rows]
  revert hp
  induction t.rows with
  | nil => intro _; rfl
  | cons old rest ih =>
      intro hp
      have hrest := ih (fun x hx => hp x (List.mem_cons_of_mem _ hx))
      by_cases hk : key old = key r
      · have hold := hp old List.mem_cons_self hk
        simp [hk, hr, hold, hrest]
      · simp [hk, List.filter_cons, hrest]

/-- Insert a row; refused when its key is taken. -/
def insert? (t : Table κ ρ key) (r : ρ) : Option (Table κ ρ key) :=
  if h : key r ∈ t.rows.map key then none
  else some ⟨t.rows ++ [r], by
    rw [List.map_append, List.nodup_append]
    refine ⟨t.keys_nodup, by simp, ?_⟩
    intro a ha b hb hab
    simp only [List.map_cons, List.map_nil, List.mem_singleton] at hb
    exact h (hb ▸ hab ▸ ha)⟩

theorem insert?_eq_some {t u : Table κ ρ key} {r : ρ} (h : t.insert? r = some u) :
    u.rows = t.rows ++ [r] ∧ t.find? (key r) = none := by
  unfold insert? at h
  split at h
  · cases h
  · next hfresh =>
      cases h
      refine ⟨rfl, find?_eq_none_iff.mpr ?_⟩
      intro old hold hkey
      exact hfresh (List.mem_map.mpr ⟨old, hold, hkey⟩)

theorem insert?_isSome {t : Table κ ρ key} {r : ρ} (h : t.find? (key r) = none) :
    ∃ u, t.insert? r = some u := by
  unfold insert?
  split
  · next hmem =>
      obtain ⟨old, hold, hkey⟩ := List.mem_map.mp hmem
      exact absurd hkey (find?_eq_none_iff.mp h old hold)
  · exact ⟨_, rfl⟩

/-- Insert rows one after the other; refused as a whole when one key is taken. -/
def insertAll? : Table κ ρ key → List ρ → Option (Table κ ρ key)
  | t, [] => some t
  | t, r :: rest => (t.insert? r).bind (fun u => u.insertAll? rest)

theorem insertAll?_rows {t u : Table κ ρ key} {rs : List ρ} (h : t.insertAll? rs = some u) :
    u.rows = t.rows ++ rs := by
  induction rs generalizing t with
  | nil => cases h; simp
  | cons r rest ih =>
      obtain ⟨mid, hmid, hrest⟩ := Option.bind_eq_some_iff.mp h
      rw [ih hrest, (insert?_eq_some hmid).1, List.append_assoc, List.singleton_append]

/-- Set the row of a key, as an assignment to a dictionary does. -/
def set (t : Table κ ρ key) (r : ρ) : Table κ ρ key := (t.insert? r).getD (t.put r)

theorem set_rows_of_fresh {t : Table κ ρ key} {r : ρ} (h : t.find? (key r) = none) :
    (t.set r).rows = t.rows ++ [r] := by
  obtain ⟨u, hu⟩ := insert?_isSome h
  rw [set, hu]
  exact (insert?_eq_some hu).1

theorem mem_set_self (t : Table κ ρ key) (r : ρ) : r ∈ (t.set r).rows := by
  unfold set
  cases hu : t.insert? r with
  | some u =>
      rw [Option.getD_some, (insert?_eq_some hu).1]
      exact List.mem_append_right _ List.mem_cons_self
  | none =>
      have htaken : t.find? (key r) ≠ none := by
        intro hfree
        obtain ⟨u, hsome⟩ := insert?_isSome hfree
        rw [hu] at hsome
        cases hsome
      obtain ⟨old, hold⟩ := Option.ne_none_iff_exists'.mp htaken
      exact find?_mem (find?_put_self hold)

theorem mem_set {t : Table κ ρ key} {r x : ρ} (h : x ∈ (t.set r).rows) : x = r ∨ x ∈ t.rows := by
  unfold set at h
  cases hu : t.insert? r with
  | none =>
      rw [hu] at h
      obtain ⟨old, hold, hx⟩ := List.mem_map.mp h
      split at hx
      · exact .inl hx.symm
      · exact .inr (hx ▸ hold)
  | some u =>
      rw [hu] at h
      have hrows := (insert?_eq_some hu).1
      rw [Option.getD_some, hrows] at h
      rcases List.mem_append.mp h with hold | hnew
      · exact .inr hold
      · exact .inl (List.mem_singleton.mp hnew)

/-- The rows after an assignment: the assigned one, and those of other keys. -/
theorem mem_set_iff {t : Table κ ρ key} {r x : ρ} :
    x ∈ (t.set r).rows ↔ x = r ∨ (x ∈ t.rows ∧ key x ≠ key r) := by
  constructor
  · intro h
    by_cases hkey : key x = key r
    · exact .inl (eq_of_key h (mem_set_self t r) hkey)
    · rcases mem_set h with rfl | hx
      · exact absurd rfl hkey
      · exact .inr ⟨hx, hkey⟩
  · rintro (rfl | ⟨hx, hkey⟩)
    · exact mem_set_self t x
    · unfold set
      cases hu : t.insert? r with
      | some u =>
          rw [Option.getD_some, (insert?_eq_some hu).1]
          exact List.mem_append_left _ hx
      | none =>
          refine List.mem_map.mpr ⟨x, hx, ?_⟩
          rw [if_neg hkey]

/-- A lookup of a key that no inserted row has is unchanged by an insert. -/
theorem find?_append_of_ne {t u : Table κ ρ key} {rs : List ρ} (h : u.rows = t.rows ++ rs)
    {k : κ} (hk : ∀ r ∈ rs, key r ≠ k) : u.find? k = t.find? k := by
  have hnone : rs.find? (fun r => decide (key r = k)) = none := by
    rw [List.find?_eq_none]
    intro r hr
    simpa using hk r hr
  simp only [find?, h, List.find?_append, hnone, Option.or_none]

/-- Rows with new and different keys are inserted. -/
theorem insertAll?_isSome {t : Table κ ρ key} {rs : List ρ} (hnodup : (rs.map key).Nodup)
    (hfresh : ∀ r ∈ rs, t.find? (key r) = none) : ∃ u, t.insertAll? rs = some u := by
  induction rs generalizing t with
  | nil => exact ⟨t, rfl⟩
  | cons r rest ih =>
      obtain ⟨hnotin, hrest⟩ := List.nodup_cons.mp hnodup
      obtain ⟨mid, hmid⟩ := insert?_isSome (hfresh r List.mem_cons_self)
      have hstill : ∀ r' ∈ rest, mid.find? (key r') = none := by
        intro r' hr'
        refine (find?_append_of_ne (insert?_eq_some hmid).1 ?_).trans
          (hfresh r' (List.mem_cons_of_mem _ hr'))
        intro x hx hkey
        rw [List.mem_singleton.mp hx] at hkey
        exact hnotin (hkey ▸ List.mem_map_of_mem hr')
      obtain ⟨u, hu⟩ := ih hrest hstill
      exact ⟨u, by rw [insertAll?, hmid, Option.bind_some, hu]⟩

/-- An inserted row is found under its key. -/
theorem find?_append_mem {t u : Table κ ρ key} {rs : List ρ} (h : u.rows = t.rows ++ rs)
    {r : ρ} (hr : r ∈ rs) : u.find? (key r) = some r :=
  find?_of_mem (by rw [h]; exact List.mem_append_right _ hr)

/-- A row of the old table is still found after an insert. -/
theorem find?_append_of_some {t u : Table κ ρ key} {rs : List ρ} (h : u.rows = t.rows ++ rs)
    {k : κ} {r : ρ} (hr : t.find? k = some r) : u.find? k = some r := by
  obtain ⟨hmem, hkey⟩ := find?_eq_some_iff.mp hr
  exact find?_eq_some_iff.mpr ⟨by rw [h]; exact List.mem_append_left _ hmem, hkey⟩

/-! ## Rewriting and the other operations -/

theorem rewrite_put (t : Table κ ρ key) (f : ρ → ρ) (hf : ∀ r, key (f r) = key r) (r : ρ) :
    (t.put r).rewrite f hf = (t.rewrite f hf).put (f r) := by
  apply ext
  simp only [rewrite_rows, put_rows, List.map_map]
  apply List.map_congr_left
  intro old _
  simp only [Function.comp_apply, hf]
  split <;> rfl

theorem insert?_rewrite (t : Table κ ρ key) (f : ρ → ρ) (hf : ∀ r, key (f r) = key r) (r : ρ) :
    (t.rewrite f hf).insert? (f r) = (t.insert? r).map (fun u => u.rewrite f hf) := by
  have hkeys : (t.rewrite f hf).rows.map key = t.rows.map key := by
    rw [rewrite_rows, List.map_map]
    exact List.map_congr_left (fun old _ => hf old)
  by_cases h : key r ∈ t.rows.map key
  · have h' : key (f r) ∈ (t.rewrite f hf).rows.map key := by rw [hkeys, hf]; exact h
    rw [insert?, dif_pos h', insert?, dif_pos h]
    rfl
  · have h' : key (f r) ∉ (t.rewrite f hf).rows.map key := by rw [hkeys, hf]; exact h
    rw [insert?, dif_neg h', insert?, dif_neg h, Option.map_some]
    congr 1
    apply ext
    simp

theorem insertAll?_rewrite (t : Table κ ρ key) (f : ρ → ρ) (hf : ∀ r, key (f r) = key r)
    (rs : List ρ) :
    (t.rewrite f hf).insertAll? (rs.map f) = (t.insertAll? rs).map (fun u => u.rewrite f hf) := by
  induction rs generalizing t with
  | nil => rfl
  | cons r rest ih =>
      rw [List.map_cons, insertAll?, insertAll?, insert?_rewrite]
      cases t.insert? r with
      | none => rfl
      | some u => exact ih u

/-! ## Tables with the same rows -/

/-- A lookup depends on the rows, not on their order. -/
theorem find?_of_mem_iff {t u : Table κ ρ key} (h : ∀ r, r ∈ t.rows ↔ r ∈ u.rows) (k : κ) :
    t.find? k = u.find? k := by
  cases hu : u.find? k with
  | none =>
      rw [find?_eq_none_iff] at hu ⊢
      exact fun r hr => hu r ((h r).mp hr)
  | some r =>
      obtain ⟨hr, hk⟩ := find?_eq_some_iff.mp hu
      exact find?_eq_some_iff.mpr ⟨(h r).mpr hr, hk⟩

omit [DecidableEq κ] in
/-- Tables with the same rows keep the same rows. -/
theorem mem_keep_congr {t u : Table κ ρ key} {p q : ρ → Bool}
    (h : ∀ r, r ∈ t.rows ↔ r ∈ u.rows) (hpq : ∀ r, p r = q r) (r : ρ) :
    r ∈ (t.keep p).rows ↔ r ∈ (u.keep q).rows := by
  rw [keep_rows, keep_rows, List.mem_filter, List.mem_filter, h, hpq]

section Arrange

variable {ω : Type} [LinearOrder ω] {rank : κ → ω}

/-- The rows in the order of their keys, by rank. -/
def arrange (t : Table κ ρ key) (rank : κ → ω) : Table κ ρ key :=
  ⟨t.rows.mergeSort (fun a b => rank (key a) ≤ rank (key b)),
    ((List.mergeSort_perm _ _).map key).nodup_iff.mpr t.keys_nodup⟩

omit [DecidableEq κ] in
@[simp] theorem mem_arrange {t : Table κ ρ key} {r : ρ} : r ∈ (t.arrange rank).rows ↔ r ∈ t.rows :=
  List.mem_mergeSort

omit [DecidableEq κ] in
theorem arrange_pairwise (t : Table κ ρ key) :
    (t.arrange rank).rows.Pairwise (fun a b => rank (key a) ≤ rank (key b)) := by
  have hsorted : (t.arrange rank).rows.Pairwise
      (fun a b => decide (rank (key a) ≤ rank (key b)) = true) := by
    apply List.pairwise_mergeSort
    · intro a b c hab hbc
      simp only [decide_eq_true_eq] at hab hbc ⊢
      exact le_trans hab hbc
    · intro a b
      simp only [Bool.or_eq_true, decide_eq_true_eq]
      exact le_total _ _
  exact hsorted.imp of_decide_eq_true

omit [DecidableEq κ] in
/-- Two tables with the same rows in the order of their keys are equal. -/
theorem ext_of_pairwise {t u : Table κ ρ key} (hrank : Function.Injective rank)
    (ht : t.rows.Pairwise (fun a b => rank (key a) ≤ rank (key b)))
    (hu : u.rows.Pairwise (fun a b => rank (key a) ≤ rank (key b)))
    (h : ∀ r, r ∈ t.rows ↔ r ∈ u.rows) : t = u := by
  have hperm : t.rows.Perm u.rows :=
    (List.perm_ext_iff_of_nodup t.rows_nodup u.rows_nodup).mpr h
  refine ext (hperm.eq_of_pairwise ?_ ht hu)
  intro a b ha hb hab hba
  exact eq_of_key ha ((h b).mpr hb) (hrank (le_antisymm hab hba))

end Arrange

end Table

end PortRag.Foundation
