import PortRag.Maintenance.Backfill

set_option autoImplicit false

/-!
# What the backfill makes of a table

The loop of one target as a function on its rows: a completed `backfillTarget` has visited
every row once, in the order of the keys, and has replaced each row by its `turn`.  Where no
row is legacy, it has changed nothing.
-/

namespace PortRag.Maintenance

open PortRag.Foundation PortRag.Db PortRag.Security

variable {ρ α : Type}

/-- The key of a row of the query. -/
def Target.rowKey (T : Target ρ α) (x : ρ × Uuid) : Uuid := T.key x.1

/-- The row with its converted columns, where it is legacy. -/
def Target.turn (T : Target ρ α) (cipher : PrivateDataCipher) (x : ρ × Uuid) : ρ × Uuid :=
  match T.convert cipher x.1 x.2 with
  | .ok values => if T.legacy x.1 then (T.assign values x.1, x.2) else x
  | .error _ => x

/-- What the loop relies on: the query returns no key twice, and an update writes the row of
its key and no other. -/
structure Target.Lawful (T : Target ρ α) : Prop where
  keys : ∀ db, ((T.rows db).map T.rowKey).Nodup
  assign_key : ∀ values row, T.key (T.assign values row) = T.key row
  update_rows : ∀ {s id values s'}, T.update s id values = .ok s' →
    T.rows s'.db = (T.rows s.db).map
      (fun x => if T.rowKey x = id then (T.assign values x.1, x.2) else x)

section Loop

variable {T : Target ρ α} {cipher : PrivateDataCipher}

/-- The turn of a row that converts. -/
theorem Target.turn_of_ok {x : ρ × Uuid} {values : α} (h : T.convert cipher x.1 x.2 = .ok values) :
    T.turn cipher x = if T.legacy x.1 then (T.assign values x.1, x.2) else x := by
  rw [Target.turn, h]

theorem Target.Lawful.rowKey_turn (hT : T.Lawful) (x : ρ × Uuid) :
    T.rowKey (T.turn cipher x) = T.rowKey x := by
  unfold Target.turn
  split
  · split
    · exact hT.assign_key _ _
    · rfl
  · rfl

/-- What one turn of the loop did. -/
theorem visitRow_ok {p p' : Progress} {x : ρ × Uuid} (h : visitRow T cipher true p x = .ok p') :
    p'.visited = p.visited ++ [T.rowKey x] ∧
      ∃ values, T.convert cipher x.1 x.2 = .ok values ∧
        if T.legacy x.1 then T.update p.session (T.rowKey x) values = .ok p'.session
        else p'.session = p.session := by
  unfold visitRow at h
  dsimp only at h
  rw [Bool.not_true, if_neg Bool.false_ne_true] at h
  obtain ⟨values, hvalues, h⟩ := bind_eq_ok.mp h
  by_cases hlegacy : T.legacy x.1 = true
  · rw [hlegacy, Bool.not_true, if_neg Bool.false_ne_true] at h
    obtain ⟨session, hsession, h⟩ := bind_eq_ok.mp h
    cases h
    exact ⟨rfl, values, hvalues, by rw [if_pos hlegacy]; exact hsession⟩
  · rw [Bool.not_eq_true] at hlegacy
    rw [hlegacy, Bool.not_false, if_pos rfl] at h
    cases h
    exact ⟨rfl, values, hvalues, by rw [hlegacy, if_neg Bool.false_ne_true]⟩

/-- One turn of the loop replaces the row of its key and no other. -/
theorem visitRow_rows (hT : T.Lawful) {p p' : Progress} {x : ρ × Uuid}
    (hx : x ∈ T.rows p.session.db) (h : visitRow T cipher true p x = .ok p') :
    T.rows p'.session.db = (T.rows p.session.db).map
      (fun y => if T.rowKey y = T.rowKey x then T.turn cipher y else y) := by
  obtain ⟨-, values, hvalues, hsession⟩ := visitRow_ok h
  have hsame : ∀ y ∈ T.rows p.session.db, T.rowKey y = T.rowKey x → y = x :=
    fun y hy hkey => List.inj_on_of_nodup_map (hT.keys _) hy hx hkey
  split at hsession
  · next hlegacy =>
      rw [hT.update_rows hsession]
      apply List.map_congr_left
      intro y hy
      split
      · next hkey =>
          obtain rfl := hsame y hy hkey
          rw [Target.turn_of_ok hvalues, if_pos hlegacy]
      · rfl
  · next hlegacy =>
      rw [hsession]
      symm
      have hid : ∀ y ∈ T.rows p.session.db,
          (if T.rowKey y = T.rowKey x then T.turn cipher y else y) = y := by
        intro y hy
        split
        · next hkey =>
            obtain rfl := hsame y hy hkey
            rw [Target.turn_of_ok hvalues, if_neg hlegacy]
        · rfl
      rw [List.map_congr_left hid, List.map_id'']
      exact fun _ => rfl

/-- One turn of the loop leaves the rows after its own alone. -/
theorem visitRow_rowsAfter (hT : T.Lawful) {p p' : Progress} {x : ρ × Uuid}
    (h : visitRow T cipher true p x = .ok p') :
    rowsAfter T.rowKey (some (T.rowKey x)) (T.rows p'.session.db) =
      rowsAfter T.rowKey (some (T.rowKey x)) (T.rows p.session.db) := by
  obtain ⟨-, values, -, hsession⟩ := visitRow_ok h
  split at hsession
  · rw [hT.update_rows hsession, rowsAfter, rowsAfter, List.filter_map]
    have hkeeps : ∀ y ∈ (T.rows p.session.db).filter (fun y => T.rowKey x < T.rowKey y),
        (if T.rowKey y = T.rowKey x then (T.assign values y.1, y.2) else y) = y := by
      intro y hy
      have hlater : T.rowKey x < T.rowKey y := by simpa using (List.mem_filter.mp hy).2
      rw [if_neg (ne_of_gt hlater)]
    have hkey : ∀ y : ρ × Uuid,
        T.rowKey (if T.rowKey y = T.rowKey x then (T.assign values y.1, y.2) else y) =
          T.rowKey y := by
      intro y
      split
      · exact hT.assign_key _ _
      · rfl
    simp only [Option.all_some, Function.comp_def, hkey]
    rw [List.map_congr_left hkeeps, List.map_id'']
    exact fun _ => rfl
  · rw [hsession]

/-- The loop over some rows of the query: each is visited and converted, and each is replaced
by its turn. -/
theorem visits_ok (hT : T.Lawful) {page : List (ρ × Uuid)} {p p' : Progress}
    (hpage : ∀ x ∈ page, x ∈ T.rows p.session.db) (hkeys : (page.map T.rowKey).Nodup)
    (h : page.foldlM (visitRow T cipher true) p = .ok p') :
    p'.visited = p.visited ++ page.map T.rowKey ∧
      (∀ x ∈ page, ∃ values, T.convert cipher x.1 x.2 = .ok values) ∧
      T.rows p'.session.db = (T.rows p.session.db).map
        (fun y => if T.rowKey y ∈ page.map T.rowKey then T.turn cipher y else y) := by
  induction page generalizing p with
  | nil =>
      cases h
      simp
  | cons x rest ih =>
      obtain ⟨mid, hmid, h⟩ := bind_eq_ok.mp h
      obtain ⟨hvisited, values, hvalues, -⟩ := visitRow_ok hmid
      have hrows := visitRow_rows hT (hpage x List.mem_cons_self) hmid
      obtain ⟨hx, hrest⟩ := List.nodup_cons.mp hkeys
      -- the rows to come have other keys, so they are still in the table
      have hlater : ∀ y ∈ rest, y ∈ T.rows mid.session.db := by
        intro y hy
        rw [hrows]
        refine List.mem_map.mpr ⟨y, hpage y (List.mem_cons_of_mem _ hy), ?_⟩
        rw [if_neg]
        intro hkey
        apply hx
        rw [← hkey]
        exact List.mem_map_of_mem hy
      obtain ⟨hvisited', hvalues', hrows'⟩ := ih hlater hrest h
      refine ⟨?_, ?_, ?_⟩
      · rw [hvisited', hvisited, List.append_assoc, List.map_cons, List.singleton_append]
      · intro y hy
        rcases List.mem_cons.mp hy with rfl | hy
        · exact ⟨values, hvalues⟩
        · exact hvalues' y hy
      · rw [hrows', hrows, List.map_map]
        apply List.map_congr_left
        intro y _
        simp only [Function.comp_apply, List.map_cons, List.mem_cons]
        by_cases hkey : T.rowKey y = T.rowKey x
        · have hpast : T.rowKey (T.turn cipher y) ∉ rest.map T.rowKey := by
            rw [hT.rowKey_turn, hkey]
            exact hx
          simp only [if_neg hpast, hkey, true_or, if_true]
        · simp only [hkey, if_false, false_or]

/-- The loop over rows that are not legacy changes nothing. -/
theorem visits_settled {page : List (ρ × Uuid)} {p : Progress}
    (hlegacy : ∀ x ∈ page, T.legacy x.1 = false)
    (hconvert : ∀ x ∈ page, ∃ values, T.convert cipher x.1 x.2 = .ok values) :
    page.foldlM (visitRow T cipher true) p =
      .ok { p with visited := p.visited ++ page.map T.rowKey } := by
  induction page generalizing p with
  | nil =>
      rw [List.map_nil, List.append_nil]
      rfl
  | cons x rest ih =>
      obtain ⟨values, hvalues⟩ := hconvert x List.mem_cons_self
      have hx := hlegacy x List.mem_cons_self
      have hvisit : visitRow T cipher true p x =
          .ok { p with visited := p.visited ++ [T.rowKey x] } := by
        unfold visitRow
        simp only [hx, hvalues, Bool.not_true, Bool.not_false, Bool.false_eq_true, ↓reduceIte]
        rfl
      have hrest := @ih { p with visited := p.visited ++ [T.rowKey x] }
        (fun y hy => hlegacy y (List.mem_cons_of_mem _ hy))
        (fun y hy => hconvert y (List.mem_cons_of_mem _ hy))
      rw [List.foldlM_cons, hvisit]
      refine hrest.trans ?_
      rw [List.append_assoc, List.map_cons, List.singleton_append]

/-- The pages of the query are one loop over its rows in the order of their keys. -/
theorem backfillTarget_eq (hT : T.Lawful) (s : Session) :
    backfillTarget T cipher true s =
      (inOrder T.rowKey none (T.rows s.db)).foldlM (visitRow T cipher true) ⟨s, 0, 0, []⟩ := by
  unfold backfillTarget
  have hlength : (rowsAfter T.rowKey none (T.rows s.db)).length < (T.rows s.db).length + 1 :=
    Nat.lt_succ_of_le (List.length_filter_le _ _)
  exact @scan_eq_foldlM _ _ _ _ _ T.rowKey (fun p : Progress => T.rows p.session.db)
    (visitRow T cipher true) 100 _ (by omega) (fun p => hT.keys _)
    (fun p x p' hp => visitRow_rowsAfter hT hp) _ none ⟨s, 0, 0, []⟩ hlength

theorem mem_inOrder_none {x : ρ × Uuid} {rows : List (ρ × Uuid)} :
    x ∈ inOrder T.rowKey none rows ↔ x ∈ rows := by
  rw [(inOrder_perm T.rowKey none rows).mem_iff, rowsAfter, List.mem_filter]
  simp

theorem inOrder_none_perm (rows : List (ρ × Uuid)) : (inOrder T.rowKey none rows).Perm rows := by
  have hall : rowsAfter T.rowKey none rows = rows := by simp [rowsAfter]
  have hperm := inOrder_perm T.rowKey none rows
  rwa [hall] at hperm

/-- A completed backfill of one table. -/
theorem backfillTarget_ok (hT : T.Lawful) {s : Session} {p : Progress}
    (h : backfillTarget T cipher true s = .ok p) :
    p.visited.Perm ((T.rows s.db).map T.rowKey) ∧
      (∀ x ∈ T.rows s.db, ∃ values, T.convert cipher x.1 x.2 = .ok values) ∧
      T.rows p.session.db = (T.rows s.db).map (T.turn cipher) := by
  rw [backfillTarget_eq hT] at h
  have hperm := inOrder_none_perm (T := T) (T.rows s.db)
  have hkeys : ((inOrder T.rowKey none (T.rows s.db)).map T.rowKey).Nodup :=
    (hperm.map T.rowKey).nodup_iff.mpr (hT.keys _)
  obtain ⟨hvisited, hconvert, hrows⟩ := visits_ok hT (fun x hx => mem_inOrder_none.mp hx) hkeys h
  refine ⟨?_, ?_, ?_⟩
  · rw [hvisited, List.nil_append]
    exact hperm.map T.rowKey
  · exact fun x hx => hconvert x (mem_inOrder_none.mpr hx)
  · rw [hrows]
    apply List.map_congr_left
    intro x hx
    rw [if_pos]
    exact List.mem_map_of_mem (mem_inOrder_none.mpr hx)

/-- The backfill of a table without legacy rows completes and changes nothing. -/
theorem backfillTarget_settled (hT : T.Lawful) {s : Session}
    (hlegacy : ∀ x ∈ T.rows s.db, T.legacy x.1 = false)
    (hconvert : ∀ x ∈ T.rows s.db, ∃ values, T.convert cipher x.1 x.2 = .ok values) :
    ∃ visited, backfillTarget T cipher true s = .ok ⟨s, 0, 0, visited⟩ := by
  rw [backfillTarget_eq hT]
  refine ⟨_, visits_settled ?_ ?_⟩
  · exact fun x hx => hlegacy x (mem_inOrder_none.mp hx)
  · exact fun x hx => hconvert x (mem_inOrder_none.mp hx)

/-- What no update of the target touches is left alone. -/
theorem backfillTarget_left (hT : T.Lawful) {β : Type} (left : Session → β)
    (hleft : ∀ {s id values s'}, T.update s id values = .ok s' → left s' = left s)
    {s : Session} {p : Progress} (h : backfillTarget T cipher true s = .ok p) :
    left p.session = left s := by
  rw [backfillTarget_eq hT] at h
  have hloop : ∀ (page : List (ρ × Uuid)) (q : Progress),
      page.foldlM (visitRow T cipher true) q = .ok p → left p.session = left q.session := by
    intro page
    induction page with
    | nil =>
        intro q hq
        cases hq
        rfl
    | cons x rest ih =>
        intro q hq
        obtain ⟨mid, hmid, hq⟩ := bind_eq_ok.mp hq
        obtain ⟨-, values, -, hsession⟩ := visitRow_ok hmid
        rw [ih mid hq]
        split at hsession
        · exact hleft hsession
        · rw [hsession]
  exact hloop _ _ h

end Loop

end PortRag.Maintenance
