import PortRag.Ingest.Kordoc

set_option autoImplicit false

/-!
# The places of table cells

The scan of `_kordoc_table_data` meets the places of a table row by row.  What it keeps at
every turn is a relation between the places that it has covered and the rectangles of the
cells that it has emitted so far; a cell emitted later starts below or to the right of its
predecessors, so its rectangle never reaches back to their anchors.
-/

namespace PortRag.Ingest

/-! ## Row-major order -/

/-- The place where a cell starts. -/
def TableCell.anchor (cell : TableCell) : Nat × Nat := (cell.startRow, cell.startCol)

/-- The places that a cell takes. -/
def TableCell.rect (cell : TableCell) : Finset (Nat × Nat) :=
  rectangle cell.startRow cell.startCol cell.endRow cell.endCol

/-- The first place comes before the second, row by row. -/
def Before (p q : Nat × Nat) : Prop := p.1 < q.1 ∨ (p.1 = q.1 ∧ p.2 < q.2)

theorem Before.ne {p q : Nat × Nat} (h : Before p q) : p ≠ q := by
  rintro rfl
  simp [Before] at h

theorem Before.not_after {p q : Nat × Nat} (h : Before p q) : ¬Before q p := by
  unfold Before at h ⊢
  omega

theorem mem_rectangle {row col rowEnd colEnd : Nat} {p : Nat × Nat} :
    p ∈ rectangle row col rowEnd colEnd ↔
      (row ≤ p.1 ∧ p.1 < rowEnd) ∧ col ≤ p.2 ∧ p.2 < colEnd := by
  simp [rectangle, Finset.mem_product]

/-- A rectangle does not reach back. -/
theorem anchor_not_mem_rect {cell : TableCell} {p : Nat × Nat} (h : Before p cell.anchor) :
    p ∉ cell.rect := by
  intro hp
  obtain ⟨⟨hrow, _⟩, hcol, _⟩ := mem_rectangle.mp hp
  rcases h with hlt | ⟨heq, hlt⟩
  · exact absurd hrow (Nat.not_le.mpr hlt)
  · exact absurd hcol (Nat.not_le.mpr hlt)

/-- The places of a grid, in the order of the scan. -/
def places {α : Type} (rows : List (List α)) : List ((Nat × Nat) × α) :=
  rows.zipIdx.flatMap (fun z => z.1.zipIdx.map (fun b => ((z.2, b.2), b.1)))

theorem places_map {α β : Type} (f : α → β) (rows : List (List α)) :
    places (rows.map (fun row => row.map f)) = (places rows).map (fun z => (z.1, f z.2)) := by
  rw [places, places, List.zipIdx_map, List.flatMap_map, List.map_flatMap]
  congr 1
  funext z
  rw [Prod.map_fst, List.zipIdx_map, List.map_map, List.map_map]
  rfl

/-- What stands at a place of a grid stands in one of its rows. -/
theorem mem_of_mem_places {α : Type} {rows : List (List α)} {z : (Nat × Nat) × α}
    (hz : z ∈ places rows) : ∃ row ∈ rows, z.2 ∈ row := by
  obtain ⟨y, hy, hz⟩ := List.mem_flatMap.mp hz
  obtain ⟨b, hb, rfl⟩ := List.mem_map.mp hz
  exact ⟨y.1, List.fst_mem_of_mem_zipIdx hy, List.fst_mem_of_mem_zipIdx hb⟩

/-- The two loops are one loop over the places. -/
theorem scanTable_eq (hasHeader : Bool) (rows : List (List Box)) :
    scanTable hasHeader rows =
      (places rows).foldl (fun s p => visit hasHeader p.1.1 p.1.2 p.2 s) ⟨∅, []⟩ := by
  rw [scanTable, places, List.foldl_flatMap]
  congr 1
  funext s z
  rw [scanRow, List.foldl_map]

/-- The indices of a list ascend. -/
theorem zipIdx_ascending {α : Type} (xs : List α) :
    xs.zipIdx.Pairwise (fun a b => a.2 < b.2) := by
  rw [← List.pairwise_map (f := Prod.snd) (R := (· < ·)), List.zipIdx_map_snd]
  exact List.pairwise_lt_range'

/-- The scan meets each place once, in row-major order. -/
theorem places_ascending {α : Type} (rows : List (List α)) :
    (places rows).Pairwise (fun p q => Before p.1 q.1) := by
  rw [places, List.pairwise_flatMap]
  constructor
  · intro z _
    rw [List.pairwise_map]
    exact (zipIdx_ascending z.1).imp (fun h => .inr ⟨rfl, h⟩)
  · refine (zipIdx_ascending rows).imp ?_
    intro z w hzw p hp q hq
    obtain ⟨b, _, rfl⟩ := List.mem_map.mp hp
    obtain ⟨b', _, rfl⟩ := List.mem_map.mp hq
    exact .inl hzw

/-- A place of the grid is met. -/
theorem mem_places {α : Type} {rows : List (List α)} {row col : Nat} {boxes : List α} {box : α}
    (hrow : rows[row]? = some boxes) (hcol : boxes[col]? = some box) :
    ((row, col), box) ∈ places rows := by
  refine List.mem_flatMap.mpr ⟨(boxes, row), ?_, List.mem_map.mpr ⟨(box, col), ?_, rfl⟩⟩
  · exact List.mk_mem_zipIdx_iff_getElem?.mpr hrow
  · exact List.mk_mem_zipIdx_iff_getElem?.mpr hcol

/-! ## The loop -/

/-- The anchors of cells. -/
def anchors (cells : List TableCell) : List (Nat × Nat) := cells.map TableCell.anchor

/-- What the loop keeps: `done` are the places met so far. -/
structure Scanned (done : List ((Nat × Nat) × Box)) (s : Scan) : Prop where
  /-- What is covered lies in the rectangle of a cell, behind its anchor. -/
  covered : ∀ p, p ∈ s.covered ↔ ∃ cell ∈ s.cells, p ∈ cell.rect ∧ p ≠ cell.anchor
  placed : ∀ cell ∈ s.cells, ∃ p ∈ done, p.1 = cell.anchor
  ascending : s.cells.Pairwise (fun a b => Before a.anchor b.anchor)
  apart : s.cells.Pairwise (fun a b => b.anchor ∉ a.rect)
  met : ∀ p ∈ done, ∃ cell ∈ s.cells,
    cell.anchor = p.1 ∨ (Before cell.anchor p.1 ∧ p.1 ∈ cell.rect)
  texts : s.cells.map (·.text) =
    (done.filter (fun p => p.1 ∈ anchors s.cells)).map (·.2.text)

/-- One turn keeps it: the place is covered by a cell that was emitted before, or it becomes the
anchor of a cell of its own, whose rectangle has no earlier anchor in it. -/
theorem Scanned.visit {done : List ((Nat × Nat) × Box)} {s : Scan} (h : Scanned done s)
    (hasHeader : Bool) {p : (Nat × Nat) × Box} (hp : ∀ q ∈ done, Before q.1 p.1) :
    Scanned (done ++ [p]) (visit hasHeader p.1.1 p.1.2 p.2 s) := by
  obtain ⟨hcovered, hanchors, hascending, hapart, hmet, htexts⟩ := h
  have hbefore : ∀ cell ∈ s.cells, Before cell.anchor p.1 := by
    intro cell hcell
    obtain ⟨q, hq, hanchor⟩ := hanchors cell hcell
    rw [← hanchor]
    exact hp q hq
  by_cases hin : (p.1.1, p.1.2) ∈ s.covered
  · rw [PortRag.Ingest.visit, if_pos hin]
    refine ⟨hcovered, ?_, hascending, hapart, ?_, ?_⟩
    · intro cell hcell
      obtain ⟨q, hq, hanchor⟩ := hanchors cell hcell
      exact ⟨q, List.mem_append_left _ hq, hanchor⟩
    · intro q hq
      rcases List.mem_append.mp hq with hq | hq
      · exact hmet q hq
      · rw [List.mem_singleton.mp hq]
        obtain ⟨cell, hcell, hrect, _⟩ := (hcovered p.1).mp hin
        exact ⟨cell, hcell, .inr ⟨hbefore cell hcell, hrect⟩⟩
    · have hnew : p.1 ∉ anchors s.cells := by
        intro hmem
        obtain ⟨cell, hcell, hanchor⟩ := List.mem_map.mp hmem
        exact (hbefore cell hcell).ne hanchor
      rw [List.filter_append, List.filter_cons_of_neg (by simpa using hnew), List.filter_nil,
        List.append_nil]
      exact htexts
  · rw [PortRag.Ingest.visit, if_neg hin]
    dsimp only
    generalize hcell : (TableCell.mk _ _ _ _ _ _ _ _) = new
    have hanchor : new.anchor = p.1 := by rw [← hcell]; rfl
    have hrect : new.rect = rectangle p.1.1 p.1.2 (p.1.1 + p.2.rowSpan) (p.1.2 + p.2.colSpan) := by
      rw [← hcell]
      rfl
    refine ⟨?_, ?_, ?_, ?_, ?_, ?_⟩
    · intro q
      have hnew : q ∈ (rectangle p.1.1 p.1.2 (p.1.1 + p.2.rowSpan) (p.1.2 + p.2.colSpan)).erase
          (p.1.1, p.1.2) ↔ q ∈ new.rect ∧ q ≠ new.anchor := by
        rw [Finset.mem_erase, hrect, hanchor, and_comm]
      simp only [Finset.mem_union, hcovered, hnew, List.mem_append, List.mem_singleton, or_and_right,
        exists_or, exists_eq_left]
    · intro cell hmem
      rcases List.mem_append.mp hmem with hmem | hmem
      · obtain ⟨q, hq, hanchor⟩ := hanchors cell hmem
        exact ⟨q, List.mem_append_left _ hq, hanchor⟩
      · rw [List.mem_singleton.mp hmem]
        exact ⟨p, List.mem_append_right _ (List.mem_singleton_self p), hanchor.symm⟩
    · refine List.pairwise_append.mpr ⟨hascending, List.pairwise_singleton _ _, ?_⟩
      intro cell hmem other hother
      rw [List.mem_singleton.mp hother, hanchor]
      exact hbefore cell hmem
    · refine List.pairwise_append.mpr ⟨hapart, List.pairwise_singleton _ _, ?_⟩
      intro cell hmem other hother hmemrect
      rw [List.mem_singleton.mp hother, hanchor] at hmemrect
      -- a place in the rectangle of a cell would have been covered
      exact hin ((hcovered p.1).mpr ⟨cell, hmem, hmemrect, (hbefore cell hmem).ne.symm⟩)
    · intro q hq
      rcases List.mem_append.mp hq with hq | hq
      · obtain ⟨cell, hmem, hcases⟩ := hmet q hq
        exact ⟨cell, List.mem_append_left _ hmem, hcases⟩
      · rw [List.mem_singleton.mp hq]
        exact ⟨new, List.mem_append_right _ (List.mem_singleton_self new), .inl hanchor⟩
    · have hcells : anchors (s.cells ++ [new]) = anchors s.cells ++ [p.1] := by
        rw [anchors, anchors, List.map_append, List.map_singleton, hanchor]
      have hold : done.filter (fun q => q.1 ∈ anchors s.cells ++ [p.1]) =
          done.filter (fun q => q.1 ∈ anchors s.cells) := by
        refine List.filter_congr fun q hq => ?_
        have hne := (hp q hq).ne
        simp [hne]
      have htext : new.text = p.2.text := by rw [← hcell]
      rw [List.map_append, hcells, List.filter_append, hold, List.filter_cons_of_pos (by simp),
        List.filter_nil, List.map_append, List.map_singleton, List.map_singleton, htexts, htext]

/-- The whole loop keeps it. -/
theorem scanned_foldl (hasHeader : Bool) {done rest : List ((Nat × Nat) × Box)} {s : Scan}
    (h : Scanned done s) (hrest : (done ++ rest).Pairwise (fun p q => Before p.1 q.1)) :
    Scanned (done ++ rest) (rest.foldl (fun s p => visit hasHeader p.1.1 p.1.2 p.2 s) s) := by
  induction rest generalizing done s with
  | nil => simpa using h
  | cons p rest ih =>
      have hp : ∀ q ∈ done, Before q.1 p.1 :=
        fun q hq => (List.pairwise_append.mp hrest).2.2 q hq p List.mem_cons_self
      rw [List.append_cons] at hrest ⊢
      exact ih (h.visit hasHeader hp) hrest

theorem scanned_nil : Scanned [] ⟨∅, []⟩ := by
  refine ⟨?_, ?_, .nil, .nil, ?_, rfl⟩ <;> simp

theorem scanned_table (hasHeader : Bool) (rows : List (List Box)) :
    Scanned (places rows) (scanTable hasHeader rows) := by
  have hall : (([] : List ((Nat × Nat) × Box)) ++ places rows).Pairwise
      (fun p q => Before p.1 q.1) := places_ascending rows
  rw [scanTable_eq]
  exact scanned_foldl hasHeader scanned_nil hall

/-- The cells emitted for a box of the grid take the spans of that box. -/
theorem visit_spans {hasHeader : Bool} {row col : Nat} {box : Box} {s : Scan}
    (hbox : 1 ≤ box.rowSpan ∧ 1 ≤ box.colSpan) (hs : ∀ cell ∈ s.cells, cell.anchor ∈ cell.rect) :
    ∀ cell ∈ (visit hasHeader row col box s).cells, cell.anchor ∈ cell.rect := by
  rw [visit]
  split
  · exact hs
  · intro cell hcell
    rcases List.mem_append.mp hcell with hcell | hcell
    · exact hs cell hcell
    · rw [List.mem_singleton.mp hcell]
      have hrow : row < row + box.rowSpan := Nat.lt_add_of_pos_right hbox.1
      have hcol : col < col + box.colSpan := Nat.lt_add_of_pos_right hbox.2
      exact mem_rectangle.mpr ⟨⟨Nat.le_refl _, hrow⟩, Nat.le_refl _, hcol⟩

/-- A cell takes at least its own place. -/
theorem anchor_mem_rect {hasHeader : Bool} {rows : List (List Box)}
    (hspans : ∀ boxes ∈ rows, ∀ box ∈ boxes, 1 ≤ box.rowSpan ∧ 1 ≤ box.colSpan) :
    ∀ cell ∈ placeCells hasHeader rows, cell.anchor ∈ cell.rect := by
  have hplaces : ∀ p ∈ places rows, 1 ≤ p.2.rowSpan ∧ 1 ≤ p.2.colSpan := by
    intro p hp
    obtain ⟨boxes, hboxes, hbox⟩ := mem_of_mem_places hp
    exact hspans boxes hboxes p.2 hbox
  rw [placeCells, scanTable_eq]
  refine List.foldlRecOn (places rows) _ (motive := fun s : Scan => ∀ cell ∈ s.cells, cell.anchor ∈ cell.rect)
    (by simp) ?_
  exact fun s hs p hp => visit_spans (hplaces p hp) hs

/-- The cells of a table, as its JSON has them. -/
def Table.cells : Table → List (List Cell)
  | .mk _ _ _ _ _ cells => cells

/-- The spans of a cell are at least 1. -/
def Cell.Spans : Cell → Prop
  | .mk _ rowSpan colSpan _ _ => 1 ≤ rowSpan ∧ 1 ≤ colSpan

theorem rowBoxes_eq : ∀ row, rowBoxes row = row.map cellBox
  | [] => by rw [rowBoxes, List.map_nil]
  | cell :: rest => by rw [rowBoxes, rowBoxes_eq rest, List.map_cons]

theorem tableBoxes_eq : ∀ cells, tableBoxes cells = cells.map (fun row => row.map cellBox)
  | [] => by rw [tableBoxes, List.map_nil]
  | row :: rest => by rw [tableBoxes, tableBoxes_eq rest, rowBoxes_eq, List.map_cons]

theorem cellBox_spans {cell : Cell} (h : cell.Spans) :
    1 ≤ (cellBox cell).rowSpan ∧ 1 ≤ (cellBox cell).colSpan := by
  cases cell
  rw [cellBox]
  exact h

/-- The cells of a table come from one scan of its boxes. -/
theorem tableData_cells (table : Table) :
    ∃ hasHeader, (tableData table).tableCells = placeCells hasHeader (tableBoxes table.cells) := by
  cases table with
  | mk rows cols hasHeader caption captionBlocks cells => exact ⟨hasHeader, by rw [tableData]; rfl⟩

/-- What the scan says of its cells, for cells that take at least their own place. -/
theorem placeCells_apart (hasHeader : Bool) {rows : List (List Box)}
    (hspans : ∀ boxes ∈ rows, ∀ box ∈ boxes, 1 ≤ box.rowSpan ∧ 1 ≤ box.colSpan) :
    ∀ cell ∈ placeCells hasHeader rows,
      (placeCells hasHeader rows).filter (fun c => cell.anchor ∈ c.rect) = [cell] := by
  have h := scanned_table hasHeader rows
  have hapart : (placeCells hasHeader rows).Pairwise
      (fun a b => b.anchor ∉ a.rect ∧ a.anchor ∉ b.rect) :=
    h.apart.imp₂ (fun a b hab hbefore => ⟨hab, anchor_not_mem_rect hbefore⟩) h.ascending
  intro cell hcell
  obtain ⟨before, after, hcells⟩ := List.append_of_mem hcell
  have hown := anchor_mem_rect hspans cell hcell
  rw [hcells] at hapart ⊢
  obtain ⟨-, htail, hcross⟩ := List.pairwise_append.mp hapart
  obtain ⟨hafter, -⟩ := List.pairwise_cons.mp htail
  have hnone : before.filter (fun c => cell.anchor ∈ c.rect) = [] := by
    refine List.filter_eq_nil_iff.mpr fun c hc => ?_
    simpa using (hcross c hc cell List.mem_cons_self).1
  have hnone' : after.filter (fun c => cell.anchor ∈ c.rect) = [] := by
    refine List.filter_eq_nil_iff.mpr fun c hc => ?_
    simpa using (hafter c hc).2
  rw [List.filter_append, hnone, List.filter_cons_of_pos (by simpa using hown), hnone']
  rfl

/-- For every table with spans of at least 1: the cells are emitted row by row with different
anchors; every place of the grid of cells is the anchor of an emitted cell or lies in the
rectangle of a cell emitted for an earlier place; and the only rectangle with the anchor of an
emitted cell in it is that of the cell itself, so a grid painted with the rectangles in any
order keeps the text of each. -/
theorem cells_keep_anchors (table : Table) (hspans : ∀ row ∈ table.cells, ∀ cell ∈ row, cell.Spans) :
    (tableData table).tableCells.Pairwise (fun a b => Before a.anchor b.anchor) ∧
      (∀ row col boxes box, table.cells[row]? = some boxes → boxes[col]? = some box →
        ∃ cell ∈ (tableData table).tableCells, cell.anchor = (row, col) ∨
          (Before cell.anchor (row, col) ∧ (row, col) ∈ cell.rect)) ∧
      (tableData table).tableCells.Pairwise
        (fun a b => a.anchor ≠ b.anchor ∧ b.anchor ∉ a.rect ∧ a.anchor ∉ b.rect) ∧
      ∀ cell ∈ (tableData table).tableCells,
        (tableData table).tableCells.filter (fun c => cell.anchor ∈ c.rect) = [cell] := by
  obtain ⟨hasHeader, hcells⟩ := tableData_cells table
  have h := scanned_table hasHeader (tableBoxes table.cells)
  rw [hcells]
  refine ⟨h.ascending, ?_, ?_, ?_⟩
  · intro row col boxes box hrow hcol
    have hrow' : (tableBoxes table.cells)[row]? = some (boxes.map cellBox) := by
      rw [tableBoxes_eq, List.getElem?_map, hrow, Option.map_some]
    have hcol' : (boxes.map cellBox)[col]? = some (cellBox box) := by
      rw [List.getElem?_map, hcol, Option.map_some]
    exact h.met _ (mem_places hrow' hcol')
  · exact h.apart.imp₂ (fun a b hab hbefore => ⟨hbefore.ne, hab, anchor_not_mem_rect hbefore⟩)
      h.ascending
  · refine placeCells_apart hasHeader ?_
    intro boxes hboxes box hbox
    rw [tableBoxes_eq] at hboxes
    obtain ⟨row, hrow, rfl⟩ := List.mem_map.mp hboxes
    obtain ⟨cell, hcell, rfl⟩ := List.mem_map.mp hbox
    exact cellBox_spans (hspans row hrow cell hcell)

/-- A merged cell over two columns, with a cell that runs past the grid below it. -/
def mergedTable : Table :=
  .mk 2 2 true "" [] [[.mk "a" 1 2 true [], .mk "" 1 1 false []],
    [.mk "b" 3 1 false [], .mk "c" 1 1 false []]]

theorem cells_keep_anchors_merged :
    (tableData mergedTable).tableCells.Pairwise (fun a b => Before a.anchor b.anchor) ∧
      (∃ cell ∈ (tableData mergedTable).tableCells, cell.anchor = (0, 1) ∨
        (Before cell.anchor (0, 1) ∧ (0, 1) ∈ cell.rect)) ∧
      (tableData mergedTable).tableCells.Pairwise
        (fun a b => a.anchor ≠ b.anchor ∧ b.anchor ∉ a.rect ∧ a.anchor ∉ b.rect) ∧
      ∀ cell ∈ (tableData mergedTable).tableCells,
        (tableData mergedTable).tableCells.filter (fun c => cell.anchor ∈ c.rect) = [cell] := by
  obtain ⟨hascending, hmet, hapart, hcovered⟩ :=
    cells_keep_anchors mergedTable (by simp [mergedTable, Table.cells, Cell.Spans])
  exact ⟨hascending, hmet 0 1 _ _ rfl rfl, hapart, hcovered⟩

end PortRag.Ingest
