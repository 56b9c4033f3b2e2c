import PortRag.Foundation.Occurrences
import PortRag.Ingest.TablePlaces

set_option autoImplicit false

/-!
# The texts of a kordoc document

What a kordoc tree says, piece by piece in document order, each piece with the place of its
block.  The flattening of `_kordoc_block_text` makes its text of the pieces of a block and of
separators, but of none that stand below a block that it flattens.
-/

namespace PortRag.Ingest

open PortRag.Foundation

/-! ## Pieces -/

/-- Where a block stands: outside of cells and captions; in a cell or a caption; below a block
in a cell or a caption; or in a cell that an earlier merged cell covers. -/
inductive Place where
  | item
  | flat
  | below
  | covered
  deriving DecidableEq

/-- The place of what a table holds. -/
def Place.inside : Place → Place
  | .item => .flat
  | .flat => .flat
  | .below => .below
  | .covered => .covered

/-- The place of the children of a block. -/
def Place.under : Place → Place
  | .item => .item
  | .flat => .below
  | .below => .below
  | .covered => .covered

/-- The text of a block, a cell or a caption; `known` is false for a block of unknown type. -/
structure Piece where
  place : Place
  known : Bool
  text : String
  deriving DecidableEq

/-- The piece of a cell that is covered. -/
def Piece.cover (p : Piece) : Piece := { p with place := .covered }

/-- The link and the note of a block, as they are written behind its text. -/
def linkAndNote (body : Body) : String :=
  (if body.href ≠ "" ∧ body.href ≠ plainText body then " (" ++ body.href ++ ")" else "") ++
    (if body.footnoteText ≠ "" then " (주: " ++ body.footnoteText ++ ")" else "")

/-- What a block says: its text without placeholder spans, its link and its note, each with
the dollar signs un-escaped. -/
def blockSays (body : Body) : String :=
  unescapeDollars (plainText body) ++ unescapeDollars (linkAndNote body)

/-- The places of the cells that the scan of a table emits. -/
def openPlaces (hasHeader : Bool) (cells : List (List Cell)) : List (Nat × Nat) :=
  anchors (placeCells hasHeader (tableBoxes cells))

/-- A place is open when no cell that is emitted for an earlier place covers it. -/
theorem mem_openPlaces_iff {hasHeader : Bool} {cells : List (List Cell)} {p : Nat × Nat} :
    p ∈ openPlaces hasHeader cells ↔ p ∈ (places cells).map Prod.fst ∧
      ∀ cell ∈ placeCells hasHeader (tableBoxes cells), Before cell.anchor p → p ∉ cell.rect := by
  have h := scanned_table hasHeader (tableBoxes cells)
  have hplaces : (places (tableBoxes cells)).map Prod.fst = (places cells).map Prod.fst := by
    rw [tableBoxes_eq, places_map, List.map_map]
    rfl
  rw [openPlaces, anchors, List.mem_map, ← hplaces]
  constructor
  · rintro ⟨own, hown, rfl⟩
    obtain ⟨z, hz, hanchor⟩ := h.placed own hown
    refine ⟨hanchor ▸ List.mem_map_of_mem hz, ?_⟩
    intro cell hcell hbefore
    -- a cell with an earlier anchor is emitted earlier
    obtain ⟨i, hi, rfl⟩ := List.getElem_of_mem hcell
    obtain ⟨j, hj, rfl⟩ := List.getElem_of_mem hown
    rcases Nat.lt_trichotomy i j with hlt | rfl | hgt
    · exact List.pairwise_iff_getElem.mp h.apart i j hi hj hlt
    · exact absurd rfl hbefore.ne
    · exact absurd (List.pairwise_iff_getElem.mp h.ascending j i hj hi hgt) hbefore.not_after
  · rintro ⟨hplace, hfree⟩
    obtain ⟨z, hz, rfl⟩ := List.mem_map.mp hplace
    obtain ⟨cell, hcell, hanchor | ⟨hbefore, hin⟩⟩ := h.met z hz
    · exact ⟨cell, hcell, hanchor⟩
    · exact absurd hin (hfree cell hcell hbefore)

mutual

/-- The pieces of a block and of all that it holds. -/
def blockPieces (place : Place) : Block → List Piece
  | .table t children => tablePieces place.inside t ++ blocksPieces place.under children
  | .paragraph body children => ⟨place, true, blockSays body⟩ :: blocksPieces place.under children
  | .heading _ body children => ⟨place, true, blockSays body⟩ :: blocksPieces place.under children
  | .list _ body children => ⟨place, true, blockSays body⟩ :: blocksPieces place.under children
  | .image children => blocksPieces place.under children
  | .separator children => blocksPieces place.under children
  | .other _ body children => ⟨place, false, blockSays body⟩ :: blocksPieces place.under children

/-- The pieces of a list of blocks. -/
def blocksPieces (place : Place) : List Block → List Piece
  | [] => []
  | block :: rest => blockPieces place block ++ blocksPieces place rest

/-- The pieces of a table: its caption, and its cells row by row. -/
def tablePieces (place : Place) : Table → List Piece
  | .mk _ _ hasHeader caption captionBlocks cells =>
      (if captionBlocks.isEmpty then [⟨place, true, unescapeDollars caption⟩]
        else blocksPieces place captionBlocks) ++
      (places (gridPieces place cells)).flatMap
        (fun z => if z.1 ∈ openPlaces hasHeader cells then z.2 else z.2.map Piece.cover)

/-- The pieces of each cell of a grid. -/
def gridPieces (place : Place) : List (List Cell) → List (List (List Piece))
  | [] => []
  | row :: rest => rowPieces place row :: gridPieces place rest

/-- The pieces of each cell of a row. -/
def rowPieces (place : Place) : List Cell → List (List Piece)
  | [] => []
  | cell :: rest => cellPieces place cell :: rowPieces place rest

/-- The pieces of a cell: those of its blocks, if it has any, and else its text. -/
def cellPieces (place : Place) : Cell → List Piece
  | .mk text _ _ _ blocks =>
      if blocks.isEmpty then [⟨place, true, unescapeDollars text⟩] else blocksPieces place blocks

end

theorem rowPieces_eq (place : Place) : ∀ row, rowPieces place row = row.map (cellPieces place)
  | [] => by rw [rowPieces, List.map_nil]
  | cell :: rest => by rw [rowPieces, rowPieces_eq place rest, List.map_cons]

theorem gridPieces_eq (place : Place) :
    ∀ cells, gridPieces place cells = cells.map (fun row => row.map (cellPieces place))
  | [] => by rw [gridPieces, List.map_nil]
  | row :: rest => by rw [gridPieces, gridPieces_eq place rest, rowPieces_eq, List.map_cons]

theorem blocksPieces_eq (place : Place) :
    ∀ blocks, blocksPieces place blocks = blocks.flatMap (blockPieces place)
  | [] => by rw [blocksPieces, List.flatMap_nil]
  | block :: rest => by rw [blocksPieces, blocksPieces_eq place rest, List.flatMap_cons]

theorem blockTexts_eq : ∀ blocks, blockTexts blocks = blocks.map blockText
  | [] => by rw [blockTexts, List.map_nil]
  | block :: rest => by rw [blockTexts, blockTexts_eq rest, List.map_cons]

/-! ## The text of a block -/

/-- No `\$` arises where the second text does not start with a dollar sign. -/
theorem unescape_append (s t : List Char) (ht : t.head? ≠ some '$') :
    unescape (s ++ t) = unescape s ++ unescape t := by
  fun_induction unescape s with
  | case1 rest ih => simpa [unescape] using ih
  | case2 c rest hc ih =>
      have hnot : ∀ more, c = '\\' → rest ++ t = '$' :: more → False := by
        intro more hback heq
        cases rest with
        | nil => exact ht (by rw [List.nil_append] at heq; rw [heq, List.head?_cons])
        | cons d rest =>
            obtain ⟨hd, _⟩ := List.cons.inj heq
            exact hc rest hback (by rw [hd])
      rw [List.cons_append, unescape.eq_2 _ _ hnot, ih]
      rfl
  | case3 => rfl

theorem unescapeDollars_append (s t : String) (ht : t.toList.head? ≠ some '$') :
    unescapeDollars (s ++ t) = unescapeDollars s ++ unescapeDollars t := by
  rw [unescapeDollars, unescapeDollars, unescapeDollars, String.toList_append,
    unescape_append _ _ ht, String.ofList_append]

/-- A link or a note starts with a space. -/
theorem linkAndNote_head (body : Body) : (linkAndNote body).toList.head? ≠ some '$' := by
  rw [linkAndNote]
  split <;> split <;> simp

/-- The un-escaped text of a block is its own text with its link and its note. -/
theorem bodyText_eq (body : Body) : bodyText body = blockSays body := by
  have htext : bodyText body = unescapeDollars (plainText body ++ linkAndNote body) := by
    rw [bodyText, linkAndNote]
    congr 1
    split <;> split <;> simp [String.append_assoc]
  rw [htext, blockSays, unescapeDollars_append _ _ (linkAndNote_head body)]

/-! ## What flattening shows -/

/-- A place whose texts are written. -/
def Place.shown : Place → Bool
  | .item => true
  | .flat => true
  | .below => false
  | .covered => false

/-- The texts of the pieces that are written. -/
def shown (ps : List Piece) : List (List Char) :=
  (ps.filter (·.place.shown)).map (·.text.toList)

theorem shown_append (ps qs : List Piece) : shown (ps ++ qs) = shown ps ++ shown qs := by
  rw [shown, List.filter_append, List.map_append]
  rfl

theorem shown_flatMap {α : Type} (xs : List α) (f : α → List Piece) :
    shown (xs.flatMap f) = (xs.map (fun x => shown (f x))).flatten := by
  induction xs with
  | nil => rfl
  | cons x xs ih => rw [List.flatMap_cons, shown_append, ih, List.map_cons, List.flatten_cons]

theorem shown_eq_nil {ps : List Piece} (h : ∀ p ∈ ps, p.place.shown = false) : shown ps = [] := by
  rw [shown, List.filter_eq_nil_iff.mpr fun p hp => by simp [h p hp], List.map_nil]

theorem shown_cover (ps : List Piece) : shown (ps.map Piece.cover) = [] := by
  refine shown_eq_nil fun p hp => ?_
  obtain ⟨q, _, rfl⟩ := List.mem_map.mp hp
  rfl

theorem Place.inside_hidden {place : Place} (h : place.shown = false) :
    place.inside.shown = false := by
  cases place <;> first | rfl | cases h

theorem Place.under_hidden {place : Place} (h : place.shown = false) :
    place.under.shown = false := by
  cases place <;> first | rfl | cases h

mutual

/-- Below a block that is flattened nothing is written. -/
theorem blockPieces_hidden {place : Place} (h : place.shown = false) :
    ∀ block, ∀ p ∈ blockPieces place block, p.place.shown = false
  | .table t children => by
      rw [blockPieces]
      exact List.forall_mem_append.mpr ⟨tablePieces_hidden (Place.inside_hidden h) t,
        blocksPieces_hidden (Place.under_hidden h) children⟩
  | .paragraph body children => by
      rw [blockPieces]
      exact List.forall_mem_cons.mpr ⟨h, blocksPieces_hidden (Place.under_hidden h) children⟩
  | .heading level body children => by
      rw [blockPieces]
      exact List.forall_mem_cons.mpr ⟨h, blocksPieces_hidden (Place.under_hidden h) children⟩
  | .list ordered body children => by
      rw [blockPieces]
      exact List.forall_mem_cons.mpr ⟨h, blocksPieces_hidden (Place.under_hidden h) children⟩
  | .image children => by
      rw [blockPieces]
      exact blocksPieces_hidden (Place.under_hidden h) children
  | .separator children => by
      rw [blockPieces]
      exact blocksPieces_hidden (Place.under_hidden h) children
  | .other type body children => by
      rw [blockPieces]
      exact List.forall_mem_cons.mpr ⟨h, blocksPieces_hidden (Place.under_hidden h) children⟩

theorem blocksPieces_hidden {place : Place} (h : place.shown = false) :
    ∀ blocks, ∀ p ∈ blocksPieces place blocks, p.place.shown = false
  | [] => by
      rw [blocksPieces]
      exact List.forall_mem_nil _
  | block :: rest => by
      rw [blocksPieces]
      exact List.forall_mem_append.mpr ⟨blockPieces_hidden h block, blocksPieces_hidden h rest⟩

theorem tablePieces_hidden {place : Place} (h : place.shown = false) :
    ∀ t, ∀ p ∈ tablePieces place t, p.place.shown = false
  | .mk rows cols hasHeader caption captionBlocks cells => by
      rw [tablePieces]
      refine List.forall_mem_append.mpr ⟨?_, ?_⟩
      · split
        · exact List.forall_mem_singleton.mpr h
        · exact blocksPieces_hidden h captionBlocks
      · intro p hp
        obtain ⟨z, hz, hp⟩ := List.mem_flatMap.mp hp
        split at hp
        · rw [gridPieces_eq, places_map] at hz
          obtain ⟨y, hy, rfl⟩ := List.mem_map.mp hz
          obtain ⟨row, hrow, hcell⟩ := mem_of_mem_places hy
          exact gridPieces_hidden h cells row hrow y.2 hcell p hp
        · obtain ⟨q, _, rfl⟩ := List.mem_map.mp hp
          rfl

theorem gridPieces_hidden {place : Place} (h : place.shown = false) :
    ∀ (cells : List (List Cell)), ∀ row ∈ cells, ∀ cell ∈ row, ∀ p ∈ cellPieces place cell,
      p.place.shown = false
  | [] => List.forall_mem_nil _
  | row :: rest => List.forall_mem_cons.mpr ⟨rowPieces_hidden h row, gridPieces_hidden h rest⟩

theorem rowPieces_hidden {place : Place} (h : place.shown = false) :
    ∀ (row : List Cell), ∀ cell ∈ row, ∀ p ∈ cellPieces place cell, p.place.shown = false
  | [] => List.forall_mem_nil _
  | cell :: rest => List.forall_mem_cons.mpr ⟨cellPieces_hidden h cell, rowPieces_hidden h rest⟩

theorem cellPieces_hidden {place : Place} (h : place.shown = false) :
    ∀ cell, ∀ p ∈ cellPieces place cell, p.place.shown = false
  | .mk text rowSpan colSpan isHeader blocks => by
      rw [cellPieces]
      split
      · exact List.forall_mem_singleton.mpr h
      · exact blocksPieces_hidden h blocks

end

/-- The text is made of what the pieces write, and of spaces. -/
def Writes (ps : List Piece) (text : String) : Prop := MadeOf isSpace (shown ps) text.toList

theorem heavy_newline : heavy isSpace "\n".toList = false := by decide

theorem writes_one (place : Place) (known : Bool) (text : String) (hplace : place.shown = true) :
    Writes [⟨place, known, text⟩] text := by
  have hshown : shown [⟨place, known, text⟩] = [text.toList] := by simp [shown, hplace]
  rw [Writes, hshown]
  exact .single text.toList

theorem Writes.hide {ps qs : List Piece} {text : String} (h : Writes ps text)
    (hqs : ∀ p ∈ qs, p.place.shown = false) : Writes (ps ++ qs) text := by
  rw [Writes, shown_append, shown_eq_nil hqs, List.append_nil]
  exact h

/-- The lines of blocks. -/
theorem writes_lines {blocks : List Block}
    (h : List.Forall₂ (fun b text => Writes (blockPieces .flat b) text) blocks (blockTexts blocks)) :
    Writes (blocksPieces .flat blocks) (joinLines (blockTexts blocks)) := by
  rw [Writes, joinLines, String.toList_intercalate, blocksPieces_eq, shown_flatMap]
  refine MadeOf.join heavy_newline ?_
  rw [List.forall₂_map_left_iff, List.forall₂_map_right_iff]
  exact h

/-- The places that are left out add nothing. -/
theorem flatten_map_filter {α β : Type} (keep : α → Bool) (f g : α → List β) (xs : List α)
    (hkeep : ∀ x, keep x = true → f x = g x) (hdrop : ∀ x, keep x = false → f x = []) :
    (xs.map f).flatten = ((xs.filter keep).map g).flatten := by
  induction xs with
  | nil => rfl
  | cons x xs ih =>
      cases hx : keep x with
      | true =>
          rw [List.map_cons, List.flatten_cons, List.filter_cons_of_pos hx, List.map_cons,
            List.flatten_cons, hkeep x hx, ih]
      | false =>
          rw [List.map_cons, List.flatten_cons, List.filter_cons_of_neg (by simp [hx]), hdrop x hx,
            List.nil_append, ih]

/-- The texts of the cells that the scan emits. -/
theorem placeCells_texts (hasHeader : Bool) (cells : List (List Cell)) :
    (placeCells hasHeader (tableBoxes cells)).map (·.text) =
      ((places cells).filter (fun z => z.1 ∈ openPlaces hasHeader cells)).map
        (fun z => (cellBox z.2).text) := by
  have htexts := (scanned_table hasHeader (tableBoxes cells)).texts
  rw [placeCells, htexts, tableBoxes_eq, places_map, List.filter_map, List.map_map]
  rw [openPlaces, placeCells, tableBoxes_eq]
  rfl

/-- The texts of the cells, against their pieces. -/
theorem writes_cells (hasHeader : Bool) {cells : List (List Cell)}
    (h : ∀ row ∈ cells, ∀ cell ∈ row, Writes (cellPieces .flat cell) (cellBox cell).text) :
    ∃ pieces : List (List (List Char)), pieces.flatten = shown
        ((places (gridPieces .flat cells)).flatMap
          (fun z => if z.1 ∈ openPlaces hasHeader cells then z.2 else z.2.map Piece.cover)) ∧
      List.Forall₂ (MadeOf isSpace) pieces
        ((placeCells hasHeader (tableBoxes cells)).map (fun cell => cell.text.toList)) := by
  refine ⟨((places cells).filter (fun z => z.1 ∈ openPlaces hasHeader cells)).map
    (fun z => shown (cellPieces .flat z.2)), ?_, ?_⟩
  · rw [gridPieces_eq, places_map, shown_flatMap, List.map_map]
    refine (flatten_map_filter _ _ _ _ ?_ ?_).symm
    · intro z hz
      rw [Function.comp_apply, if_pos (by simpa using hz)]
    · intro z hz
      rw [Function.comp_apply, if_neg (by simpa using hz), shown_cover]
  · have htexts : (placeCells hasHeader (tableBoxes cells)).map (fun cell => cell.text.toList) =
        ((places cells).filter (fun z => z.1 ∈ openPlaces hasHeader cells)).map
          (fun z => (cellBox z.2).text.toList) := by
      have hmap := congrArg (List.map String.toList) (placeCells_texts hasHeader cells)
      simpa only [List.map_map, Function.comp_def] using hmap
    rw [htexts, List.forall₂_map_left_iff, List.forall₂_map_right_iff, List.forall₂_same]
    intro z hz
    obtain ⟨row, hrow, hcell⟩ := mem_of_mem_places (List.mem_filter.mp hz).1
    exact h row hrow z.2 hcell

/-- The parts of a table, its caption and then its cells, against the pieces of the table. -/
def WritesTable (t : Table) : Prop :=
  ∃ caption cells : List (List Char), ∃ pieces, caption ++ cells = shown (tablePieces .flat t) ∧
    MadeOf isSpace caption (tableCaption t).toList ∧ pieces.flatten = cells ∧
    List.Forall₂ (MadeOf isSpace) pieces
      ((tableData t).tableCells.map (fun cell => cell.text.toList))

/-- A table that is flattened writes the texts of its cells, row by row, and nothing else. -/
theorem WritesTable.text {t : Table} (h : WritesTable t) (children : List Block) :
    Writes (tablePieces .flat t) (blockText (.table t children)) := by
  obtain ⟨caption, cells, pieces, hshown, hcaption, rfl, hcells⟩ := h
  have hempty : ∀ text : List Char, (!text.isEmpty) = false → heavy isSpace text = false := by
    intro text htext
    rw [Bool.not_eq_false', List.isEmpty_iff] at htext
    rw [htext]
    rfl
  have hjoin := MadeOf.join_filter (fun text => !text.isEmpty) hempty heavy_newline
    (.cons hcaption hcells)
  have htext : (blockText (.table t children)).toList = "\n".toList.intercalate
      (((tableCaption t).toList :: (tableData t).tableCells.map (fun cell => cell.text.toList)).filter
        (fun text => !text.isEmpty)) := by
    have hne : ∀ text : String, decide (text ≠ "") = !text.toList.isEmpty := by
      intro text
      rw [Bool.eq_iff_iff]
      simp
    rw [blockText, joinLines, String.toList_intercalate]
    congr 1
    have hmap : ((tableCaption t).toList ::
        (tableData t).tableCells.map (fun cell => cell.text.toList)) =
          (tableCaption t :: (tableData t).tableCells.map (·.text)).map String.toList := by
      rw [List.map_cons, List.map_map]
      rfl
    rw [hmap, List.filter_map]
    congr 1
    exact List.filter_congr fun text _ => hne text
  rw [Writes, htext, ← hshown]
  rwa [List.flatten_cons] at hjoin

mutual

/-- A block that is flattened is made of its pieces. -/
theorem blockText_writes : ∀ block, Writes (blockPieces .flat block) (blockText block)
  | .table t children => by
      rw [blockPieces]
      exact (table_writes t |>.text children).hide (blocksPieces_hidden rfl children)
  | .paragraph body children => by
      rw [blockPieces, blockText, bodyText_eq]
      exact (writes_one .flat true _ rfl).hide (blocksPieces_hidden rfl children)
  | .heading level body children => by
      rw [blockPieces, blockText, bodyText_eq]
      exact (writes_one .flat true _ rfl).hide (blocksPieces_hidden rfl children)
  | .list ordered body children => by
      rw [blockPieces, blockText, bodyText_eq]
      exact (writes_one .flat true _ rfl).hide (blocksPieces_hidden rfl children)
  | .image children => by
      rw [blockPieces, blockText, Writes, shown_eq_nil (blocksPieces_hidden rfl children)]
      exact .of_light rfl
  | .separator children => by
      rw [blockPieces, blockText, Writes, shown_eq_nil (blocksPieces_hidden rfl children)]
      exact .of_light rfl
  | .other type body children => by
      rw [blockPieces, blockText, bodyText_eq]
      exact (writes_one .flat false _ rfl).hide (blocksPieces_hidden rfl children)

theorem blockTexts_write : ∀ blocks,
    List.Forall₂ (fun b text => Writes (blockPieces .flat b) text) blocks (blockTexts blocks)
  | [] => by
      rw [blockTexts]
      exact .nil
  | block :: rest => by
      rw [blockTexts]
      exact .cons (blockText_writes block) (blockTexts_write rest)

/-- A table, at any depth. -/
theorem table_writes : ∀ t, WritesTable t
  | .mk rows cols hasHeader caption captionBlocks cells => by
      obtain ⟨pieces, hpieces, hcells⟩ := writes_cells hasHeader (grid_writes cells)
      refine ⟨shown (if captionBlocks.isEmpty then [⟨.flat, true, unescapeDollars caption⟩]
        else blocksPieces .flat captionBlocks), _, pieces, ?_, ?_, hpieces, ?_⟩
      · rw [tablePieces, shown_append]
      · rw [tableCaption]
        split
        · exact writes_one .flat true _ rfl
        · exact writes_lines (blockTexts_write captionBlocks)
      · rw [tableData]
        exact hcells

theorem grid_writes : ∀ (cells : List (List Cell)), ∀ row ∈ cells, ∀ cell ∈ row,
    Writes (cellPieces .flat cell) (cellBox cell).text
  | [] => List.forall_mem_nil _
  | row :: rest => List.forall_mem_cons.mpr ⟨row_writes row, grid_writes rest⟩

theorem row_writes : ∀ (row : List Cell), ∀ cell ∈ row,
    Writes (cellPieces .flat cell) (cellBox cell).text
  | [] => List.forall_mem_nil _
  | cell :: rest => List.forall_mem_cons.mpr ⟨cell_writes cell, row_writes rest⟩

theorem cell_writes : ∀ cell, Writes (cellPieces .flat cell) (cellBox cell).text
  | .mk text rowSpan colSpan isHeader blocks => by
      rw [cellPieces, cellBox]
      dsimp only
      split
      · exact writes_one .flat true _ rfl
      · exact writes_lines (blockTexts_write blocks)

end

end PortRag.Ingest
