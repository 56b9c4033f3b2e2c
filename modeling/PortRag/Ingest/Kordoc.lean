import PortRag.Basic
import Mathlib.Data.Finset.Prod
import Mathlib.Order.Interval.Finset.Nat

set_option autoImplicit false

/-!
# Kordoc documents

The JSON tree that the kordoc converter writes for HWP and HWPX documents, and the functions
of `rag/ingest/parser.py` that turn it into items of a Docling document.  Inside table cells and
captions blocks are flattened to text; elsewhere each block becomes an item of its own.
-/

namespace PortRag.Ingest

/-! ## The block tree -/

/-- A span of a block. -/
structure Span where
  text : String
  placeholder : Bool
  deriving DecidableEq, Inhabited

/-- What `_kordoc_block_text` reads of a block of text: `text`, `href` and `footnoteText` are
empty where the block has none. -/
structure Body where
  spans : List Span
  text : String
  href : String
  footnoteText : String
  deriving DecidableEq, Inhabited

mutual

/-- A block, by its `type`; a heading without a `level` has level 1. -/
inductive Block where
  | table (table : Table) (children : List Block)
  | paragraph (body : Body) (children : List Block)
  | heading (level : Int) (body : Body) (children : List Block)
  | list (ordered : Bool) (body : Body) (children : List Block)
  | image (children : List Block)
  | separator (children : List Block)
  | other (type : String) (body : Body) (children : List Block)

/-- The `table` of a block; `caption` is empty where it has none. -/
inductive Table where
  | mk (rows cols : Nat) (hasHeader : Bool) (caption : String) (captionBlocks : List Block)
      (cells : List (List Cell))

/-- A cell of a table. -/
inductive Cell where
  | mk (text : String) (rowSpan colSpan : Nat) (isHeader : Bool) (blocks : List Block)

end

/-! ## Texts -/

/-- `text.replace("\\$", "$")`. -/
def unescape : List Char → List Char
  | '\\' :: '$' :: rest => '$' :: unescape rest
  | c :: rest => c :: unescape rest
  | [] => []

/-- `text.replace("\\$", "$")`. -/
def unescapeDollars (text : String) : String := String.ofList (unescape text.toList)

/-- The text of a block before links and notes: without its placeholder spans, if it has any. -/
def plainText (body : Body) : String :=
  if body.spans.any (·.placeholder) then
    String.join ((body.spans.filter (fun span => !span.placeholder)).map (·.text))
  else body.text

/-- The text of a block with its link and its note. -/
def bodyText (body : Body) : String :=
  let text := plainText body
  let text := if body.href ≠ "" ∧ body.href ≠ text then text ++ (" (" ++ body.href ++ ")") else text
  let text := if body.footnoteText ≠ "" then text ++ (" (주: " ++ body.footnoteText ++ ")") else text
  unescapeDollars text

/-- `"\n".join(parts)`. -/
def joinLines (parts : List String) : String := "\n".intercalate parts

/-! ## Tables -/

/-- A cell with its text. -/
structure Box where
  text : String
  rowSpan : Nat
  colSpan : Nat
  isHeader : Bool
  deriving DecidableEq, Inhabited

/-- `TableCell`. -/
structure TableCell where
  text : String
  rowSpan : Nat
  colSpan : Nat
  startRow : Nat
  endRow : Nat
  startCol : Nat
  endCol : Nat
  columnHeader : Bool
  deriving DecidableEq, Inhabited

/-- `TableData`. -/
structure TableData where
  numRows : Nat
  numCols : Nat
  tableCells : List TableCell
  deriving DecidableEq, Inhabited

/-- The loop of `_kordoc_table_data`: the places covered so far, and the cells. -/
structure Scan where
  covered : Finset (Nat × Nat)
  cells : List TableCell

/-- The places of a rectangle. -/
def rectangle (row col rowEnd colEnd : Nat) : Finset (Nat × Nat) :=
  Finset.Ico row rowEnd ×ˢ Finset.Ico col colEnd

/-- One turn of the inner loop. -/
def visit (hasHeader : Bool) (row col : Nat) (box : Box) (s : Scan) : Scan :=
  if (row, col) ∈ s.covered then s
  else
    let rowEnd := row + box.rowSpan
    let colEnd := col + box.colSpan
    ⟨s.covered ∪ (rectangle row col rowEnd colEnd).erase (row, col),
      s.cells ++ [{
        text := box.text
        rowSpan := box.rowSpan
        colSpan := box.colSpan
        startRow := row
        endRow := rowEnd
        startCol := col
        endCol := colEnd
        columnHeader := box.isHeader || (hasHeader && row = 0) }]⟩

/-- The inner loop. -/
def scanRow (hasHeader : Bool) (row : Nat) (boxes : List Box) (s : Scan) : Scan :=
  boxes.zipIdx.foldl (fun s z => visit hasHeader row z.2 z.1 s) s

/-- The outer loop. -/
def scanTable (hasHeader : Bool) (rows : List (List Box)) : Scan :=
  rows.zipIdx.foldl (fun s z => scanRow hasHeader z.2 z.1 s) ⟨∅, []⟩

/-- The cells that the loops emit. -/
def placeCells (hasHeader : Bool) (rows : List (List Box)) : List TableCell :=
  (scanTable hasHeader rows).cells

/-! ## Flattening -/

mutual

/-- `_kordoc_block_text`. -/
def blockText : Block → String
  | .table t _ =>
      joinLines ((tableCaption t :: (tableData t).tableCells.map (·.text)).filter (· ≠ ""))
  | .image _ => ""
  | .separator _ => ""
  | .paragraph body _ => bodyText body
  | .heading _ body _ => bodyText body
  | .list _ body _ => bodyText body
  | .other _ body _ => bodyText body

/-- The texts of a list of blocks. -/
def blockTexts : List Block → List String
  | [] => []
  | block :: rest => blockText block :: blockTexts rest

/-- `_kordoc_caption`. -/
def tableCaption : Table → String
  | .mk _ _ _ caption captionBlocks _ =>
      if captionBlocks.isEmpty then unescapeDollars caption else joinLines (blockTexts captionBlocks)

/-- `_kordoc_table_data`. -/
def tableData : Table → TableData
  | .mk rows cols hasHeader _ _ cells => ⟨rows, cols, placeCells hasHeader (tableBoxes cells)⟩

/-- The cells of a table with their texts. -/
def tableBoxes : List (List Cell) → List (List Box)
  | [] => []
  | row :: rest => rowBoxes row :: tableBoxes rest

/-- The cells of a row with their texts. -/
def rowBoxes : List Cell → List Box
  | [] => []
  | cell :: rest => cellBox cell :: rowBoxes rest

/-- A cell with its text: that of its blocks, if it has any. -/
def cellBox : Cell → Box
  | .mk text rowSpan colSpan isHeader blocks =>
      ⟨if blocks.isEmpty then unescapeDollars text else joinLines (blockTexts blocks), rowSpan,
        colSpan, isHeader⟩

end

/-! ## Items -/

/-- An item of a Docling document, as far as the converter sets it. -/
inductive Item where
  | caption (text : String)
  | table (data : TableData) (caption : Option String)
  | heading (text : String) (level : Int)
  | listItem (text : String) (enumerated : Bool)
  | text (text : String)
  deriving DecidableEq, Inhabited

/-- The texts that an item holds. -/
def Item.texts (item : Item) : List String :=
  match item with
  | .caption t => [t]
  | .table data _ => data.tableCells.map (·.text)
  | .heading t _ => [t]
  | .listItem t _ => [t]
  | .text t => [t]

/-- `if text.strip(): …`. -/
def unlessBlank (text : String) (items : Except Exc (List Item)) : Except Exc (List Item) :=
  if strip text ≠ "" then items else .ok []

/-- The caption of a table, where it has one, and the table. -/
def tableItems (t : Table) : List Item :=
  if strip (tableCaption t) ≠ "" then
    [.caption (tableCaption t), .table (tableData t) (some (tableCaption t))]
  else [.table (tableData t) none]

/-- `document.add_heading`; `takesLevel` is Docling's check of the level. -/
def addHeading (takesLevel : Int → Bool) (text : String) (level : Int) : Except Exc (List Item) :=
  if takesLevel level then .ok [.heading text level]
  else .error (.valueError "validation error for SectionHeaderItem")

/-- What two statements append, one after the other. -/
def inOrder (first second : Except Exc (List Item)) : Except Exc (List Item) := do
  let items ← first
  let more ← second
  pure (items ++ more)

mutual

/-- `_append_kordoc_blocks`: what it appends to the document. -/
def appendBlocks (takesLevel : Int → Bool) : List Block → Except Exc (List Item)
  | [] => .ok []
  | block :: rest => inOrder (appendBlock takesLevel block) (appendBlocks takesLevel rest)

/-- One turn of its loop: the items of a block, and behind them those of its children. -/
def appendBlock (takesLevel : Int → Bool) : Block → Except Exc (List Item)
  | .table t children => inOrder (.ok (tableItems t)) (appendBlocks takesLevel children)
  | .paragraph body children =>
      inOrder (unlessBlank (bodyText body) (.ok [.text (bodyText body)]))
        (appendBlocks takesLevel children)
  | .heading level body children =>
      inOrder (unlessBlank (bodyText body) (addHeading takesLevel (bodyText body) level))
        (appendBlocks takesLevel children)
  | .list ordered body children =>
      inOrder (unlessBlank (bodyText body) (.ok [.listItem (bodyText body) ordered]))
        (appendBlocks takesLevel children)
  | .image children => appendBlocks takesLevel children
  | .separator children => appendBlocks takesLevel children
  | .other type _ _ => .error (.valueError ("unsupported kordoc block: " ++ type))

end

end PortRag.Ingest
