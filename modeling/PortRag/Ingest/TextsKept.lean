import Mathlib.Data.List.TakeWhile
import PortRag.Foundation.Except
import PortRag.Ingest.Outline

set_option autoImplicit false

/-!
# Which documents keep their texts

`_append_kordoc_blocks` against the pieces of a tree.  Outside of cells and captions every block
yields its item or the conversion fails; what stands below a block in a cell or a caption is
passed over.
-/

namespace PortRag.Ingest

open PortRag.Foundation

/-! ## What the items hold -/

/-- The texts of a document. -/
def itemTexts (items : List Item) : List (List Char) :=
  items.flatMap (fun item => item.texts.map String.toList)

theorem itemTexts_append (items more : List Item) :
    itemTexts (items ++ more) = itemTexts items ++ itemTexts more := List.flatMap_append

/-- The texts of the items are made of what the pieces write, and of spaces. -/
def Emits (ps : List Piece) (items : List Item) : Prop :=
  AllMadeOf isSpace (shown ps) (itemTexts items)

theorem Emits.append {ps qs : List Piece} {items more : List Item} (hp : Emits ps items)
    (hq : Emits qs more) : Emits (ps ++ qs) (items ++ more) := by
  rw [Emits, shown_append, itemTexts_append]
  exact AllMadeOf.append hp hq

theorem dropWhile_eq_nil {text : List Char} :
    text.dropWhile isSpace = [] ↔ heavy isSpace text = false := by
  rw [List.dropWhile_eq_nil_iff, heavy, List.any_eq_false]
  simp

/-- A text is blank when it has nothing but spaces. -/
theorem strip_eq_empty (text : String) : strip text = "" ↔ heavy isSpace text.toList = false := by
  have hback : ∀ cs : List Char, heavy isSpace cs.reverse = heavy isSpace cs := by
    intro cs
    rw [heavy, heavy, List.any_reverse]
  have hempty : ∀ cs : List Char, String.ofList cs = "" ↔ cs = [] := by
    intro cs
    rw [← String.toList_inj]
    simp
  rw [strip, hempty, List.reverse_eq_nil_iff, dropWhile_eq_nil, hback]
  constructor
  · intro h
    have hall : text.toList.dropWhile isSpace = [] := by
      rcases hdrop : text.toList.dropWhile isSpace with _ | ⟨c, rest⟩
      · rfl
      · -- the first character that is left is no space
        have hc : isSpace c = false := by
          have hhead := List.head?_dropWhile_not isSpace text.toList
          rw [hdrop] at hhead
          simpa using hhead
        rw [hdrop, heavy, List.any_cons, hc] at h
        cases h
    exact dropWhile_eq_nil.mp hall
  · intro h
    rw [dropWhile_eq_nil.mpr h]
    rfl

/-- A text is appended unless it is blank. -/
theorem emits_unlessBlank {ps : List Piece} {text : String} {mk : Except Exc (List Item)}
    {items : List Item} (h : unlessBlank text mk = .ok items) (hps : Writes ps text)
    (hmk : ∀ made, mk = .ok made → itemTexts made = [text.toList]) : Emits ps items := by
  rw [unlessBlank] at h
  split at h
  · rw [Emits, hmk items h]
    exact hps.all
  · rename_i hblank
    obtain rfl := Except.ok.inj h
    exact hps.all_nil ((strip_eq_empty text).mp (Classical.not_not.mp hblank))

/-- The items of a table hold its caption and its cells. -/
theorem emits_table (t : Table) : Emits (tablePieces .flat t) (tableItems t) := by
  obtain ⟨caption, cells, pieces, hshown, hcaption, rfl, hcells⟩ := table_writes t
  have hcells' : AllMadeOf isSpace pieces.flatten
      ((tableData t).tableCells.map (fun cell => cell.text.toList)) := by
    clear hshown
    generalize (tableData t).tableCells.map (fun cell => cell.text.toList) = texts at hcells ⊢
    induction hcells with
    | nil => exact .nil
    | cons hfirst _ ih => exact hfirst.all.append ih
  rw [Emits, ← hshown, tableItems]
  split
  · have htexts : itemTexts [.caption (tableCaption t),
        .table (tableData t) (some (tableCaption t))] =
        [(tableCaption t).toList] ++ (tableData t).tableCells.map (fun cell => cell.text.toList) := by
      simp [itemTexts, Item.texts, Function.comp_def]
    rw [htexts]
    exact hcaption.all.append hcells'
  · rename_i hblank
    have htexts : itemTexts [.table (tableData t) none] =
        [] ++ (tableData t).tableCells.map (fun cell => cell.text.toList) := by
      simp [itemTexts, Item.texts, Function.comp_def]
    rw [htexts]
    exact (hcaption.all_nil ((strip_eq_empty _).mp (Classical.not_not.mp hblank))).append hcells'

theorem inOrder_eq_ok {first second : Except Exc (List Item)} {items : List Item} :
    inOrder first second = .ok items ↔
      ∃ a b, first = .ok a ∧ second = .ok b ∧ items = a ++ b := by
  simp only [inOrder, bind_eq_ok, pure_eq_ok]
  constructor
  · rintro ⟨a, ha, b, hb, rfl⟩
    exact ⟨a, b, ha, hb, rfl⟩
  · rintro ⟨a, b, ha, hb, rfl⟩
    exact ⟨a, ha, b, hb, rfl⟩

theorem emits_body {body : Body} {rest : List Piece} {mk second : Except Exc (List Item)}
    {items : List Item}
    (h : inOrder (unlessBlank (bodyText body) mk) second = .ok items)
    (hmk : ∀ made, mk = .ok made → itemTexts made = [(bodyText body).toList])
    (hsecond : ∀ more, second = .ok more → Emits rest more) :
    Emits (⟨.item, true, blockSays body⟩ :: rest) items := by
  obtain ⟨own, more, hown, hmore, rfl⟩ := inOrder_eq_ok.mp h
  have hone : Writes [⟨.item, true, blockSays body⟩] (bodyText body) := by
    rw [bodyText_eq]
    exact writes_one .item true _ rfl
  exact (emits_unlessBlank hown hone hmk).append (hsecond more hmore)

mutual

/-- The items hold what the pieces of the tree write. -/
theorem appendBlocks_emits (takesLevel : Int → Bool) : ∀ blocks items,
    appendBlocks takesLevel blocks = .ok items → Emits (blocksPieces .item blocks) items
  | [], items => by
      intro h
      rw [appendBlocks] at h
      obtain rfl := Except.ok.inj h
      rw [blocksPieces]
      exact AllMadeOf.nil
  | block :: rest, items => by
      intro h
      rw [appendBlocks] at h
      obtain ⟨own, more, hown, hmore, rfl⟩ := inOrder_eq_ok.mp h
      rw [blocksPieces]
      exact (appendBlock_emits takesLevel block own hown).append
        (appendBlocks_emits takesLevel rest more hmore)

/-- A conversion that succeeds emits its pieces in their order: the recursion is that of the blocks,
and each kind of block has its lemma. -/
theorem appendBlock_emits (takesLevel : Int → Bool) : ∀ block items,
    appendBlock takesLevel block = .ok items → Emits (blockPieces .item block) items
  | .table t children, items => by
      intro h
      rw [appendBlock] at h
      obtain ⟨own, more, hown, hmore, rfl⟩ := inOrder_eq_ok.mp h
      obtain rfl := Except.ok.inj hown
      rw [blockPieces]
      exact (emits_table t).append (appendBlocks_emits takesLevel children more hmore)
  | .paragraph body children, items => by
      intro h
      rw [appendBlock] at h
      rw [blockPieces]
      refine emits_body h ?_ (appendBlocks_emits takesLevel children)
      intro made hmade
      rw [← Except.ok.inj hmade]
      rfl
  | .heading level body children, items => by
      intro h
      rw [appendBlock] at h
      rw [blockPieces]
      refine emits_body h ?_ (appendBlocks_emits takesLevel children)
      intro made hmade
      rw [addHeading] at hmade
      split at hmade
      · rw [← Except.ok.inj hmade]
        rfl
      · cases hmade
  | .list ordered body children, items => by
      intro h
      rw [appendBlock] at h
      rw [blockPieces]
      refine emits_body h ?_ (appendBlocks_emits takesLevel children)
      intro made hmade
      rw [← Except.ok.inj hmade]
      rfl
  | .image children, items => by
      intro h
      rw [appendBlock] at h
      rw [blockPieces]
      exact appendBlocks_emits takesLevel children items h
  | .separator children, items => by
      intro h
      rw [appendBlock] at h
      rw [blockPieces]
      exact appendBlocks_emits takesLevel children items h
  | .other type body children, items => by
      intro h
      rw [appendBlock] at h
      cases h

end

/-! ## Conversions that fail -/

mutual

/-- A block that the conversion rejects: outside of cells and captions, a block of unknown type
or a heading whose level Docling rejects. -/
def rejectsAny (takesLevel : Int → Bool) : List Block → Bool
  | [] => false
  | block :: rest => rejects takesLevel block || rejectsAny takesLevel rest

/-- A block that is rejected, or that holds one; the blocks in cells and captions are flattened, and
never rejected. -/
def rejects (takesLevel : Int → Bool) : Block → Bool
  | .table _ children => rejectsAny takesLevel children
  | .paragraph _ children => rejectsAny takesLevel children
  | .heading level body children =>
      (strip (blockSays body) ≠ "" && !takesLevel level) || rejectsAny takesLevel children
  | .list _ _ children => rejectsAny takesLevel children
  | .image children => rejectsAny takesLevel children
  | .separator children => rejectsAny takesLevel children
  | .other _ _ _ => true

end

theorem inOrder_succeeds {first second : Except Exc (List Item)} :
    (∃ items, inOrder first second = .ok items) ↔
      (∃ a, first = .ok a) ∧ ∃ b, second = .ok b := by
  constructor
  · rintro ⟨items, h⟩
    obtain ⟨a, b, ha, hb, _⟩ := inOrder_eq_ok.mp h
    exact ⟨⟨a, ha⟩, b, hb⟩
  · rintro ⟨⟨a, ha⟩, b, hb⟩
    exact ⟨a ++ b, inOrder_eq_ok.mpr ⟨a, b, ha, hb, rfl⟩⟩

theorem unlessBlank_ok (text : String) (made : List Item) :
    ∃ items, unlessBlank text (.ok made) = .ok items := by
  rw [unlessBlank]
  split
  · exact ⟨made, rfl⟩
  · exact ⟨[], rfl⟩

theorem heading_succeeds {takesLevel : Int → Bool} {text : String} {level : Int} :
    (∃ items, unlessBlank text (addHeading takesLevel text level) = .ok items) ↔
      (strip text ≠ "" && !takesLevel level) = false := by
  rw [unlessBlank, addHeading]
  by_cases hblank : strip text ≠ ""
  · rw [if_pos hblank]
    cases htakes : takesLevel level <;> simp [hblank]
  · rw [if_neg hblank]
    simp [hblank]

mutual

/-- The conversion succeeds unless a block is rejected. -/
theorem appendBlocks_succeeds (takesLevel : Int → Bool) : ∀ blocks,
    (∃ items, appendBlocks takesLevel blocks = .ok items) ↔ rejectsAny takesLevel blocks = false
  | [] => by
      rw [appendBlocks, rejectsAny]
      exact ⟨fun _ => rfl, fun _ => ⟨[], rfl⟩⟩
  | block :: rest => by
      rw [appendBlocks, rejectsAny, inOrder_succeeds, appendBlock_succeeds takesLevel block,
        appendBlocks_succeeds takesLevel rest, Bool.or_eq_false_iff]

theorem appendBlock_succeeds (takesLevel : Int → Bool) : ∀ block,
    (∃ items, appendBlock takesLevel block = .ok items) ↔ rejects takesLevel block = false
  | .table t children => by
      rw [appendBlock, rejects, inOrder_succeeds, appendBlocks_succeeds takesLevel children]
      exact and_iff_right ⟨_, rfl⟩
  | .paragraph body children => by
      rw [appendBlock, rejects, inOrder_succeeds, appendBlocks_succeeds takesLevel children]
      exact and_iff_right (unlessBlank_ok _ _)
  | .heading level body children => by
      rw [appendBlock, rejects, inOrder_succeeds, appendBlocks_succeeds takesLevel children,
        heading_succeeds, bodyText_eq, Bool.or_eq_false_iff]
  | .list ordered body children => by
      rw [appendBlock, rejects, inOrder_succeeds, appendBlocks_succeeds takesLevel children]
      exact and_iff_right (unlessBlank_ok _ _)
  | .image children => by
      rw [appendBlock, rejects, appendBlocks_succeeds takesLevel children]
  | .separator children => by
      rw [appendBlock, rejects, appendBlocks_succeeds takesLevel children]
  | .other type body children => by
      rw [appendBlock, rejects]
      constructor
      · rintro ⟨items, h⟩
        cases h
      · intro h
        cases h

end

/-! ## Which texts are kept -/

end PortRag.Ingest
