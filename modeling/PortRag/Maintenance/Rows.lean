import PortRag.Maintenance.Columns

set_option autoImplicit false

/-!
# Converted rows

The four tables of the backfill: what one of their rows becomes, and that their queries and
updates are what the loop relies on.
-/

namespace PortRag.Maintenance

open PortRag.Foundation PortRag.Db PortRag.Security PortRag.Http PortRag.Ingest PortRag.Knowledge
  PortRag.Webpages

/-! ## Joins with the owner -/

section Join

variable {ρ : Type} {owner : ρ → Option Uuid}

/-- Rows with the owner that the join finds. -/
def withOwner (rows : List ρ) (owner : ρ → Option Uuid) : List (ρ × Uuid) :=
  rows.filterMap (fun r => (owner r).map (fun o => (r, o)))

theorem map_fst_withOwner {rows : List ρ} (h : ∀ r ∈ rows, (owner r).isSome = true) :
    (withOwner rows owner).map Prod.fst = rows := by
  unfold withOwner
  induction rows with
  | nil => rfl
  | cons r rest ih =>
      obtain ⟨o, ho⟩ := Option.isSome_iff_exists.mp (h r List.mem_cons_self)
      have hrest := ih (fun x hx => h x (List.mem_cons_of_mem _ hx))
      rw [List.filterMap_cons, ho, Option.map_some, List.map_cons, hrest]

theorem fst_mem_of_withOwner {rows : List ρ} {x : ρ × Uuid} (h : x ∈ withOwner rows owner) :
    x.1 ∈ rows := by
  obtain ⟨r, hr, hx⟩ := List.mem_filterMap.mp h
  obtain ⟨o, -, rfl⟩ := Option.map_eq_some_iff.mp hx
  exact hr

theorem withOwner_keys_nodup {κ : Type} {key : ρ → κ} {rows : List ρ}
    (h : (rows.map key).Nodup) : ((withOwner rows owner).map (fun x => key x.1)).Nodup := by
  have hsub : (withOwner rows owner).map (fun x => key x.1) |>.Sublist (rows.map key) := by
    unfold withOwner
    clear h
    induction rows with
    | nil => exact .slnil
    | cons r rest ih =>
        rw [List.filterMap_cons]
        cases owner r with
        | none => exact ih.cons _
        | some o => exact ih.cons_cons _
  exact hsub.nodup h

/-- A rewrite that keeps the owner is a rewrite of the join. -/
theorem withOwner_map {f : ρ → ρ} (hf : ∀ r, owner (f r) = owner r) (rows : List ρ) :
    withOwner (rows.map f) owner = (withOwner rows owner).map (fun x => (f x.1, x.2)) := by
  unfold withOwner
  rw [List.filterMap_map, List.map_filterMap]
  apply List.filterMap_congr
  intro r _
  rw [Function.comp_apply, hf, Option.map_map]
  rfl

end Join

/-- The owner of a document. -/
def ownerOf (db : Database) (id : Uuid) : Option Uuid := (db.document? id).map Document.userId

/-- The owner of a revision. -/
def revisionOwnerOf (db : Database) (id : Uuid) : Option Uuid :=
  (db.revisions.find? id).map KnowledgeRevision.userId

theorem chunkOwners_eq (db : Database) :
    chunkOwners db = withOwner db.chunks.rows (fun c => ownerOf db c.documentId) := by
  unfold chunkOwners withOwner ownerOf
  simp only [Option.map_map]
  rfl

theorem webpageOwners_eq (db : Database) :
    webpageOwners db = withOwner db.webpages.rows (fun p => ownerOf db p.documentId) := by
  unfold webpageOwners withOwner ownerOf
  simp only [Option.map_map]
  rfl

theorem frozenOwners_eq (db : Database) :
    frozenOwners db = withOwner db.revisionChunks.rows
      (fun c => revisionOwnerOf db c.revisionId) := by
  unfold frozenOwners withOwner revisionOwnerOf
  simp only [Option.map_map]
  rfl

/-! ## Lawful targets -/

/-- A rewrite of the row of one key, on the join with an owner that the key decides. -/
theorem withOwner_rewrite {ρ : Type} (owner : ρ → Option Uuid) (f : ρ → ρ) (p : ρ → Prop)
    [DecidablePred p] (hf : ∀ r, owner (f r) = owner r) (rows : List ρ) :
    withOwner (rows.map (fun r => if p r then f r else r)) owner =
      (withOwner rows owner).map (fun x => if p x.1 then (f x.1, x.2) else x) := by
  rw [withOwner_map]
  · apply List.map_congr_left
    intro x _
    split
    · rfl
    · rfl
  · intro r
    split
    · exact hf r
    · rfl

/-- A rewrite of no row. -/
theorem map_rewrite_of_none {ρ α : Type} {T : Target ρ α} {rows : List (ρ × Uuid)} {id : Uuid}
    {values : α} (h : ∀ x ∈ rows, T.rowKey x ≠ id) :
    rows.map (fun x => if T.rowKey x = id then (T.assign values x.1, x.2) else x) = rows := by
  have hid : ∀ x ∈ rows, (if T.rowKey x = id then (T.assign values x.1, x.2) else x) = x :=
    fun x hx => if_neg (h x hx)
  rw [List.map_congr_left hid, List.map_id'']
  exact fun _ => rfl

/-- The target of the documents reads and writes its own rows only, by their keys. -/
theorem documents_lawful : documents.Lawful where
  keys := by
    intro db
    change ((db.documents.rows.map (fun d => (d, d.userId))).map documents.rowKey).Nodup
    rw [List.map_map]
    exact db.documents.keys_nodup
  assign_key := fun _ _ => rfl
  update_rows := by
    intro s id values s' h
    change updateDocument s id values = .ok s' at h
    change documentRows s'.db = (documentRows s.db).map _
    unfold updateDocument at h
    split at h
    · next hnone =>
        cases h
        symm
        apply map_rewrite_of_none
        intro x hx
        obtain ⟨d, hd, rfl⟩ := List.mem_map.mp hx
        exact Table.find?_eq_none_iff.mp hnone d hd
    · next row hrow =>
        obtain ⟨-, -, h⟩ := bind_eq_ok.mp h
        cases h
        obtain ⟨hmem, rfl⟩ := Database.document?_eq_some_iff.mp hrow
        unfold documentRows
        rw [Database.updateDocument_documents,
          Table.put_rows_of_mem (f := assignDocument values) hmem rfl, List.map_map, List.map_map]
        apply List.map_congr_left
        intro d _
        change ((if d.id = row.id then assignDocument values d else d),
            (if d.id = row.id then assignDocument values d else d).userId) =
          if d.id = row.id then (assignDocument values d, d.userId) else (d, d.userId)
        split
        · rfl
        · rfl

theorem chunks_lawful : chunks.Lawful where
  keys := by
    intro db
    change ((chunkOwners db).map (fun x => x.1.id)).Nodup
    rw [chunkOwners_eq]
    exact withOwner_keys_nodup db.chunks.keys_nodup
  assign_key := fun _ _ => rfl
  update_rows := by
    intro s id values s' h
    change updateChunk s id values = .ok s' at h
    change chunkOwners s'.db = (chunkOwners s.db).map
      (fun x => if x.1.id = id then (assignChunk values x.1, x.2) else x)
    unfold updateChunk at h
    split at h
    · next hnone =>
        cases h
        symm
        apply map_rewrite_of_none (T := chunks)
        intro x hx
        rw [chunkOwners_eq] at hx
        exact Table.find?_eq_none_iff.mp hnone x.1 (fst_mem_of_withOwner hx)
    · obtain ⟨-, -, h⟩ := bind_eq_ok.mp h
      cases h
      rw [chunkOwners_eq, chunkOwners_eq]
      exact withOwner_rewrite (fun c => ownerOf s.db c.documentId)
        (assignChunk values) (fun c => c.id = id) (fun _ => rfl) s.db.chunks.rows

theorem revisionChunks_lawful : revisionChunks.Lawful where
  keys := by
    intro db
    change ((frozenOwners db).map (fun x => x.1.id)).Nodup
    rw [frozenOwners_eq]
    exact withOwner_keys_nodup db.revisionChunks.keys_nodup
  assign_key := fun _ _ => rfl
  update_rows := by
    intro s id values s' h
    change updateFrozen s id values = .ok s' at h
    change frozenOwners s'.db = (frozenOwners s.db).map
      (fun x => if x.1.id = id then (assignFrozen values x.1, x.2) else x)
    unfold updateFrozen at h
    split at h
    · cases h
    · cases h
      rw [frozenOwners_eq, frozenOwners_eq]
      exact withOwner_rewrite
        (fun c => revisionOwnerOf s.db c.revisionId)
        (assignFrozen values) (fun c => c.id = id) (fun _ => rfl) s.db.revisionChunks.rows

/-- The target of the webpages reads and writes its own rows only, by the keys of their documents.
-/
theorem documentWebpages_lawful : documentWebpages.Lawful where
  keys := by
    intro db
    change ((webpageOwners db).map (fun x => x.1.documentId)).Nodup
    rw [webpageOwners_eq]
    exact withOwner_keys_nodup db.webpages.keys_nodup
  assign_key := fun _ _ => rfl
  update_rows := by
    intro s id values s' h
    change updateWebpage s id values = .ok s' at h
    change webpageOwners s'.db = (webpageOwners s.db).map
      (fun x => if x.1.documentId = id then (assignWebpage values x.1, x.2) else x)
    unfold updateWebpage at h
    split at h
    · next hnone =>
        cases h
        symm
        apply map_rewrite_of_none (T := documentWebpages)
        intro x hx
        rw [webpageOwners_eq] at hx
        exact Table.find?_eq_none_iff.mp hnone x.1 (fst_mem_of_withOwner hx)
    · next row hrow =>
        obtain ⟨-, -, h⟩ := bind_eq_ok.mp h
        split at h
        · cases h
        · cases h
          obtain ⟨hmem, rfl⟩ := Database.webpage?_eq_some_iff.mp hrow
          rw [webpageOwners_eq, webpageOwners_eq, Database.updateWebpage_webpages,
            Table.put_rows_of_mem (f := assignWebpage values) hmem rfl]
          exact withOwner_rewrite (fun p => ownerOf s.db p.documentId)
            (assignWebpage values) (fun p => p.documentId = row.documentId) (fun _ => rfl)
            s.db.webpages.rows

end PortRag.Maintenance
