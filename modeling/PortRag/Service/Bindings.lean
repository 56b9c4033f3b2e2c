import PortRag.Service.Runs
import PortRag.Service.WrittenCalls

set_option autoImplicit false

/-!
# Writers and readers agree

What the service stores and returns is what a store in the clear would: every run is
mirrored by the same calls on a database without encryption, whose columns hold what was last
written to each private field, and while the decryption service is up every reading method
returns what those columns show.
-/

namespace PortRag.Service

open PortRag.Foundation PortRag.Db PortRag.Security PortRag.Http PortRag.Ingest PortRag.Webpages
  PortRag.Knowledge PortRag.Search

/-! ## Runs and the store in the clear -/

/-- The step was rolled back: it raised and left the database alone. -/
def RolledBack (st : ServiceStep) : Prop := st.after = st.before ∧ ∃ e, st.answer = .error e

variable {opens : Opens} {cipher : PrivateDataCipher} {db : Database}

/-- The update of a step: that of its call, unless it was rolled back. -/
def stepUpdate (st : ServiceStep) : Update PrivateField Json where
  assigns field source :=
    ¬RolledBack st ∧ (st.call.call.update st.before st.answer).assigns field source
  removes field := ¬RolledBack st ∧ (st.call.call.update st.before st.answer).removes field

/-- The chunks that a revision copies do not depend on what is stored in private columns. -/
theorem copiedChunks_plaintext (db : Database) (userId : Uuid) (selected : Option (List Uuid)) :
    copiedChunks (db.plaintext opens) userId selected = copiedChunks db userId selected := by
  let reveal := fun s : Document × DocumentChunk =>
    (s.1.reveal opens, s.2.reveal opens s.1.userId.str)
  have hjoined : ((db.plaintext opens).documents.rows.filter (selectable userId selected)).flatMap
      (fun d => ((db.plaintext opens).chunksOf d.id).map (fun c => (d, c))) =
      ((db.documents.rows.filter (selectable userId selected)).flatMap
        (fun d => (db.chunksOf d.id).map (fun c => (d, c)))).map reveal := by
    rw [Database.plaintext_documents, Table.rewrite_rows, List.filter_map, List.flatMap_map,
      List.map_flatMap]
    apply List.flatMap_congr
    intro d hd
    have hfind : db.document? d.id = some d := Table.find?_of_mem (List.mem_of_mem_filter hd)
    rw [Document.reveal_id, Database.chunksOf_plaintext, Database.documentOwner_of hfind,
      List.map_map, List.map_map]
    rfl
  have hselected : selectedChunks (db.plaintext opens) userId selected =
      (selectedChunks db userId selected).map reveal := by
    unfold selectedChunks
    rw [hjoined]
    refine (List.map_mergeSort ?_).symm
    exact fun _ _ _ _ => rfl
  unfold copiedChunks
  rw [hselected, List.filter_map, List.map_map]
  congr 2
  funext s
  simp [reveal]

/-- What a call declares does not depend on what is stored in private columns. -/
theorem ServiceCall.update_plaintext (db : Database) (answer : Except Exc ServiceValue)
    (call : ServiceCall) : call.update (db.plaintext opens) answer = call.update db answer := by
  have hhash : ∀ id contentHash, hashDiffers (db.plaintext opens) id contentHash =
      hashDiffers db id contentHash := by
    intro id contentHash
    unfold hashDiffers
    rw [Database.webpage?_plaintext, Option.any_map]
    rfl
  cases call with
  | enqueue now id userId =>
      simp only [ServiceCall.update, ServiceCall.assignments, hhash, select_plaintext,
        Option.isSome_map]
      rfl
  | finish uuid4 now claim content contentHash chunks embeddings =>
      simp only [ServiceCall.update, ServiceCall.assignments, ServiceCall.removals, hhash]
  | fail now claim error =>
      simp only [ServiceCall.update, ServiceCall.assignments, hhash]
      rfl
  | createRevision uuid4 revisionId now userId selected =>
      simp only [ServiceCall.update, ServiceCall.assignments, copiedChunks_plaintext]
      rfl
  | _ => rfl

/-- A call that raises has left the database alone, but for the three that read the new rows after
their commit; what those declare does not depend on their answer. -/
theorem ServiceCall.of_raised {pd : PrivateData} {e : Exc} (call : ServiceCall)
    (h : (call.exec pd db).result = .error e) : (call.exec pd db).db = db ∨
      ∀ p answer answer', call.update p answer = call.update p answer' := by
  have hrolled : ∀ {α : Type} {t : Except Exc (α × Database)} {f : α → ServiceValue},
      (mapOutcome f (.ofTransaction db t)).result = .error e →
      (mapOutcome f (.ofTransaction db t)).db = db := by
    intro α t f hraised
    rw [Outcome.error_of_result (map_eq_error.mp hraised)]
    rfl
  cases call with
  | createDocument documentId now userId knowledgeKey name mime => exact .inr (fun _ _ _ => rfl)
  | enqueue now documentId userId => exact .inr (fun _ _ _ => rfl)
  | setAutoSync now documentId userId autoSync => exact .inr (fun _ _ _ => rfl)
  | _ => exact .inl (hrolled h)

/-- The columns of the plaintext take the update of every step: the fields of its arguments are
written, those of deleted rows are removed, and every other field stays. -/
theorem Serves.takes {request : ServiceRequest} {answer : Except Exc ServiceValue} {db' : Database}
    (hstep : Serves opens db request answer db') (h : db.Sealed opens) :
    (stepUpdate ⟨db, request, answer, db'⟩).Takes (column (db.plaintext opens))
      (column (db'.plaintext opens)) := by
  have himitates := hstep.imitates h
  by_cases hback : RolledBack ⟨db, request, answer, db'⟩
  · have hsame : db' = db := hback.1
    rw [hsame] at hback ⊢
    exact ⟨fun _ _ hs => absurd hback hs.1, fun _ _ hk => absurd hback hk.1, fun _ _ => rfl⟩
  · obtain ⟨value, hvalue⟩ := himitates.succeeds.resolve_left hback
    have hdb : (request.call.exec .plain (db.plaintext opens)).db = db'.plaintext opens :=
      himitates.moves.resolve_right (fun ⟨hdb, e, he, _⟩ => hback ⟨hdb, e, he⟩)
    have hupdate : request.call.update (db.plaintext opens) (.ok value) =
        request.call.update db answer := by
      rw [ServiceCall.update_plaintext]
      cases answer with
      | ok given =>
          obtain ⟨value', hvalue', rfl⟩ := himitates.result.1 given rfl
          rw [Except.ok.inj (hvalue.symm.trans hvalue')]
      | error e =>
          have hraised : (request.call.exec request.cipher.privateData db).result = .error e := by
            rw [hstep.exec]
          rcases request.call.of_raised hraised with hsame | hany
          · rw [hstep.exec] at hsame
            exact absurd ⟨hsame, e, rfl⟩ hback
          · exact hany db _ _
    have htakes := request.call.takes hvalue
    rw [hdb, hupdate] at htakes
    exact htakes.congr (fun _ _ => and_iff_right hback) (fun _ => and_iff_right hback)

end PortRag.Service
