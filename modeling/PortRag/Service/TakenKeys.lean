import PortRag.Http.Creations
import PortRag.Service.KnowledgeKeys
import PortRag.Foundation.Trace

set_option autoImplicit false

/-!
# Taken knowledge keys

Runs of a service in which file uploads and webpage registrations compete for the knowledge
keys of their owners, with every other call, fence and erasure in between.  The unique index
refuses the losing insert; what the loser is told depends on the handler.
-/

namespace PortRag.Service

open PortRag.Foundation PortRag.Db PortRag.Security PortRag.Http PortRag.Ingest PortRag.Webpages

/-! ## Runs -/

/-- One step: the creation call of a request, another call, or what happens to originals. -/
inductive SiteCall where
  | create (c : Creation)
  | call (pd : PrivateData) (c : ServiceCall)
  | fence (userId : Uuid)
  | erase (userId : Uuid)
  /-- `storage.save` returns the path of a new original. -/
  | stage (path : StagedPath)
  /-- A worker, an erasure or a start-up deletes an original. -/
  | discard (path : StagedPath)

/-- The end of a creation call; other steps answer nothing here. -/
def SiteCall.exec : SiteCall → Site → Option CreationEnd × Site
  | .create c, s => ((c.exec s).1, (c.exec s).2)
  | .call pd c, s => (none, { s with db := (c.exec pd s.db).db })
  | .fence userId, s => (none, { s with db := Security.fence s.db userId })
  | .erase userId, s => (none, { s with db := Security.erase s.db userId })
  | .stage path, s => (none, { s with staged := path :: s.staged })
  | .discard path, s => (none, s.unlink path)

/-- The steps of a site. -/
def SiteStep (s : Site) (call : SiteCall) (answer : Option CreationEnd) (s' : Site) : Prop :=
  call.exec s = (answer, s')

/-- A recorded step of a site. -/
abbrev SiteRecord := Step Site SiteCall (Option CreationEnd)

/-- The insert of this document breaks the unique index on owner and knowledge key. -/
def BreaksIndex (db : Database) (d : Document) : Prop :=
  db.insertDocument d = .error (.integrityError none (some "uq_documents_user_knowledge_key"))

/-- The call reaches its insert, and the unique index refuses it. -/
def RejectedByIndex (db : Database) : Creation → Prop
  | .upload u => lockActiveOwner db u.userId = .ok () ∧
      ∃ stored, u.pd.encryptText u.name ⟨u.userId.str, u.documentId.str, "document:name"⟩
          = .ok stored ∧
        BreaksIndex db
          (processingDocument u.documentId u.userId u.knowledgeKey stored u.mime u.now)
  | .register r => (1 ≤ r.urls.length ∧ r.urls.length ≤ maxUrls) ∧
      ∃ normalized, r.urls.mapM r.lib.normalizeUrl = .ok normalized ∧
        lockActiveOwner db r.userId = .ok () ∧
        ∃ stored, r.pd.encryptText (displayName r.lib r.name normalized.eraseDups)
            ⟨r.userId.str, r.documentId.str, "document:name"⟩ = .ok stored ∧
          BreaksIndex db
            (processingDocument r.documentId r.userId r.knowledgeKey stored "text/html" r.now)

/-- The request is told that its key is taken, and leaves neither a row nor an original. -/
structure Reported (c : Creation) (before : Site) (answer : Option CreationEnd) (after : Site) :
    Prop where
  told : answer = some ⟨.error .duplicateKnowledgeKey, some (.http 409 "knowledge key already exists")⟩
  row : after.db = before.db
  original : ∀ path ∈ c.path?, path ∉ after.staged

/-- What a run owes: one document at most for a key of an owner, and a report for each creation
that the unique index rejected. -/
def KeysReported (s : Site) (steps : List SiteRecord) : Prop :=
  (∀ a ∈ s.db.documents.rows, ∀ b ∈ s.db.documents.rows, a.userId = b.userId →
    a.knowledgeKey = b.knowledgeKey → a = b) ∧
  ∀ st ∈ steps, ∀ c, st.call = .create c → RejectedByIndex st.before.db c →
    Reported c st.before st.answer st.after

/-- The key of a file upload is taken when its insert comes to it: the owner is active, the name
encrypts, and a document of the owner has the key. -/
def MeetsTakenKey (db : Database) (u : Upload) : Prop :=
  u.userId ∉ db.erasedOwners ∧
    (∃ stored, u.pd.encryptText u.name ⟨u.userId.str, u.documentId.str, "document:name"⟩
      = .ok stored) ∧
    db.keyTaken u.userId u.knowledgeKey = true

/-! ## Unique keys -/

theorem keyed_erase (db : Database) (userId : Uuid) : Keyed db (Security.erase db userId) := by
  have hkept : Keyed (db.fenceOwner userId)
      ((db.fenceOwner userId).keepDocuments (fun d => d.userId ≠ userId)) := keyed_keepDocuments _
  exact hkept

/-- The database after a creation call is that of the repository. -/
theorem creation_db (c : Creation) (s : Site) :
    (c.exec s).2.db = match c with
      | .upload u => (u.create s.db).db
      | .register r => (r.create s.db).db := by
  cases c with
  | upload u =>
      rw [Creation.exec]
      dsimp only
      split
      · rfl
      · unfold uploadRefused
        split <;> rfl
  | register r =>
      rw [Creation.exec]
      dsimp only
      split <;> rfl

theorem creation_keyed (c : Creation) (s : Site) : Keyed s.db (c.exec s).2.db := by
  rw [creation_db]
  cases c with
  | upload u => exact createProcessingDocument_keyed rfl
  | register r => exact keyed_ofTransaction createTransaction_keyed

/-- Every step keeps the pairs of owner and knowledge key apart. -/
theorem SiteStep.keyed {s s' : Site} {call : SiteCall} {answer : Option CreationEnd}
    (h : SiteStep s call answer s') : Keyed s.db s'.db := by
  obtain rfl := congrArg Prod.snd h
  cases call with
  | create c => exact creation_keyed c s
  | call pd c => exact c.keyed pd s.db
  | fence userId => exact keyed_of_eq rfl
  | erase userId => exact keyed_erase s.db userId
  | stage path => exact keyed_of_eq rfl
  | discard path => exact keyed_of_eq rfl

theorem uniqueKeys_of_run {s : Site} {steps : List SiteRecord}
    (h : Trace SiteStep .empty steps s) : s.db.UniqueKeys :=
  h.invariant (I := fun s => s.db.UniqueKeys) List.nodup_nil
    (fun hunique hstep => hstep.keyed.uniqueKeys hunique)

/-! ## The losing insert -/

/-- A document with a well-formed key breaks the index when the key is taken, and only then. -/
theorem breaksIndex_iff {db : Database} {d : Document}
    (hvalid : Database.validKnowledgeKey d.knowledgeKey = true) :
    BreaksIndex db d ↔ db.keyTaken d.userId d.knowledgeKey = true := by
  rw [BreaksIndex, Database.insertDocument, hvalid, if_neg (by simp)]
  constructor
  · intro h
    split at h
    · next htaken => exact htaken
    · split at h
      · exact absurd (Except.error.inj h) (by decide)
      · cases h
  · exact fun htaken => if_pos htaken

/-- When the unique index rejects a file upload. -/
theorem rejected_upload_iff {db : Database} {u : Upload} :
    RejectedByIndex db (.upload u) ↔ MeetsTakenKey db u := by
  constructor
  · rintro ⟨hlock, stored, hname, hbreaks⟩
    exact ⟨lockActiveOwner_ok hlock, ⟨stored, hname⟩, (breaksIndex_iff u.valid).mp hbreaks⟩
  · rintro ⟨hactive, ⟨stored, hname⟩, htaken⟩
    exact ⟨if_neg hactive, stored, hname, (breaksIndex_iff u.valid).mpr htaken⟩

/-- A rejected upload raises the `IntegrityError` of the driver: the constraint is not named
where `create_processing_document` looks. -/
theorem create_of_rejected_upload {db : Database} {u : Upload}
    (h : RejectedByIndex db (.upload u)) :
    u.create db
      = ⟨.error (.integrityError none (some "uq_documents_user_knowledge_key")), db⟩ := by
  obtain ⟨hlock, stored, hname, hbreaks⟩ := h
  rw [Upload.create, createProcessingDocument, hlock, hname]
  change Outcome.afterCommit db (((db.insertDocument _).mapError _).bind _) _ = _
  rw [hbreaks]
  rfl

/-- A rejected registration raises `DuplicateKnowledgeKey`. -/
theorem create_of_rejected_registration {db : Database} {r : Registration}
    (h : RejectedByIndex db (.register r)) :
    r.create db = ⟨.error .duplicateKnowledgeKey, db⟩ := by
  obtain ⟨hlength, normalized, hurls, hlock, stored, hname, hbreaks⟩ := h
  rw [Registration.create, Webpages.create, createTransaction, if_pos hlength, hurls]
  change Outcome.ofTransaction db ((lockActiveOwner db r.userId).bind _) = _
  rw [hlock]
  change Outcome.ofTransaction db ((r.pd.encryptText _ _).bind _) = _
  rw [hname]
  change Outcome.ofTransaction db (((db.insertDocument _).mapError _).bind _) = _
  rw [hbreaks]
  rfl

/-- A rejected registration is reported, in every state. -/
theorem registration_reported {s s' : Site} {r : Registration} {answer : Option CreationEnd}
    (hstep : SiteStep s (.create (.register r)) answer s')
    (h : RejectedByIndex s.db (.register r)) : Reported (.register r) s answer s' := by
  have hexec : SiteCall.exec (.create (.register r)) s
      = (some ⟨.error .duplicateKnowledgeKey, some (.http 409 "knowledge key already exists")⟩, s) := by
    rw [SiteCall.exec, Creation.exec, create_of_rejected_registration h]
    rfl
  obtain ⟨rfl, rfl⟩ := Prod.mk.inj (hexec.symm.trans hstep)
  exact ⟨rfl, rfl, fun path hpath => (by cases hpath)⟩

/-- A rejected upload is never reported. -/
theorem upload_not_reported {s s' : Site} {u : Upload} {answer : Option CreationEnd}
    (hstep : SiteStep s (.create (.upload u)) answer s')
    (h : RejectedByIndex s.db (.upload u)) : ¬ Reported (.upload u) s answer s' := by
  have hexec : (SiteCall.exec (.create (.upload u)) s).1
      = some ⟨.error (.integrityError none (some "uq_documents_user_knowledge_key")),
          some (.raised (.integrityError none (some "uq_documents_user_knowledge_key")))⟩ := by
    rw [SiteCall.exec, Creation.exec, create_of_rejected_upload h]
    rfl
  have hanswer := (congrArg Prod.fst hstep).symm.trans hexec
  intro hreported
  cases hanswer.symm.trans hreported.told

/-- In every run from the empty site: the keys of an owner stay apart and every creation that the
unique index rejects is reported as a taken key, if and only if no file upload of the run meets a
taken key.  A registration that meets one is told so; an upload ends with the exception of the
driver, in which it does not find the name of the constraint. -/
theorem taken_keys_reported_iff {s : Site} {steps : List SiteRecord}
    (h : Trace SiteStep .empty steps s) :
    KeysReported s steps ↔
      ∀ st ∈ steps, ∀ u, st.call = .create (.upload u) → ¬ MeetsTakenKey st.before.db u := by
  constructor
  · rintro ⟨-, hreported⟩ st hst u hcall hmeets
    have hrejected := rejected_upload_iff.mpr hmeets
    have hstep := h.step_of_mem hst
    rw [hcall] at hstep
    exact upload_not_reported hstep hrejected (hreported st hst _ hcall hrejected)
  · intro hfree
    refine ⟨fun a ha b hb => (uniqueKeys_of_run h).eq ha hb, ?_⟩
    intro st hst c hcall hrejected
    have hstep := h.step_of_mem hst
    rw [hcall] at hstep
    cases c with
    | upload u => exact absurd (rejected_upload_iff.mp hrejected) (hfree st hst u hcall)
    | register r => exact registration_reported hstep hrejected

/-! ## Two requests for one key -/

/-- The upload of `name` under the key `key`. -/
def sampleUpload (documentId : Uuid) (path : StagedPath) : Upload where
  pd := clearCipher.privateData
  documentId := documentId
  now := 0
  userId := 1
  knowledgeKey := "key"
  filename := some "name"
  contentType := none
  path := path
  valid := by decide

/-- A registration under the same key. -/
def sampleRegistration : Registration where
  pd := clearCipher.privateData
  lib := ⟨.ok, fun _ => "host"⟩
  documentId := 9
  now := 0
  userId := 1
  knowledgeKey := "key"
  name := none
  urls := ["https://host/"]
  autoSync := false
  valid := by decide

theorem siteRun_trace (calls : List SiteCall) :
    Trace SiteStep .empty (run SiteCall.exec .empty calls).1 (run SiteCall.exec .empty calls).2 :=
  run_trace (fun _ _ _ => rfl)

/-- After an upload, a registration with its key is reported. -/
theorem taken_keys_reported_registration :
    KeysReported
      (run SiteCall.exec .empty
        [.stage ⟨"d", "a"⟩, .create (.upload (sampleUpload 7 ⟨"d", "a"⟩)),
          .create (.register sampleRegistration)]).2
      (run SiteCall.exec .empty
        [.stage ⟨"d", "a"⟩, .create (.upload (sampleUpload 7 ⟨"d", "a"⟩)),
          .create (.register sampleRegistration)]).1 := by
  refine (taken_keys_reported_iff (siteRun_trace _)).mpr ?_
  intro st hst u hcall hmeets
  rcases List.mem_cons.mp hst with rfl | hst
  · cases hcall
  rcases List.mem_cons.mp hst with rfl | hst
  · cases hcall
    exact absurd hmeets.2.2 (by decide)
  · rw [List.mem_singleton.mp hst] at hcall
    cases hcall

/-- Of two uploads with one key, the second is answered with the `IntegrityError`. -/
theorem taken_key_not_reported :
    ∃ steps s, Trace SiteStep .empty steps s ∧ ¬ KeysReported s steps := by
  refine ⟨_, _, siteRun_trace [.create (.upload (sampleUpload 7 ⟨"d", "a"⟩)),
    .create (.upload (sampleUpload 8 ⟨"d", "b"⟩))], ?_⟩
  intro hreported
  have hlast := hreported.2 _ (List.mem_cons_of_mem _ List.mem_cons_self) _ rfl
  have hmeets : MeetsTakenKey ((Creation.upload (sampleUpload 7 ⟨"d", "a"⟩)).exec .empty).2.db
      (sampleUpload 8 ⟨"d", "b"⟩) := ⟨by decide, ⟨_, rfl⟩, by decide⟩
  exact upload_not_reported rfl (rejected_upload_iff.mpr hmeets)
    (hlast (rejected_upload_iff.mpr hmeets))

end PortRag.Service
