import PortRag.Http.KnowledgeRevisions
import PortRag.Service.Calls

set_option autoImplicit false

/-!
# Competing requests for one revision

Any number of `POST /knowledge-revisions` requests for one owner and one identifier, in every
order of their turns.  The handler looks for the revision in one transaction and creates it in
another, so two requests may both find it missing; the primary key then refuses the second.
-/

namespace PortRag.Service

open PortRag.Foundation PortRag.Db PortRag.Security PortRag.Http PortRag.Knowledge

/-- The requests: for one owner and one identifier that is free, each with a capability for the
pair, and each selecting documents of the owner that are ready and so have their chunks.  The
owner is not erased, and `uuid4` gives new identifiers. -/
structure Contenders (requests : List RevisionRequest) (userId revisionId : Uuid) (db : Database) :
    Prop where
  same : ∀ r ∈ requests, r.userId = userId ∧ r.revisionId = revisionId
  authorized : ∀ r ∈ requests, r.authorized = .ok r.userId.str
  ready : ∀ r ∈ requests, ∀ ids, r.documentIds = some ids → ∀ id ∈ ids, ∃ d,
    db.document? id = some d ∧ d.userId = userId ∧ d.status = .ready ∧ db.chunksOf id ≠ []
  active : userId ∉ db.erasedOwners
  free : db.revisions.find? revisionId = none
  fresh : ∀ r ∈ requests, FreshRows r.uuid4 r.userId r.documentIds db

/-- A turn in which a request that found the revision missing calls `create`. -/
def Attempts (requests : List RevisionRequest) (st : PostRecord) : Prop :=
  ∃ r, requests[st.call]? = some r ∧ st.before.stage st.call = .missing

/-- What a run of the requests should come to.  One revision with the identifier exists.  It was
made as a whole, with its chunks and its webpage membership, by the creation of one of the
requests, in a turn that is the only one of the run to write anything.  Every request is answered
with 201 and the record of that revision. -/
structure PostedOnce (requests : List RevisionRequest) (revisionId : Uuid) (db : Database)
    (steps : List PostRecord) (s : Posting) : Prop where
  one : ∃! rev, rev ∈ s.db.revisions.rows ∧ rev.id = revisionId
  made : ∃ first st rest r record, steps = first ++ st :: rest ∧
    (∀ other ∈ first ++ rest, other.after.db = other.before.db) ∧
    requests[st.call]? = some r ∧ r.create db = ⟨.ok record, s.db⟩
  answered : ∀ i < requests.length, ∀ rev ∈ s.db.revisions.rows, rev.id = revisionId →
    s.stage i = .answered (.ok (summary s.db rev))

/-- Each attempt of the run finds the identifier still free, and the name, the texts and the
metadata of the file documents it selects can be read and encrypted for the revision. -/
def Unraced (requests : List RevisionRequest) (revisionId : Uuid) (steps : List PostRecord) : Prop :=
  ∀ st ∈ steps, ∀ r, requests[st.call]? = some r → st.before.stage st.call = .missing →
    st.before.db.revisions.find? revisionId = none ∧
      ∀ d ∈ selectedFiles st.before.db r.userId r.documentIds, ∀ c ∈ st.before.db.chunksOf d.id,
        Refreezable r.pd r.userId r.revisionId d c

/-! ## Turns -/

section Turns

variable {requests : List RevisionRequest} {userId revisionId : Uuid} {db : Database}
  {s s' : Posting} {i : Nat} {r : RevisionRequest}

theorem assertActive_of_active (hactive : r.userId ∉ db.erasedOwners) (next : RevisionStage) :
    r.assertActive db next = next := by
  rw [RevisionRequest.assertActive, Security.assertActive, lockActiveOwner, if_neg hactive]

theorem verify_of_authorized (h : r.authorized = .ok r.userId.str) : r.verify = .ok () := by
  rw [RevisionRequest.verify, h]
  exact if_neg (by simp)

theorem get_of_active (hactive : userId ∉ db.erasedOwners) (id : Uuid) :
    Knowledge.get db id userId
      = .ok (((db.revisions.find? id).filter (fun rev => rev.userId = userId)).map (summary db)) := by
  rw [Knowledge.get, lockActiveOwner, if_neg hactive]
  rfl

/-- Documents that are ready have all been found. -/
theorem Contenders.allFound (h : Contenders requests userId revisionId db) (hr : r ∈ requests) :
    allFound r.documentIds (sourceRows db r.userId r.documentIds) = true := by
  cases hids : r.documentIds with
  | none => rfl
  | some ids =>
      rw [Knowledge.allFound, Option.all_some, List.all_eq_true]
      intro id hid
      obtain ⟨d, hd, howner, hready, hchunks⟩ := h.ready r hr ids hids id hid
      obtain ⟨hmem, rfl⟩ := Database.document?_eq_some_iff.mp hd
      obtain ⟨c, hc⟩ := List.exists_mem_of_ne_nil _ hchunks
      have hselectable : selectable r.userId (some ids) d = true := by
        simp [selectable, howner, (h.same r hr).1, hready, hid]
      rw [List.any_eq_true]
      refine ⟨sourceRow db d c, List.mem_mergeSort.mpr ?_, decide_eq_true rfl⟩
      exact List.mem_flatMap.mpr ⟨d, List.mem_filter.mpr ⟨hmem, hselectable⟩,
        List.mem_map_of_mem hc⟩

/-- A creation is refused without a trace, or is the committed transaction. -/
theorem create_cases (r : RevisionRequest) (db : Database) :
    (∃ e, r.create db = ⟨.error e, db⟩) ∨
      ∃ record db', r.create db = ⟨.ok record, db'⟩ ∧
        Knowledge.createTransaction r.pd r.uuid4 r.revisionId r.now db r.userId r.documentIds
          = .ok (record, db') := by
  rcases Outcome.ofTransaction_cases db (Knowledge.createTransaction r.pd r.uuid4 r.revisionId
    r.now db r.userId r.documentIds) with ⟨e, -, ho⟩ | ⟨record, db', ht, ho⟩
  · exact .inl ⟨e, ho⟩
  · exact .inr ⟨record, db', ho, ht⟩

/-- The turn of a request that is there. -/
theorem postStep_eq (h : PostStep requests s i () s') (hr : requests[i]? = some r) :
    s'.db = (r.turn s.db (s.stage i)).2 ∧
      s'.stage = Function.update s.stage i (r.turn s.db (s.stage i)).1 := by
  rw [PostStep, postTurn, hr] at h
  subst h
  exact ⟨rfl, rfl⟩

/-- A turn that is no attempt writes nothing. -/
theorem db_of_not_attempts {st : PostRecord}
    (h : PostStep requests st.before st.call () st.after) (hno : ¬ Attempts requests st) :
    st.after.db = st.before.db := by
  cases hr : requests[st.call]? with
  | none =>
      rw [PostStep, postTurn, hr] at h
      rw [← h]
  | some r =>
      rw [(postStep_eq h hr).1]
      cases hstage : st.before.stage st.call with
      | received =>
          rw [RevisionRequest.turn]
          split
          · rfl
          · rfl
      | admitted =>
          rw [RevisionRequest.turn]
          split
          · rfl
          · rfl
          · rfl
      | missing => exact absurd ⟨r, hr, hstage⟩ hno
      | found existing => rfl
      | created revision => rfl
      | answered answer => rfl

/-- A request misses the revision only by having looked for it. -/
theorem admitted_of_missing {stage : RevisionStage} (h : (r.turn db stage).1 = .missing) :
    stage = .admitted := by
  have hasserted : ∀ next : RevisionStage, next ≠ .missing →
      r.assertActive db next ≠ .missing := by
    intro next hnext
    unfold RevisionRequest.assertActive
    split
    · simp
    · exact hnext
  cases stage with
  | admitted => rfl
  | received =>
      rw [RevisionRequest.turn] at h
      split at h
      · cases h
      · exact absurd h (hasserted _ (fun h => nomatch h))
  | missing =>
      rw [RevisionRequest.turn] at h
      split at h <;> cases h
  | found existing => exact absurd h (hasserted _ (fun h => nomatch h))
  | created revision => exact absurd h (hasserted _ (fun h => nomatch h))
  | answered answer => cases h

/-- A turn of nobody does nothing. -/
theorem postStep_none (h : PostStep requests s i () s') (hr : requests[i]? = none) :
    s' = s := by
  rw [PostStep, postTurn, hr] at h
  exact h.symm

end Turns

/-! ## Before and after the creation -/

/-- The stages before a request knows of a revision. -/
def Looking (stage : RevisionStage) : Prop :=
  stage = .received ∨ stage = .admitted ∨ stage = .missing

/-- The stages of a request that knows of no other revision than this record's. -/
def Agreeing (record : KnowledgeRevisionRecord) (stage : RevisionStage) : Prop :=
  Looking stage ∨ stage = .found record ∨ stage = .created record ∨ stage = .answered (.ok record)

/-- No request has created the revision. -/
structure Untouched (db : Database) (s : Posting) : Prop where
  db : s.db = db
  stage : ∀ i, Looking (s.stage i)

/-- The revision of this record is there, and no request says anything else. -/
structure Settled (record : KnowledgeRevisionRecord) (db : Database) (s : Posting) : Prop where
  db : s.db = db
  stage : ∀ i, Agreeing record (s.stage i)

section Invariant

variable {requests : List RevisionRequest} {userId revisionId : Uuid} {db db' : Database}
  {s s' : Posting} {i : Nat} {r : RevisionRequest} {record : KnowledgeRevisionRecord}

/-- A turn before the creation: an attempt succeeds, and every other turn leaves things so. -/
theorem Untouched.turn (hc : Contenders requests userId revisionId db) (h : Untouched db s)
    (hr : requests[i]? = some r)
    (hfreeze : s.stage i = .missing → ∃ frozen,
      freeze r.pd r.uuid4 r.revisionId r.userId r.documentIds db = .ok frozen) :
    (s.stage i ≠ .missing ∧ (r.turn db (s.stage i)).2 = db ∧
      Looking (r.turn db (s.stage i)).1) ∨
    s.stage i = .missing ∧ ∃ record db', r.create db = ⟨.ok record, db'⟩ ∧
      r.turn db (s.stage i) = (.created record, db') := by
  have hmem := List.mem_of_getElem? hr
  obtain ⟨howner, hid⟩ := hc.same r hmem
  have hactive : r.userId ∉ db.erasedOwners := howner ▸ hc.active
  rcases h.stage i with hstage | hstage | hstage
  · refine .inl ⟨by rw [hstage]; simp, ?_⟩
    rw [hstage, RevisionRequest.turn, verify_of_authorized (hc.authorized r hmem)]
    exact ⟨rfl, .inr (.inl (assertActive_of_active hactive _))⟩
  · refine .inl ⟨by rw [hstage]; simp, ?_⟩
    rw [hstage, RevisionRequest.turn, get_of_active hactive, hid, hc.free]
    exact ⟨rfl, .inr (.inr rfl)⟩
  · obtain ⟨frozen, hfrozen⟩ := hfreeze hstage
    obtain ⟨record, db', ht⟩ : ∃ record db', Knowledge.createTransaction r.pd r.uuid4 r.revisionId
        r.now db r.userId r.documentIds = .ok (record, db') :=
      createTransaction_of_free hactive (hid ▸ hc.free) (hc.allFound hmem) (hc.fresh r hmem) hfrozen
    have hcreate : r.create db = ⟨.ok record, db'⟩ := by
      rw [RevisionRequest.create, Knowledge.create, ht]
      rfl
    refine .inr ⟨hstage, record, db', hcreate, ?_⟩
    rw [hstage, RevisionRequest.turn, hcreate]

/-- A turn after the creation that is no attempt: the answers are the record. -/
theorem Settled.turn (hsame : r.userId = userId ∧ r.revisionId = revisionId)
    (hauthorized : r.authorized = .ok r.userId.str) (hactive : userId ∉ db'.erasedOwners)
    {rev : KnowledgeRevision} (hrev : db'.revisions.find? revisionId = some rev)
    (howner : rev.userId = userId) (hrecord : summary db' rev = record)
    (h : Settled record db' s) (hno : s.stage i ≠ .missing) :
    (r.turn db' (s.stage i)).2 = db' ∧ Agreeing record (r.turn db' (s.stage i)).1 := by
  have hactive' : r.userId ∉ db'.erasedOwners := hsame.1 ▸ hactive
  rcases h.stage i with (hstage | hstage | hstage) | hstage | hstage | hstage
  · rw [hstage, RevisionRequest.turn, verify_of_authorized hauthorized]
    exact ⟨rfl, .inl (.inr (.inl (assertActive_of_active hactive' _)))⟩
  · rw [hstage, RevisionRequest.turn, get_of_active hactive', hsame.2, hrev, Option.filter_some,
      if_pos (by simp [howner, hsame.1]), Option.map_some, hrecord]
    exact ⟨rfl, .inr (.inl rfl)⟩
  · exact absurd hstage hno
  · rw [hstage, RevisionRequest.turn]
    exact ⟨rfl, .inr (.inr (.inr (assertActive_of_active hactive' _)))⟩
  · rw [hstage, RevisionRequest.turn]
    exact ⟨rfl, .inr (.inr (.inr (assertActive_of_active hactive' _)))⟩
  · rw [hstage, RevisionRequest.turn]
    exact ⟨rfl, .inr (.inr (.inr rfl))⟩

/-- What a run of unraced attempts has come to. -/
def Reached (requests : List RevisionRequest) (db : Database) (steps : List PostRecord)
    (s : Posting) : Prop :=
  (Untouched db s ∧ ∀ st ∈ steps, ¬ Attempts requests st) ∨
    ∃ first st rest r record db', steps = first ++ st :: rest ∧
      (∀ other ∈ first ++ rest, ¬ Attempts requests other) ∧ requests[st.call]? = some r ∧
      r.create db = ⟨.ok record, db'⟩ ∧ Settled record db' s

/-- A successful attempt leaves its revision, with its record as the summary. -/
theorem created_revision (hsame : r.userId = userId ∧ r.revisionId = revisionId)
    (hcreate : r.create db = ⟨.ok record, db'⟩) :
    userId ∉ db'.erasedOwners ∧
      db'.revisions.find? revisionId = some ⟨revisionId, userId, r.now⟩ ∧
      summary db' ⟨revisionId, userId, r.now⟩ = record := by
  obtain ⟨rfl, rfl⟩ := hsame
  rcases create_cases r db with ⟨e, he⟩ | ⟨record', db'', hok, ht⟩
  · rw [hcreate] at he
    cases he
  · rw [hcreate] at hok
    cases hok
    have hcreated := created_of_ok ht
    have herased : db'.erasedOwners = db.erasedOwners := by
      obtain ⟨_, _, _, -, hrevision, -, hchunks, hmembers, -⟩ := createTransaction_ok ht
      obtain ⟨-, _, _, rfl⟩ := Database.insertRevision_ok hrevision
      obtain ⟨_, _, _, rfl⟩ := Database.insertRevisionChunks_ok hchunks
      obtain ⟨_, _, _, rfl⟩ := Database.insertRevisionWebpages_ok hmembers
      rfl
    exact ⟨herased ▸ hcreated.unfenced, hcreated.revision, summary_of_created ht⟩

/-- The stages after a turn: the one of the request that took it, and those of before. -/
theorem stage_update (hstage : s'.stage = Function.update s.stage i (r.turn db (s.stage i)).1)
    {P : RevisionStage → Prop} (hturn : P (r.turn db (s.stage i)).1) (hbefore : ∀ j, P (s.stage j))
    (j : Nat) : P (s'.stage j) := by
  rw [hstage]
  by_cases hj : j = i
  · rw [hj, Function.update_self]
    exact hturn
  · rw [Function.update_of_ne hj]
    exact hbefore j

/-- A turn that is no attempt carries a run on as its states do. -/
theorem Reached.quiet {steps : List PostRecord} {last : PostRecord} (h : Reached requests db steps s)
    (hno : ¬ Attempts requests last) (huntouched : Untouched db s → Untouched db s')
    (hsettled : ∀ r ∈ requests, ∀ record db', r.create db = ⟨.ok record, db'⟩ →
      Settled record db' s → Settled record db' s') :
    Reached requests db (steps ++ [last]) s' := by
  rcases h with ⟨hs, hnone⟩ | ⟨first, st, rest, r, record, db', rfl, hnone, hr, hok, hs⟩
  · refine .inl ⟨huntouched hs, fun st hst => ?_⟩
    rcases List.mem_append.mp hst with hst | hst
    · exact hnone st hst
    · exact List.mem_singleton.mp hst ▸ hno
  · refine .inr ⟨first, st, rest ++ [last], r, record, db', by simp, ?_, hr, hok,
      hsettled r (List.mem_of_getElem? hr) record db' hok hs⟩
    intro other hother
    rw [← List.append_assoc] at hother
    rcases List.mem_append.mp hother with hother | hother
    · exact hnone other hother
    · exact List.mem_singleton.mp hother ▸ hno

theorem Untouched.quiet (hc : Contenders requests userId revisionId db) (h : Untouched db s)
    (hstep : PostStep requests s i () s') (hr : requests[i]? = some r)
    (hno : s.stage i ≠ .missing) : Untouched db s' := by
  obtain ⟨hdb, hstage⟩ := postStep_eq hstep hr
  rw [h.db] at hdb hstage
  rcases h.turn hc hr (fun hm => absurd hm hno) with ⟨-, hsame, hnext⟩ | ⟨hm, -⟩
  · exact ⟨hdb.trans hsame, stage_update hstage hnext h.stage⟩
  · exact absurd hm hno

theorem Settled.quiet (hc : Contenders requests userId revisionId db) {creator : RevisionRequest}
    (hcreator : creator ∈ requests) (hok : creator.create db = ⟨.ok record, db'⟩)
    (h : Settled record db' s) (hstep : PostStep requests s i () s') (hr : requests[i]? = some r)
    (hno : s.stage i ≠ .missing) : Settled record db' s' := by
  have hmem := List.mem_of_getElem? hr
  obtain ⟨hactive, hrev, hsummary⟩ := created_revision (hc.same creator hcreator) hok
  obtain ⟨hdb, hstage⟩ := postStep_eq hstep hr
  rw [h.db] at hdb hstage
  obtain ⟨hsame, hnext⟩ := h.turn (hc.same r hmem) (hc.authorized r hmem) hactive hrev rfl hsummary
    hno
  exact ⟨hdb.trans hsame, stage_update hstage hnext h.stage⟩

/-- An unraced attempt creates the revision. -/
theorem Reached.attempt (hc : Contenders requests userId revisionId db) {steps : List PostRecord}
    (h : Reached requests db steps s) (hstep : PostStep requests s i () s')
    (hr : requests[i]? = some r) (hm : s.stage i = .missing)
    (hfree : s.db.revisions.find? revisionId = none)
    (hfreeze : ∃ frozen, freeze r.pd r.uuid4 r.revisionId r.userId r.documentIds s.db = .ok frozen) :
    Reached requests db (steps ++ [⟨s, i, (), s'⟩]) s' := by
  obtain ⟨hdb, hstage⟩ := postStep_eq hstep hr
  rcases h with ⟨hs, hnone⟩ | ⟨first, st, rest, creator, record, db', rfl, hnone, hr', hok, hs⟩
  · rw [hs.db] at hdb hstage hfreeze
    rcases hs.turn hc hr (fun _ => hfreeze) with ⟨hno, -⟩ | ⟨-, record, db', hok, hturn⟩
    · exact absurd hm hno
    · rw [hturn] at hdb
      refine .inr ⟨steps, ⟨s, i, (), s'⟩, [], r, record, db', rfl, by simpa using hnone, hr, hok,
        hdb, stage_update hstage ?_ (fun j => .inl (hs.stage j))⟩
      rw [hturn]
      exact .inr (.inr (.inl rfl))
  · obtain ⟨-, hrev, -⟩ := created_revision (hc.same creator (List.mem_of_getElem? hr')) hok
    rw [hs.db, hrev] at hfree
    cases hfree

theorem Reached.step (hc : Contenders requests userId revisionId db) {steps : List PostRecord}
    (h : Reached requests db steps s) (hstep : PostStep requests s i () s')
    (hunraced : Unraced requests revisionId [⟨s, i, (), s'⟩]) :
    Reached requests db (steps ++ [⟨s, i, (), s'⟩]) s' := by
  have hlast := hunraced _ (List.mem_singleton_self _)
  cases hr : requests[i]? with
  | none =>
      obtain rfl := postStep_none hstep hr
      refine h.quiet ?_ id (fun _ _ _ _ _ => id)
      rintro ⟨r, hr', -⟩
      rw [hr] at hr'
      cases hr'
  | some r =>
      by_cases hm : s.stage i = .missing
      · obtain ⟨hfree, hcells⟩ := hlast r hr hm
        exact h.attempt hc hstep hr hm hfree (freeze_ok_iff.mpr hcells)
      · refine h.quiet ?_ (fun hs => hs.quiet hc hstep hr hm)
          (fun creator hcreator record db' hok hs => hs.quiet hc hcreator hok hstep hr hm)
        rintro ⟨-, -, hm'⟩
        exact hm hm'

theorem reached_of_run (hc : Contenders requests userId revisionId db) {steps : List PostRecord}
    (h : Trace (PostStep requests) (posted db) steps s)
    (hunraced : Unraced requests revisionId steps) : Reached requests db steps s := by
  induction h with
  | nil => exact .inl ⟨⟨rfl, fun _ => .inl rfl⟩, by simp⟩
  | snoc _ hstep ih =>
      refine (ih fun st hst => hunraced st (List.mem_append_left _ hst)).step hc hstep ?_
      exact fun st hst => hunraced st (List.mem_append_right _ hst)

end Invariant

/-! ## Every request is answered -/

/-- How many turns a request has behind it, at least; four are enough for an answer. -/
def progress : RevisionStage → Nat
  | .received => 0
  | .admitted => 1
  | .missing => 2
  | .found _ => 3
  | .created _ => 3
  | .answered _ => 4

section Progress

variable {requests : List RevisionRequest} {s s' : Posting} {i : Nat}

theorem progress_le (stage : RevisionStage) : progress stage ≤ 4 := by
  cases stage <;> simp [progress]

/-- The admission check goes on to the next stage or answers. -/
theorem progress_assertActive (r : RevisionRequest) (db : Database) (next : RevisionStage) :
    progress next ≤ progress (r.assertActive db next) := by
  unfold RevisionRequest.assertActive
  split
  · exact progress_le next
  · exact le_refl _

/-- A turn brings a request closer to its answer. -/
theorem progress_turn (r : RevisionRequest) (db : Database) (stage : RevisionStage) :
    min 4 (progress stage + 1) ≤ progress (r.turn db stage).1 := by
  cases stage with
  | received =>
      rw [RevisionRequest.turn]
      split
      · simp [progress]
      · exact progress_assertActive r db .admitted
  | admitted =>
      rw [RevisionRequest.turn]
      split <;> simp [progress]
  | missing =>
      rw [RevisionRequest.turn]
      split <;> simp [progress]
  | found existing => exact progress_assertActive r db (.answered (.ok existing))
  | created revision => exact progress_assertActive r db (.answered (.ok revision))
  | answered answer => exact le_refl 4

/-- After `k` turns a request has come that far, or has its answer. -/
theorem progress_of_turns {db : Database} {steps : List PostRecord}
    (h : Trace (PostStep requests) (posted db) steps s) (hi : i < requests.length) :
    min 4 (steps.filter (fun st => st.call = i)).length ≤ progress (s.stage i) := by
  induction h with
  | nil => exact Nat.zero_le _
  | @snoc mid after earlier call answer _ hstep ih =>
      rw [List.filter_append, List.length_append]
      by_cases hcall : call = i
      · subst hcall
        have hr : requests[call]? = some requests[call] := List.getElem?_eq_getElem hi
        obtain ⟨-, hstage⟩ := postStep_eq hstep hr
        have hturn := progress_turn requests[call] mid.db (mid.stage call)
        rw [hstage, Function.update_self, List.filter_cons_of_pos (by simp), List.filter_nil,
          List.length_singleton]
        omega
      · have hsame : after.stage i = mid.stage i := by
          cases hr : requests[call]? with
          | none => rw [postStep_none hstep hr]
          | some r =>
              rw [(postStep_eq hstep hr).2, Function.update_of_ne (fun h => hcall h.symm)]
        rw [hsame, List.filter_cons_of_neg (by simpa using hcall), List.filter_nil, List.length_nil]
        exact ih

/-- A request that has come so far has its answer. -/
theorem exists_answer {stage : RevisionStage} (h : 4 ≤ progress stage) :
    ∃ answer, stage = .answered answer := by
  cases stage with
  | answered answer => exact ⟨answer, rfl⟩
  | _ => simp [progress] at h

/-- An answer is given once. -/
theorem answer_stays {steps : List PostRecord} {answer : Except Refusal KnowledgeRevisionRecord}
    (h : Trace (PostStep requests) s steps s') (hanswer : s.stage i = .answered answer) :
    s'.stage i = .answered answer := by
  refine h.holds_through (P := fun s => s.stage i = .answered answer) hanswer ?_
  intro st _ hstep hbefore
  cases hr : requests[st.call]? with
  | none => rw [postStep_none hstep hr, hbefore]
  | some r =>
      rw [(postStep_eq hstep hr).2]
      by_cases hcall : st.call = i
      · rw [hcall, Function.update_self, hbefore]
        rfl
      · rw [Function.update_of_ne (fun h => hcall h.symm), hbefore]

end Progress

/-! ## The requests together -/

section Together

variable {requests : List RevisionRequest} {userId revisionId : Uuid} {db : Database}
  {steps : List PostRecord} {s : Posting}

/-- A run that has come to a settled revision answers every request with its record. -/
theorem PostedOnce.of_reached (hne : requests ≠ [])
    (hc : Contenders requests userId revisionId db)
    (hrun : Trace (PostStep requests) (posted db) steps s) (h : Reached requests db steps s)
    (hanswered : ∀ i < requests.length, ∃ answer, s.stage i = .answered answer) :
    PostedOnce requests revisionId db steps s := by
  rcases h with ⟨hs, -⟩ | ⟨first, st, rest, r, record, db', rfl, hnone, hr, hok, hs⟩
  · obtain ⟨answer, hanswer⟩ := hanswered 0 (List.length_pos_iff.mpr hne)
    rcases hs.stage 0 with hlooking | hlooking | hlooking <;>
      · rw [hanswer] at hlooking
        cases hlooking
  · obtain ⟨-, hrev, hsummary⟩ := created_revision (hc.same r (List.mem_of_getElem? hr)) hok
    obtain ⟨hmem, hid⟩ := Table.find?_eq_some_iff.mp hrev
    have honly : ∀ rev ∈ db'.revisions.rows, rev.id = revisionId →
        rev = ⟨revisionId, userId, r.now⟩ :=
      fun rev hrow hrow' => Table.eq_of_key hrow hmem (hrow'.trans hid.symm)
    refine ⟨⟨⟨revisionId, userId, r.now⟩, ?_, ?_⟩, ?_, ?_⟩
    · rw [hs.db]
      exact ⟨hmem, hid⟩
    · rw [hs.db]
      exact fun rev hrow => honly rev hrow.1 hrow.2
    · refine ⟨first, st, rest, r, record, rfl, ?_, hr, hs.db ▸ hok⟩
      intro other hother
      have hmem : other ∈ first ++ st :: rest := by
        rcases List.mem_append.mp hother with hbefore | hafter
        · exact List.mem_append_left _ hbefore
        · exact List.mem_append_right _ (List.mem_cons_of_mem _ hafter)
      obtain ⟨before, after, hsplit⟩ := List.append_of_mem hmem
      exact db_of_not_attempts (hsplit ▸ hrun).split_at.2.1 (hnone other hother)
    · rw [hs.db]
      intro i hi rev hrow hrow'
      rw [honly rev hrow hrow', hsummary]
      obtain ⟨answer, hanswer⟩ := hanswered i hi
      rcases hs.stage i with (hstage | hstage | hstage) | hstage | hstage | hstage
      case inr.inr.inr => exact hstage
      all_goals
        rw [hanswer] at hstage
        cases hstage

/-- An attempt whose request is answered with 201 in the end was not raced. -/
theorem attempt_unraced (hc : Contenders requests userId revisionId db)
    (h : Trace (PostStep requests) (posted db) steps s)
    (hposted : PostedOnce requests revisionId db steps s) {st : PostRecord} (hst : st ∈ steps)
    {r : RevisionRequest} (hr : requests[st.call]? = some r)
    (hm : st.before.stage st.call = .missing) :
    st.before.db.revisions.find? revisionId = none ∧
      ∀ d ∈ selectedFiles st.before.db r.userId r.documentIds, ∀ c ∈ st.before.db.chunksOf d.id,
        Refreezable r.pd r.userId r.revisionId d c := by
  obtain ⟨first, rest, rfl⟩ := List.append_of_mem hst
  obtain ⟨-, hstep, hrest⟩ := h.split_at
  rcases create_cases r st.before.db with ⟨e, he⟩ | ⟨record, db', -, ht⟩
  · have hstage := (postStep_eq hstep hr).2
    rw [hm, RevisionRequest.turn, he] at hstage
    have hrefused : st.after.stage st.call = .answered (.error (RevisionRequest.refused e)) := by
      rw [hstage, Function.update_self]
    have hend := answer_stays hrest hrefused
    obtain ⟨rev, ⟨hmem, hid⟩, -⟩ := hposted.one
    have hok := hposted.answered st.call (List.getElem?_eq_some_iff.mp hr).1 rev hmem hid
    rw [hend] at hok
    cases hok
  · obtain ⟨frozen, _, _, -, hrevision, hfrozen, -⟩ := createTransaction_ok ht
    obtain ⟨hfree, -⟩ := Database.insertRevision_ok hrevision
    have hid := (hc.same r (List.mem_of_getElem? hr)).2
    exact ⟨hid ▸ hfree, freeze_ok_iff.mp ⟨frozen, hfrozen⟩⟩

/-- Requests for one revision, each given the turns it needs, in any order: exactly one revision
comes to exist and all are answered with it, if and only if no attempt is raced.  An attempt is not
raced when it finds the identifier still free and the chunks as it can freeze them; the look before
it was in another transaction and promises neither. -/
theorem posted_once_iff (hne : requests ≠ []) (hc : Contenders requests userId revisionId db)
    (h : Trace (PostStep requests) (posted db) steps s)
    (hturns : ∀ i < requests.length, 4 ≤ (steps.filter (fun st => st.call = i)).length) :
    PostedOnce requests revisionId db steps s ↔ Unraced requests revisionId steps := by
  constructor
  · exact fun hposted st hst r hr hm => attempt_unraced hc h hposted hst hr hm
  · intro hunraced
    refine PostedOnce.of_reached hne hc h (reached_of_run hc h hunraced) ?_
    intro i hi
    have hprogress := progress_of_turns h hi
    rw [Nat.min_eq_left (hturns i hi)] at hprogress
    exact exists_answer hprogress

end Together

/-! ## Schedules -/

/-- One file document with one chunk, ready. -/
def readyStore : Database :=
  let registered := ((ServiceCall.createDocument 7 0 1 "key" "name" "mime").exec
    clearCipher.privateData .empty).db
  ((ServiceCall.replaceChunks (fun _ => 9) 0 7 [⟨0, "text", .obj []⟩] [[1]]).exec
    clearCipher.privateData registered).db

/-- A request that freezes the document as the row `rowId` of revision 5. -/
def readyRequest (rowId : Uuid) : RevisionRequest where
  userId := 1
  revisionId := 5
  documentIds := some [7]
  authorized := .ok (Uuid.str 1)
  pd := clearCipher.privateData
  uuid4 := fun _ => rowId
  now := 0

theorem fileRows_readyStore : (fileRows (sourceRows readyStore 1 (some [7]))).length = 1 :=
  (fileRows_perm readyStore 1 (some [7])).length_eq.trans (by decide +kernel)

/-- One row needs no sorting. -/
theorem sourceRows_readyStore :
    sourceRows readyStore 1 (some [7]) = joinedRows readyStore 1 (some [7]) := by
  have hlength : (joinedRows readyStore 1 (some [7])).length = 1 := by decide +kernel
  obtain ⟨row, hrow⟩ := List.length_eq_one_iff.mp hlength
  rw [sourceRows, hrow, List.mergeSort_singleton]

theorem freeze_readyStore :
    ∃ frozen, freeze clearCipher.privateData (fun _ => 11) 5 1 (some [7]) readyStore
      = .ok frozen := by
  have hok : ((fileRows (joinedRows readyStore 1 (some [7]))).zipIdx.mapM
      (fun z => frozenRow clearCipher.privateData 1 5 11 z.1)).isOk = true := by decide +kernel
  rw [freeze, sourceRows_readyStore]
  exact exists_of_isOk hok

/-- The requests of the samples are contenders, however many there are. -/
theorem readyRequest_contends {requests : List RevisionRequest}
    (h : ∀ r ∈ requests, ∃ rowId, r = readyRequest rowId) :
    Contenders requests 1 5 readyStore where
  same := by
    intro r hr
    obtain ⟨rowId, rfl⟩ := h r hr
    exact ⟨rfl, rfl⟩
  authorized := by
    intro r hr
    obtain ⟨rowId, rfl⟩ := h r hr
    rfl
  ready := by
    intro r hr ids hids id hid
    obtain ⟨rowId, rfl⟩ := h r hr
    cases hids
    rw [List.mem_singleton.mp hid]
    have hfound : (readyStore.document? 7).map
        (fun d => decide (d.userId = 1 ∧ d.status = .ready)) = some true := by decide +kernel
    obtain ⟨d, hd, hready⟩ := Option.map_eq_some_iff.mp hfound
    have hchunks : (readyStore.chunksOf 7).length = 1 := by decide +kernel
    refine ⟨d, hd, (of_decide_eq_true hready).1, (of_decide_eq_true hready).2, ?_⟩
    exact List.ne_nil_of_length_eq_add_one hchunks
  active := by decide +kernel
  free := by decide +kernel
  fresh := by
    intro r hr
    obtain ⟨rowId, rfl⟩ := h r hr
    have hlength : (fileRows (sourceRows readyStore 1 (some [7]))).length = 1 := fileRows_readyStore
    refine ⟨fun i j hi hj _ => ?_, fun _ _ => ?_⟩
    · have hi' : i < 1 := hlength ▸ hi
      have hj' : j < 1 := hlength ▸ hj
      omega
    · exact Table.find?_empty rowId

/-- The run of a schedule. -/
theorem schedule_trace (requests : List RevisionRequest) (s : Posting) (schedule : List Nat) :
    Trace (PostStep requests) s
      (run (fun i s => ((), postTurn requests i s)) s schedule).1
      (run (fun i s => ((), postTurn requests i s)) s schedule).2 :=
  run_trace (fun _ _ _ => rfl)

/-- The first request freezes the document. -/
theorem create_readyStore : ∃ record db', (readyRequest 11).create readyStore = ⟨.ok record, db'⟩ := by
  have hc : Contenders [readyRequest 11] 1 5 readyStore := readyRequest_contends (by simp)
  have hmem : readyRequest 11 ∈ [readyRequest 11] := List.mem_cons_self
  obtain ⟨frozen, hfrozen⟩ := freeze_readyStore
  obtain ⟨record, db', ht⟩ : ∃ record db', Knowledge.createTransaction clearCipher.privateData
      (fun _ => 11) 5 0 readyStore 1 (some [7]) = .ok (record, db') :=
    createTransaction_of_free hc.active hc.free (hc.allFound hmem) (hc.fresh _ hmem) hfrozen
  refine ⟨record, db', ?_⟩
  rw [RevisionRequest.create, Knowledge.create]
  exact congrArg (Outcome.ofTransaction readyStore) ht

/-- The other request finds what the first one has created. -/
theorem found_readyStore : ∃ record,
    ((readyRequest 12).turn ((readyRequest 11).turn readyStore .missing).2 .admitted).1
      = .found record := by
  obtain ⟨record, db', hok⟩ := create_readyStore
  have hdb : ((readyRequest 11).turn readyStore .missing).2 = db' := by
    rw [RevisionRequest.turn, hok]
  obtain ⟨hactive, hrev, -⟩ := created_revision ⟨rfl, rfl⟩ hok
  have hget : Knowledge.get db' (readyRequest 12).revisionId (readyRequest 12).userId
      = .ok (((db'.revisions.find? 5).filter (fun rev => rev.userId = 1)).map (summary db')) :=
    get_of_active hactive 5
  have hrev' : db'.revisions.find? 5 = some ⟨5, 1, 0⟩ := hrev
  rw [hdb, RevisionRequest.turn, hget, hrev']
  exact ⟨_, rfl⟩

/-- The first of two requests creates the revision while the second one is already admitted; the
second one looks for it later and is answered with it. -/
theorem posted_once_overlapping :
    PostedOnce [readyRequest 11, readyRequest 12] 5 readyStore
      (run (fun i s => ((), postTurn [readyRequest 11, readyRequest 12] i s)) (posted readyStore)
        [0, 1, 0, 0, 1, 1, 0, 1]).1
      (run (fun i s => ((), postTurn [readyRequest 11, readyRequest 12] i s)) (posted readyStore)
        [0, 1, 0, 0, 1, 1, 0, 1]).2 := by
  have hc : Contenders [readyRequest 11, readyRequest 12] 1 5 readyStore :=
    readyRequest_contends (by simp)
  refine (posted_once_iff (by simp) hc (schedule_trace _ _ _) (fun i hi => ?_)).mpr ?_
  · have hi' : i < 2 := hi
    interval_cases i <;> exact le_refl 4
  obtain ⟨record, hfound⟩ := found_readyStore
  intro st hst r hr hm
  rcases List.mem_cons.mp hst with rfl | hst
  · cases hm
  rcases List.mem_cons.mp hst with rfl | hst
  · cases hm
  rcases List.mem_cons.mp hst with rfl | hst
  · cases hm
  rcases List.mem_cons.mp hst with rfl | hst
  · -- the attempt of the first request
    cases hr
    exact ⟨hc.free, freeze_ok_iff.mp freeze_readyStore⟩
  rcases List.mem_cons.mp hst with rfl | hst
  · cases hm
  rcases List.mem_cons.mp hst with rfl | hst
  · cases hfound.symm.trans hm
  rcases List.mem_cons.mp hst with rfl | hst
  · -- the first request has made its attempt
    cases @admitted_of_missing readyStore (readyRequest 11) .missing hm
  · rw [List.mem_singleton.mp hst] at hm
    cases hfound.symm.trans (admitted_of_missing (r := readyRequest 12) hm)

/-- Two requests find the revision missing before either creates it: the second one's insert
breaks the primary key. -/
theorem raced_request_refused :
    ∃ requests userId revisionId db steps s, requests ≠ [] ∧
      Contenders requests userId revisionId db ∧
      Trace (PostStep requests) (posted db) steps s ∧
      (∀ i < requests.length, 4 ≤ (steps.filter (fun st => st.call = i)).length) ∧
      ¬ PostedOnce requests revisionId db steps s := by
  have hc : Contenders [readyRequest 11, readyRequest 12] 1 5 readyStore :=
    readyRequest_contends (by simp)
  have htrace := schedule_trace [readyRequest 11, readyRequest 12] (posted readyStore)
    [0, 0, 1, 1, 0, 1, 0, 1]
  refine ⟨_, 1, 5, readyStore, _, _, by simp, hc, htrace, ?_, ?_⟩
  · intro i hi
    have hi' : i < 2 := hi
    interval_cases i <;> exact le_refl 4
  · intro hposted
    obtain ⟨record, db', hok⟩ := create_readyStore
    have hdb : ((readyRequest 11).turn readyStore .missing).2 = db' := by
      rw [RevisionRequest.turn, hok]
    obtain ⟨-, hrev, -⟩ := created_revision ⟨rfl, rfl⟩ hok
    have hrev' : db'.revisions.find? 5 = some ⟨5, 1, 0⟩ := hrev
    -- the sixth turn is the second attempt
    have hsixth := attempt_unraced hc htrace hposted
      (List.mem_cons_of_mem _ (List.mem_cons_of_mem _ (List.mem_cons_of_mem _
        (List.mem_cons_of_mem _ (List.mem_cons_of_mem _ List.mem_cons_self)))))
      (r := readyRequest 12) rfl rfl
    have hfree : ((readyRequest 11).turn readyStore .missing).2.revisions.find? 5 = none :=
      hsixth.1
    rw [hdb, hrev'] at hfree
    cases hfree

end PortRag.Service
