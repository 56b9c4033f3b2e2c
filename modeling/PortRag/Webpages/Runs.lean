import PortRag.Webpages.Transitions
import PortRag.Foundation.Trace

set_option autoImplicit false

/-!
# Runs of the webpage repository

A `WebpageCall` is one transaction of the repository: a method, or one turn of `claim`.
Between the turns of a `claim` other calls may run; a `WebpageMethod` also has `claim` as a
whole.  Every call brings the answers that the encryption service gives during it.
-/

namespace PortRag.Webpages

open PortRag.Foundation PortRag.Db PortRag.Security PortRag.Http PortRag.Ingest

/-! ## Calls -/

/-- A writing call of `WebpageRepository`, with the cipher, the clock and the identifiers that it
meets. -/
inductive WebpageCall where
  | create (cipher : PrivateDataCipher) (lib : UrlFunctions) (documentId : Uuid) (now : Time)
      (userId : Uuid) (knowledgeKey : String) (name : Option String) (urls : List String)
      (autoSync : Bool)
  | enqueue (cipher : PrivateDataCipher) (now : Time) (documentId userId : Uuid)
  | setAutoSync (cipher : PrivateDataCipher) (now : Time) (documentId userId : Uuid)
      (autoSync : Bool)
  | claimCandidate (cipher : PrivateDataCipher) (token : Uuid) (now : Time)
      (documentId owner : Uuid)
  | finish (cipher : PrivateDataCipher) (uuid4 : Nat → Uuid) (now : Time) (claim : WebpageClaim)
      (content contentHash : String) (chunks : Option (List IngestChunk))
      (embeddings : Option (List Embedding))
  | fail (cipher : PrivateDataCipher) (now : Time) (claim : WebpageClaim) (error : String)

/-- What a call returns or raises. -/
inductive WebpageAnswer where
  | record (result : Except Exc DocumentRecord)
  | detail (result : Except Exc (Option WebpageDetail))
  | claim (result : Except Exc (Option WebpageClaim))
  | done (result : Except Exc Bool)
  | deleted (result : Except Exc Bool)
  | fenced

/-- Whether a call was accepted: it returned a record, a detail, a claim or `True`. -/
def WebpageAnswer.accepted : WebpageAnswer → Bool
  | .record (.ok _) => true
  | .detail (.ok (some _)) => true
  | .claim (.ok (some _)) => true
  | .done (.ok true) => true
  | _ => false

theorem WebpageAnswer.not_accepted_detail {r : Except Exc (Option WebpageDetail)}
    (h : ∀ d, r ≠ .ok (some d)) : (WebpageAnswer.detail r).accepted = false := by
  unfold accepted
  split <;> simp_all

theorem WebpageAnswer.not_accepted_claim {r : Except Exc (Option WebpageClaim)}
    (h : ∀ k, r ≠ .ok (some k)) : (WebpageAnswer.claim r).accepted = false := by
  unfold accepted
  split <;> simp_all

theorem WebpageAnswer.not_accepted_done {r : Except Exc Bool} (h : r ≠ .ok true) :
    (WebpageAnswer.done r).accepted = false := by
  unfold accepted
  split <;> simp_all

theorem WebpageAnswer.ok_of_accepted_record {r : Except Exc DocumentRecord}
    (h : (WebpageAnswer.record r).accepted = true) : ∃ record, r = .ok record := by
  cases r with
  | error e => cases h
  | ok record => exact ⟨record, rfl⟩

theorem WebpageAnswer.ok_of_accepted_done {r : Except Exc Bool}
    (h : (WebpageAnswer.done r).accepted = true) : r = .ok true := by
  by_contra hr
  rw [not_accepted_done hr] at h
  cases h

/-- The exception of an answer. -/
def WebpageAnswer.raised : WebpageAnswer → Option Exc
  | .record (.error e) => some e
  | .detail (.error e) => some e
  | .claim (.error e) => some e
  | .done (.error e) => some e
  | _ => none

theorem WebpageAnswer.eq_error_of_raised_detail {r : Except Exc (Option WebpageDetail)} {e : Exc}
    (h : (WebpageAnswer.detail r).raised = some e) : r = .error e := by
  unfold raised at h
  split at h <;> simp_all

theorem WebpageAnswer.eq_error_of_raised_record {r : Except Exc DocumentRecord} {e : Exc}
    (h : (WebpageAnswer.record r).raised = some e) : r = .error e := by
  unfold raised at h
  split at h <;> simp_all

theorem WebpageAnswer.eq_error_of_raised_claim {r : Except Exc (Option WebpageClaim)} {e : Exc}
    (h : (WebpageAnswer.claim r).raised = some e) : r = .error e := by
  unfold raised at h
  split at h <;> simp_all

theorem WebpageAnswer.eq_error_of_raised_done {r : Except Exc Bool} {e : Exc}
    (h : (WebpageAnswer.done r).raised = some e) : r = .error e := by
  unfold raised at h
  split at h <;> simp_all

namespace WebpageCall

/-- The encryption service during the call. -/
def cipher : WebpageCall → PrivateDataCipher
  | .create cipher .. => cipher
  | .enqueue cipher .. => cipher
  | .setAutoSync cipher .. => cipher
  | .claimCandidate cipher .. => cipher
  | .finish cipher .. => cipher
  | .fail cipher .. => cipher

/-- The call on a database. -/
def exec : WebpageCall → Database → WebpageAnswer × Database
  | .create cipher lib documentId now userId knowledgeKey name urls autoSync, db =>
      let o := Webpages.create cipher.privateData lib documentId now db userId knowledgeKey name
        urls autoSync
      (.record o.result, o.db)
  | .enqueue cipher now documentId userId, db =>
      let o := Webpages.enqueue cipher.privateData now db documentId userId
      (.detail o.result, o.db)
  | .setAutoSync cipher now documentId userId autoSync, db =>
      let o := Webpages.setAutoSync cipher.privateData now db documentId userId autoSync
      (.detail o.result, o.db)
  | .claimCandidate cipher token now documentId owner, db =>
      let o := Webpages.claimCandidate cipher.privateData token now db documentId owner
      (.claim o.result, o.db)
  | .finish cipher uuid4 now claim content contentHash chunks embeddings, db =>
      let o := Webpages.finish cipher.privateData uuid4 now db claim content contentHash chunks
        embeddings
      (.done o.result, o.db)
  | .fail cipher now claim error, db =>
      let o := Webpages.fail cipher.privateData now db claim error
      (.done o.result, o.db)

/-- Which move an accepted call makes, and on which document. -/
inductive Does : WebpageCall → WebpageAnswer → Uuid → Move → Prop where
  | create {cipher lib documentId now userId knowledgeKey name urls autoSync record} :
      Does (.create cipher lib documentId now userId knowledgeKey name urls autoSync)
        (.record (.ok record)) documentId .created
  | enqueue {cipher now documentId userId result} :
      Does (.enqueue cipher now documentId userId) (.detail result) documentId .enqueued
  | setAutoSync {cipher now documentId userId autoSync result} :
      Does (.setAutoSync cipher now documentId userId autoSync) (.detail result) documentId
        (.switched autoSync now)
  | claimCandidate {cipher token now documentId owner} {claim : WebpageClaim}
      (hid : claim.documentId = documentId) (htoken : claim.token = token) :
      Does (.claimCandidate cipher token now documentId owner) (.claim (.ok (some claim)))
        documentId (.claimed token now)
  | published {cipher uuid4 now claim content contentHash chunks embeddings} :
      Does (.finish cipher uuid4 now claim content contentHash (some chunks) (some embeddings))
        (.done (.ok true)) claim.documentId
        (.published claim.token ⟨content, contentHash, chunks, embeddings⟩)
  | confirmed {cipher uuid4 now claim content contentHash chunks embeddings} :
      Does (.finish cipher uuid4 now claim content contentHash chunks embeddings)
        (.done (.ok true)) claim.documentId (.confirmed claim.token contentHash)
  | failed {cipher now claim error} :
      Does (.fail cipher now claim error) (.done (.ok true)) claim.documentId
        (.failed claim.token)

variable {opens : Opens} {c : WebpageCall} {db db' : Database} {a : WebpageAnswer}

/-- A call is accepted and makes its move, or it leaves the database alone; the invariants of runs
are proved of the moves. -/
theorem step (huses : c.cipher.Uses opens) (h : c.exec db = (a, db')) :
    (db' = db ∧ a.accepted = false) ∨
      ∃ id move, c.Does a id move ∧ Moves opens db id move db' := by
  cases c with
  | create cipher lib documentId now userId knowledgeKey name urls autoSync =>
      simp only [exec] at h
      generalize ho : Webpages.create _ _ _ _ _ _ _ _ _ _ = o at h
      cases h
      rcases create_spec huses ho with ⟨hdb, e, he⟩ | ⟨⟨record, hr⟩, hmove⟩
      · exact .inl ⟨hdb, by rw [he]; rfl⟩
      · rw [hr]
        exact .inr ⟨_, _, .create, hmove⟩
  | enqueue cipher now documentId userId =>
      simp only [exec] at h
      generalize ho : Webpages.enqueue _ _ _ _ _ = o at h
      cases h
      rcases enqueue_spec opens ho with ⟨hdb, hr⟩ | ⟨v, _, hmove, _, _⟩
      · exact .inl ⟨hdb, WebpageAnswer.not_accepted_detail hr⟩
      · exact .inr ⟨_, _, .enqueue, hmove⟩
  | setAutoSync cipher now documentId userId autoSync =>
      simp only [exec] at h
      generalize ho : Webpages.setAutoSync _ _ _ _ _ _ = o at h
      cases h
      rcases setAutoSync_spec opens ho with ⟨hdb, hr⟩ | ⟨v, _, hmove, _, _⟩
      · exact .inl ⟨hdb, WebpageAnswer.not_accepted_detail hr⟩
      · exact .inr ⟨_, _, .setAutoSync, hmove⟩
  | claimCandidate cipher token now documentId owner =>
      simp only [exec] at h
      generalize ho : Webpages.claimCandidate _ _ _ _ _ _ = o at h
      cases h
      rcases claimCandidate_spec opens ho with
        ⟨hdb, hr⟩ | ⟨v, claim, _, _, hr, hid, htoken, _, _, hmove, _⟩
      · exact .inl ⟨hdb, WebpageAnswer.not_accepted_claim hr⟩
      · rw [hr]
        exact .inr ⟨_, _, .claimCandidate hid htoken, hmove⟩
  | finish cipher uuid4 now claim content contentHash chunks embeddings =>
      simp only [exec] at h
      generalize ho : Webpages.finish _ _ _ _ _ _ _ _ _ = o at h
      cases h
      rcases finish_spec huses ho with
        ⟨hdb, hr⟩ | ⟨hr, v, _, ⟨_, hmove⟩ | ⟨_, cs, es, rfl, rfl, hmove⟩⟩
      · exact .inl ⟨hdb, WebpageAnswer.not_accepted_done hr⟩
      · rw [hr]
        exact .inr ⟨_, _, .confirmed, hmove⟩
      · rw [hr]
        exact .inr ⟨_, _, .published, hmove⟩
  | fail cipher now claim error =>
      simp only [exec] at h
      generalize ho : Webpages.fail _ _ _ _ _ = o at h
      cases h
      rcases fail_spec huses ho with ⟨hdb, hr⟩ | ⟨hr, v, _, hmove⟩
      · exact .inl ⟨hdb, WebpageAnswer.not_accepted_done hr⟩
      · rw [hr]
        exact .inr ⟨_, _, .failed, hmove⟩

/-- A call that raises `ValueError` leaves the database alone, also when it raises after its
commit: what it reads there is sealed, and reading it raises nothing of the kind. -/
theorem unchanged_of_valueError (huses : c.cipher.Uses opens)
    (hsealed : Everywhere (PageView.Sealed opens) db) (h : c.exec db = (a, db')) {e : Exc}
    (he : a.raised = some e) (hvalue : e.isValueError = true) : db' = db := by
  rcases step huses h with ⟨hdb, _⟩ | ⟨id, move, hdoes, hmove⟩
  · exact hdb
  cases hdoes with
  | enqueue =>
      simp only [exec] at h
      generalize ho : Webpages.enqueue _ _ _ _ _ = o at h
      cases h
      rcases enqueue_spec opens ho with ⟨hdb, _⟩ | ⟨v, hv, hmove, hv', hresult⟩
      · exact hdb
      · have hrows := hmove.rows
        rw [hv, hv'] at hrows
        rw [WebpageAnswer.eq_error_of_raised_detail he] at hresult
        rw [committedDetail_error huses (sealed_step hrows (hsealed _ _ hv)) hresult.symm] at hvalue
        cases hvalue
  | setAutoSync =>
      simp only [exec] at h
      generalize ho : Webpages.setAutoSync _ _ _ _ _ _ = o at h
      cases h
      rcases setAutoSync_spec opens ho with ⟨hdb, _⟩ | ⟨v, hv, hmove, hv', hresult⟩
      · exact hdb
      · have hrows := hmove.rows
        rw [hv, hv'] at hrows
        rw [WebpageAnswer.eq_error_of_raised_detail he] at hresult
        rw [committedDetail_error huses (sealed_step hrows (hsealed _ _ hv)) hresult.symm] at hvalue
        cases hvalue
  | create => cases he
  | claimCandidate => cases he
  | published => cases he
  | confirmed => cases he
  | failed => cases he

end WebpageCall

/-! ## Methods -/

/-- The methods: the calls, and `claim` as a whole. -/
inductive WebpageMethod where
  | call (c : WebpageCall)
  | claim (cipher : PrivateDataCipher) (clock : Nat → Time) (uuid4 : Nat → Uuid)

namespace WebpageMethod

/-- The encryption service during the call. -/
def cipher : WebpageMethod → PrivateDataCipher
  | .call c => c.cipher
  | .claim cipher .. => cipher

/-- The method on a database. -/
def exec : WebpageMethod → Database → WebpageAnswer × Database
  | .call c, db => c.exec db
  | .claim cipher clock uuid4, db =>
      let o := Webpages.claim cipher.privateData clock uuid4 db
      (.claim o.result, o.db)

/-- One step of a run whose encryption service works with the key material `opens`. -/
def Runs (opens : Opens) (db : Database) (m : WebpageMethod) (a : WebpageAnswer)
    (db' : Database) : Prop :=
  m.cipher.Uses opens ∧ m.exec db = (a, db')

variable {opens : Opens} {m : WebpageMethod} {db db' : Database} {a : WebpageAnswer}

/-- A method leaves the database alone, or it is one accepted call. -/
theorem Runs.cases (h : Runs opens db m a db') :
    (db' = db ∧ a.accepted = false ∧ ∃ cipher clock uuid4, m = .claim cipher clock uuid4) ∨
      ∃ c, (m = .call c ∨ ∃ cipher clock uuid4 token now id owner,
          m = .claim cipher clock uuid4 ∧ c = .claimCandidate cipher token now id owner) ∧
        c.cipher.Uses opens ∧ c.exec db = (a, db') := by
  obtain ⟨huses, h⟩ := h
  cases m with
  | call c => exact .inr ⟨c, .inl rfl, huses, h⟩
  | claim cipher clock uuid4 =>
      simp only [exec] at h
      generalize ho : Webpages.claim _ _ _ _ = o at h
      cases h
      rcases claim_spec ho with ⟨hdb, hr⟩ | ⟨j, id, owner, k, hturn, hr⟩
      · exact .inl ⟨hdb, WebpageAnswer.not_accepted_claim hr, _, _, _, rfl⟩
      · refine .inr ⟨.claimCandidate cipher (uuid4 j) (clock j) id owner,
          .inr ⟨_, _, _, _, _, _, _, rfl, rfl⟩, huses, ?_⟩
        simp only [WebpageCall.exec, hturn]

/-- A method leaves the database alone, or makes one move. -/
theorem Runs.moves (h : Runs opens db m a db') :
    db' = db ∨ ∃ id move, Moves opens db id move db' := by
  rcases h.cases with ⟨hdb, _⟩ | ⟨c, _, huses, hexec⟩
  · exact .inl hdb
  · rcases c.step huses hexec with ⟨hdb, _⟩ | ⟨id, move, _, hmove⟩
    · exact .inl hdb
    · exact .inr ⟨id, move, hmove⟩

/-- What new documents satisfy and moves keep is kept by every method. -/
theorem Runs.everywhere {I : PageView → Prop} (hnew : ∀ v, v.New opens → I v)
    (hstep : ∀ v move v', PageMove opens (some v) move (some v') → I v → I v')
    (hdb : Everywhere I db) (h : Runs opens db m a db') : Everywhere I db' := by
  rcases h.moves with rfl | ⟨id, move, hmove⟩
  · exact hdb
  · exact hmove.everywhere hnew hstep hdb

end WebpageMethod

/-! ## A sample run -/

/-- The claim of the sample run. -/
def sampleClaim : WebpageClaim := ⟨7, 1, 9, ["u"], none, .initial⟩

/-- Owner 1 registers a webpage as document 7; a worker claims and publishes it. -/
def sampleCalls : List WebpageCall :=
  [.create clearCipher ⟨.ok, id⟩ 7 0 1 "key" none ["u"] true,
    .claimCandidate clearCipher 9 10 7 1,
    .finish clearCipher (fun i => Fin.ofNat _ i) 20 sampleClaim "text" "hash"
      (some [⟨0, "text", .obj []⟩]) (some [[1]])]

theorem sampleCalls_uses {c : WebpageCall} (h : c ∈ sampleCalls) :
    c.cipher.Uses clearOpens := by
  simp only [sampleCalls, List.mem_cons, List.not_mem_nil, or_false] at h
  rcases h with rfl | rfl | rfl <;> exact clearCipher_uses

/-- The first `n` calls of the sample run as recorded. -/
def sampleRun (n : Nat) : List (Step Database WebpageMethod WebpageAnswer) × Database :=
  run WebpageMethod.exec .empty ((sampleCalls.take n).map .call)

theorem sampleRun_trace (n : Nat) :
    Trace (WebpageMethod.Runs clearOpens) .empty (sampleRun n).1 (sampleRun n).2 := by
  refine run_trace ?_
  intro m hm db
  obtain ⟨c, hc, rfl⟩ := List.mem_map.mp hm
  exact ⟨sampleCalls_uses (List.mem_of_mem_take hc), rfl⟩

end PortRag.Webpages
