import PortRag.Webpages.Transitions

set_option autoImplicit false

/-!
# What `claim` passes over

The loop of `claim` passes over candidates of fenced owners and candidates no longer due, which
stay where they are, and ends at the first of the others: with its claim, or with what its
decryption raises.  The candidates are cut to a hundred before any of this is known.
-/

namespace PortRag.Webpages

open PortRag.Foundation PortRag.Db PortRag.Security PortRag.Http PortRag.Ingest

/-- `claim` passes over this candidate at this moment: its owner is fenced, or it is no longer
due. -/
def Passed (db : Database) (now : Time) (p : Uuid × Uuid) : Prop :=
  p.2 ∈ db.erasedOwners ∨ ¬ (db.webpage? p.1).any (due now) = true

/-- The stored URLs of this candidate decrypt under their bindings. -/
def UrlsReadable (pd : PrivateData) (db : Database) (p : Uuid × Uuid) : Prop :=
  ∃ page urls, db.webpage? p.1 = some page ∧ readUrls pd p.2.str p.1.str page.urls = .ok urls

/-- A due webpage document whose owner is not fenced and whose URLs decrypt. -/
def Eligible (pd : PrivateData) (db : Database) (now : Time) : Prop :=
  ∃ d ∈ db.documents.rows, (db.webpage? d.id).any (due now) = true ∧
    d.userId ∉ db.erasedOwners ∧ UrlsReadable pd db (d.id, d.userId)

/-- `claim` returns a claim, for a due document. -/
def ReturnsClaim (pd : PrivateData) (clock : Nat → Time) (uuid4 : Nat → Uuid) (db : Database) :
    Prop :=
  ∃ c, (claim pd clock uuid4 db).result = .ok (some c) ∧
    ∃ i, (db.webpage? c.documentId).any (due (clock i)) = true

/-- The loop over `cs` comes to candidate `p`, having passed over all before it, and `p` can be
read. -/
def Reaches (pd : PrivateData) (clock : Nat → Time) (db : Database) (i : Nat)
    (cs : List (Uuid × Uuid)) (p : Uuid × Uuid) : Prop :=
  ∃ k, cs[k]? = some p ∧ (∀ j < k, ∀ q, cs[j]? = some q → Passed db (clock (i + j)) q) ∧
    ¬ Passed db (clock (i + k)) p ∧ UrlsReadable pd db p

/-- Among the hundred oldest due documents there is one that is not passed over, and the first of
these can be read. -/
def FirstReadable (pd : PrivateData) (clock : Nat → Time) (db : Database) : Prop :=
  ∃ p, Reaches pd clock db 1 (candidates (clock 0) db) p

section Turns

variable {now : Time} {db : Database} {p : Uuid × Uuid}

/-- A candidate is a document with its owner. -/
theorem mem_candidates (h : p ∈ candidates now db) :
    ∃ d ∈ db.documents.rows, p = (d.id, d.userId) := by
  obtain ⟨d, hd, rfl⟩ := List.mem_map.mp h
  have hsorted := List.mem_of_mem_take hd
  exact ⟨d, List.mem_of_mem_filter (List.mem_mergeSort.mp hsorted), rfl⟩

theorem select_of_row {d : Document} (hd : d ∈ db.documents.rows) :
    select db d.id d.userId = (db.webpage? d.id).map (fun page => (d, page)) := by
  have hfound : db.document? d.id = some d := Table.find?_of_mem hd
  rw [select, hfound]
  cases db.webpage? d.id with
  | none => rfl
  | some page => exact if_pos rfl

/-- The turn of a candidate that is passed over. -/
theorem claimCandidate_of_passed (pd : PrivateData) (token : Uuid)
    (hp : ∃ d ∈ db.documents.rows, p = (d.id, d.userId))
    (h : Passed db now p) :
    claimCandidate pd token now db p.1 p.2 = ⟨.ok none, db⟩ ∨
      claimCandidate pd token now db p.1 p.2 = ⟨.error .ownerDataErased, db⟩ := by
  obtain ⟨d, hd, rfl⟩ := hp
  by_cases herased : d.userId ∈ db.erasedOwners
  · refine .inr ?_
    rw [claimCandidate, claimTransaction, lockActiveOwner, if_pos herased]
    rfl
  · have hdue : ¬ (db.webpage? d.id).any (due now) = true := h.resolve_left herased
    have hnone : (select db d.id d.userId).filter (fun rows => due now rows.2) = none := by
      rw [select_of_row hd]
      cases hpage : db.webpage? d.id with
      | none => rfl
      | some page =>
          rw [hpage, Option.any_some] at hdue
          rw [Option.map_some, Option.filter_some, if_neg hdue]
    refine .inl ?_
    rw [claimCandidate, claimTransaction, lockActiveOwner, if_neg herased, hnone]
    rfl

/-- The turn of a candidate that is not passed over: a claim of it, or the error of its
decryption. -/
theorem claimCandidate_of_not_passed (pd : PrivateData) (token : Uuid)
    (hp : ∃ d ∈ db.documents.rows, p = (d.id, d.userId))
    (h : ¬ Passed db now p) :
    (UrlsReadable pd db p ∧ ∃ c, (claimCandidate pd token now db p.1 p.2).result = .ok (some c) ∧
      c.documentId = p.1) ∨
    ¬ UrlsReadable pd db p ∧ ∃ page e, db.webpage? p.1 = some page ∧
      readUrls pd p.2.str p.1.str page.urls = .error e ∧
      (claimCandidate pd token now db p.1 p.2).result = .error e := by
  obtain ⟨d, hd, rfl⟩ := hp
  rw [Passed, not_or, not_not] at h
  obtain ⟨hactive, hdue⟩ := h
  obtain ⟨page, hpage, hpagedue⟩ := (Option.any_eq_true _ _).mp hdue
  have hrows : (select db d.id d.userId).filter (fun rows => due now rows.2) = some (d, page) := by
    rw [select_of_row hd, hpage, Option.map_some, Option.filter_some, if_pos hpagedue]
  have hturn : claimCandidate pd token now db d.id d.userId
      = .ofTransaction db ((readUrls pd d.userId.str d.id.str page.urls).bind (fun urls =>
        .ok (some {
          documentId := d.id
          userId := d.userId
          token := token
          urls := urls
          contentHash := page.contentHash
          reason := (claimed token now d page).2.queueReason },
          (db.updateDocument (claimed token now d page).1).updateWebpage
            (claimed token now d page).2))) := by
    rw [claimCandidate, claimTransaction, lockActiveOwner, if_neg hactive, hrows]
    rfl
  cases hurls : readUrls pd d.userId.str d.id.str page.urls with
  | ok urls =>
      refine .inl ⟨⟨page, urls, hpage, hurls⟩, ?_⟩
      rw [hturn, hurls]
      exact ⟨_, rfl, rfl⟩
  | error e =>
      refine .inr ⟨?_, page, e, hpage, hurls, ?_⟩
      · rintro ⟨page', urls, hpage', hurls'⟩
        rw [hpage] at hpage'
        cases hpage'
        rw [hurls] at hurls'
        cases hurls'
      · rw [hturn, hurls]
        rfl

end Turns

/-! ## The loop -/

section Loop

variable {pd : PrivateData} {clock : Nat → Time} {uuid4 : Nat → Uuid} {db : Database}
  {cs : List (Uuid × Uuid)} {i : Nat}

/-- The candidate at the head of the loop. -/
theorem reaches_head {p : Uuid × Uuid} (h : ¬ Passed db (clock i) p) (hread : UrlsReadable pd db p) :
    Reaches pd clock db i (p :: cs) p :=
  ⟨0, rfl, fun j hj => absurd hj (Nat.not_lt_zero j), h, hread⟩

/-- When the head is passed over, the loop goes on with the rest. -/
theorem reaches_cons_iff {head p : Uuid × Uuid} (h : Passed db (clock i) head) :
    Reaches pd clock db i (head :: cs) p ↔ Reaches pd clock db (i + 1) cs p := by
  constructor
  · rintro ⟨k, hk, hbefore, hp, hread⟩
    cases k with
    | zero =>
        cases hk
        exact absurd h hp
    | succ k =>
        refine ⟨k, hk, fun j hj q hq => ?_, ?_, hread⟩
        · have hpassed := hbefore (j + 1) (Nat.succ_lt_succ hj) q hq
          rwa [Nat.add_right_comm, Nat.add_assoc]
        · rwa [Nat.add_right_comm, Nat.add_assoc]
  · rintro ⟨k, hk, hbefore, hp, hread⟩
    refine ⟨k + 1, hk, fun j hj q hq => ?_, ?_, hread⟩
    · cases j with
      | zero =>
          cases hq
          exact h
      | succ j =>
          have hpassed := hbefore j (Nat.lt_of_succ_lt_succ hj) q hq
          rwa [Nat.add_right_comm, Nat.add_assoc] at hpassed
    · rwa [Nat.add_right_comm, Nat.add_assoc] at hp

/-- What is not passed over is where the loop ends. -/
theorem eq_of_reaches {head p : Uuid × Uuid} (h : ¬ Passed db (clock i) head)
    (hreaches : Reaches pd clock db i (head :: cs) p) : p = head ∧ UrlsReadable pd db head := by
  obtain ⟨k, hk, hbefore, -, hread⟩ := hreaches
  cases k with
  | zero =>
      cases hk
      exact ⟨rfl, hread⟩
  | succ k => exact absurd (hbefore 0 (Nat.succ_pos k) head rfl) h

/-- The loop returns a claim of the candidate that it reaches, and no other: the first that is not
passed over, provided that its URLs decrypt.  The induction is on the candidates, each with its own
reading of the clock. -/
theorem claimLoop_iff (hcandidates : ∀ p ∈ cs, ∃ d ∈ db.documents.rows, p = (d.id, d.userId))
    (hunfenced : ∀ owner resource urls, readUrls pd owner resource urls ≠ .error .ownerDataErased)
    (documentId : Uuid) :
    (∃ c, (claimLoop pd clock uuid4 cs i db).result = .ok (some c) ∧ c.documentId = documentId) ↔
      ∃ p, Reaches pd clock db i cs p ∧ p.1 = documentId := by
  induction cs generalizing i with
  | nil =>
      constructor
      · rintro ⟨c, hc, -⟩
        cases hc
      · rintro ⟨p, ⟨k, hk, -⟩, -⟩
        cases hk
  | cons head rest ih =>
      have hhead := hcandidates head List.mem_cons_self
      have hrest := ih (fun p hp => hcandidates p (List.mem_cons_of_mem _ hp)) (i := i + 1)
      by_cases hpassed : Passed db (clock i) head
      · -- passed over: one turn further
        have hloop : claimLoop pd clock uuid4 (head :: rest) i db
            = claimLoop pd clock uuid4 rest (i + 1) db := by
          rw [claimLoop]
          rcases claimCandidate_of_passed pd (uuid4 i) hhead hpassed with ho | ho <;>
            rw [ho]
        rw [hloop, hrest]
        exact exists_congr fun p => and_congr_left' (reaches_cons_iff hpassed).symm
      · rcases claimCandidate_of_not_passed pd (uuid4 i) hhead hpassed with
          ⟨hread, c, hc, hid⟩ | ⟨hunread, page, e, -, hurls, he⟩
        · -- claimed
          have hloop : (claimLoop pd clock uuid4 (head :: rest) i db).result = .ok (some c) := by
            rw [claimLoop, hc]
          rw [hloop]
          constructor
          · rintro ⟨c', hc', rfl⟩
            cases hc'
            exact ⟨head, reaches_head hpassed hread, hid.symm⟩
          · rintro ⟨p, hreaches, rfl⟩
            obtain ⟨rfl, -⟩ := eq_of_reaches hpassed hreaches
            exact ⟨c, rfl, hid⟩
        · -- unreadable: the error leaves the loop
          have hloop : (claimLoop pd clock uuid4 (head :: rest) i db).result = .error e := by
            rw [claimLoop, he]
            cases e
            case ownerDataErased => exact absurd hurls (hunfenced _ _ _)
            all_goals rfl
          rw [hloop]
          constructor
          · rintro ⟨c, hc, -⟩
            cases hc
          · rintro ⟨p, hreaches, -⟩
            exact absurd (eq_of_reaches hpassed hreaches).2 hunread

end Loop

/-- A cipher that knows nothing of fenced owners does not raise for them. -/
theorem readUrls_unfenced {cipher : PrivateDataCipher}
    (h : ∀ ciphertext binding, cipher.decrypt ciphertext binding ≠ .error .ownerDataErased)
    (owner resource : String) (urls : List String) :
    readUrls cipher.privateData owner resource urls ≠ .error .ownerDataErased := by
  intro herror
  obtain ⟨u, -, hu⟩ := exists_of_mapM_eq_error herror
  change readText cipher u.1 _ = _ at hu
  unfold readText at hu
  split at hu
  · split at hu
    · next e he =>
        cases hu
        exact h _ _ he
    · cases hu
    · cases hu
  · cases hu

/-- The result of `claim`, in every state of the database. -/
theorem returnsClaim_iff {cipher : PrivateDataCipher}
    (h : ∀ ciphertext binding, cipher.decrypt ciphertext binding ≠ .error .ownerDataErased)
    {clock : Nat → Time} {uuid4 : Nat → Uuid} {db : Database} :
    ReturnsClaim cipher.privateData clock uuid4 db ↔ FirstReadable cipher.privateData clock db := by
  have hloop := @claimLoop_iff cipher.privateData clock uuid4 db (candidates (clock 0) db) 1
    (fun p hp => mem_candidates hp) (readUrls_unfenced h)
  constructor
  · rintro ⟨c, hc, -⟩
    obtain ⟨p, hreaches, -⟩ := (hloop c.documentId).mp ⟨c, hc, rfl⟩
    exact ⟨p, hreaches⟩
  · rintro ⟨p, hreaches⟩
    obtain ⟨c, hc, hid⟩ := (hloop p.1).mpr ⟨p, hreaches, rfl⟩
    obtain ⟨k, -, -, hpassed, -⟩ := hreaches
    rw [Passed, not_or, not_not] at hpassed
    exact ⟨c, hc, 1 + k, hid ▸ hpassed.2⟩

/-- With an eligible document in the database, `claim` returns a claim for a due document, if and
only if the first of the hundred oldest due documents that it does not pass over can be read.  It
passes over documents of fenced owners only; a document whose URLs do not decrypt ends the call, and
a hundred documents of fenced owners hide the next one. -/
theorem claim_not_blocked_iff {cipher : PrivateDataCipher}
    (h : ∀ ciphertext binding, cipher.decrypt ciphertext binding ≠ .error .ownerDataErased)
    (clock : Nat → Time) (uuid4 : Nat → Uuid) (db : Database) :
    (Eligible cipher.privateData db (clock 0) → ReturnsClaim cipher.privateData clock uuid4 db) ↔
      (Eligible cipher.privateData db (clock 0) → FirstReadable cipher.privateData clock db) :=
  imp_congr_right (fun _ => returnsClaim_iff h)

/-! ## A hundred documents of a fenced owner -/

/-- Document `i` of a hundred of owner 1 and one of owner 2, each changed after the one before. -/
def crowdDocument (i : Nat) : Document where
  id := Fin.ofNat _ i
  userId := if i < 100 then 1 else 2
  knowledgeKey := "key_" ++ toString i
  name := "name"
  mime := "text/html"
  status := .processing
  error := none
  createdAt := 0
  updatedAt := i

/-- Its webpage row, as registration leaves it. -/
def crowdPage (i : Nat) : DocumentWebpage := newWebpage (Fin.ofNat _ i) ["https://host/"] "" false

/-- The documents with these numbers, while the erasure of owner 1 has come to its fence only. -/
def crowdStore (numbers : List Nat) (h : (numbers.map (fun i => (Fin.ofNat (2 ^ 128) i))).Nodup) :
    Database where
  documents := ⟨numbers.map crowdDocument, by rw [List.map_map]; exact h⟩
  chunks := .empty
  webpages := ⟨numbers.map crowdPage, by rw [List.map_map]; exact h⟩
  revisions := .empty
  revisionChunks := .empty
  revisionWebpages := .empty
  erasedOwners := [1]
  chunks_fk := by simp
  webpages_fk := by
    intro p hp
    obtain ⟨i, hi, rfl⟩ := List.mem_map.mp hp
    exact ⟨crowdDocument i, List.mem_map_of_mem hi, rfl⟩
  revisionChunks_fk := Database.empty.revisionChunks_fk
  revisionWebpages_fk := Database.empty.revisionWebpages_fk

section Crowd

variable {numbers : List Nat} {h : (numbers.map (fun i => (Fin.ofNat (2 ^ 128) i))).Nodup}

theorem crowd_webpage {i : Nat} (hi : i ∈ numbers) :
    (crowdStore numbers h).webpage? (crowdDocument i).id = some (crowdPage i) :=
  Database.webpage?_eq_some_iff.mpr ⟨List.mem_map_of_mem hi, rfl⟩

/-- Every document of the store is due, and the oldest come first. -/
theorem crowd_candidates (hsorted : numbers.Pairwise (· < ·)) (now : Time) :
    candidates now (crowdStore numbers h)
      = ((numbers.map crowdDocument).take 100).map (fun d => (d.id, d.userId)) := by
  have hdue : (numbers.map crowdDocument).filter
      (fun d => ((crowdStore numbers h).webpage? d.id).any (due now)) = numbers.map crowdDocument := by
    rw [List.filter_eq_self]
    intro d hd
    obtain ⟨i, hi, rfl⟩ := List.mem_map.mp hd
    rw [crowd_webpage hi]
    rfl
  have holder : (numbers.map crowdDocument).Pairwise (fun a b => olderFirst a b = true) := by
    rw [List.pairwise_map]
    refine hsorted.imp ?_
    intro i j hij
    have hupdated : (crowdDocument i).updatedAt < (crowdDocument j).updatedAt := Int.ofNat_lt.mpr hij
    rw [olderFirst, decide_eq_true hupdated, Bool.true_or]
  change ((((numbers.map crowdDocument).filter _).mergeSort olderFirst).take 100).map _ = _
  rw [hdue, List.mergeSort_of_pairwise holder]

/-- The documents of owner 1 are passed over. -/
theorem crowd_passed {i : Nat} (hi : i < 100) (now : Time) :
    Passed (crowdStore numbers h) now ((crowdDocument i).id, (crowdDocument i).userId) := by
  refine .inl ?_
  rw [crowdDocument]
  dsimp only
  rw [if_pos hi]
  exact List.mem_cons_self

/-- The document of owner 2 is not, and its URL can be read. -/
theorem crowd_open (hmem : 100 ∈ numbers) (now : Time) :
    ¬ Passed (crowdStore numbers h) now ((crowdDocument 100).id, (crowdDocument 100).userId) ∧
      UrlsReadable clearCipher.privateData (crowdStore numbers h)
        ((crowdDocument 100).id, (crowdDocument 100).userId) := by
  refine ⟨?_, crowdPage 100, ["https://host/"], crowd_webpage hmem, rfl⟩
  rintro (herased | hnotdue)
  · have howner : (crowdDocument 100).userId ∉ [1] := by decide
    exact howner herased
  · rw [crowd_webpage hmem] at hnotdue
    exact hnotdue rfl

end Crowd

theorem clearCipher_unfences (ciphertext : String) (binding : StorageBinding) :
    clearCipher.decrypt ciphertext binding ≠ .error .ownerDataErased := by
  unfold clearCipher
  dsimp only
  split <;> simp

/-- The identifiers of these documents differ. -/
theorem crowd_nodup {start count : Nat} (h : start + count ≤ 101) :
    ((List.range' start count).map (fun i => (Fin.ofNat (2 ^ 128) i))).Nodup := by
  refine List.Nodup.map_on ?_ List.nodup_range'
  intro i hi j hj hij
  have hsame := congrArg Fin.val hij
  rw [List.mem_range'_1] at hi hj
  rwa [Fin.val_ofNat, Fin.val_ofNat, Nat.mod_eq_of_lt (by omega),
    Nat.mod_eq_of_lt (by omega)] at hsame

/-- Behind ninety-nine due documents of the fenced owner, the last of the hundred oldest, the
document of owner 2 is claimed. -/
theorem claim_not_blocked_behind :
    let db := crowdStore (List.range' 1 100) (crowd_nodup (by omega))
    Eligible clearCipher.privateData db 0 ∧
      (∀ i, 1 ≤ i → i < 100 → Passed db 0 ((crowdDocument i).id, (crowdDocument i).userId)) ∧
      ReturnsClaim clearCipher.privateData (fun _ => 0) (fun _ => 9) db := by
  intro db
  have hmem : 100 ∈ List.range' 1 100 := List.mem_range'_1.mpr (by omega)
  obtain ⟨hopen, hread⟩ := crowd_open (h := crowd_nodup (by omega)) hmem 0
  have heligible : Eligible clearCipher.privateData db 0 := by
    have hnot := hopen
    rw [Passed, not_or, not_not] at hnot
    exact ⟨crowdDocument 100, List.mem_map_of_mem hmem, hnot.2, hnot.1, hread⟩
  refine ⟨heligible, fun i _ hi => crowd_passed hi 0, ?_⟩
  refine (claim_not_blocked_iff clearCipher_unfences (fun _ => 0) (fun _ => 9) db).mpr ?_ heligible
  intro _
  have hcandidates : candidates 0 db =
      (List.range' 1 100).map (fun i => ((crowdDocument i).id, (crowdDocument i).userId)) := by
    rw [crowd_candidates List.pairwise_lt_range', List.take_of_length_le (by simp), List.map_map]
    rfl
  refine ⟨((crowdDocument 100).id, (crowdDocument 100).userId), 99, ?_, ?_, hopen, hread⟩
  · rw [hcandidates, List.getElem?_map, List.getElem?_range' (by omega)]
    rfl
  · intro j hj q hq
    rw [hcandidates, List.getElem?_map, List.getElem?_range' (by omega)] at hq
    cases hq
    exact crowd_passed (by omega) 0

/-- Behind a hundred due documents of the fenced owner it is not. -/
theorem claim_blocked_by_crowd :
    ∃ cipher : PrivateDataCipher, ∃ clock uuid4 db,
      Eligible cipher.privateData db (clock 0) ∧
        ¬ ReturnsClaim cipher.privateData clock uuid4 db := by
  have hnodup : ((List.range 101).map (fun i => (Fin.ofNat (2 ^ 128) i))).Nodup := by
    rw [List.range_eq_range']
    exact crowd_nodup (by omega)
  refine ⟨clearCipher, fun _ => 0, fun _ => 9, crowdStore (List.range 101) hnodup, ?_, ?_⟩
  · have hmem : 100 ∈ List.range 101 := List.mem_range.mpr (by omega)
    obtain ⟨hopen, hread⟩ := crowd_open (h := hnodup) hmem 0
    rw [Passed, not_or, not_not] at hopen
    exact ⟨crowdDocument 100, List.mem_map_of_mem hmem, hopen.2, hopen.1, hread⟩
  · rw [returnsClaim_iff clearCipher_unfences]
    rintro ⟨p, k, hk, -, hopen, -⟩
    rw [crowd_candidates List.pairwise_lt_range] at hk
    obtain ⟨d, hd, rfl⟩ := List.mem_map.mp (List.mem_of_getElem? hk)
    rw [← List.map_take] at hd
    obtain ⟨i, hi, rfl⟩ := List.mem_map.mp hd
    rw [List.take_range, List.mem_range] at hi
    exact hopen (crowd_passed (by omega) 0)

end PortRag.Webpages
