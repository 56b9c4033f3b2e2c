import PortRag.Ingest.StagingSafety

set_option autoImplicit false

/-!
# What an erasure leaves at the staging root

While admission refuses an owner, uploads of that owner fall away one after the other.  An erasure
that has drained them meets no new original, so what it has not listed is not there; when it ends,
no original of the owner is left, and none comes back.
-/

namespace PortRag.Ingest

open PortRag.Foundation

/-- Whose originals an erasure removes. -/
def ErasurePoint.owner : ErasurePoint → Uuid
  | .waiting owner => owner
  | .drained owner => owner
  | .inspecting owner => owner
  | .unlinking owner _ => owner
  | .emptying owner _ _ _ => owner
  | .erased owner => owner

/-- Every original of the owner that is still there is ahead of the erasure. -/
def ErasurePoint.Covers (files : StagingFiles) : ErasurePoint → Prop
  | .waiting _ => True
  | .drained _ => True
  | .inspecting _ => True
  | .unlinking owner ids => ∀ x ∈ files.originals, x.owner = owner → x.instanceId ∈ ids
  | .emptying owner id names ids => ∀ x ∈ files.originals, x.owner = owner →
      x.instanceId ∈ ids ∨ (x.instanceId = id ∧ x.name ∈ names)
  | .erased owner => ∀ x ∈ files.originals, x.owner ≠ owner

section Cover

variable {free : FileLock LockFile → Bool} {files files' : StagingFiles} {used : List Nat}
  {p q : ErasurePoint}

theorem ErasurePoint.owner_advance (h : p.advance free files = some (some q, files')) :
    q.owner = p.owner := by
  revert h
  fun_cases ErasurePoint.advance free files p
  all_goals
    intro h
    cases h <;> rfl

/-- Fewer originals of the owner are still ahead. -/
theorem ErasurePoint.Covers.of_subset (h : p.Covers files)
    (hsub : ∀ x ∈ files'.originals, x.owner = p.owner → x ∈ files.originals) : p.Covers files' := by
  cases p with
  | waiting owner => trivial
  | drained owner => trivial
  | inspecting owner => trivial
  | unlinking owner ids => exact fun x hx howner => h x (hsub x hx howner) howner
  | emptying owner id names ids => exact fun x hx howner => h x (hsub x hx howner) howner
  | erased owner => exact fun x hx howner => h x (hsub x hx howner) howner

/-- A step of an erasure leaves every original that is still there ahead of it. -/
theorem ErasurePoint.Covers.advance (hfiles : files.InOrder used)
    (h : p.advance free files = some (some q, files')) (hp : p.Covers files) :
    q.Covers files' := by
  cases p with
  | waiting owner =>
      obtain ⟨-, heq⟩ := Option.ite_none_right_eq_some.mp h
      cases heq
      trivial
  | drained owner =>
      obtain ⟨-, heq⟩ := Option.ite_none_right_eq_some.mp h
      cases heq
      trivial
  | inspecting owner =>
      rw [ErasurePoint.advance] at h
      split at h
      · cases h
        rintro x hx rfl
        exact StagingFiles.mem_instancesOf.mpr (hfiles.placed x hx)
      · next hnone =>
          cases h
          rintro x hx rfl
          exact hnone (hfiles.owned _ (hfiles.placed x hx))
  | unlinking owner ids =>
      cases ids with
      | nil =>
          rw [ErasurePoint.advance] at h
          split at h
          · next hrmdir =>
              cases h
              rintro x hx rfl
              rw [originals_rmdirOwner hrmdir] at hx
              exact absurd (hp x hx rfl) List.not_mem_nil
          · cases h
      | cons id ids =>
          rw [ErasurePoint.advance] at h
          split at h
          · cases h
            rintro x hx rfl
            rcases List.mem_cons.mp (hp x hx rfl) with rfl | hid
            · exact .inr ⟨rfl, StagingFiles.mem_namesIn.mpr hx⟩
            · exact .inl hid
          · next hnone =>
              cases h
              rintro x hx rfl
              rcases List.mem_cons.mp (hp x hx rfl) with rfl | hid
              · exact absurd (hfiles.placed x hx) hnone
              · exact hid
  | emptying owner id names ids =>
      cases names with
      | nil =>
          rw [ErasurePoint.advance] at h
          split at h
          · next hrmdir =>
              cases h
              rintro x hx rfl
              rw [originals_rmdir hrmdir] at hx
              rcases hp x hx rfl with hid | ⟨-, hname⟩
              · exact hid
              · exact absurd hname List.not_mem_nil
          · cases h
      | cons name names =>
          cases h
          rintro x hx rfl
          obtain ⟨hx, hne⟩ := StagingFiles.mem_unlink.mp hx
          rcases hp x hx rfl with hid | ⟨rfl, hname⟩
          · exact .inl hid
          · rcases List.mem_cons.mp hname with rfl | hname
            · exact absurd rfl hne
            · exact .inr ⟨rfl, hname⟩
  | erased owner => cases h

end Cover

namespace StagingRoot

section Fence

variable {active : Uuid → Bool} {s s' : StagingRoot} {u : Uuid}

/-- No upload is under way that could still bring an original of the owner. -/
def Quiet (s : StagingRoot) (u : Uuid) : Prop :=
  ∀ t ∈ s.tasks.rows, t.point ≠ .upload (.admitted u)

/-- Every erasure of the owner that has the owner's lock, or had it, has drained the uploads, and
has every original that is left ahead of it. -/
def Draining (s : StagingRoot) (u : Uuid) : Prop :=
  ∀ t ∈ s.tasks.rows, ∀ p, t.point = .erasure p → p.owner = u →
    (p ≠ .waiting u → s.Quiet u) ∧ p.Covers s.files

/-- No original of the owner is there, and none can come. -/
def Cleared (s : StagingRoot) (u : Uuid) : Prop :=
  s.Quiet u ∧ ∀ x ∈ s.files.originals, x.owner ≠ u

/-- Only an upload that is let in becomes one that writes. -/
theorem Acted.admitted {t : StagingTask} {action : Action} {files : StagingFiles} {owner : Uuid}
    (h : Acted active s t action (some (.upload (.admitted owner))) files) :
    active owner = true := by
  generalize hnext : some (Point.upload (.admitted owner)) = next at h
  cases h with
  | upload hp hadvance =>
      obtain ⟨q, rfl, hq⟩ := Option.map_eq_some_iff.mp hnext.symm
      cases hq
      next p =>
        cases p with
        | entered other =>
            rw [UploadPoint.advance] at hadvance
            split at hadvance
            · next hactive =>
                cases hadvance
                exact hactive
            · cases hadvance
        | waiting other =>
            obtain ⟨-, heq⟩ := Option.ite_none_right_eq_some.mp hadvance
            cases heq
        | admitted other => cases hadvance
        | writing x =>
            rw [UploadPoint.advance] at hadvance
            split at hadvance
            · cases hadvance
            · cases hadvance
        | saved x => cases hadvance
        | answering x => cases hadvance
  | start hp hadvance =>
      obtain ⟨q, -, hq⟩ := Option.map_eq_some_iff.mp hnext.symm
      cases hq
  | job hp hadvance =>
      obtain ⟨q, -, hq⟩ := Option.map_eq_some_iff.mp hnext.symm
      cases hq
  | erasure hp hadvance =>
      obtain ⟨q, -, hq⟩ := Option.map_eq_some_iff.mp hnext.symm
      cases hq
  | created hp hnew => cases hnext
  | retried hp => cases hnext
  | discarded hx => cases hnext
  | left hp => cases hnext

/-- While admission refuses the owner, it stays quiet. -/
theorem Quiet.step {e : StagingEvent} (h : s.Quiet u) (hrefused : active u = false)
    (hstep : s.step active e = some s') : s'.Quiet u := by
  intro t ht hpoint
  cases stepped hstep with
  | started hunused hnone =>
      rcases Table.mem_set_iff.mp ht with rfl | ⟨ht, -⟩
      · cases hpoint
      · exact h t ht hpoint
  | called hcalled hserves hnone =>
      rcases Table.mem_set_iff.mp ht with rfl | ⟨ht, -⟩
      · rcases hcalled with ⟨-, rfl, -⟩ | ⟨-, rfl⟩
        · cases hpoint
        · cases hpoint
      · exact h t ht hpoint
  | queued hw hsaved hactive hnone =>
      rcases Table.mem_set_iff.mp ht with rfl | ⟨ht, -⟩
      · cases hpoint
      · rcases Table.mem_set_iff.mp ht with rfl | ⟨ht, -⟩
        · cases hpoint
        · exact h t ht hpoint
  | acted hw hact =>
      rcases mem_goOn.mp ht with ⟨p, rfl, rfl⟩ | ⟨ht, -⟩
      · have hp : p = .upload (.admitted u) := hpoint
        subst hp
        exact absurd (hrefused.symm.trans (acted hact).admitted) (by decide)
      · exact h t ht hpoint
  | quitted => exact h t (mem_quit.mp ht).1 hpoint

/-- A quiet owner gets no new original. -/
theorem Quiet.original_before {e : StagingEvent} (h : s.Quiet u)
    (hstep : s.step active e = some s') {x : Original} (hx : x ∈ s'.files.originals)
    (howner : x.owner = u) : x ∈ s.files.originals := by
  cases stepped hstep with
  | acted hw hact =>
      rcases (acted hact).brought hx with hx | ⟨hadmitted, -⟩
      · exact hx
      · exact absurd (howner ▸ hadmitted) (h _ hw)
  | started hunused hnone => exact hx
  | called hcalled hserves hnone => exact hx
  | queued hw hsaved hactive hnone => exact hx
  | quitted => exact hx

theorem Cleared.step {e : StagingEvent} (h : s.Cleared u) (hrefused : active u = false)
    (hstep : s.step active e = some s') : s'.Cleared u :=
  ⟨h.1.step hrefused hstep,
    fun x hx howner => h.2 x (h.1.original_before hstep hx howner) howner⟩

/-- An erasure that finds the owner's lock free has drained the uploads of the owner. -/
theorem quiet_of_free {t : StagingTask} (ht : t.point = .erasure (.waiting u))
    (hmem : t ∈ s.tasks.rows) (hfree : s.free t.id ⟨.exclusive, .owner u⟩ = true) :
    s.Quiet u := by
  intro q hq hpoint
  have hne : q.id ≠ t.id := by
    intro hid
    rw [Table.eq_of_key hq hmem hid, ht] at hpoint
    cases hpoint
  have hblocks : stagingLocks.blocks ⟨.exclusive, .owner u⟩ q = true := by
    refine Locking.blocks_iff.mpr ⟨⟨.shared, .owner u⟩, ?_, rfl, fun hshared => by cases hshared.2⟩
    show _ ∈ q.point.held q.instanceId
    rw [hpoint]
    exact List.mem_singleton.mpr rfl
  exact absurd (hblocks.symm.trans (Locking.free_iff.mp hfree q hq hne)) (by decide)

/-- An erasure comes from its own last step. -/
theorem Acted.erasure_advance {t : StagingTask} {action : Action} {q : ErasurePoint}
    {files : StagingFiles} (h : Acted active s t action (some (.erasure q)) files) :
    ∃ p, t.point = .erasure p ∧ p.advance (s.free t.id) s.files = some (some q, files) := by
  generalize hnext : some (Point.erasure q) = next at h
  cases h with
  | erasure hp hadvance =>
      obtain ⟨q', rfl, hq⟩ := Option.map_eq_some_iff.mp hnext.symm
      cases hq
      exact ⟨_, hp, hadvance⟩
  | start hp hadvance =>
      obtain ⟨q', -, hq⟩ := Option.map_eq_some_iff.mp hnext.symm
      cases hq
  | upload hp hadvance =>
      obtain ⟨q', -, hq⟩ := Option.map_eq_some_iff.mp hnext.symm
      cases hq
  | job hp hadvance =>
      obtain ⟨q', -, hq⟩ := Option.map_eq_some_iff.mp hnext.symm
      cases hq
  | created hp hnew => cases hnext
  | retried hp => cases hnext
  | discarded hx => cases hnext
  | left hp => cases hnext

/-- An erasure that goes on had drained the uploads before, or drains them now. -/
theorem Sound.draining_act (h : s.Sound) (hdraining : s.Draining u) {t : StagingTask}
    {action : Action} {q : ErasurePoint} {files : StagingFiles} (ht : t ∈ s.tasks.rows)
    (hact : Acted active s t action (some (.erasure q)) files) (howner : q.owner = u) :
    s.Quiet u ∧ q.Covers files := by
  obtain ⟨p, hp, hadvance⟩ := hact.erasure_advance
  have hsame : p.owner = u := (ErasurePoint.owner_advance hadvance).symm.trans howner
  obtain ⟨hquiet, hcovers⟩ := hdraining t ht p hp hsame
  refine ⟨?_, hcovers.advance h.inOrder hadvance⟩
  by_cases hwaiting : p = .waiting u
  · subst hwaiting
    obtain ⟨hfree, -⟩ := Option.ite_none_right_eq_some.mp hadvance
    exact quiet_of_free hp ht hfree
  · exact hquiet hwaiting

/-- While the owner is refused, a step of anyone keeps the erasures draining: no upload of the owner
is let in, so no original appears behind them. -/
theorem Draining.step {e : StagingEvent} (h : s.Draining u) (hsound : s.Sound)
    (hrefused : active u = false) (hstep : s.step active e = some s') : s'.Draining u := by
  -- an erasure that has not moved
  have hold : ∀ t ∈ s.tasks.rows, ∀ p, t.point = .erasure p → p.owner = u →
      (p ≠ .waiting u → s'.Quiet u) ∧ p.Covers s'.files := by
    intro t ht p hp howner
    obtain ⟨hquiet, hcovers⟩ := h t ht p hp howner
    refine ⟨fun hmoved => (hquiet hmoved).step hrefused hstep, ?_⟩
    by_cases hwaiting : p = .waiting u
    · rw [hwaiting]
      trivial
    · exact hcovers.of_subset fun x hx hx' =>
        (hquiet hwaiting).original_before hstep hx (hx'.trans howner)
  intro t ht p hp howner
  cases stepped hstep with
  | started hunused hnone =>
      rcases Table.mem_set_iff.mp ht with rfl | ⟨ht, -⟩
      · cases hp
      · exact hold t ht p hp howner
  | called hcalled hserves hnone =>
      rcases Table.mem_set_iff.mp ht with rfl | ⟨ht, -⟩
      · rcases hcalled with ⟨-, rfl, -⟩ | ⟨-, rfl⟩
        · cases hp
        · cases hp
          cases howner
          exact ⟨fun hmoved => absurd rfl hmoved, trivial⟩
      · exact hold t ht p hp howner
  | queued hw hsaved hactive hnone =>
      rcases Table.mem_set_iff.mp ht with rfl | ⟨ht, -⟩
      · cases hp
      · rcases Table.mem_set_iff.mp ht with rfl | ⟨ht, -⟩
        · cases hp
        · exact hold t ht p hp howner
  | acted hw hact =>
      rcases mem_goOn.mp ht with ⟨q, rfl, rfl⟩ | ⟨ht, -⟩
      · have hq : q = .erasure p := hp
        subst hq
        obtain ⟨hquiet, hcovers⟩ := hsound.draining_act h hw (acted hact) howner
        exact ⟨fun _ => hquiet.step hrefused hstep, hcovers⟩
      · exact hold t ht p hp howner
  | quitted => exact hold t (mem_quit.mp ht).1 p hp howner

/-- An erasure is one that was there before, of the same owner, or one that is asked for. -/
theorem erasure_before {e : StagingEvent} (hstep : s.step active e = some s') {t : StagingTask}
    (ht : t ∈ s'.tasks.rows) {p : ErasurePoint} (hp : t.point = .erasure p) :
    (∃ w ∈ s.tasks.rows, ∃ p', w.point = .erasure p' ∧ p'.owner = p.owner) ∨
      ∃ id instanceId, e = .erase id instanceId p.owner := by
  cases stepped hstep with
  | started hunused hnone =>
      rcases Table.mem_set_iff.mp ht with rfl | ⟨ht, -⟩
      · cases hp
      · exact .inl ⟨t, ht, p, hp, rfl⟩
  | called hcalled hserves hnone =>
      rcases Table.mem_set_iff.mp ht with rfl | ⟨ht, -⟩
      · rcases hcalled with ⟨-, rfl, -⟩ | ⟨rfl, rfl⟩
        · cases hp
        · cases hp
          exact .inr ⟨_, _, rfl⟩
      · exact .inl ⟨t, ht, p, hp, rfl⟩
  | queued hw hsaved hactive hnone =>
      rcases Table.mem_set_iff.mp ht with rfl | ⟨ht, -⟩
      · cases hp
      · rcases Table.mem_set_iff.mp ht with rfl | ⟨ht, -⟩
        · cases hp
        · exact .inl ⟨t, ht, p, hp, rfl⟩
  | acted hw hact =>
      next w action next files =>
        rcases mem_goOn.mp ht with ⟨q, rfl, rfl⟩ | ⟨ht, -⟩
        · have hq : q = .erasure p := hp
          subst hq
          obtain ⟨p', hp', hadvance⟩ := (acted hact).erasure_advance
          exact .inl ⟨w, hw, p', hp', (ErasurePoint.owner_advance hadvance).symm⟩
        · exact .inl ⟨t, ht, p, hp, rfl⟩
  | quitted => exact .inl ⟨t, (mem_quit.mp ht).1, p, hp, rfl⟩

/-- When an erasure has ended, the owner is cleared. -/
theorem Draining.cleared (h : s.Draining u) {t : StagingTask} (ht : t ∈ s.tasks.rows)
    (hp : t.point = .erasure (.erased u)) : s.Cleared u := by
  obtain ⟨hquiet, hcovers⟩ := h t ht _ hp rfl
  exact ⟨hquiet (by simp), hcovers⟩

end Fence

end StagingRoot

end PortRag.Ingest
