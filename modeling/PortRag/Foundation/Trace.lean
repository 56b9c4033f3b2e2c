import Mathlib.Data.List.Basic
import Mathlib.Data.List.Induction

set_option autoImplicit false

/-!
# Foundation: traces of a transition system

A transition system is a relation `R before call answer after`.  A `Trace` records every
step with its states, so a property may speak about what happened between two steps.

The rules are the usual ones: an invariant holds at the end of a trace, a predicate that
every step of a stretch keeps holds at its end, and a trace splits at every cut.
-/

namespace PortRag.Foundation

/-- One recorded step. -/
structure Step (σ κ ρ : Type) where
  before : σ
  call : κ
  answer : ρ
  after : σ

variable {σ κ ρ : Type}

/-- `Trace R s steps s'`: the steps lead from `s` to `s'`. -/
inductive Trace (R : σ → κ → ρ → σ → Prop) : σ → List (Step σ κ ρ) → σ → Prop where
  | nil (s : σ) : Trace R s [] s
  | snoc {s s' s'' : σ} {steps : List (Step σ κ ρ)} {c : κ} {a : ρ} :
      Trace R s steps s' → R s' c a s'' → Trace R s (steps ++ [⟨s', c, a, s''⟩]) s''

namespace Trace

variable {R : σ → κ → ρ → σ → Prop}

theorem append {s m s' : σ} {first rest : List (Step σ κ ρ)} (h : Trace R s first m)
    (h' : Trace R m rest s') : Trace R s (first ++ rest) s' := by
  induction h' with
  | nil => simpa using h
  | snoc _ hstep ih =>
      rw [← List.append_assoc]
      exact .snoc ih hstep

/-- A trace splits at every cut point. -/
theorem split {s s' : σ} {first rest : List (Step σ κ ρ)} (h : Trace R s (first ++ rest) s') :
    ∃ m, Trace R s first m ∧ Trace R m rest s' := by
  induction rest using List.reverseRecOn generalizing s' with
  | nil => exact ⟨s', by simpa using h, .nil s'⟩
  | append_singleton rest last ih =>
      rw [← List.append_assoc] at h
      generalize hsteps : first ++ rest ++ [last] = steps at h
      cases h with
      | nil => simp at hsteps
      | snoc hinit hstep =>
          obtain ⟨heq, hlast⟩ := List.append_inj' hsteps rfl
          subst heq
          obtain ⟨m, hfirst, hrest⟩ := ih hinit
          cases hlast
          exact ⟨m, hfirst, .snoc hrest hstep⟩

/-- A trace without steps stays where it is. -/
theorem eq_of_nil {s s' : σ} (h : Trace R s [] s') : s = s' := by
  generalize hsteps : ([] : List (Step σ κ ρ)) = steps at h
  cases h with
  | nil => rfl
  | snoc => simp at hsteps

/-- The trace of one step. -/
theorem single {s s' : σ} {st : Step σ κ ρ} (h : Trace R s [st] s') :
    st.before = s ∧ st.after = s' ∧ R s st.call st.answer s' := by
  generalize hsteps : [st] = steps at h
  cases h with
  | nil => cases hsteps
  | snoc hinit hstep =>
      have hsteps' : [] ++ [st] = _ := hsteps
      obtain ⟨hnil, hlast⟩ := List.append_inj' hsteps' rfl
      subst hnil
      obtain rfl := eq_of_nil hinit
      cases hlast
      exact ⟨rfl, rfl, hstep⟩

/-- A trace cut before and after one of its steps. -/
theorem split_at {s s' : σ} {first rest : List (Step σ κ ρ)} {st : Step σ κ ρ}
    (h : Trace R s (first ++ st :: rest) s') :
    Trace R s first st.before ∧ R st.before st.call st.answer st.after ∧
      Trace R st.after rest s' := by
  obtain ⟨m, hfirst, htail⟩ := split h
  have htail' : Trace R m ([st] ++ rest) s' := htail
  obtain ⟨m', hone, hrest⟩ := split htail'
  obtain ⟨rfl, rfl, hstep⟩ := single hone
  exact ⟨hfirst, hstep, hrest⟩

/-- Every recorded step is a step of the system. -/
theorem step_of_mem {s s' : σ} {steps : List (Step σ κ ρ)} (h : Trace R s steps s')
    {st : Step σ κ ρ} (hst : st ∈ steps) : R st.before st.call st.answer st.after := by
  obtain ⟨first, rest, rfl⟩ := List.append_of_mem hst
  exact (split_at h).2.1

/-- The invariant rule. -/
theorem invariant {I : σ → Prop} {s s' : σ} {steps : List (Step σ κ ρ)} (h : Trace R s steps s')
    (hinit : I s) (hstep : ∀ {b c a t}, I b → R b c a t → I t) : I s' := by
  induction h with
  | nil => exact hinit
  | snoc _ hs ih => exact hstep ih hs

/-- An invariant holds before and after every recorded step. -/
theorem invariant_at {I : σ → Prop} {s s' : σ} {steps : List (Step σ κ ρ)}
    (h : Trace R s steps s') (hinit : I s) (hstep : ∀ {b c a t}, I b → R b c a t → I t)
    {st : Step σ κ ρ} (hst : st ∈ steps) : I st.before ∧ I st.after := by
  obtain ⟨first, rest, rfl⟩ := List.append_of_mem hst
  obtain ⟨hfirst, hmid, _⟩ := split_at h
  have hbefore : I st.before := hfirst.invariant hinit hstep
  exact ⟨hbefore, hstep hbefore hmid⟩

/-- A predicate that the steps of a stretch keep holds at its end. -/
theorem holds_through {P : σ → Prop} {s s' : σ} {steps : List (Step σ κ ρ)}
    (h : Trace R s steps s') (hinit : P s)
    (hkeep : ∀ st ∈ steps, R st.before st.call st.answer st.after → P st.before → P st.after) :
    P s' := by
  induction h with
  | nil => exact hinit
  | snoc _ hs ih =>
      refine hkeep _ (List.mem_append_right _ List.mem_cons_self) hs (ih ?_)
      exact fun st hst => hkeep st (List.mem_append_left _ hst)

/-- Two systems, the second of which allows every step of the first. -/
theorem mono {R' : σ → κ → ρ → σ → Prop} (hR : ∀ {b c a t}, R b c a t → R' b c a t) {s s' : σ}
    {steps : List (Step σ κ ρ)} (h : Trace R s steps s') : Trace R' s steps s' := by
  induction h with
  | nil => exact .nil _
  | snoc _ hs ih => exact .snoc ih (hR hs)

end Trace

/-- In a list whose marks are pairwise different, a mark has one place. -/
theorem eq_of_mark {α μ : Type} {mark : α → Option μ} {k : μ} {xs xs' ys ys' : List α} {x y : α}
    (h : xs ++ x :: xs' = ys ++ y :: ys') (hx : mark x = some k) (hy : mark y = some k)
    (hnodup : ((xs ++ x :: xs').filterMap mark).Nodup) : xs = ys ∧ x = y ∧ xs' = ys' := by
  induction xs generalizing ys with
  | nil =>
      cases ys with
      | nil => simpa using h
      | cons z rest =>
          obtain ⟨rfl, rfl⟩ := List.cons.inj h
          rw [List.nil_append, List.filterMap_cons_some hx, List.nodup_cons] at hnodup
          have hmem : y ∈ rest ++ y :: ys' := List.mem_append_right _ List.mem_cons_self
          exact absurd (List.mem_filterMap.mpr ⟨y, hmem, hy⟩) hnodup.1
  | cons z rest ih =>
      cases ys with
      | nil =>
          obtain ⟨rfl, rfl⟩ := List.cons.inj h
          rw [List.cons_append, List.filterMap_cons_some hy, List.nodup_cons] at hnodup
          have hmem : x ∈ rest ++ x :: xs' := List.mem_append_right _ List.mem_cons_self
          exact absurd (List.mem_filterMap.mpr ⟨x, hmem, hx⟩) hnodup.1
      | cons w rest' =>
          obtain ⟨rfl, htail⟩ := List.cons.inj h
          have hnodup' : ((rest ++ x :: xs').filterMap mark).Nodup :=
            hnodup.sublist ((List.sublist_cons_self _ _).filterMap mark)
          obtain ⟨rfl, hxy, hxs'⟩ := ih htail hnodup'
          exact ⟨rfl, hxy, hxs'⟩

/-! ## Systems whose calls are functions -/

/-- The recorded run of a list of calls. -/
def run (exec : κ → σ → ρ × σ) : σ → List κ → List (Step σ κ ρ) × σ
  | s, [] => ([], s)
  | s, c :: rest =>
      let step := exec c s
      let later := run exec step.2 rest
      (⟨s, c, step.1, step.2⟩ :: later.1, later.2)

/-- A recorded run is a trace of every relation that allows its calls. -/
theorem run_trace {exec : κ → σ → ρ × σ} {R : σ → κ → ρ → σ → Prop} {calls : List κ} {s : σ}
    (h : ∀ c ∈ calls, ∀ s, R s c (exec c s).1 (exec c s).2) :
    Trace R s (run exec s calls).1 (run exec s calls).2 := by
  induction calls generalizing s with
  | nil => exact .nil s
  | cons c rest ih =>
      have hfirst : Trace R s [⟨s, c, (exec c s).1, (exec c s).2⟩] (exec c s).2 :=
        .snoc (.nil s) (h c List.mem_cons_self s)
      exact hfirst.append (ih (fun c' hc' => h c' (List.mem_cons_of_mem _ hc')))

/-- The trace of a list of calls of a partial function. -/
theorem exists_trace_of_foldlM {f : σ → κ → Option σ} {calls : List κ} {s s' : σ}
    (h : calls.foldlM f s = some s') :
    ∃ steps, Trace (fun b c (_ : Unit) t => f b c = some t) s steps s' ∧
      steps.map (fun st => st.call) = calls := by
  induction calls generalizing s with
  | nil =>
      cases h
      exact ⟨[], .nil _, rfl⟩
  | cons c rest ih =>
      obtain ⟨m, hm, hrest⟩ := Option.bind_eq_some_iff.mp h
      obtain ⟨steps, htrace, hcalls⟩ := ih hrest
      refine ⟨[⟨s, c, (), m⟩] ++ steps, ?_, by rw [List.map_append, hcalls]; rfl⟩
      exact Trace.append (.snoc (.nil s) hm) htrace

/-- The trace of a list of calls each of which meets a condition in the state it is made in. -/
theorem exists_trace_of_guarded {f : σ → κ → Option σ} {P : σ → κ → Prop}
    [∀ s c, Decidable (P s c)] {calls : List κ} {s s' : σ}
    (h : calls.foldlM (fun s c => if P s c then f s c else none) s = some s') :
    ∃ steps, Trace (fun b c (_ : Unit) t => f b c = some t) s steps s' ∧
      ∀ st ∈ steps, P st.before st.call := by
  obtain ⟨steps, htrace, -⟩ := exists_trace_of_foldlM h
  refine ⟨steps, htrace.mono fun hstep => ?_, fun st hst => ?_⟩
  · exact (Option.ite_none_right_eq_some.mp hstep).2
  · exact (Option.ite_none_right_eq_some.mp (htrace.step_of_mem hst)).1

end PortRag.Foundation
