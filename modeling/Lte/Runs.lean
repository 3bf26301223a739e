import Mathlib.Data.List.Forall2
/-!
# Runs — runs of a partial step function

A system is a step function `σ → α → Option σ`: the label carries every choice the environment makes, and `none`
says that the label is not enabled.  A run is the fold of the step over its labels.  `Along` says that every step of
a run meets a condition at the state it starts from, `Throughout` that every state a run visits has a property.
The rules are the induction of each, once: an invariant of the step is an invariant of the run (`run_inv`), also
when the step keeps it only under a condition (`run_inv_along`), and where breaking the condition at once breaks the
property, the two are equivalent along a run (`throughout_iff_along`).
-/
namespace Runs

variable {σ α : Type}

/-- The state after the labels, `none` when one of them is not enabled. -/
def run (step : σ → α → Option σ) (s : σ) (as : List α) : Option σ := as.foldlM step s

/-- The state a run ends in; the first one when a label is not enabled. -/
def finish (step : σ → α → Option σ) (s : σ) (as : List α) : σ := (run step s as).getD s

/-- Every step of the run meets `C` at the state it starts from. -/
def Along (step : σ → α → Option σ) (C : σ → α → Prop) : σ → List α → Prop
  | _, [] => True
  | s, a :: as => C s a ∧ match step s a with
    | none => True
    | some t => Along step C t as

/-- Every state the run visits, the first and the last included, has `P`. -/
def Throughout (step : σ → α → Option σ) (P : σ → Prop) : σ → List α → Prop
  | s, [] => P s
  | s, a :: as => P s ∧ match step s a with
    | none => True
    | some t => Throughout step P t as

instance Along.decidable (step : σ → α → Option σ) (C : σ → α → Prop) [∀ s a, Decidable (C s a)] :
    ∀ s as, Decidable (Along step C s as)
  | _, [] => isTrue trivial
  | s, a :: as =>
    @instDecidableAnd _ _ _ (match step s a with
      | none => isTrue trivial
      | some t => Along.decidable step C t as)

section
variable {step : σ → α → Option σ}

@[simp] theorem run_nil (s : σ) : run step s [] = some s := rfl

@[simp] theorem run_cons (s : σ) (a : α) (as : List α) :
    run step s (a :: as) = (step s a).bind (fun t => run step t as) := rfl

theorem run_cons_some {s t : σ} {a : α} {as : List α} :
    run step s (a :: as) = some t ↔ ∃ u, step s a = some u ∧ run step u as = some t := by
  rw [run_cons, Option.bind_eq_some_iff]

theorem run_concat_some {s t : σ} {as : List α} {a : α} :
    run step s (as ++ [a]) = some t ↔ ∃ u, run step s as = some u ∧ step u a = some t := by
  unfold run
  rw [List.foldlM_append]
  simp [Option.bind_eq_some_iff]

theorem run_append_some {s t : σ} : ∀ {as bs : List α}, run step s (as ++ bs) = some t ↔
    ∃ u, run step s as = some u ∧ run step u bs = some t := by
  intro as bs
  rw [run, List.foldlM_append]
  exact Option.bind_eq_some_iff

theorem run_finish {s : σ} {as : List α} (h : (run step s as).isSome = true) :
    run step s as = some (finish step s as) := by
  obtain ⟨t, ht⟩ := Option.isSome_iff_exists.1 h
  simp [finish, ht]

/-- What every step keeps, every run keeps. -/
theorem run_inv {I : σ → Prop} (hstep : ∀ s a t, I s → step s a = some t → I t) :
    ∀ {as : List α} {s t : σ}, I s → run step s as = some t → I t
  | [], s, t, hI, h => by
    rw [run_nil, Option.some.injEq] at h
    exact h ▸ hI
  | a :: as, s, t, hI, h => by
    obtain ⟨u, hu, hrun⟩ := run_cons_some.1 h
    exact run_inv hstep (hstep s a u hI hu) hrun

/-- A step that appends to a log what is related to its label makes a run append what is related to its labels. -/
theorem run_appends {β μ : Type} {I : σ → Prop} (log : σ → List μ) {inp : α → List β} {R : β → μ → Prop}
    (hstep : ∀ s a t, I s → step s a = some t →
      I t ∧ ∃ ms, log t = log s ++ ms ∧ List.Forall₂ R (inp a) ms) :
    ∀ {as : List α} {s t : σ}, I s → run step s as = some t →
      ∃ ms, log t = log s ++ ms ∧ List.Forall₂ R (as.flatMap inp) ms
  | [], s, t, _, h => by
    rw [run_nil, Option.some.injEq] at h
    exact ⟨[], by rw [h, List.append_nil], .nil⟩
  | a :: as, s, t, hI, h => by
    obtain ⟨u, hu, hrun⟩ := run_cons_some.1 h
    obtain ⟨hIu, ms, hms, hR⟩ := hstep s a u hI hu
    obtain ⟨ms', hms', hR'⟩ := run_appends log hstep hIu hrun
    refine ⟨ms ++ ms', ?_, List.rel_append hR hR'⟩
    rw [hms', hms, List.append_assoc]

variable {C : σ → α → Prop}

theorem along_cons_some {s u : σ} {a : α} {as : List α} (hu : step s a = some u) :
    Along step C s (a :: as) ↔ C s a ∧ Along step C u as := by
  simp only [Along, hu]

theorem along_append : ∀ {s : σ} {as bs : List α},
    Along step C s (as ++ bs) ↔ Along step C s as ∧ ∀ t, run step s as = some t → Along step C t bs
  | s, [], bs => by simp [Along]
  | s, a :: as, bs => by
    cases hs : step s a with
    | none =>
      simp only [List.cons_append, Along, hs, run_cons, Option.bind_none]
      exact ⟨fun h => ⟨h, fun t ht => by cases ht⟩, fun h => h.1⟩
    | some t =>
      rw [List.cons_append, along_cons_some hs, along_cons_some hs, along_append, and_assoc]
      simp only [run_cons, hs, Option.bind_some]

theorem along_singleton {s : σ} {a : α} : Along step C s [a] ↔ C s a := by
  constructor
  · exact fun h => h.1
  · refine fun h => ⟨h, ?_⟩
    cases step s a <;> trivial

theorem along_concat {s : σ} {as : List α} {a : α} :
    Along step C s (as ++ [a]) ↔ Along step C s as ∧ ∀ t, run step s as = some t → C t a := by
  simp only [along_append, along_singleton]

theorem along_and {D : σ → α → Prop} : ∀ {s : σ} {as : List α}, Along step C s as → Along step D s as →
    Along step (fun s a => C s a ∧ D s a) s as
  | _, [], _, _ => trivial
  | s, a :: as, hC, hD => by
    refine ⟨⟨hC.1, hD.1⟩, ?_⟩
    cases hs : step s a with
    | none => trivial
    | some t => exact along_and ((along_cons_some hs).1 hC).2 ((along_cons_some hs).1 hD).2

/-- What every step that meets the condition keeps, every run whose steps all meet it keeps. -/
theorem run_inv_along {I : σ → Prop} (hstep : ∀ s a t, I s → C s a → step s a = some t → I t) :
    ∀ {as : List α} {s t : σ}, I s → Along step C s as → run step s as = some t → I t
  | [], s, t, hI, _, h => by
    rw [run_nil, Option.some.injEq] at h
    exact h ▸ hI
  | a :: as, s, t, hI, hC, h => by
    obtain ⟨u, hu, hrun⟩ := run_cons_some.1 h
    obtain ⟨hCa, hCs⟩ := (along_cons_some hu).1 hC
    exact run_inv_along hstep (hstep s a u hI hCa hu) hCs hrun

/-- Where the first breach of the condition leads to `K` for good, a run ends with `I` or with `K` as it kept the
condition or not. -/
theorem run_inv_or {I K : σ → Prop} (hkeep : ∀ s a t, I s → C s a → step s a = some t → I t)
    (hbreach : ∀ s a t, I s → ¬ C s a → step s a = some t → K t) (hK : ∀ s a t, K s → step s a = some t → K t) :
    ∀ {as : List α} {s t : σ}, I s → run step s as = some t →
      (Along step C s as ∧ I t) ∨ (¬ Along step C s as ∧ K t)
  | [], s, t, hI, h => by
    rw [run_nil, Option.some.injEq] at h
    exact .inl ⟨trivial, h ▸ hI⟩
  | a :: as, s, t, hI, h => by
    obtain ⟨u, hu, hrun⟩ := run_cons_some.1 h
    rw [along_cons_some hu]
    by_cases hC : C s a
    · rcases run_inv_or hkeep hbreach hK (hkeep s a u hI hC hu) hrun with ⟨h1, h2⟩ | ⟨h1, h2⟩
      · exact .inl ⟨⟨hC, h1⟩, h2⟩
      · exact .inr ⟨fun hboth => h1 hboth.2, h2⟩
    · exact .inr ⟨fun hboth => hC hboth.1, run_inv hK (hbreach s a u hI hC hu) hrun⟩

/-- A condition on steps whose breach breaks the property at once holds along a run exactly when the property holds
in every state of the run. -/
theorem throughout_iff_along {I P : σ → Prop} (hIP : ∀ s, I s → P s)
    (hkeep : ∀ s a t, I s → C s a → step s a = some t → I t)
    (hbreak : ∀ s a t, I s → ¬ C s a → step s a = some t → ¬ P t) :
    ∀ {as : List α} {s t : σ}, I s → run step s as = some t → (Throughout step P s as ↔ Along step C s as)
  | [], s, t, hI, _ => by simp [Throughout, Along, hIP s hI]
  | a :: as, s, t, hI, h => by
    obtain ⟨u, hu, hrun⟩ := run_cons_some.1 h
    rw [along_cons_some hu]
    simp only [Throughout, hu, hIP s hI, true_and]
    by_cases hC : C s a
    · simpa [hC] using throughout_iff_along hIP hkeep hbreak (hkeep s a u hI hC hu) hrun
    · simp only [hC, false_and, iff_false]
      intro hP
      -- the state after the breach is the first one the rest of the run visits
      have : P u := by cases as <;> simp_all [Throughout]
      exact hbreak s a u hI hC hu this

end

end Runs
