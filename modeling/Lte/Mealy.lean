import Mathlib.Data.List.Basic
/-!
# Mealy — machines that answer each input

A state, and for each input a list of outputs and a next state.  `outputs` is everything a machine puts out for a
sequence of inputs and `final` the state it ends in; the laws are those of one more input at the end, and of inputs
the machine does not react to.
-/

structure Mealy (σ μ ω : Type) where
  out : σ → μ → List ω
  next : σ → μ → σ

namespace Mealy

variable {σ μ ω : Type} (M : Mealy σ μ ω)

def outputs : σ → List μ → List ω
  | _, [] => []
  | s, m :: ms => M.out s m ++ outputs (M.next s m) ms

def final (s : σ) (ms : List μ) : σ := ms.foldl M.next s

/-- The machine neither answers the input nor moves on it. -/
def Ignores (m : μ) : Prop := ∀ s, M.out s m = [] ∧ M.next s m = s

theorem outputs_append : ∀ (s : σ) (ms ms' : List μ),
    M.outputs s (ms ++ ms') = M.outputs s ms ++ M.outputs (M.final s ms) ms'
  | s, [], ms' => rfl
  | s, m :: ms, ms' => by
    rw [List.cons_append, outputs, outputs, outputs_append (M.next s m) ms ms', List.append_assoc]
    rfl

theorem outputs_concat (s : σ) (ms : List μ) (m : μ) :
    M.outputs s (ms ++ [m]) = M.outputs s ms ++ M.out (M.final s ms) m := by
  rw [outputs_append, outputs, outputs, List.append_nil]

theorem final_concat (s : σ) (ms : List μ) (m : μ) : M.final s (ms ++ [m]) = M.next (M.final s ms) m := by
  unfold final
  rw [List.foldl_append]
  rfl

/-- Inputs that are ignored may be left out. -/
theorem outputs_filter {q : μ → Bool} (hq : ∀ m, q m = false → M.Ignores m) : ∀ (s : σ) (ms : List μ),
    M.outputs s (ms.filter q) = M.outputs s ms
  | s, [] => rfl
  | s, m :: ms => by
    cases h : q m with
    | true => rw [List.filter_cons_of_pos h, outputs, outputs, outputs_filter hq (M.next s m) ms]
    | false =>
      obtain ⟨h1, h2⟩ := hq m h s
      rw [List.filter_cons_of_neg (by rw [h]; exact Bool.false_ne_true), outputs, h1, h2, List.nil_append,
        outputs_filter hq s ms]

end Mealy
