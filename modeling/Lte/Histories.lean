import Mathlib.Data.List.Basic
/-!
# Histories — what has held since an event

A history is a list of events, oldest first, and grows at its end.  `Since P Q h` says that some event of `h` is a `P`
and that every event after it is a `Q`; `Each P h` that every event was a `P` of the events before it when it came.
`since_concat` and `each_concat` decide one more event, and proofs about histories go through them.
-/
namespace Histories

variable {α : Type} {P P' Q Q' : α → Prop}

def Since (P Q : α → Prop) (h : List α) : Prop :=
  ∃ pre d post, h = pre ++ d :: post ∧ P d ∧ ∀ e ∈ post, Q e

def Each (R : List α → α → Prop) (h : List α) : Prop :=
  ∀ pre e post, h = pre ++ e :: post → R pre e

/-- An event of `h ++ [c]`, with what came before it, is the last one or one of `h`. -/
theorem concat_eq_append_cons {h pre post : List α} {c d : α} :
    h ++ [c] = pre ++ d :: post ↔ (h = pre ∧ c = d ∧ post = []) ∨ ∃ post', post = post' ++ [c] ∧ h = pre ++ d :: post' := by
  constructor
  · intro he
    rcases List.eq_nil_or_concat post with rfl | ⟨post, e, rfl⟩
    · obtain ⟨h1, h2⟩ := List.append_inj' he rfl
      exact .inl ⟨h1, List.singleton_inj.1 h2, rfl⟩
    · rw [List.concat_eq_append, ← List.cons_append, ← List.append_assoc] at he
      obtain ⟨h1, h2⟩ := List.append_inj' he rfl
      rw [List.singleton_inj.1 h2]
      exact .inr ⟨post, List.concat_eq_append, h1⟩
  · rintro (⟨rfl, rfl, rfl⟩ | ⟨post, rfl, rfl⟩)
    · rfl
    · rw [← List.cons_append, List.append_assoc]

theorem not_since_nil : ¬ Since P Q [] := by
  rintro ⟨pre, d, post, h, -⟩
  cases pre <;> cases h

/-- **One more event** is a `P` itself, or a `Q` of which everything before held. -/
theorem since_concat {h : List α} {c : α} : Since P Q (h ++ [c]) ↔ P c ∨ (Since P Q h ∧ Q c) := by
  constructor
  · rintro ⟨pre, d, post, he, hP, hQ⟩
    rcases concat_eq_append_cons.1 he with ⟨-, rfl, -⟩ | ⟨post, rfl, rfl⟩
    · exact .inl hP
    · exact .inr ⟨⟨pre, d, post, rfl, hP, fun x hx => hQ x (List.mem_append_left _ hx)⟩, hQ c (by simp)⟩
  · rintro (hP | ⟨⟨pre, d, post, rfl, hP, hQ⟩, hc⟩)
    · exact ⟨h, c, [], rfl, hP, fun e he => absurd he List.not_mem_nil⟩
    · refine ⟨pre, d, post ++ [c], by simp, hP, fun e he => ?_⟩
      rcases List.mem_append.1 he with he | he
      · exact hQ e he
      · rw [List.mem_singleton.1 he]
        exact hc

theorem since_here {h : List α} {c : α} (hc : P c) : Since P Q (h ++ [c]) := since_concat.2 (.inl hc)

theorem Since.keep {h : List α} {c : α} (hs : Since P Q h) (hc : Q c) : Since P Q (h ++ [c]) :=
  since_concat.2 (.inr ⟨hs, hc⟩)

theorem each_nil {R : List α → α → Prop} : Each R [] := by
  intro pre e post h
  cases pre <;> cases h

theorem each_congr {R R' : List α → α → Prop} (h : List α) (hR : ∀ pre e, R pre e ↔ R' pre e) :
    Each R h ↔ Each R' h :=
  ⟨fun hr pre e post he => (hR pre e).1 (hr pre e post he), fun hr pre e post he => (hR pre e).2 (hr pre e post he)⟩

/-- **One more event** is one of what came before. -/
theorem each_concat {R : List α → α → Prop} {h : List α} {c : α} : Each R (h ++ [c]) ↔ Each R h ∧ R h c := by
  constructor
  · intro hr
    refine ⟨fun pre e post he => ?_, hr h c [] rfl⟩
    exact hr pre e (post ++ [c]) (concat_eq_append_cons.2 (.inr ⟨post, rfl, he⟩))
  · rintro ⟨hr, hc⟩ pre e post he
    rcases concat_eq_append_cons.1 he with ⟨rfl, rfl, -⟩ | ⟨post, -, rfl⟩
    · exact hc
    · exact hr pre e post rfl

end Histories
