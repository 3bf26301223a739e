import Mathlib.Data.List.Flatten
import Mathlib.Data.List.Forall2
import Mathlib.Tactic.Ring
/-!
# Cuts — a stream of frames and a reader that keeps nothing between reads

Frames of one length `k` are written one after another, and the stream reaches the reader cut into pieces of at most
`k` elements.  A reader that makes one message of each piece returns what was written exactly when every piece is a
whole frame (`forall₂_iff_whole`): by the lengths alone, whatever it makes of a shorter piece.
-/
namespace Cuts

variable {β φ μ : Type} {k : Nat}

theorem length_flatten_of_whole {fs : List (List β)} (h : ∀ f ∈ fs, f.length = k) :
    fs.flatten.length = k * fs.length := by
  induction fs with
  | nil => rfl
  | cons f fs ih =>
    have hf : f.length = k := h f List.mem_cons_self
    have hfs := ih (fun g hg => h g (List.mem_cons_of_mem f hg))
    rw [List.flatten_cons, List.length_append, hf, hfs, List.length_cons]
    ring

theorem length_flatten_le {cs : List (List β)} (h : ∀ c ∈ cs, c.length ≤ k) : cs.flatten.length ≤ k * cs.length := by
  induction cs with
  | nil => exact Nat.le_refl 0
  | cons c cs ih =>
    have hc : c.length ≤ k := h c List.mem_cons_self
    have hcs := ih (fun g hg => h g (List.mem_cons_of_mem c hg))
    rw [List.flatten_cons, List.length_append, List.length_cons, Nat.mul_succ]
    omega

/-- Pieces of at most `k` that together have the length of as many frames are whole. -/
theorem whole_of_length {cs : List (List β)} (hle : ∀ c ∈ cs, c.length ≤ k)
    (h : cs.flatten.length = k * cs.length) : ∀ c ∈ cs, c.length = k := by
  induction cs with
  | nil =>
    intro c hc
    cases hc
  | cons c cs ih =>
    have hc : c.length ≤ k := hle c List.mem_cons_self
    have hcs : ∀ d ∈ cs, d.length ≤ k := fun d hd => hle d (List.mem_cons_of_mem c hd)
    have hrest := length_flatten_le hcs
    rw [List.flatten_cons, List.length_append, List.length_cons, Nat.mul_succ] at h
    have hhead : c.length = k := by omega
    have htail : cs.flatten.length = k * cs.length := by omega
    intro d hd
    rcases List.mem_cons.1 hd with rfl | hd
    · exact hhead
    · exact ih hcs htail d hd

/-- Two ways to cut one stream into frames are the same. -/
theorem eq_of_whole (hk : 0 < k) {cs fs : List (List β)} (hc : ∀ c ∈ cs, c.length = k) (hf : ∀ f ∈ fs, f.length = k)
    (h : cs.flatten = fs.flatten) : cs = fs := by
  have hlen : cs.length = fs.length := by
    have h1 := length_flatten_of_whole hc
    rw [h, length_flatten_of_whole hf] at h1
    exact (Nat.eq_of_mul_eq_mul_left hk h1).symm
  rw [List.eq_iff_flatten_eq]
  refine ⟨h, ?_⟩
  rw [List.map_eq_replicate_iff.2 hc, List.map_eq_replicate_iff.2 hf, hlen]

/-- **One message for each read.**  If a whole frame `f x` is read as `g x`, the messages read are the ones written
exactly when every read is of a whole frame. -/
theorem forall₂_iff_whole {R : List β → μ → Prop} {f : φ → List β} {g : φ → μ} (hk : 0 < k)
    (hf : ∀ x, (f x).length = k) (hread : ∀ x m, R (f x) m → m = g x) {cs : List (List β)} {ms : List μ} {xs : List φ}
    (hR : List.Forall₂ R cs ms) (hle : ∀ c ∈ cs, c.length ≤ k) (hcut : cs.flatten = (xs.map f).flatten) :
    ms = xs.map g ↔ ∀ c ∈ cs, c.length = k := by
  have hxs : ∀ c ∈ xs.map f, c.length = k := by
    intro c hc
    obtain ⟨x, -, rfl⟩ := List.mem_map.1 hc
    exact hf x
  constructor
  · intro h
    refine whole_of_length hle ?_
    have hcount : cs.length = xs.length := by rw [hR.length_eq, h, List.length_map]
    rw [hcut, length_flatten_of_whole hxs, List.length_map, hcount]
  · intro h
    rw [eq_of_whole hk h hxs hcut, List.forall₂_map_left_iff] at hR
    clear hcut hxs
    induction xs generalizing ms with
    | nil =>
      cases hR
      rfl
    | cons x xs ih =>
      cases hR with
      | cons hm hms => rw [List.map_cons, hread x _ hm, ih hms]

end Cuts
