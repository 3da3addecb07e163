/-
  Layout-aware LR toolkit — what sequences of symbols derive.

  A sequence derives what comes from it by replacing heads by bodies, one head at a
  time, wherever it stands.  Parts of a sequence derive on their own.  What holds of
  a result, and of every sequence with a head where it holds of the same one with
  the body, holds of all that derives the result.

  * `Grammar.Derives`: replacing heads by bodies;
  * `Grammar.Derives.append`: parts next to each other;
  * `Grammar.Derives.backward`: from what is derived to what derives it.
-/
import Mathlib.Logic.Relation
import LayoutLR.Grammar.Basic

namespace LayoutLR

namespace Grammar

variable {g : Grammar} {u u' v v' : List Nat} {p : Nat}

/-- A head is replaced by a body. -/
inductive Rewrites (g : Grammar) : List Nat → List Nat → Prop
  | intro {p : Nat} (hp : p < g.productions.size) (before after : List Nat) :
      Rewrites g (before ++ g.head p :: after) (before ++ g.body p ++ after)

/-- Heads are replaced by bodies, any number of times. -/
def Derives (g : Grammar) : List Nat → List Nat → Prop :=
  Relation.ReflTransGen g.Rewrites

/-- What is derived was there before, or comes from a body. -/
theorem Derives.mem (h : g.Derives u v) {s : Nat} (hs : s ∈ v) : s ∈ u ∨ ∃ p, s ∈ g.body p := by
  induction h with
  | refl => exact Or.inl hs
  | tail _ hstep ih =>
    obtain ⟨hp, before, after⟩ := hstep
    rw [List.append_assoc, List.mem_append, List.mem_append] at hs
    rcases hs with hs | hs | hs
    · exact ih (by simp [hs])
    · exact Or.inr ⟨_, hs⟩
    · exact ih (by simp [hs])

/-- A head derives what one of its bodies derives. -/
theorem Derives.of_body (hp : p < g.productions.size) (h : g.Derives (g.body p) v) :
    g.Derives [g.head p] v := by
  have hstep : g.Rewrites [g.head p] (g.body p) := by
    simpa using Rewrites.intro (g := g) hp [] []
  exact Relation.ReflTransGen.head hstep h

theorem Rewrites.append_left (h : g.Rewrites u v) (before : List Nat) :
    g.Rewrites (before ++ u) (before ++ v) := by
  obtain ⟨hp, front, after⟩ := h
  simpa using Rewrites.intro (g := g) hp (before ++ front) after

theorem Rewrites.append_right (h : g.Rewrites u v) (after : List Nat) :
    g.Rewrites (u ++ after) (v ++ after) := by
  obtain ⟨hp, before, back⟩ := h
  simpa using Rewrites.intro (g := g) hp before (back ++ after)

/-- Parts next to each other derive on their own. -/
theorem Derives.append (h : g.Derives u v) (h' : g.Derives u' v') :
    g.Derives (u ++ u') (v ++ v') := by
  have hleft : g.Derives (u ++ u') (v ++ u') :=
    Relation.ReflTransGen.lift (· ++ u') (fun _ _ hstep => Rewrites.append_right hstep u') _ _ h
  have hright : g.Derives (v ++ u') (v ++ v') :=
    Relation.ReflTransGen.lift (v ++ ·) (fun _ _ hstep => Rewrites.append_left hstep v) _ _ h'
  exact Relation.ReflTransGen.trans hleft hright

/-- A sequence of symbols that all derive the empty text derives it. -/
theorem Derives.nil_of_forall (h : ∀ s ∈ u, g.Derives [s] []) : g.Derives u [] := by
  induction u with
  | nil => exact Relation.ReflTransGen.refl
  | cons s u ih =>
    obtain ⟨hs, hu⟩ := List.forall_mem_cons.1 h
    exact hs.append (ih hu)

/-- What goes back from bodies to heads goes back from what is derived. -/
theorem Derives.backward {P : List Nat → Prop}
    (hstep : ∀ p < g.productions.size, ∀ before after,
      P (before ++ g.body p ++ after) → P (before ++ g.head p :: after))
    (h : g.Derives u v) (hv : P v) : P u := by
  induction h using Relation.ReflTransGen.head_induction_on with
  | refl => exact hv
  | head hrewrites _ ih =>
    obtain ⟨hp, before, after⟩ := hrewrites
    exact hstep _ hp before after ih

end Grammar

end LayoutLR
