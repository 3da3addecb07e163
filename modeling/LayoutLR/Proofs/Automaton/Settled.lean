/-
  Layout-aware LR toolkit — what precedence settles.

  A state has one reduction, and a transition is ruled out by comparing its token
  with that one.  Conflicts are looked for item by item, and an item of which the
  production has a precedence is in no conflict with a token that has one,
  whichever of the two is higher.  With one complete item this is the same; with
  several, a token may be shifted over a production that binds tighter than the
  one that the state reduces, and nothing is reported.

  * `Grammar.Ranks`: the precedence of a production;
  * `Automaton.allowsShiftOver_of_goTo`: a token that is shifted wins over the reduction
    of its state;
  * `unreported_shift_settled`: what is known where nothing is reported;
  * `tighter_production_unreported`: a token that is shifted over a production that binds
    tighter.
-/
import LayoutLR.Proofs.Automaton.Conflict
import LayoutLR.Proofs.Automaton.Skeleton
import LayoutLR.Proofs.Grammar.WellFormed

namespace LayoutLR

/-- A production has a precedence. -/
def Grammar.Ranks (g : Grammar) (prod : Nat) (p : Precedence) : Prop :=
  g.productions[prod]?.bind Production.precedence = some p

/-- What may be shifted over a production may be shifted over one that binds no tighter. -/
theorem Precedence.allowsShiftOver_mono {u p r : Precedence} (hle : p.level ≤ r.level)
    (h : u.allowsShiftOver r = true) : u.allowsShiftOver p = true := by
  simp only [Precedence.allowsShiftOver, Bool.or_eq_true, Bool.and_eq_true, decide_eq_true_eq,
    beq_iff_eq] at h ⊢
  rcases h with hlt | ⟨heq, hright⟩
  · exact Or.inl (by omega)
  · rcases Nat.lt_or_eq_of_le hle with hlt | hlevel
    · exact Or.inl (by omega)
    · exact Or.inr ⟨by omega, hright⟩

namespace Automaton

variable {g : Grammar} {strength : Strength} {q t : Nat} {s : State}

theorem resolved_iff {prod sym : Nat} : resolved g prod sym = true ↔
    ∃ p u, g.Ranks prod p ∧ g.precedenceOf sym = some u := by
  simp only [resolved, Grammar.Ranks, Bool.and_eq_true, Option.isSome_iff_exists]
  exact ⟨fun ⟨⟨p, hp⟩, u, hu⟩ => ⟨p, u, hp, hu⟩, fun ⟨p, u, hp, hu⟩ => ⟨⟨p, hp⟩, u, hu⟩⟩

/-- A token that is shifted wins over the reduction of its state. -/
theorem allowsShiftOver_of_goTo (hindexed : g.Indexed)
    (hs : (build g strength).states[q]? = some s) (hgo : t ∈ s.goTo.keys)
    (hterm : g.isTerminal t = true) {r : Nat} (hr : s.reduce = some r) {p u : Precedence}
    (hp : g.Ranks r p) (hu : g.precedenceOf t = some u) : u.allowsShiftOver p = true := by
  have hdone := build_processed hindexed hs
  have hfree := ((hdone.symbols t).1 hgo).2
  rw [(build_sound hindexed strength).grammar_eq, hdone.precedence, hr,
    (build_sound hindexed strength).grammar_eq, Option.bind_some, hp] at hfree
  simpa [suppressed, hu, hterm] using hfree

/-- A complete item that could be shifted over, both without a precedence that settles it, is
    reported by its own production. -/
theorem mem_conflicts_of_resolved_eq_false (hindexed : g.Indexed) (hl : strength.LooksAhead)
    (hs : (build g strength).states[q]? = some s) {e : Item × Handle}
    (he : e ∈ completeItems g s) (ht : t ∈ ((build g strength).reduceLookahead e.1 e.2).keys)
    (hne : t ≠ Kind.newline.num) (hgo : t ∈ s.goTo.keys) (hres : resolved g e.1.prod t = false) :
    ⟨.shiftReduce, q, some t, [e.1.prod]⟩ ∈ (build g strength).conflicts := by
  have hg : (build g strength).grammar = g := (build_sound hindexed strength).grammar_eq
  have hl' : (build g strength).strength.LooksAhead :=
    (build_sound hindexed strength).strength_eq.symm ▸ hl
  rw [← hg] at he hres
  obtain ⟨before, after, heq⟩ := List.append_of_mem he
  refine mem_conflicts.2 ⟨q, s, hs, (mem_stateConflicts hl').2
    ⟨before, e, after, heq, t, ht, mem_tokenConflicts.2 (Or.inl ⟨⟨hne, hgo, hres⟩, rfl⟩)⟩⟩

end Automaton

open Automaton in
/-- **What is known where a token could be shifted and a complete item reduced, and nothing is
    reported.**  The production and the token have a precedence, and the token wins over the
    production that the state reduces; so it wins over every production that binds no tighter
    than that one. -/
theorem unreported_shift_settled {code : List CodeNode} {g : Grammar}
    (h : Grammar.read code = .ok g) {strength : Strength} (hl : strength.LooksAhead) {q : Nat}
    {s : State} (hs : (build g strength).states[q]? = some s) {e : Item × Handle}
    (he : e ∈ completeItems g s) {t : Nat} (hterm : g.isTerminal t = true)
    (hne : t ≠ Kind.newline.num) (ht : t ∈ ((build g strength).reduceLookahead e.1 e.2).keys)
    (hgo : t ∈ s.goTo.keys) :
    ⟨.shiftReduce, q, some t, [e.1.prod]⟩ ∈ (build g strength).conflicts ∨
    ∃ p u r, g.Ranks e.1.prod p ∧ g.precedenceOf t = some u ∧ s.reduce = some r ∧
      ∀ p', g.Ranks r p' →
        u.allowsShiftOver p' = true ∧ (p.level ≤ p'.level → u.allowsShiftOver p = true) := by
  have hindexed := (Grammar.read_wellFormed h).indexed
  cases hres : resolved g e.1.prod t with
  | false => exact Or.inl (mem_conflicts_of_resolved_eq_false hindexed hl hs he ht hne hgo hres)
  | true =>
    obtain ⟨p, u, hp, hu⟩ := resolved_iff.1 hres
    obtain ⟨k, -, -, hr, -⟩ := (build_sound hindexed strength).exists_reduce hs he
    refine Or.inr ⟨p, u, k.prod, hp, hu, hr, fun p' hp' => ?_⟩
    have hwins := allowsShiftOver_of_goTo hindexed hs hgo hterm hr hp' hu
    exact ⟨hwins, fun hle => Precedence.allowsShiftOver_mono hle hwins⟩

/-- A sum behind a string, beside sums and products; the product sign is any other mark. -/
def labelledSums : String :=
  "$ LEFT '+'\n$ LEFT MARK\nS -> STRING E '+' E\n   | E\nE -> E '+' E\n   | E MARK E\n   | NUMBER\n"

open Automaton in
set_option maxRecDepth 100000 in
/-- State 12 reduces the sum behind the string and could reduce the other sum as well; the mark
    is shifted over both. -/
theorem unreported_shift_settled_labelledSums : ∃ g s e p u,
    Grammar.readText labelledSums = .ok g ∧ (build g .lalr).states[12]? = some s ∧
    e ∈ completeItems g s ∧ g.isTerminal Kind.mark.num = true ∧
    Kind.mark.num ≠ Kind.newline.num ∧
    Kind.mark.num ∈ ((build g .lalr).reduceLookahead e.1 e.2).keys ∧
    Kind.mark.num ∈ s.goTo.keys ∧ s.reduce ≠ some e.1.prod ∧
    (build g .lalr).conflicts = [] ∧ g.Ranks e.1.prod p ∧
    g.precedenceOf Kind.mark.num = some u ∧ u.allowsShiftOver p = true := by
  obtain ⟨g, hg, htest⟩ := Grammar.exists_readText labelledSums (fun g =>
    (build g .lalr).conflicts.isEmpty && g.isTerminal Kind.mark.num &&
      (build g .lalr).states[12]?.any fun s => s.reduce == some 1 &&
        s.goTo.keys.contains Kind.mark.num &&
        (g.productions[1]?.bind Production.precedence == some ⟨1, .left⟩) &&
        (g.productions[3]?.bind Production.precedence == some ⟨1, .left⟩) &&
        (completeItems g s).any fun e => e.1.prod == 3 &&
          ((build g .lalr).reduceLookahead e.1 e.2).keys.contains Kind.mark.num) (by decide +kernel)
  simp only [Bool.and_eq_true, Option.any_eq_true, List.any_eq_true, beq_iff_eq,
    List.contains_iff_mem, List.isEmpty_iff] at htest
  obtain ⟨⟨hnone, hterm⟩, s, hs, ⟨⟨⟨hr, hgo⟩, hp'⟩, hp⟩, e, he, hprod, ht⟩ := htest
  rcases unreported_shift_settled hg (Or.inr (Or.inl rfl)) hs he hterm (by decide) ht hgo with
    hmem | ⟨p, u, r, hranks, hu, hr', hwins⟩
  · rw [hnone] at hmem
    cases hmem
  · obtain rfl := Option.some.inj (hr.symm.trans hr')
    obtain rfl : p = ⟨1, .left⟩ := Option.some.inj (hranks.symm.trans (by rw [hprod]; exact hp))
    exact ⟨g, s, e, _, u, hg, hs, he, hterm, by decide, ht, hgo, by rw [hr, hprod]; decide, hnone,
      hranks, hu, (hwins _ hp').2 (Nat.le_refl _)⟩

/-- A sum behind a string that binds less tightly than the other sums. -/
def loweredSum : String :=
  "$ LEFT LOW\n$ LEFT '+'\nS -> STRING E '+' E $$LOW\n   | E\nE -> E '+' E\n   | NUMBER\n"

open Automaton in
set_option maxRecDepth 100000 in
/-- **A token that is shifted over a production that binds tighter.**  State 10 reduces the sum
    behind the string, which the plus wins over.  It does not win over the other sum, which could
    be reduced before a plus as well; nothing is reported. -/
theorem tighter_production_unreported : ∃ g s e p u,
    Grammar.readText loweredSum = .ok g ∧ (build g .lalr).states[10]? = some s ∧
    e ∈ completeItems g s ∧ g.isTerminal 12 = true ∧ 12 ≠ Kind.newline.num ∧
    12 ∈ ((build g .lalr).reduceLookahead e.1 e.2).keys ∧ 12 ∈ s.goTo.keys ∧
    (build g .lalr).conflicts = [] ∧ g.Ranks e.1.prod p ∧ g.precedenceOf 12 = some u ∧
    u.allowsShiftOver p = false := by
  obtain ⟨g, hg, htest⟩ := Grammar.exists_readText loweredSum (fun g =>
    (build g .lalr).conflicts.isEmpty && g.isTerminal 12 &&
      g.precedenceOf 12 == some ⟨2, .left⟩ &&
      (build g .lalr).states[10]?.any fun s => s.goTo.keys.contains 12 &&
        (completeItems g s).any fun e =>
          (g.productions[e.1.prod]?.bind Production.precedence == some ⟨2, .left⟩) &&
          ((build g .lalr).reduceLookahead e.1 e.2).keys.contains 12) (by decide +kernel)
  simp only [Bool.and_eq_true, Option.any_eq_true, List.any_eq_true, beq_iff_eq,
    List.contains_iff_mem, List.isEmpty_iff] at htest
  obtain ⟨⟨⟨hnone, hterm⟩, hu⟩, s, hs, hgo, e, he, hp, ht⟩ := htest
  exact ⟨g, s, e, ⟨2, .left⟩, ⟨2, .left⟩, hg, hs, he, hterm, by decide, ht, hgo, hnone, hp, hu,
    by decide⟩

end LayoutLR
