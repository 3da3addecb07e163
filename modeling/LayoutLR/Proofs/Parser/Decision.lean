/-
  Layout-aware LR toolkit — the reductions that a parser makes.

  A parser that cannot shift the token reduces by what the row of its state says,
  without a look at the token; only the layout may take the token before.  The row
  has the complete item with the longest body, which need not be the one that is
  to be reduced before the token.

  * `Machine.Answer`, `Machine.step_answer`: what a parser does that cannot shift the token;
  * `reduction_before_token`: the reduction of a state without conflicts;
  * `reduction_not_before_token`: it can be another one than the token asks for.
-/
import LayoutLR.Proofs.Automaton.Conflict
import LayoutLR.Proofs.Parser.Derivation

namespace LayoutLR

namespace Machine

/-- What comes of a step where the state on top does not shift the token and its row reduces
    production `p`. -/
inductive Answer (m : Machine TreeMemory Tree) (p : Nat) : Progress TreeMemory Tree → Prop
  /-- The layout takes the token. -/
  | laid {verb : Verb} {stack : Stack Tree} (hverb : verb.Lays m.token.kind)
      (hview : stack.view = m.stack.view) :
      Answer m p (.next ({ m.act verb with stack } : Machine TreeMemory Tree).advance)
  /-- The production is reduced, and its head is pushed. -/
  | reduced {m' : Machine TreeMemory Tree} {children : List Tree}
      (htop : m'.stack.top.value = some (.node p children)) (htoken : m'.token = m.token) :
      Answer m p (.next m')
  /-- An error at the token is pushed. -/
  | failed {m' : Machine TreeMemory Tree} {n : Nat}
      (htop : m'.stack.top.value = some (.error n m.token)) : Answer m p (.next m')
  /-- The start production is reduced. -/
  | accepted {tree : Tree} {m' : Machine TreeMemory Tree} (hzero : p = 0) :
      Answer m p (.done (some tree) m')
  /-- There is no way to go on after an error. -/
  | gaveUp {m' : Machine TreeMemory Tree} : Answer m p (.done none m')
  /-- A frame below has a state that the table has not. -/
  | broken {m' : Machine TreeMemory Tree} : Answer m p (.broken m')

variable {t : Table} {m m₁ : Machine TreeMemory Tree} {row : Row} {p : Nat}

theorem recover_answer (htoken : m₁.token = m.token) : m.Answer p (recover t treeActions m₁) := by
  have hcases := recover_cases t treeActions m₁
  generalize recover t treeActions m₁ = prog at hcases ⊢
  cases hcases with
  | @resume _ _ stack _ _ _ hpush =>
    have htop : stack.top.value = some (.error (m₁.memory.errors.length + 1) m₁.token) :=
      Stack.top_push? hpush
    exact .failed (htoken ▸ htop)
  | giveUp => exact .gaveUp
  | broken => exact .broken

theorem fail_answer (htoken : m₁.token = m.token) : m.Answer p (fail t treeActions m₁) := by
  rcases fail_cases t treeActions m₁ with hfail | ⟨eofError, hfail⟩
  · exact hfail ▸ .gaveUp
  · exact hfail ▸ recover_answer htoken

/-- A reduction leaves the token; it pushes a node, or its production is the start production. -/
theorem reduceBy_result (t : Table) (m : Machine TreeMemory Tree) (r : Reduction) :
    match reduceBy t treeActions m r with
    | .pushed m' =>
      m'.token = m.token ∧ ∃ children, m'.stack.top.value = some (.node r.prod children)
    | .accepted _ _ => r.prod = 0
    | .failed m' => m'.token = m.token
    | .broken _ => True := by
  unfold reduceBy
  cases m.stack.pop? r.size with
  | none => rfl
  | some popped =>
    dsimp only
    by_cases hzero : r.prod = 0
    · rw [if_pos hzero]
      cases popped.1.reverse.filterMap Frame.value with
      | nil => rfl
      | cons => exact hzero
    · rw [if_neg hzero]
      cases (t.row? popped.2.top.state).bind fun row => row.goto? r.sym with
      | none => rfl
      | some next =>
        dsimp only
        generalize hpush : popped.2.push? t next r.sym _ _ _ = pushed
        cases pushed with
        | none => trivial
        | some stack => exact ⟨rfl, _, Stack.top_push? hpush⟩

/-- A reduction by the row is one by its production. -/
theorem reduceOrFail_answer {r : Reduction} (hr : row.reduce = some r) (forced : Bool) :
    m.Answer r.prod (reduceOrFail t treeActions m row forced) := by
  have hattempt := reduceOrFail_attempt t treeActions m row forced
  generalize reduceOrFail t treeActions m row forced = prog at hattempt ⊢
  cases hattempt with
  | refused => exact fail_answer rfl
  | tooShort => exact fail_answer rfl
  | @pushed r' verb m' htry hby =>
    obtain rfl := Option.some.inj (hr.symm.trans htry.reduce)
    have hresult := reduceBy_result t (m.act verb) r
    rw [hby] at hresult
    obtain ⟨htoken, children, htop⟩ := hresult
    exact .reduced htop htoken
  | @accepted r' verb _ _ htry hby =>
    obtain rfl := Option.some.inj (hr.symm.trans htry.reduce)
    have hresult := reduceBy_result t (m.act verb) r
    rw [hby] at hresult
    exact .accepted hresult
  | @failed r' verb _ htry hby =>
    have hresult := reduceBy_result t (m.act verb) r'
    rw [hby] at hresult
    exact fail_answer hresult
  | broken => exact .broken

/-- **A step that does not shift** leaves the token to the layout, or reduces what the row of the
    state says, or fails. -/
theorem step_answer {r : Reduction} (hr : t.reduce? m.stack.top.state = some r)
    (hgo : t.goto? m.stack.top.state m.token.kind.num = none) :
    m.Answer r.prod (m.step t treeActions) := by
  have hchoice := step_choice t treeActions m
  generalize m.step t treeActions = prog at hchoice ⊢
  cases hchoice with
  | lost => exact .broken
  | record hkind =>
    exact .laid (hkind ▸ .record) (Stack.view_recordIndent m.stack _)
  | cancel hkind => exact .laid (hkind ▸ .cancel) (Stack.view_cancelIndent t m.stack)
  | discard hkind => exact .laid (hkind ▸ .discard) (rfl : m.stack.view = _)
  | shift _ _ hgo' => cases hgo.symm.trans hgo'
  | @reduce row forced _ hrow =>
    rw [Table.reduce?, hrow] at hr
    exact reduceOrFail_answer hr forced
  | recover => exact recover_answer rfl

end Machine

open Automaton in
/-- **The reduction of a state without conflicts.**  Where an item is to be reduced before a
    token that the state does not shift, no other is.  The table reduces the complete item
    with the longest body, the first of those; it is the one to be reduced before the token
    just if it precedes the other complete items of the state.  The parser makes this reduction
    or meets an error, unless the layout takes the token. -/
theorem reduction_before_token {code : List CodeNode} {g : Grammar} {strength : Strength}
    {a : Automaton} (hread : Grammar.read code = .ok g) (ha : a = Automaton.build g strength)
    (hl : strength.LooksAhead) (hc : a.conflicts = []) {q : Nat} {s : State} {i : Item} {h : Handle}
    {t : Nat} (hs : a.states[q]? = some s) (hi : (i, h) ∈ completeItems g s)
    (ht : t ∈ (a.reduceLookahead i h).keys) (hgo : a.table.goto? q t = none) :
    (∀ j h', (j, h') ∈ completeItems g s → t ∈ (a.reduceLookahead j h').keys → j = i) ∧
    ∃ p, a.table.reduce? q = some (g.reductionBy p) ∧
      (∃ j h', (j, h') ∈ completeItems g s ∧ j.prod = p ∧
        ∀ k h'', (k, h'') ∈ completeItems g s → Precedes g p k.prod) ∧
      (p = i.prod ↔ ∀ j h', (j, h') ∈ completeItems g s → Precedes g i.prod j.prod) ∧
      ∀ m : Machine TreeMemory Tree, m.stack.top.state = q → m.token.kind.num = t →
        m.Answer p (m.step a.table treeActions) := by
  have hsound := build_sound (Grammar.read_wellFormed hread).indexed strength
  rw [← ha] at hsound
  have hgrammar : a.grammar = g := hsound.grammar_eq
  have hlooks : a.strength.LooksAhead := by
    rw [hsound.strength_eq]
    exact hl
  obtain ⟨k, x, hk, hred, hbest⟩ := hsound.exists_reduce hs hi
  have hrow : a.table.reduce? q = some (g.reductionBy k.prod) :=
    reduce?_table.2 ⟨s, k.prod, hs, hred, by rw [hgrammar]⟩
  refine ⟨fun j h' hj ht' => ?_, k.prod, hrow, ⟨k, x, hk, rfl, fun j h' hj => hbest _ hj⟩,
    ⟨fun heq j h' hj => ?_, fun hfirst => ?_⟩, ?_⟩
  · rw [← hgrammar] at hi hj
    exact congrArg Prod.fst (complete_unique hlooks hc hs hi hj ht ht')
  · exact heq ▸ hbest _ hj
  · exact (hbest _ hi).antisymm (hfirst k x hk)
  · rintro m rfl rfl
    exact Machine.step_answer hrow hgo

/-- Two heads with the same body, in front of different tokens. -/
def bothEndings : String :=
  "S -> A NUMBER\n   | B STRING\nA -> IDENTIFIER\nB -> IDENTIFIER\n"

section

open Automaton

/-- Whether a state has an item to be reduced before a token that the state does not shift, and
    the row of the state reduces it or not. -/
def rowReduces (a : Automaton) (q t prod : Nat) (reduced : Bool) : Bool :=
  match a.states[q]? with
  | some s => (completeItems a.grammar s).any fun e => e.1.prod == prod &&
      (a.reduceLookahead e.1 e.2).contains t && (a.table.goto? q t).isNone &&
      ((a.table.reduce? q).map Reduction.prod == some prod) == reduced
  | none => false

theorem rowReduces_spec {a : Automaton} {q t prod : Nat} {reduced : Bool}
    (h : rowReduces a q t prod reduced = true) : ∃ s i x, a.states[q]? = some s ∧
      (i, x) ∈ completeItems a.grammar s ∧ i.prod = prod ∧ t ∈ (a.reduceLookahead i x).keys ∧
      a.table.goto? q t = none ∧
      (reduced = true ↔ (a.table.reduce? q).map Reduction.prod = some prod) := by
  unfold rowReduces at h
  split at h
  · rename_i s hs
    obtain ⟨⟨i, x⟩, he, htest⟩ := List.any_eq_true.1 h
    simp only [Bool.and_eq_true, beq_iff_eq, Option.isNone_iff_eq_none,
      SortedMap.contains_iff] at htest
    obtain ⟨⟨⟨hprod, ht⟩, hgo⟩, hred⟩ := htest
    refine ⟨s, i, x, hs, he, hprod, ht, hgo, ?_⟩
    rw [← hred, beq_iff_eq]
  · cases h

set_option maxRecDepth 100000 in
/-- Before a number the state behind a word reduces what it has to. -/
theorem reduction_before_token_bothEndings : ∃ g s i x,
    Grammar.readText bothEndings = .ok g ∧ (build g .slr).conflicts = [] ∧
    (build g .slr).states[1]? = some s ∧ (i, x) ∈ completeItems g s ∧
    Kind.number.num ∈ ((build g .slr).reduceLookahead i x).keys ∧
    ∃ p, (build g .slr).table.reduce? 1 = some (g.reductionBy p) ∧
      (p = i.prod ↔ ∀ j h', (j, h') ∈ completeItems g s → Precedes g i.prod j.prod) := by
  obtain ⟨g, hg, htest⟩ := Grammar.exists_readText bothEndings (fun g =>
    (build g .slr).conflicts.isEmpty && rowReduces (build g .slr) 1 Kind.number.num 3 true)
    (by decide +kernel)
  rw [Bool.and_eq_true, List.isEmpty_iff] at htest
  obtain ⟨s, i, x, hs, hi, -, ht, hgo, -⟩ := rowReduces_spec htest.2
  rw [(build_sound (Grammar.read_wellFormed hg).indexed .slr).grammar_eq] at hi
  obtain ⟨-, p, hp, -, hiff, -⟩ :=
    reduction_before_token hg rfl (Or.inl rfl) htest.1 hs hi ht hgo
  exact ⟨g, s, i, x, hg, htest.1, hs, hi, ht, p, hp, hiff⟩

set_option maxRecDepth 100000 in
/-- **A state without conflicts need not reduce what the token asks for**: before a string
    the state behind a word reduces the first head instead of the second. -/
theorem reduction_not_before_token : ∃ g s i x,
    Grammar.readText bothEndings = .ok g ∧ (build g .slr).conflicts = [] ∧
    (build g .slr).states[1]? = some s ∧ (i, x) ∈ completeItems g s ∧
    Kind.string.num ∈ ((build g .slr).reduceLookahead i x).keys ∧
    (build g .slr).table.goto? 1 Kind.string.num = none ∧
    ((build g .slr).table.reduce? 1).map Reduction.prod ≠ some i.prod := by
  obtain ⟨g, hg, htest⟩ := Grammar.exists_readText bothEndings (fun g =>
    (build g .slr).conflicts.isEmpty && rowReduces (build g .slr) 1 Kind.string.num 4 false)
    (by decide +kernel)
  rw [Bool.and_eq_true, List.isEmpty_iff] at htest
  obtain ⟨s, i, x, hs, hi, hprod, ht, hgo, hred⟩ := rowReduces_spec htest.2
  rw [(build_sound (Grammar.read_wellFormed hg).indexed .slr).grammar_eq] at hi
  refine ⟨g, s, i, x, hg, htest.1, hs, hi, ht, hgo, fun h => ?_⟩
  rw [hprod] at h
  exact absurd (hred.2 h) (by simp)

end

end LayoutLR
