/-
  Layout-aware LR toolkit — the sentences of a grammar.

  A sentence comes from the first head by replacing heads by bodies.  The
  replacements make a derivation tree, and the beginnings of the symbols know how
  the leaves of a tree begin.

  * `Grammar.Derives.exists_trees`: there are trees of what is derived;
  * `Tree.Begins`: what the leaves of trees say about their symbols;
  * `Tree.fold`: the value that actions give to a tree.
-/
import LayoutLR.Proofs.Grammar.Beginnings
import LayoutLR.Proofs.Grammar.Derives
import LayoutLR.Proofs.Parser.Derivation

namespace LayoutLR

/-! ## Derivations -/

namespace Grammar

variable {g : Grammar} {u : List Nat}

/-- There are trees of what is derived. -/
theorem Derives.exists_trees {tokens : List Token}
    (h : g.Derives u (tokens.map fun token => token.kind.num)) :
    ∃ trees : List Tree, trees.map (Tree.symbol g) = u ∧
      Tree.leavesOf trees = tokens.map Tree.leaf ∧ ∀ tree ∈ trees, tree.IsDerivation g := by
  induction h using Relation.ReflTransGen.head_induction_on with
  | refl =>
    refine ⟨tokens.map Tree.leaf, by simp [Tree.symbol, Function.comp_def], ?_, ?_⟩
    · induction tokens with
      | nil => rfl
      | cons token tokens ih => simp [Tree.leavesOf, Tree.leaves, ih]
    · intro tree htree
      obtain ⟨token, -, rfl⟩ := List.mem_map.1 htree
      exact .leaf token
  | head hstep _ ih =>
    -- the trees of the body become the children of a node
    obtain @⟨p, hp, before, after⟩ := hstep
    obtain ⟨trees, hsymbols, hleaves, hderived⟩ := ih
    obtain ⟨front, back, rfl, hfront, hback⟩ := List.map_eq_append_iff.1 hsymbols
    obtain ⟨left, children, rfl, hleft, hchildren⟩ := List.map_eq_append_iff.1 hfront
    refine ⟨left ++ .node p children :: back, ?_, ?_, fun tree htree => ?_⟩
    · rw [List.map_append, List.map_cons, hleft, hback]
      rfl
    · rw [← hleaves]
      simp [Tree.leavesOf_append, Tree.leavesOf, Tree.leaves]
    · rcases List.mem_append.1 htree with htree | htree
      · exact hderived tree (by simp [htree])
      rcases List.mem_cons.1 htree with rfl | htree
      · exact .node hp hchildren fun c hc => hderived c (by simp [hc])
      · exact hderived tree (by simp [htree])

end Grammar

/-! ## How leaves begin -/

/-- Symbols derive the empty text if their trees have no leaves, and else begin like the first
    leaf. -/
structure Tree.Begins (g : Grammar) (leaves : List Tree) (symbols : List Nat) : Prop where
  empty : leaves = [] → (g.firstOfSeq g.firstSets symbols).2 = true
  first : ∀ token rest, leaves = .leaf token :: rest → g.isTerminal token.kind.num = true →
    token.kind.num ∈ (g.firstOfSeq g.firstSets symbols).1.keys

namespace Tree

variable {g : Grammar}

/-- A tree in front of others. -/
theorem Begins.cons {tree : Tree} {s : Nat} (h : Begins g tree.leaves [s]) {trees : List Tree}
    {symbols : List Nat} (hs : Begins g (leavesOf trees) symbols) :
    Begins g (leavesOf (tree :: trees)) (s :: symbols) := by
  rw [leavesOf]
  refine ⟨fun hempty => ?_, fun token rest heq hterm => ?_⟩
  · obtain ⟨htree, htrees⟩ := List.append_eq_nil_iff.1 hempty
    exact Grammar.firstOfSeq_cons_empty.2 ⟨(Grammar.firstOfSeq_cons_empty.1 (h.empty htree)).1, hs.empty htrees⟩
  · rw [Grammar.mem_firstOfSeq_cons]
    cases htree : tree.leaves with
    | nil =>
      rw [htree, List.nil_append] at heq
      exact Or.inr ⟨(Grammar.firstOfSeq_cons_empty.1 (h.empty htree)).1, hs.first token rest heq hterm⟩
    | cons leaf leaves =>
      rw [htree, List.cons_append, List.cons.injEq] at heq
      have hfirst := h.first token leaves (by rw [htree, heq.1]) hterm
      rcases Grammar.mem_firstOfSeq_cons.1 hfirst with hfirst | ⟨-, hfirst⟩
      · exact Or.inl hfirst
      · simp [Grammar.firstOfSeq] at hfirst

theorem Begins.ofTrees {trees : List Tree}
    (h : ∀ tree ∈ trees, Begins g tree.leaves [tree.symbol g]) :
    Begins g (leavesOf trees) (trees.map (symbol g)) := by
  induction trees with
  | nil => exact ⟨fun _ => rfl, fun token rest heq => by cases heq⟩
  | cons tree trees ih =>
    exact (h tree (by simp)).cons (ih fun tree htree => h tree (by simp [htree]))

/-- **A head begins like the leaves below it.** -/
theorem IsDerivation.begins (hg : g.WellFormed) {tree : Tree} (h : tree.IsDerivation g) :
    Begins g tree.leaves [tree.symbol g] := by
  induction h with
  | leaf token =>
    refine ⟨(by cases ·), fun token' rest heq hterm => ?_⟩
    obtain ⟨⟨rfl⟩, -⟩ := List.cons.inj heq
    exact Grammar.mem_firstOfSeq_cons.2 (Or.inl (Grammar.mem_firstSets_terminal hg.indexed hterm))
  | error n token =>
    exact ⟨(by cases ·), fun token' rest heq => by cases heq⟩
  | @node prod children hprod hbody _ ih =>
    have hbegins := Begins.ofTrees ih
    rw [hbody] at hbegins
    refine ⟨fun hempty => ?_, fun token rest heq hterm => ?_⟩
    · refine Grammar.firstOfSeq_cons_empty.2 ⟨?_, rfl⟩
      exact Grammar.isNullable_head hg hprod (Grammar.isNullable_of_body (hbegins.empty hempty))
    · refine Grammar.mem_firstOfSeq_cons.2 (Or.inl ?_)
      exact Grammar.mem_firstSets_head hg hprod (hbegins.first token rest heq hterm)

/-! ## Values -/

variable {σ V : Type}

mutual

/-- The value that actions give to a tree, its leaves and nodes being met from left to right
    and from the bottom up. -/
def fold (acts : Actions σ V) (mem : σ) : Tree → V × σ
  | .leaf token => acts.token mem token
  | .error _ token => acts.error mem token
  | .node prod children =>
    let (values, mem) := foldAll acts mem children
    acts.reduce mem prod values

/-- The values of some trees from left to right. -/
def foldAll (acts : Actions σ V) (mem : σ) : List Tree → List V × σ
  | [] => ([], mem)
  | tree :: trees =>
    let (value, mem) := tree.fold acts mem
    let (values, mem) := foldAll acts mem trees
    (value :: values, mem)

end

mutual

/-- The number of values that are made for a tree. -/
def count : Tree → Nat
  | .leaf _ | .error _ _ => 1
  | .node _ children => countAll children + 1

/-- The number of values that are made for some trees. -/
def countAll : List Tree → Nat
  | [] => 0
  | tree :: trees => tree.count + countAll trees

end

end Tree

end LayoutLR
