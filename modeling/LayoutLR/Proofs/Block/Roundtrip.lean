/-
  Layout-aware LR toolkit — indented statements are read back as they were written.

  Statements are written one on a line, what is nested further in by some spaces.
  Scanned with the known texts of the grammar of blocks, and parsed with its table,
  they give a tree that shows the same statements.

  * `blockGrammar`: the grammar of blocks;
  * `Tree.flawless`: there is no error in a tree;
  * `blocks_read_back`: all of it, for all statements.
-/
import LayoutLR.Proofs.Block.Parse
import LayoutLR.Proofs.Grammar.WellFormed
import LayoutLR.Proofs.Parser.Calls

namespace LayoutLR

variable {σ V : Type}

/-! ## The grammar -/

/-- Statements line by line, with further statements below a name and a colon. -/
def blockGrammar : String :=
  "\nBlock -> Stmts\nStmts -> Stmt | Stmts NEWLINE Stmt\nStmt -> IDENTIFIER\n    | IDENTIFIER : NEWLINE Block\n"

/-- How text is cut up for a parser with a table. -/
def Table.config (t : Table) : Config where
  ignored := t.ignored
  known := t.known.map String.toList

set_option maxRecDepth 100000 in
/-- The grammar of blocks has the table of blocks. -/
theorem exists_blockGrammar : ∃ g, Grammar.readText blockGrammar = .ok g ∧
    (Automaton.build g .lalr).table.rows = blockRows ∧
    (Automaton.build g .lalr).table.config = colonConfig := by
  obtain ⟨g, hg, htest⟩ := Grammar.exists_readText blockGrammar (fun g =>
    let t := (Automaton.build g .lalr).table
    decide (t.rows = blockRows) && decide (t.ignored = .comments) && decide (t.known = #[":"]))
    (by decide +kernel)
  simp only [Bool.and_eq_true, decide_eq_true_eq] at htest
  obtain ⟨⟨hrows, hignored⟩, hknown⟩ := htest
  refine ⟨g, hg, hrows, ?_⟩
  rw [Table.config, hignored, hknown]
  simp [colonConfig]

/-! ## Trees without errors -/

namespace Tree

mutual

/-- Whether there is no error in a tree. -/
def flawless : Tree → Bool
  | .leaf _ => true
  | .error _ _ => false
  | .node _ children => flawlessAll children

/-- Whether there is no error in some trees. -/
def flawlessAll : List Tree → Bool
  | [] => true
  | tree :: trees => tree.flawless && flawlessAll trees

end

mutual

/-- Actions that build trees build the tree. -/
theorem fold_treeActions : ∀ {tree : Tree}, tree.flawless = true → ∀ memory,
    tree.fold treeActions memory = (tree, memory)
  | .leaf _, _, _ => rfl
  | .node p children, h, memory => by
    rw [flawless] at h
    rw [fold, foldAll_treeActions h memory]
    rfl

theorem foldAll_treeActions : ∀ {trees : List Tree}, flawlessAll trees = true → ∀ memory,
    foldAll treeActions memory trees = (trees, memory)
  | [], _, _ => rfl
  | tree :: trees, h, memory => by
    rw [flawlessAll, Bool.and_eq_true] at h
    rw [foldAll, fold_treeActions h.1]
    dsimp only
    rw [foldAll_treeActions h.2]

end

/-- No call so far was about an error. -/
def Quiet (calls : List (Call V)) : Prop :=
  ∀ c ∈ calls, c.isError = false

theorem Quiet.append {calls : List (Call V)} {c : Call V} (h : Quiet calls)
    (hc : c.isError = false) : Quiet (calls ++ [c]) := by
  intro c' hc'
  rcases List.mem_append.1 hc' with hc' | hc'
  · exact h c' hc'
  · rw [List.mem_singleton.1 hc']
    exact hc

mutual

/-- For a tree without errors, no action is called about an error. -/
theorem fold_quiet (acts : Actions σ V) : ∀ {tree : Tree}, tree.flawless = true →
    ∀ memory : σ × List (Call V), Quiet memory.2 → Quiet (tree.fold acts.logged memory).2.2
  | .leaf _, _, _, hm => hm.append rfl
  | .node p children, h, memory, hm => by
    rw [flawless] at h
    exact (foldAll_quiet acts h memory hm).append rfl

theorem foldAll_quiet (acts : Actions σ V) : ∀ {trees : List Tree}, flawlessAll trees = true →
    ∀ memory : σ × List (Call V), Quiet memory.2 → Quiet (foldAll acts.logged memory trees).2.2
  | [], _, _, hm => hm
  | tree :: trees, h, memory, hm => by
    rw [flawlessAll, Bool.and_eq_true] at h
    exact foldAll_quiet acts h.2 _ (fold_quiet acts h.1 memory hm)

end

end Tree

mutual

theorem Statement.Spelled.flawless : ∀ {st : Statement} {ts : List Token} {tree : Tree},
    st.Spelled ts tree → tree.flawless = true
  | _, _, _, .plain _ _ => rfl
  | _, _, _, .nested _ _ _ _ _ _ h => by simp [Tree.flawless, Tree.flawlessAll, h.flawless]

theorem SpelledAll.flawless : ∀ {sts : List Statement} {ts : List Token} {tree : Tree},
    SpelledAll sts ts tree → tree.flawless = true
  | _, _, _, .first h => by simp [Tree.flawless, Tree.flawlessAll, h.flawless]
  | _, _, _, .later h _ h' => by simp [Tree.flawless, Tree.flawlessAll, h.flawless, h'.flawless]

end

/-! ## Statements -/

/-- The tokens of some statements are the leaves of a tree. -/
theorem exists_spelled {width : Nat} (hwidth : 0 < width) {sts : List Statement} (hsts : sts ≠ [])
    (hdepth : depthOf sts < maxIndentDepth) : ∃ tree, SpelledAll sts
      (Input.ofTokens (Scanner.ofText colonConfig (linesOf width 0 sts)).tokens).tokens tree := by
  cases sts with
  | nil => exact absurd rfl hsts
  | cons st sts =>
    have htokens := congrArg List.dropLast (Scanner.tokens_statements hwidth st sts hdepth)
    rw [List.dropLast_concat, ← List.map_dropLast] at htokens
    obtain ⟨front, back, hsplit, hfront, hback⟩ := List.map_eq_append_iff.1 htokens
    obtain ⟨tree, htree⟩ := st.exists_spelled hfront
    obtain ⟨tree', htree'⟩ := SpelledAll.exists_append sts (.first htree) hback
    refine ⟨tree', ?_⟩
    rw [Input.ofTokens, hsplit]
    exact htree'

/-- What a parser with a table reads of some statements. -/
def blockInput (t : Table) (width : Nat) (sts : List Statement) : Input :=
  .ofTokens (Scanner.ofText t.config (linesOf width 0 sts)).tokens

/-- **Indented statements are read back.**  Written one on a line, with what is nested further
    in by the same number of spaces each time, they are parsed without an error, to a tree that
    shows them again. -/
theorem blocks_read_back {width : Nat} (hwidth : 0 < width) {sts : List Statement} (hsts : sts ≠ [])
    (hdepth : depthOf sts ≤ maxIndentDepth - 1) :
    ∃ (g : Grammar) (tree : Tree), Grammar.readText blockGrammar = .ok g ∧ tree.statements = sts ∧
      (tree.fold treeActions {}).1 = tree ∧
      ∀ (σ V : Type) (acts : Actions σ V) (memory : σ), ∃ enough, ∀ budget, enough ≤ budget →
        (parse (Automaton.build g .lalr).table acts memory
            (blockInput (Automaton.build g .lalr).table width sts) budget).verdict =
          .finished (some (tree.fold acts memory).1) ∧
        ∀ c ∈ callsOf (Automaton.build g .lalr).table acts memory
          (blockInput (Automaton.build g .lalr).table width sts) budget, c.isError = false := by
  obtain ⟨g, hg, hrows, hconfig⟩ := exists_blockGrammar
  obtain ⟨tree, htree⟩ := exists_spelled hwidth hsts (Nat.lt_of_le_of_lt hdepth (by decide))
  have hflawless : (Tree.node 1 [tree]).flawless = true := by
    simp [Tree.flawless, Tree.flawlessAll, htree.flawless]
  refine ⟨g, .node 1 [tree], hg, ?_, ?_, fun σ V acts memory => ?_⟩
  · rw [Tree.statements, htree.statements_eq]
  · rw [Tree.fold_treeActions hflawless]
  · rw [blockInput, hconfig]
    obtain ⟨last, u, enough, hparse, -⟩ := htree.parse hrows rfl acts memory
    obtain ⟨last', u', enough', hparse', hmemory⟩ := htree.parse hrows rfl acts.logged (memory, [])
    refine ⟨max enough enough', fun budget hbudget => ⟨?_, ?_⟩⟩
    · rw [hparse budget (by omega)]
    · rw [callsOf, hparse' budget (by omega), hmemory]
      have hquiet := Tree.fold_quiet acts hflawless (memory, []) (by simp [Tree.Quiet])
      exact (hquiet.append rfl).append rfl

/-- A name with two names below it, then a name. -/
def namesBelow : List Statement :=
  let name (c : Char) (h : isName [c] = true) : Name := ⟨[c], h⟩
  [.mk (name 'x' (by decide)) [.mk (name 'y' (by decide)) [], .mk (name 'z' (by decide)) []],
    .mk (name 'w' (by decide)) []]

theorem blocks_read_back_namesBelow :
    linesOf 4 0 namesBelow = "x:\n    y\n    z\nw\n".toList ∧
    ∃ (g : Grammar) (tree : Tree), Grammar.readText blockGrammar = .ok g ∧
      tree.statements = namesBelow ∧ ∃ enough, ∀ budget, enough ≤ budget →
        (parse (Automaton.build g .lalr).table treeActions {}
            (blockInput (Automaton.build g .lalr).table 4 namesBelow) budget).verdict =
          .finished (some tree) ∧
        ∀ c ∈ callsOf (Automaton.build g .lalr).table treeActions {}
          (blockInput (Automaton.build g .lalr).table 4 namesBelow) budget, c.isError = false := by
  refine ⟨by decide, ?_⟩
  have hwidth : 0 < 4 := by decide
  have hsts : namesBelow ≠ [] := by simp [namesBelow]
  obtain ⟨g, tree, hg, hstatements, htree, hparse⟩ := blocks_read_back hwidth hsts (by decide)
  refine ⟨g, tree, hg, hstatements, ?_⟩
  have := hparse TreeMemory Tree treeActions {}
  rwa [htree] at this

end LayoutLR
