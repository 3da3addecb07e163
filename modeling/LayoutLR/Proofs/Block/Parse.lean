/-
  Layout-aware LR toolkit — parsing indented statements.

  The grammar of indented statements says nothing about levels: a nested list comes
  behind a colon and a line break.  A parser records the level on that line break,
  is made to reduce what is nested by the end of the level, and cancels the level
  before the list becomes part of the statement around it.

  * `blockRows`: the table of the grammar;
  * `Statement.Spelled`, `SpelledAll`: statements, their tokens and their parse tree;
  * `Machine.statement_runs`, `Machine.block_runs`: a parser follows the tree of what it reads;
  * `SpelledAll.parse`: a parser accepts the tokens of some statements.
-/
import LayoutLR.Proofs.Block.Text
import LayoutLR.Proofs.Parser.Indented

namespace LayoutLR

variable {σ V : Type} {t : Table}

/-! ## Trees -/

mutual

/-- The tokens of a statement, and the parse tree above them. -/
inductive Statement.Spelled : Statement → List Token → Tree → Prop
  | plain {name : Name} {u : Token} (hu : u.kind = .word) (hname : u.text = name.text) :
      Statement.Spelled (.mk name []) [u] (.node 4 [.leaf u])
  | nested {name : Name} {sts : List Statement} {u c n i o : Token} {ts : List Token} {tree : Tree}
      (hu : u.kind = .word) (hname : u.text = name.text) (hc : c.kind = .colon)
      (hn : n.kind = .newline) (hi : i.kind = .indent) (ho : o.kind = .outdent)
      (h : SpelledAll sts ts tree) :
      Statement.Spelled (.mk name sts) (u :: c :: n :: i :: (ts ++ [o]))
        (.node 5 [.leaf u, .leaf c, .leaf n, .node 1 [tree]])

/-- The tokens of some statements, with line breaks between them. -/
inductive SpelledAll : List Statement → List Token → Tree → Prop
  | first {st : Statement} {ts : List Token} {tree : Tree} (h : Statement.Spelled st ts tree) :
      SpelledAll [st] ts (.node 2 [tree])
  | later {st : Statement} {sts : List Statement} {ts ts' : List Token} {n : Token}
      {before tree : Tree} (h : SpelledAll sts ts before) (hn : n.kind = .newline)
      (h' : Statement.Spelled st ts' tree) :
      SpelledAll (sts ++ [st]) (ts ++ n :: ts') (.node 3 [before, .leaf n, tree])

end

/-- The name of some text. -/
def Name.ofText? (text : List Char) : Option Name :=
  if h : LayoutLR.isName text = true then some ⟨text, h⟩ else none

theorem Name.ofText?_text (name : Name) : Name.ofText? name.text = some name := by
  rw [ofText?, dif_pos name.isName]

/-- The statements that a parse tree shows, by its productions. -/
def Tree.statements : Tree → List Statement
  | .node 1 [block] => block.statements
  | .node 2 [first] => first.statements
  | .node 3 [before, _, last] => before.statements ++ last.statements
  | .node 4 [.leaf u] => ((Name.ofText? u.text).map (Statement.mk · [])).toList
  | .node 5 [.leaf u, _, _, block] =>
    ((Name.ofText? u.text).map (Statement.mk · block.statements)).toList
  | _ => []

mutual

/-- **The tree of a statement shows the statement.** -/
theorem Statement.Spelled.statements_eq : ∀ {st : Statement} {ts : List Token} {tree : Tree},
    st.Spelled ts tree → tree.statements = [st]
  | _, _, _, .plain _ hname => by
    rw [Tree.statements, hname, Name.ofText?_text]
    rfl
  | _, _, _, .nested _ hname _ _ _ _ h => by
    rw [Tree.statements, hname, Name.ofText?_text, Tree.statements, h.statements_eq]
    rfl

/-- **The tree of some statements shows these.** -/
theorem SpelledAll.statements_eq : ∀ {sts : List Statement} {ts : List Token} {tree : Tree},
    SpelledAll sts ts tree → tree.statements = sts
  | _, _, _, .first h => by rw [Tree.statements, h.statements_eq]
  | _, _, _, .later h _ h' => by rw [Tree.statements, h.statements_eq, h'.statements_eq]

end

mutual

/-- The tokens of a statement are the leaves of a tree. -/
theorem Statement.exists_spelled : ∀ (st : Statement) {ts : List Token},
    ts.map (fun u => (u.kind, u.text)) = st.tokens → ∃ tree, st.Spelled ts tree
  | .mk name [], ts, h => by
    obtain ⟨u, ts, rfl, hu, h⟩ := List.map_eq_cons_iff.1 h
    obtain rfl := List.map_eq_nil_iff.1 h
    obtain ⟨hkind, hname⟩ := Prod.mk.inj hu
    exact ⟨_, .plain hkind hname⟩
  | .mk name (st :: nested), ts, h => by
    -- the name, the colon, the line break and the start of the level
    obtain ⟨u, ts, rfl, hu, h⟩ := List.map_eq_cons_iff.1 h
    obtain ⟨c, ts, rfl, hc, h⟩ := List.map_eq_cons_iff.1 h
    obtain ⟨n, ts, rfl, hn, h⟩ := List.map_eq_cons_iff.1 h
    obtain ⟨i, ts, rfl, hi, h⟩ := List.map_eq_cons_iff.1 h
    obtain ⟨hkind, hname⟩ := Prod.mk.inj hu
    -- what is nested, and the end of the level
    obtain ⟨first, ts, rfl, hfirst, h⟩ := List.map_eq_append_iff.1 h
    obtain ⟨behind, ts, rfl, hbehind, h⟩ := List.map_eq_append_iff.1 h
    obtain ⟨o, ts, rfl, ho, h⟩ := List.map_eq_cons_iff.1 h
    obtain rfl := List.map_eq_nil_iff.1 h
    obtain ⟨tree, htree⟩ := st.exists_spelled hfirst
    obtain ⟨tree', htree'⟩ := SpelledAll.exists_append nested (.first htree) hbehind
    have hall := Statement.Spelled.nested hkind hname (congrArg Prod.fst hc) (congrArg Prod.fst hn)
      (congrArg Prod.fst hi) (congrArg Prod.fst ho) htree'
    rw [List.append_assoc] at hall
    exact ⟨_, hall⟩

/-- The tokens of further statements make a tree larger. -/
theorem SpelledAll.exists_append : ∀ (sts : List Statement) {before : List Statement}
    {ts ts' : List Token} {tree : Tree}, SpelledAll before ts tree →
    ts'.map (fun u => (u.kind, u.text)) = tokensBehind sts →
    ∃ tree', SpelledAll (before ++ sts) (ts ++ ts') tree'
  | [], before, ts, ts', tree, hbefore, h => by
    obtain rfl := List.map_eq_nil_iff.1 h
    rw [List.append_nil, List.append_nil]
    exact ⟨tree, hbefore⟩
  | st :: sts, before, ts, ts', tree, hbefore, h => by
    obtain ⟨n, ts', rfl, hn, h⟩ := List.map_eq_cons_iff.1 h
    obtain ⟨next, behind, rfl, hnext, h⟩ := List.map_eq_append_iff.1 h
    obtain ⟨tree', htree'⟩ := st.exists_spelled hnext
    have hlater := hbefore.later (congrArg Prod.fst hn) htree'
    obtain ⟨tree'', htree''⟩ := SpelledAll.exists_append sts hlater h
    refine ⟨tree'', ?_⟩
    simpa using htree''

end

/-! ## The table -/

/-- The states of the automaton, by what is in front of the dot. -/
abbrev atStart : Nat := 0
abbrev behindName : Nat := 1
abbrev behindWhole : Nat := 2
abbrev behindStatements : Nat := 3
abbrev behindFirst : Nat := 4
abbrev behindColon : Nat := 5
abbrev behindEnd : Nat := 6
abbrev behindBreak : Nat := 7
abbrev behindOpening : Nat := 8
abbrev behindLater : Nat := 9
abbrev behindBlock : Nat := 10

/-- The heads of the grammar. -/
abbrev startSym : Nat := 13
abbrev blockSym : Nat := 14
abbrev statementsSym : Nat := 15
abbrev statementSym : Nat := 16

/-- A row with these transitions. -/
def rowOf (goTo : List (Nat × Nat)) (reduce : Option Reduction) (startsLine : Bool)
    (minPrefix : Nat) : Row where
  goTo := goTo.foldl (fun m e => m.insert e.1 e.2) ∅
  reduce
  startsLine
  minPrefix

/-- The transitions of the states that a block comes behind. -/
def blockGoTo (whole : Nat) : List (Nat × Nat) :=
  [(Kind.word.num, behindName), (blockSym, whole), (statementsSym, behindStatements),
    (statementSym, behindFirst)]

/-- The table of the grammar. -/
def blockRows : Array Row :=
  #[rowOf (blockGoTo behindWhole) none true 0,
    rowOf [(Kind.colon.num, behindColon)] (some ⟨4, 1, statementSym, false⟩) false 1,
    rowOf [(Kind.eof.num, behindEnd)] none false 1,
    rowOf [(Kind.newline.num, behindBreak)] (some ⟨1, 1, blockSym, false⟩) true 1,
    rowOf [] (some ⟨2, 1, statementsSym, false⟩) false 1,
    rowOf [(Kind.newline.num, behindOpening)] none true 2,
    rowOf [] (some ⟨0, 2, startSym, false⟩) false 2,
    rowOf [(Kind.word.num, behindName), (statementSym, behindLater)] none true 2,
    rowOf (blockGoTo behindBlock) none true 3,
    rowOf [] (some ⟨3, 3, statementsSym, false⟩) false 3,
    rowOf [] (some ⟨5, 4, statementSym, false⟩) false 4]

/-- A state in front of a statement, and the state behind the statement. -/
inductive Opens : Nat → Nat → Prop
  | first : Opens atStart behindFirst
  | nested : Opens behindOpening behindFirst
  | later : Opens behindBreak behindLater

/-- A state in front of some statements, and the state behind them as a block. -/
inductive OpensBlock : Nat → Nat → Prop
  | whole : OpensBlock atStart behindWhole
  | nested : OpensBlock behindOpening behindBlock

theorem OpensBlock.opens {q q' : Nat} (h : OpensBlock q q') : Opens q behindFirst := by
  cases h with
  | whole => exact .first
  | nested => exact .nested

section

variable (ht : t.rows = blockRows)
include ht

theorem row?_block (q : Nat) : t.row? q = blockRows[q]? := by
  rw [Table.row?, ht]

theorem goto?_block (q sym : Nat) :
    t.goto? q sym = blockRows[q]?.bind fun row => row.goto? sym := by
  rw [Table.goto?, row?_block ht]

theorem reduce?_block (q : Nat) : t.reduce? q = blockRows[q]?.bind Row.reduce := by
  rw [Table.reduce?, row?_block ht]

theorem Opens.goto? {q q' : Nat} (h : Opens q q') :
    t.goto? q Kind.word.num = some behindName ∧ t.goto? q statementSym = some q' ∧
      q' < t.rows.size := by
  cases h <;> rw [goto?_block ht, goto?_block ht, ht] <;> decide

theorem OpensBlock.goto? {q q' : Nat} (h : OpensBlock q q') :
    t.goto? q statementsSym = some behindStatements ∧ t.goto? q blockSym = some q' ∧
      q' < t.rows.size := by
  cases h <;> rw [goto?_block ht, goto?_block ht, ht] <;> decide

/-- Most states wait for no end of a line. -/
theorem goto?_atEnd {q : Nat} (hq : q ∈ [behindName, behindFirst, behindLater, behindBlock])
    {u : Token} (hend : Machine.endsLine u = true) : t.goto? q u.kind.num = none := by
  have hkind : u.kind = .newline ∨ u.kind = .eof ∨ u.kind = .outdent := by
    simpa [Machine.endsLine, or_assoc] using hend
  have hnone : ∀ q ∈ [behindName, behindFirst, behindLater, behindBlock],
      ∀ k ∈ [Kind.newline, Kind.eof, Kind.outdent],
        (blockRows[q]?.bind fun row => row.goto? k.num) = none := by decide
  rw [goto?_block ht]
  exact hnone q hq u.kind (by simpa using hkind)

end

/-! ## Runs -/

namespace Machine

variable {acts : Actions σ V} {m : Machine σ V} {rest ts ts' : List Token} {u c n i o : Token}
  {tree before : Tree}

/-- What comes next ends a line. -/
def Ending (rest : List Token) : Prop :=
  ∀ u ∈ rest.head?, endsLine u = true

theorem Faces.endsLine_of_ending (h : m.Faces rest) (hend : Ending rest) :
    endsLine m.token = true := by
  cases rest with
  | nil =>
    rw [endsLine, h.1]
    rfl
  | cons u rest => exact h.1 ▸ hend u rfl

/-- A machine at the start of a line. -/
structure Fresh (m : Machine σ V) : Prop where
  permitted : m.stack.top.newlinePermitted = true
  sinceNewline : m.stack.top.sinceNewline = 0

/-- A machine in front of a statement makes the value of a tree of these tokens. -/
def StatementRuns (t : Table) (acts : Actions σ V) (ts : List Token) (tree : Tree) : Prop :=
  ∀ (m : Machine σ V) (q : Nat) (rest : List Token), Opens m.stack.top.state q → m.Fresh →
    m.Faces (ts ++ rest) → Ending rest → ∃ m', m.Made t acts m' q (tree.fold acts m.memory) rest

/-- A machine in front of some statements makes the value of a tree of these tokens. -/
def BlockRuns (t : Table) (acts : Actions σ V) (ts : List Token) (tree : Tree) : Prop :=
  ∀ (m : Machine σ V) (q : Nat) (rest : List Token), OpensBlock m.stack.top.state q → m.Fresh →
    m.stack.top.sinceIndent = 0 → m.Faces (ts ++ rest) → Ending rest →
    ∃ m', m.Made t acts m' behindStatements (tree.fold acts m.memory) rest

section

variable (ht : t.rows = blockRows)
include ht

/-- A name alone is a statement. -/
theorem plain_runs (acts : Actions σ V) (hu : u.kind = .word) :
    StatementRuns t acts [u] (.node 4 [.leaf u]) := by
  intro m q rest hopens hfresh hf hend
  obtain ⟨hword, hstatement, hq⟩ := hopens.goto? ht
  obtain ⟨m₁, h₁⟩ := shift_plain acts hf (by rw [hu]; rfl) (by rwa [hu]) (by rw [ht]; decide)
    hfresh.permitted
  have hend₁ := h₁.faces.endsLine_of_ending hend
  exact h₁.reduce (reduce?_block ht _) (by decide) hend₁ (goto?_atEnd ht (by decide) hend₁)
    hstatement hq hfresh.permitted

/-- A statement alone is a list of statements. -/
theorem first_runs (h : StatementRuns t acts ts tree) : BlockRuns t acts ts (.node 2 [tree]) := by
  intro m q rest hopens hfresh hsince hf hend
  obtain ⟨hstatements, -, -⟩ := hopens.goto? ht
  obtain ⟨m₁, h₁⟩ := h m _ rest hopens.opens hfresh hf hend
  have hend₁ := h₁.faces.endsLine_of_ending hend
  exact h₁.reduce (reduce?_block ht _) (by decide) hend₁ (goto?_atEnd ht (by decide) hend₁)
    hstatements (by rw [ht]; decide) hfresh.permitted

/-- A further statement makes a list of statements longer. -/
theorem later_runs (h : BlockRuns t acts ts before) (hn : n.kind = .newline)
    (h' : StatementRuns t acts ts' tree) :
    BlockRuns t acts (ts ++ n :: ts') (.node 3 [before, .leaf n, tree]) := by
  intro m q rest hopens hfresh hsince hf hend
  obtain ⟨hstatements, -, -⟩ := hopens.goto? ht
  rw [List.append_assoc, List.cons_append] at hf
  -- the list so far, up to the line break
  obtain ⟨m₁, h₁⟩ := h m q _ hopens hfresh hsince hf fun u hu => by
    obtain rfl : n = u := Option.some.inj hu
    simp [endsLine, hn]
  have hsince₁ : m₁.stack.top.sinceNewline ≤ 1 := by
    have := h₁.sinceNewline
    rwa [hfresh.sinceNewline] at this
  obtain ⟨m₂, h₂, hsince₂⟩ := shift_newline (q := behindBreak) acts h₁.faces hn
    (by rw [h₁.laid.state, hn, goto?_block ht]; rfl) (by rw [ht]; decide) h₁.laid.permitted
    (Or.inr hsince₁)
  -- the statement behind it
  have hopens₂ : Opens m₂.stack.top.state behindLater := h₂.laid.state ▸ .later
  obtain ⟨m₃, h₃⟩ := h' m₂ _ rest hopens₂ ⟨h₂.laid.permitted, hsince₂⟩ h₂.faces hend
  have hend₃ := h₃.faces.endsLine_of_ending hend
  obtain ⟨m₄, h₄⟩ := reduce_made ((h₁.flows.trans h₂.flows).trans h₃.flows)
    (r := ⟨3, 3, statementsSym, false⟩)
    (by rw [h₃.laid.state, reduce?_block ht]; rfl) rfl (by decide) hend₃
    (by rw [h₃.laid.state]; exact goto?_atEnd ht (by decide) hend₃) h₃.laid.permitted
    (by rw [h₃.laid.sinceIndent, h₂.laid.sinceIndent, h₁.laid.sinceIndent, hsince])
    [m₃.stack.top, m₂.stack.top, m₁.stack.top]
    (by rw [h₃.laid.frames, h₂.laid.frames, h₁.laid.frames]; rfl) rfl
    (by simp [h₁.laid.indents, h₂.laid.indents, h₃.laid.indents]) hstatements (by rw [ht]; decide)
    hfresh.permitted h₃.faces
  refine ⟨m₄, ?_⟩
  simpa [Tree.fold, Tree.foldAll, h₁.laid.value, h₁.memory, h₂.laid.value, h₂.memory, h₃.laid.value,
    h₃.memory] using h₄

/-- At the end of their level, statements are a block. -/
theorem block_made (h : BlockRuns t acts ts tree) {q : Nat}
    (hopens : OpensBlock m.stack.top.state q) (hfresh : m.Fresh)
    (hsince : m.stack.top.sinceIndent = 0) (hf : m.Faces (ts ++ rest))
    (hclose : ∀ u ∈ rest.head?, u.kind = .outdent) :
    ∃ m', m.Made t acts m' q ((Tree.node 1 [tree]).fold acts m.memory) rest := by
  obtain ⟨-, hblock, hq⟩ := hopens.goto? ht
  have hend : Ending rest := fun u hu => by simp [endsLine, hclose u hu]
  obtain ⟨m₁, h₁⟩ := h m q rest hopens hfresh hsince hf hend
  have hend₁ := h₁.faces.endsLine_of_ending hend
  have hkind : m₁.token.kind = .eof ∨ m₁.token.kind = .outdent := by
    have hf₁ := h₁.faces
    cases rest with
    | nil => exact Or.inl hf₁.1
    | cons u rest => exact Or.inr (hf₁.1 ▸ hclose u rfl)
  have hnone : t.goto? behindStatements m₁.token.kind.num = none := by
    rw [goto?_block ht]
    rcases hkind with hk | hk <;> rw [hk] <;> decide
  exact h₁.reduce (reduce?_block ht _) (by decide) hend₁ hnone hblock hq hfresh.permitted

/-- A name with statements below it is a statement. -/
theorem nested_runs (acts : Actions σ V) (hu : u.kind = .word) (hc : c.kind = .colon)
    (hn : n.kind = .newline) (hi : i.kind = .indent) (ho : o.kind = .outdent)
    (h : BlockRuns t acts ts tree) : StatementRuns t acts (u :: c :: n :: i :: (ts ++ [o]))
      (.node 5 [.leaf u, .leaf c, .leaf n, .node 1 [tree]]) := by
  intro m q rest hopens hfresh hf hend
  obtain ⟨hword, hstatement, hq⟩ := hopens.goto? ht
  simp only [List.cons_append, List.append_assoc, List.nil_append] at hf
  -- the name, the colon and the line break
  obtain ⟨m₁, h₁⟩ := shift_plain acts hf (by rw [hu]; rfl) (by rwa [hu]) (by rw [ht]; decide)
    hfresh.permitted
  obtain ⟨m₂, h₂⟩ := shift_plain (q := behindColon) acts h₁.faces (by rw [hc]; rfl)
    (by rw [h₁.laid.state, hc, goto?_block ht]; rfl) (by rw [ht]; decide) h₁.laid.permitted
  obtain ⟨m₃, h₃, hsince₃⟩ := shift_newline (q := behindOpening) acts h₂.faces hn
    (by rw [h₂.laid.state, hn, goto?_block ht]; rfl) (by rw [ht]; decide) h₂.laid.permitted
    (Or.inl (by rw [h₂.laid.state, reduce?_block ht]; rfl))
  -- the level is recorded on the line break
  obtain ⟨m₄, hflows₄, hstack₄, hmemory₄, hf₄⟩ := record_flows acts h₃.faces hi
    (by rw [h₃.laid.state, row?_block ht]; rfl)
  have hopens₄ : OpensBlock m₄.stack.top.state behindBlock := by
    rw [hstack₄]
    show OpensBlock m₃.stack.top.state _
    exact h₃.laid.state ▸ .nested
  have hfresh₄ : m₄.Fresh := by
    constructor <;> rw [hstack₄]
    · exact h₃.laid.permitted
    · rfl
  obtain ⟨m₅, h₅⟩ := block_made ht h hopens₄ hfresh₄ (by rw [hstack₄]; rfl) hf₄ (by simp [ho])
  -- its end is met when all statements are reduced
  have hlaid₅ : (m₃.stack.recordIndent true).Laid m₅.stack behindBlock _ := hstack₄ ▸ h₅.laid
  obtain ⟨hopen, o', ho', hb'⟩ := h₃.laid.cancel (by rw [row?_block ht]; rfl) hlaid₅
  have hsince₅ : m₅.stack.top.sinceIndent = 1 := hlaid₅.sinceIndent
  obtain ⟨m₆, hflows₆, hstack₆, hmemory₆, hf₆⟩ := cancel_flows acts h₅.faces ho
    (by rw [h₅.laid.state, row?_block ht]; rfl) (by rw [reducesInside, hsince₅]; decide)
    (by rw [hsince₅]; decide) hopen
  rw [← hstack₆] at hb'
  have hend₆ := hf₆.endsLine_of_ending hend
  -- without the level, the frames are those of a statement
  have hflows := h₁.flows.trans (h₂.flows.trans (h₃.flows.trans (hflows₄.trans
    (h₅.flows.trans hflows₆))))
  obtain ⟨m₇, h₇⟩ := reduce_made hflows (r := ⟨5, 4, statementSym, false⟩)
    (by rw [hb'.state, reduce?_block ht]; rfl) rfl (by decide) hend₆
    (by rw [hb'.state]; exact goto?_atEnd ht (by decide) hend₆) hb'.permitted
    (by rw [hb'.sinceIndent, ho'.sinceIndent, h₂.laid.sinceIndent, h₁.laid.sinceIndent]; simp)
    [m₆.stack.top, o'.top, m₂.stack.top, m₁.stack.top]
    (by rw [hb'.frames, ho'.frames, h₂.laid.frames, h₁.laid.frames]; rfl) rfl
    (by simp [hb'.indents, ho'.indents, h₂.laid.indents, h₁.laid.indents]) hstatement hq
    hfresh.permitted hf₆
  refine ⟨m₇, ?_⟩
  simpa [Tree.fold, Tree.foldAll, h₁.laid.value, h₁.memory, h₂.laid.value, h₂.memory, ho'.value,
    h₃.memory, hmemory₄, hb'.value, h₅.memory, hmemory₆] using h₇

mutual

/-- **A machine follows the tree of a statement.** -/
theorem statement_runs (acts : Actions σ V) : ∀ {st : Statement} {ts : List Token} {tree : Tree},
    st.Spelled ts tree → StatementRuns t acts ts tree
  | _, _, _, .plain hu _ => plain_runs ht acts hu
  | _, _, _, .nested hu _ hc hn hi ho h => nested_runs ht acts hu hc hn hi ho (block_runs acts h)

/-- **A machine follows the tree of some statements.** -/
theorem block_runs (acts : Actions σ V) : ∀ {sts : List Statement} {ts : List Token} {tree : Tree},
    SpelledAll sts ts tree → BlockRuns t acts ts tree
  | _, _, _, .first h => first_runs ht (statement_runs acts h)
  | _, _, _, .later h hn h' => later_runs ht (block_runs acts h) hn (statement_runs acts h')

end

end

end Machine

/-- **A parser accepts the tokens of some statements**, and its value is that of their tree.
    Beyond that, it calls the actions for the end only. -/
theorem SpelledAll.parse (ht : t.rows = blockRows) {sts : List Statement} {ts : List Token}
    {tree : Tree} (h : SpelledAll sts ts tree) {input : Input} (hinput : input.tokens = ts)
    (acts : Actions σ V) (memory : σ) : ∃ last u enough,
      (∀ budget, enough ≤ budget → LayoutLR.parse t acts memory input budget =
        ⟨.finished (some ((Tree.node 1 [tree]).fold acts memory).1), last⟩) ∧
      last.memory = acts.dispose (acts.token ((Tree.node 1 [tree]).fold acts memory).2 u).2
        (acts.token ((Tree.node 1 [tree]).fold acts memory).2 u).1 := by
  have hopens : OpensBlock (Machine.start t memory input : Machine σ V).stack.top.state behindWhole :=
    .whole
  have hfresh : (Machine.start t memory input : Machine σ V).Fresh := by
    refine ⟨?_, rfl⟩
    show ((t.row? 0).map Row.startsLine).getD false = true
    rw [row?_block ht]
    rfl
  have hf : (Machine.start t memory input : Machine σ V).Faces (ts ++ []) := by
    rw [List.append_nil, ← hinput]
    exact Machine.faces_next rfl
  obtain ⟨m₁, h₁⟩ := Machine.block_made ht (Machine.block_runs ht acts h) hopens hfresh rfl hf
    (by simp)
  obtain ⟨m₂, last, hcalm, hdone, -, hmemory, -⟩ := Machine.step_end acts h₁.laid.below
    h₁.laid.value h₁.faces (q := behindEnd) (r := ⟨0, 2, startSym, false⟩)
    (by rw [h₁.laid.state, goto?_block ht]; rfl) (by rw [ht]; decide)
    (by rw [goto?_block ht]; rfl) (by rw [reduce?_block ht]; rfl) rfl rfl rfl
  obtain ⟨enough, hrun⟩ := (h₁.flows.trans (.single hcalm.step)).finishes hdone
  refine ⟨last, m₁.token, enough, fun budget hbudget => hrun budget _ hbudget (by omega), ?_⟩
  rw [hmemory, h₁.memory]
  rfl

end LayoutLR
