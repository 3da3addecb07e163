/-
  Layout-aware LR toolkit — parsing expressions with binary operators.

  Behind a right operand, the state shifts an operator that may stand below the one
  in front of the operand, and reduces before any other.  So a parser follows the
  grouped tree of what it reads, at every strength.

  * `Grammar.Operator`: the tokens that a grammar has as operators;
  * `Expression.tree`: the parse tree of an expression;
  * `Machine.expression_runs`: a machine makes the value of a grouped expression;
  * `Grammar.Binary.parse`: a parser accepts what is grouped.
-/
import LayoutLR.Proofs.Operator.Expression
import LayoutLR.Proofs.Operator.States
import LayoutLR.Proofs.Parser.Completeness

namespace LayoutLR

variable {σ V : Type} {g : Grammar} {e n : Nat} {op : Nat → Nat} {strength : Strength}
  {pl pl' : Site} {q : Nat} {s : State} {p : Precedences} {prod : Token → Nat} {t u : Token}

/-- A token that is an operator of the grammar: that of production `prod o + 1`. -/
structure Grammar.Operator (g : Grammar) (n : Nat) (op : Nat → Nat) (p : Precedences)
    (prod : Token → Nat) (o : Token) : Prop where
  lt : prod o < n
  num : o.kind.num = op (prod o)
  precedence : g.precedenceOf o.kind.num = some (p.of o)

theorem Grammar.Operator.reserved (hg : g.Binary e n op) (ho : g.Operator n op p prod t) :
    ∃ i, t.kind = .reserved i := by
  have hbase := (hg.terminal _ ho.lt).1
  rw [← ho.num] at hbase
  cases hk : t.kind with
  | reserved i => exact ⟨i, rfl⟩
  | _ =>
    rw [hk] at hbase
    exact absurd hbase (by decide)

/-- The parse tree of an expression. -/
def Expression.tree (prod : Token → Nat) (n : Nat) : Expression → Tree
  | number t => .node (n + 1) [.leaf t]
  | binary o l r => .node (prod o + 1) [l.tree prod n, .leaf o, r.tree prod n]

/-- Actions that build trees build the tree. -/
theorem Expression.fold_tree (prod : Token → Nat) (n : Nat) (x : Expression) (memory : TreeMemory) :
    (x.tree prod n).fold treeActions memory = (x.tree prod n, memory) := by
  induction x with
  | number t => rfl
  | binary o l r ihl ihr =>
    have htoken : treeActions.token memory o = (.leaf o, memory) := rfl
    simp only [tree, Tree.fold, Tree.foldAll, ihl, htoken, ihr]
    rfl

/-! ## Places -/

/-- Where an expression leads to. -/
def Site.after : Site → Site
  | start => whole
  | operator p => operand p
  | pl => pl

/-- The precedence of the production that is reduced at a place. -/
def Site.precedence (g : Grammar) (n : Nat) (pl : Site) : Option Precedence :=
  (pl.reduces n).bind fun p => g.productions[p]?.bind Production.precedence

theorem Site.Waits.edge (hw : pl.Waits) (hp : pl.Proper n) : Site.Edge e n op pl e pl.after := by
  cases pl with
  | start => exact .whole
  | operator p => exact .operand hp
  | whole | operand | number | accepted => cases hw

theorem Site.Waits.edge_operator (hw : pl.Waits) (hp : pl.Proper n) {i : Nat} (hi : i < n) :
    Site.Edge e n op pl.after (op i) (.operator i) := by
  cases pl with
  | start => exact .first hi
  | operator p => exact .later hp hi
  | whole | operand | number | accepted => cases hw

theorem Site.Waits.precedence (hw : pl.Waits) : pl.precedence g n = none := by
  cases pl with
  | start | operator => rfl
  | whole | operand | number | accepted => cases hw

namespace Automaton

/-- Between two operators precedence decides. -/
theorem suppressed_iff (hg : g.Binary e n op) (ht : g.Operator n op p prod t)
    (hu : g.Operator n op p prod u) :
    suppressed g ((Site.operand (prod t)).precedence g n) u.kind.num = true ↔
      Expression.Below p .left u t := by
  obtain ⟨r, hr, hprod⟩ := hg.precedence _ ht.lt
  obtain rfl : r = p.of t := by
    rw [← ht.num, ht.precedence] at hr
    exact (Option.some.inj hr).symm
  have hterm : g.isTerminal u.kind.num = true := by
    rw [hu.num]
    exact (hg.terminal _ hu.lt).2
  rw [← Expression.not_below_iff, ← Expression.allowsShiftOver_iff]
  simp [suppressed, Site.precedence, Site.reduces, hprod, hu.precedence, hterm]

theorem suppressed_none (sym : Nat) : suppressed g none sym = false := rfl

namespace Stands

theorem lt (h : Stands g strength n q pl s) : q < (build g strength).table.rows.size := by
  have := (Array.getElem?_eq_some_iff.1 h.state).1
  simpa [table] using this

theorem precedence_eq (hg : g.Binary e n op) (h : Stands g strength n q pl s) :
    s.precedence = pl.precedence g n := by
  rw [(h.processed hg).precedence, h.reduce_eq hg, (build_sound hg.indexed strength).grammar_eq]
  rfl

theorem reduce? (hg : g.Binary e n op) (h : Stands g strength n q pl s) {i : Nat}
    (hi : pl.reduces n = some i) :
    (build g strength).table.reduce? q = some (g.reductionBy i) := by
  refine reduce?_table.2 ⟨s, i, h.state, (h.reduce_eq hg).trans hi, ?_⟩
  rw [(build_sound hg.indexed strength).grammar_eq]

/-- A symbol leads on unless precedence rules it out. -/
theorem goto? (hg : g.Binary e n op) (h : Stands g strength n q pl s) {sym : Nat}
    (he : Site.Edge e n op pl sym pl') (hfree : suppressed g (pl.precedence g n) sym = false) :
    ∃ q' s', (build g strength).table.goto? q sym = some q' ∧ Stands g strength n q' pl' s' := by
  obtain ⟨q', s', hgo, hs'⟩ := h.goes hg he (by rwa [h.precedence_eq hg])
  exact ⟨q', s', goto?_table.2 ⟨s, h.state, hgo⟩, hs'⟩

/-- A symbol that leads nowhere, or that precedence rules out. -/
theorem goto?_eq_none (hg : g.Binary e n op) (h : Stands g strength n q pl s) {sym : Nat}
    (hno : ∀ pl', Site.Edge e n op pl sym pl' → suppressed g (pl.precedence g n) sym = true) :
    (build g strength).table.goto? q sym = none := by
  rw [Option.eq_none_iff_forall_ne_some]
  intro q' hgo
  obtain ⟨s', hs', hfind⟩ := goto?_table.1 hgo
  obtain rfl := Option.some.inj (h.state.symm.trans hs')
  obtain ⟨pl', -, he, -⟩ := h.edge hg hfind
  have hfree := (((h.processed hg).symbols sym).1 (SortedMap.mem_keys_of_find? hfind)).2
  rw [(build_sound hg.indexed strength).grammar_eq, h.precedence_eq hg, hno pl' he] at hfree
  cases hfree

end Stands
end Automaton

/-! ## Runs -/

namespace Machine

open Automaton

variable {acts : Actions σ V} {m : Machine σ V} {rest : List Token} {x : Expression}

/-- A production whose body is on the stack is reduced to an expression. -/
theorem reduce_runs (acts : Actions σ V) (hg : g.Binary e n op) {i : Nat} (hi : i ≤ n)
    (h : Stands g strength n m.stack.top.state pl' s) (hp : pl'.reduces n = some (i + 1))
    (hk : m.token.kind.isLayout = false)
    (hgo : (build g strength).table.goto? m.stack.top.state m.token.kind.num = none)
    (popped : List (Frame V)) {stack : Stack V} {s₀ : State}
    (hframes : m.stack.frames = popped ++ stack.frames)
    (hsize : popped.length = (g.body (i + 1)).length)
    (h₀ : Stands g strength n stack.top.state pl s₀) (hw : pl.Waits) :
    ∃ m' s', m.Calm (build g strength).table acts m' ∧ (∀ tokens, m.Faces tokens → m'.Faces tokens) ∧
      m'.stack.below = stack.frames ∧ Stands g strength n m'.stack.top.state pl.after s' ∧
      m'.stack.top.value =
        some (acts.reduce m.memory (i + 1) (popped.reverse.filterMap Frame.value)).1 ∧
      m'.memory = (acts.reduce m.memory (i + 1) (popped.reverse.filterMap Frame.value)).2 := by
  obtain ⟨q, s', hnext, hs'⟩ := h₀.goto? hg (hw.edge h₀.proper)
    (by rw [hw.precedence, suppressed_none])
  have hhead : (g.reductionBy (i + 1)).sym = e := hg.head_eq hi
  rw [← hhead] at hnext
  obtain ⟨m', hcalm, htoken, hinput, hbelow, hstate, hvalue, hmemory⟩ :=
    step_reduce acts hk hgo (h.reduce? hg hp) (hg.boundary _) hframes hsize (Nat.succ_ne_zero i)
      hnext hs'.lt
  refine ⟨m', s', hcalm, fun tokens hf => ?_, hbelow, hstate ▸ hs', hvalue, hmemory⟩
  cases tokens with
  | nil => exact ⟨htoken ▸ hf.1, hinput ▸ hf.2⟩
  | cons u tokens => exact ⟨htoken ▸ hf.1, hinput ▸ hf.2⟩

/-- Behind an expression comes nothing, or an operator that all of it may stand below. -/
def Ends (g : Grammar) (n : Nat) (op : Nat → Nat) (p : Precedences) (prod : Token → Nat)
    (x : Expression) (rest : List Token) : Prop :=
  ∀ o ∈ rest.head?, g.Operator n op p prod o ∧ ∀ below ∈ x.operators, Expression.Below p .left o below

theorem Ends.mono {y : Expression} (h : Ends g n op p prod x rest)
    (hsub : ∀ o ∈ y.operators, o ∈ x.operators) : Ends g n op p prod y rest :=
  fun o ho => ⟨(h o ho).1, fun below hbelow => (h o ho).2 below (hsub below hbelow)⟩

/-- What comes behind an expression is not about layout. -/
theorem Ends.plain (hg : g.Binary e n op) (h : Ends g n op p prod x rest) (hf : m.Faces rest) :
    m.token.kind.isLayout = false := by
  cases rest with
  | nil =>
    rw [hf.1]
    rfl
  | cons o rest =>
    obtain ⟨i, hi⟩ := (h o rfl).1.reserved hg
    rw [hf.1, hi]
    rfl

/-- A number is shifted, and becomes an expression. -/
theorem number_runs (acts : Actions σ V) (hg : g.Binary e n op) {m : Machine σ V}
    (hk : t.kind = .number) (h : Stands g strength n m.stack.top.state pl s) (hw : pl.Waits)
    (hf : m.Faces (t :: rest)) (hends : Ends g n op p prod (.number t) rest) :
    ∃ m' s', Runs (build g strength).table acts ((Expression.number t).tree prod n).count m m' ∧
      m.Pushed m' m'.stack.top.state (((Expression.number t).tree prod n).fold acts m.memory) ∧
      Stands g strength n m'.stack.top.state pl.after s' ∧ m'.Faces rest := by
  have hplain : m.token.kind.isLayout = false := by
    rw [hf.1, hk]
    rfl
  obtain ⟨q₁, s₁, hgo₁, h₁⟩ := h.goto? hg (Site.Edge.number hw h.proper)
    (by rw [hw.precedence, suppressed_none])
  rw [← hk, ← show m.token = t from hf.1] at hgo₁
  obtain ⟨m₁, hcalm₁, hpushed₁, hf₁⟩ := step_shift acts hplain hgo₁ h₁.lt
  rw [hf.2] at hf₁
  rw [← hpushed₁.state] at h₁
  have hnone : (build g strength).table.goto? m₁.stack.top.state m₁.token.kind.num = none := by
    refine h₁.goto?_eq_none hg fun pl' he => ?_
    obtain ⟨_, _, hpl, -⟩ := he.behind (i := n + 1) rfl
    cases hpl
  obtain ⟨m₂, s₂, hcalm₂, hkeeps, hbelow, h₂, hvalue, hmemory⟩ := reduce_runs acts hg
    (Nat.le_refl n) h₁ rfl (hends.plain hg hf₁) hnone [m₁.stack.top]
    (by rw [← hpushed₁.below]; rfl) (by simp [hg.numbers.2]) h hw
  refine ⟨m₂, s₂, hcalm₁.runs.trans hcalm₂.runs, ⟨hbelow, rfl, ?_, ?_⟩, h₂, hkeeps _ hf₁⟩
  · simp [hvalue, hpushed₁.value, hpushed₁.memory, Expression.tree, Tree.fold, Tree.foldAll, ← hf.1]
  · simp [hmemory, hpushed₁.value, hpushed₁.memory, Expression.tree, Tree.fold, Tree.foldAll, ← hf.1]

/-- Behind a right operand nothing is shifted that may stand behind the whole expression. -/
theorem goto?_behind_operand (hg : g.Binary e n op) {o : Token} {l r : Expression}
    (ho : g.Operator n op p prod o)
    (h : Stands g strength n m.stack.top.state (.operand (prod o)) s) (hf : m.Faces rest)
    (hends : Ends g n op p prod (.binary o l r) rest) :
    (build g strength).table.goto? m.stack.top.state m.token.kind.num = none := by
  refine h.goto?_eq_none hg fun pl' he => ?_
  obtain ⟨-, j, -, hj, hsym⟩ := he.behind (i := prod o + 1) rfl
  cases rest with
  | nil =>
    rw [hf.1] at hsym
    exact absurd hsym.symm ((hg.ne_of_lt (by decide)).2 j hj)
  | cons o' rest =>
    obtain ⟨ho', hends'⟩ := hends o' rfl
    rw [hf.1]
    exact (suppressed_iff hg ho ho').2 (hends' o (by simp [Expression.operators]))

/-- Two operands and the operator between them become one expression. -/
theorem operands_run (acts : Actions σ V) (hg : g.Binary e n op) {o : Token} {l r : Expression}
    (ho : g.Operator n op p prod o) {m m₁ m₂ m₃ : Machine σ V} {s₃ : State}
    (h : Stands g strength n m.stack.top.state pl s) (hw : pl.Waits)
    (hleft : m.Pushed m₁ m₁.stack.top.state ((l.tree prod n).fold acts m.memory))
    (hoperator : m₁.Pushed m₂ m₂.stack.top.state (acts.token m₁.memory o))
    (hright : m₂.Pushed m₃ m₃.stack.top.state ((r.tree prod n).fold acts m₂.memory))
    (h₃ : Stands g strength n m₃.stack.top.state (.operand (prod o)) s₃) (hf : m₃.Faces rest)
    (hends : Ends g n op p prod (.binary o l r) rest) :
    ∃ m' s', m₃.Calm (build g strength).table acts m' ∧
      m.Pushed m' m'.stack.top.state (((Expression.binary o l r).tree prod n).fold acts m.memory) ∧
      Stands g strength n m'.stack.top.state pl.after s' ∧ m'.Faces rest := by
  have hframes : m₃.stack.frames =
      [m₃.stack.top, m₂.stack.top, m₁.stack.top] ++ m.stack.frames := by
    rw [List.cons_append, List.cons_append, List.cons_append, List.nil_append, ← hleft.below,
      Stack.frames, hright.below, Stack.frames, hoperator.below]
    rfl
  obtain ⟨m', s', hcalm, hkeeps, hbelow, h', hvalue, hmemory⟩ := reduce_runs acts hg
    (Nat.le_of_lt ho.lt) h₃ rfl (hends.plain hg hf) (goto?_behind_operand hg ho h₃ hf hends)
    [m₃.stack.top, m₂.stack.top, m₁.stack.top] hframes (by simp [(hg.operators _ ho.lt).2]) h hw
  have hvalues : [m₃.stack.top, m₂.stack.top, m₁.stack.top].reverse.filterMap Frame.value =
      (Tree.foldAll acts m.memory [l.tree prod n, .leaf o, r.tree prod n]).1 := by
    simp [hleft.value, hoperator.value, hright.value, Tree.foldAll, Tree.fold, hleft.memory,
      hoperator.memory]
  have hlast : m₃.memory =
      (Tree.foldAll acts m.memory [l.tree prod n, .leaf o, r.tree prod n]).2 := by
    simp [hright.memory, Tree.foldAll, Tree.fold, hleft.memory, hoperator.memory]
  rw [hvalues, hlast] at hvalue hmemory
  exact ⟨m', s', hcalm, ⟨hbelow, rfl, hvalue, hmemory⟩, h', hkeeps _ hf⟩

/-- **A machine makes the value of a grouped expression**, in any place where an expression comes
    next.  The operators of the expression may be shifted behind this place, and the operator
    that comes next may not be shifted behind the expression. -/
theorem expression_runs (acts : Actions σ V) (hg : g.Binary e n op)
    (hfits : x.Fits (g.Operator n op p prod)) (hgrouped : x.Grouped p) {m : Machine σ V}
    (h : Stands g strength n m.stack.top.state pl s) (hw : pl.Waits) (hf : m.Faces (x.tokens ++ rest))
    (hfree : ∀ o ∈ x.operators, suppressed g (pl.after.precedence g n) o.kind.num = false)
    (hends : Ends g n op p prod x rest) :
    ∃ m' s', Runs (build g strength).table acts (x.tree prod n).count m m' ∧
      m.Pushed m' m'.stack.top.state ((x.tree prod n).fold acts m.memory) ∧
      Stands g strength n m'.stack.top.state pl.after s' ∧ m'.Faces rest := by
  induction hfits generalizing m pl s rest with
  | number hk => exact number_runs acts hg hk h hw hf hends
  | @binary o l r ho _ hfr ihl ihr =>
    cases hgrouped with
    | binary hgl hgr left right =>
      simp only [Expression.operators, List.mem_append, List.mem_cons] at hfree
      rw [Expression.tokens, List.append_assoc, List.cons_append] at hf
      -- the left operand, up to the operator
      obtain ⟨m₁, s₁, hruns₁, hpushed₁, h₁, hf₁⟩ := ihl hgl h hw hf
        (fun o' ho' => hfree o' (Or.inl ho'))
        (fun o' ho' => by
          obtain rfl : o = o' := Option.some.inj ho'
          exact ⟨ho, hgl.operators_below left⟩)
      -- the operator
      obtain ⟨i, hi⟩ := ho.reserved hg
      obtain ⟨q₂, s₂, hgo₂, h₂⟩ := h₁.goto? hg (hw.edge_operator h.proper ho.lt)
        (by rw [← ho.num]; exact hfree o (Or.inr (Or.inl rfl)))
      rw [← ho.num, ← show m₁.token = o from hf₁.1] at hgo₂
      obtain ⟨m₂, hcalm₂, hpushed₂, hf₂⟩ := step_shift acts (by rw [hf₁.1, hi]; rfl) hgo₂ h₂.lt
      rw [hf₁.2] at hf₂
      rw [← hpushed₂.state] at h₂ hpushed₂
      rw [show m₁.token = o from hf₁.1] at hpushed₂
      -- the right operand, up to what comes behind the whole
      have hbelow := hgr.operators_below right
      obtain ⟨m₃, s₃, hruns₃, hpushed₃, h₃, hf₃⟩ := ihr hgr h₂ trivial hf₂
        (fun o' ho' => Bool.eq_false_iff.2 fun hsup =>
          ((suppressed_iff hg ho (hfr.operator ho')).1 hsup).asymm (hbelow o' ho'))
        (hends.mono fun o' ho' => by simp [Expression.operators, ho'])
      -- all three become one
      obtain ⟨m₄, s₄, hcalm₄, hpushed₄, h₄, hf₄⟩ :=
        operands_run acts hg ho h hw hpushed₁ hpushed₂ hpushed₃ h₃ hf₃ hends
      refine ⟨m₄, s₄, ?_, hpushed₄, h₄, hf₄⟩
      have hruns := ((hruns₁.trans hcalm₂.runs).trans hruns₃).trans hcalm₄.runs
      simpa [Expression.tree, Tree.count, Tree.countAll, Nat.add_assoc] using hruns

/-- A parser that reads a grouped expression accepts. -/
theorem expression_start (acts : Actions σ V) (hg : g.Binary e n op) (strength : Strength)
    (hfits : x.Fits (g.Operator n op p prod)) (hgrouped : x.Grouped p) {input : Input}
    (hinput : input.tokens = x.tokens) (memory : σ) :
    ∃ m' last, Runs (build g strength).table acts ((x.tree prod n).count + 1)
        (start (build g strength).table memory input) m' ∧
      m'.step (build g strength).table acts =
        .done (some ((x.tree prod n).fold acts memory).1) last ∧ last.calls = m'.calls ∧
      ∀ n ∈ last.notes, n.isError = false := by
  obtain ⟨s₀, h₀⟩ : ∃ s₀, Stands g strength n
      (start (build g strength).table memory input : Machine σ V).stack.top.state .start s₀ :=
    stands_start hg
  have hf : (start (build g strength).table memory input : Machine σ V).Faces (x.tokens ++ []) := by
    rw [List.append_nil, ← hinput]
    exact faces_next rfl
  -- the expression, then the end
  obtain ⟨m₁, s₁, hruns₁, hpushed₁, h₁, hf₁⟩ := expression_runs acts hg hfits hgrouped
    h₀ trivial hf
    (fun _ _ => suppressed_none _) (fun _ ho => by cases ho)
  obtain ⟨q₂, s₂, hgo₂, h₂⟩ := h₁.goto? hg Site.Edge.accepted (suppressed_none _)
  have hnone : (build g strength).table.goto? q₂ Kind.eof.num = none := by
    refine h₂.goto?_eq_none hg fun pl' he => ?_
    obtain ⟨_, _, hpl, -⟩ := he.behind (i := 0) rfl
    cases hpl
  obtain ⟨m₂, last, hcalm₂, hdone, hcalls, -, hquiet⟩ := step_end acts hpushed₁.below hpushed₁.value
    hf₁ hgo₂ h₂.lt hnone (h₂.reduce? hg rfl) (hg.boundary 0)
    (by simp [Grammar.reductionBy, hg.start]) rfl
  have hruns := hruns₁.trans hcalm₂.runs
  refine ⟨m₂, last, hruns, hdone, hcalls, hquiet (hruns.quiet fun n hn => ?_)⟩
  rw [List.mem_singleton.1 hn]
  rfl

end Machine

/-- **A parser accepts what is grouped**, and its value is that of the tree. -/
theorem Grammar.Binary.parse (hg : g.Binary e n op) (strength : Strength) {x : Expression}
    (hfits : x.Fits (g.Operator n op p prod)) (hgrouped : x.Grouped p) {input : Input}
    (hinput : input.tokens = x.tokens) (acts : Actions σ V) (memory : σ) {budget : Nat}
    (hbudget : (x.tree prod n).count < budget) :
    ∃ last, LayoutLR.parse (Automaton.build g strength).table acts memory input budget =
        ⟨.finished (some ((x.tree prod n).fold acts memory).1), last⟩ ∧
      ∀ n ∈ last.notes, n.isError = false := by
  obtain ⟨m', last, hruns, hdone, hcalls, hquiet⟩ :=
    Machine.expression_start acts hg strength hfits hgrouped hinput memory
  have hm' : m'.calls = (x.tree prod n).count + 1 := by
    rw [hruns.calls]
    exact Nat.zero_add _
  exact ⟨last, hruns.runFor hdone hcalls (by omega) (by omega), hquiet⟩

end LayoutLR
