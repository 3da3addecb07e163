/-
  Layout-aware LR toolkit — a parser accepts the sentences of its grammar.

  A parser follows the derivation tree of what it reads: it shifts the leaves, and
  where the children of a node are on the stack, the token that comes next is in
  the lookahead of the item with its dot behind them.  Without conflicts the state
  then reduces the node, although the parser does not look at the token.

  * `Machine.Faces`: the tokens before a machine;
  * `Machine.Runs`: steps that make one value each, and no errors;
  * `Machine.tree_runs`: a machine makes the value of a tree;
  * `parse_complete`: a sentence is parsed without an error.
-/
import LayoutLR.Proofs.Automaton.Lookahead
import LayoutLR.Proofs.Parser.Sentence

namespace LayoutLR

variable {σ V : Type}

/-- The symbol of the first of some tokens, with the end behind them. -/
def nextSymbol : List Token → Nat
  | [] => Kind.eof.num
  | token :: _ => token.kind.num

namespace Machine

variable {t : Table} {acts : Actions σ V} {m m' m'' : Machine σ V} {tokens : List Token} {n k : Nat}

/-! ## Tokens -/

/-- The tokens before a machine, with the end behind them. -/
def Faces (m : Machine σ V) : List Token → Prop
  | [] => m.token.kind = .eof ∧ m.input.tokens = []
  | token :: rest => m.token = token ∧ m.input.tokens = rest

theorem Faces.num_eq (h : m.Faces tokens) : m.token.kind.num = nextSymbol tokens := by
  cases tokens with
  | nil => rw [h.1, nextSymbol]
  | cons token rest => rw [h.1, nextSymbol]

theorem Faces.plain (h : m.Faces tokens) (hplain : ∀ u ∈ tokens, u.kind.isLayout = false) :
    m.token.kind.isLayout = false := by
  cases tokens with
  | nil =>
    rw [h.1]
    rfl
  | cons token rest => exact h.1 ▸ hplain token (by simp)

/-- A machine that has just taken a token. -/
theorem faces_next {input : Input} (h : (m.token, m.input) = input.next) :
    m.Faces input.tokens := by
  unfold Input.next at h
  split at h
  · rename_i htokens
    rw [htokens]
    obtain ⟨htoken, hinput⟩ := Prod.mk.inj h
    exact ⟨by rw [htoken]; rfl, by rw [hinput, htokens]⟩
  · rename_i token rest htokens
    rw [htokens]
    obtain ⟨htoken, hinput⟩ := Prod.mk.inj h
    exact ⟨htoken, by rw [hinput]⟩

/-! ## Runs -/

/-- A step that asks the actions for one value, which is not that of an error. -/
structure Calm (t : Table) (acts : Actions σ V) (m m' : Machine σ V) : Prop where
  step : m.step t acts = .next m'
  calls : m'.calls = m.calls + 1
  quiet : (∀ n ∈ m.notes, n.isError = false) → ∀ n ∈ m'.notes, n.isError = false

/-- Some such steps. -/
inductive Runs (t : Table) (acts : Actions σ V) : Nat → Machine σ V → Machine σ V → Prop
  | refl (m : Machine σ V) : Runs t acts 0 m m
  | step {n : Nat} {m m' m'' : Machine σ V} (h : m.Calm t acts m') (hs : Runs t acts n m' m'') :
      Runs t acts (n + 1) m m''

theorem Runs.trans (h : Runs t acts n m m') (h' : Runs t acts k m' m'') :
    Runs t acts (n + k) m m'' := by
  induction h with
  | refl m => rwa [Nat.zero_add]
  | step hcalm _ ih =>
    rw [Nat.add_right_comm]
    exact .step hcalm (ih h')

theorem Calm.runs (h : m.Calm t acts m') : Runs t acts 1 m m' :=
  .step h (.refl m')

theorem Runs.quiet (h : Runs t acts n m m') (hm : ∀ n ∈ m.notes, n.isError = false) :
    ∀ n ∈ m'.notes, n.isError = false := by
  induction h with
  | refl m => exact hm
  | step hcalm _ ih => exact ih (hcalm.quiet hm)

theorem Runs.calls (h : Runs t acts n m m') : m'.calls = m.calls + n := by
  induction h with
  | refl m => rfl
  | step hcalm _ ih => rw [ih, hcalm.calls, Nat.succ_add_eq_add_succ]

/-- A run that ends before the budget is used up. -/
theorem Runs.runFor (h : Runs t acts n m m') {value : Option V} {last : Machine σ V}
    (hdone : m'.step t acts = .done value last) (hcalls : last.calls = m'.calls) {budget steps : Nat}
    (hbudget : m'.calls ≤ budget) (hsteps : n < steps) :
    m.runFor t acts budget steps = ⟨.finished value, last⟩ := by
  induction h generalizing steps with
  | refl m =>
    obtain ⟨steps, rfl⟩ := Nat.exists_eq_succ_of_ne_zero (Nat.ne_of_gt hsteps)
    have hle : ¬ budget < last.calls := by omega
    simp only [Machine.runFor, hdone, Run.within, hle, if_false]
  | @step n m m₁ m' hcalm hs ih =>
    obtain ⟨steps, rfl⟩ := Nat.exists_eq_succ_of_ne_zero (Nat.ne_zero_of_lt hsteps)
    have hle : ¬ budget < m₁.calls := by
      have := hs.calls
      omega
    simp only [Machine.runFor, hcalm.step, hle, if_false]
    exact ih hdone hcalls hbudget (by omega)

/-! ## Steps -/

/-- A frame was put on top of the stack, with the value that the actions gave. -/
structure Pushed (m m' : Machine σ V) (q : Nat) (r : V × σ) : Prop where
  below : m'.stack.below = m.stack.frames
  state : m'.stack.top.state = q
  value : m'.stack.top.value = some r.1
  memory : m'.memory = r.2

/-- A token with a transition is shifted. -/
theorem step_shift (acts : Actions σ V) (hk : m.token.kind.isLayout = false) {q : Nat}
    (hgo : t.goto? m.stack.top.state m.token.kind.num = some q) (hq : q < t.rows.size) :
    ∃ m', m.Calm t acts m' ∧ m.Pushed m' q (acts.token m.memory m.token) ∧
      m'.Faces m.input.tokens := by
  obtain ⟨row, hrow, hgoto⟩ := Option.bind_eq_some_iff.1 hgo
  obtain ⟨stack, hstack⟩ := m.stack.exists_push? hq m.token.kind.num 0 (m.token.kind == .newline)
    (acts.token m.memory m.token).1
  have hstep := step_plain acts hk hrow
  rw [shiftOrReduce, hgoto] at hstep
  dsimp only [shift, act, note] at hstep
  rw [hstack] at hstep
  obtain ⟨row', -, rfl⟩ := Option.map_eq_some_iff.1 hstack
  refine ⟨_, ⟨hstep, rfl, fun hquiet => ?_⟩, ⟨rfl, rfl, rfl, rfl⟩, faces_next rfl⟩
  exact List.forall_mem_cons.2 ⟨rfl, List.forall_mem_cons.2 ⟨rfl, hquiet⟩⟩

theorem pop?_frames {stack rest : Stack V} {popped : List (Frame V)}
    (h : stack.frames = popped ++ rest.frames) : stack.pop? popped.length = some (popped, rest) := by
  unfold Stack.pop?
  rw [h, List.drop_left, List.take_left]
  rfl

/-- Without a transition, a state reduces what is on the stack. -/
theorem step_reduceBy (acts : Actions σ V) (hk : m.token.kind.isLayout = false) {r : Reduction}
    {popped : List (Frame V)} {rest : Stack V}
    (hgo : t.goto? m.stack.top.state m.token.kind.num = none)
    (hr : t.reduce? m.stack.top.state = some r) (hline : r.newlineOnly = false)
    (hframes : m.stack.frames = popped ++ rest.frames) (hsize : popped.length = r.size) :
    m.stack.pop? r.size = some (popped, rest) ∧
      (∀ m', r.prod ≠ 0 → reduceBy t acts (m.act .reduce) r = .pushed m' →
        m.step t acts = .next m') ∧
      ∀ value m', r.prod = 0 → reduceBy t acts (m.act .accept) r = .accepted value m' →
        m.step t acts = .done (some value) (m'.disposeStack acts) := by
  obtain ⟨row, hreduce, hstep⟩ := step_unshifted acts hk hgo hr
  have hlt : ¬ m.stack.size ≤ r.size := by
    rw [Stack.size_eq, hframes, List.length_append, hsize]
    simp [Stack.frames]
  have hmay : mayReduce r m.token (atLineStart m.stack) = true := by simp [mayReduce, hline]
  rw [hstep]
  refine ⟨hsize ▸ pop?_frames hframes, fun m' hprod h => ?_, fun value m' hprod h => ?_⟩
  · simp [reduceOrFail, hreduce, hmay, hlt, hprod, h]
  · simp [reduceOrFail, hreduce, hmay, hlt, hprod, h]

/-- A reduction whose body is on the stack, and that is not the last one. -/
theorem step_reduce (acts : Actions σ V) (hk : m.token.kind.isLayout = false) {r : Reduction}
    {q : Nat} {popped : List (Frame V)} {rest : Stack V}
    (hgo : t.goto? m.stack.top.state m.token.kind.num = none)
    (hr : t.reduce? m.stack.top.state = some r) (hline : r.newlineOnly = false)
    (hframes : m.stack.frames = popped ++ rest.frames) (hsize : popped.length = r.size)
    (hprod : r.prod ≠ 0) (hnext : t.goto? rest.top.state r.sym = some q) (hq : q < t.rows.size) :
    ∃ m', m.Calm t acts m' ∧ m'.token = m.token ∧ m'.input = m.input ∧
      m'.stack.below = rest.frames ∧ m'.stack.top.state = q ∧
      m'.stack.top.value =
        some (acts.reduce m.memory r.prod (popped.reverse.filterMap Frame.value)).1 ∧
      m'.memory = (acts.reduce m.memory r.prod (popped.reverse.filterMap Frame.value)).2 := by
  obtain ⟨hpop, hstep, -⟩ := step_reduceBy acts hk hgo hr hline hframes hsize
  obtain ⟨stack, hstack⟩ := rest.exists_push? hq r.sym (total (popped.map Frame.indents))
    (popped.any fun f => f.sinceNewline == 0)
    (acts.reduce m.memory r.prod (popped.reverse.filterMap Frame.value)).1
  have hby : reduceBy t acts (m.act .reduce) r = .pushed { m.act .reduce with
      stack
      memory := (acts.reduce m.memory r.prod (popped.reverse.filterMap Frame.value)).2
      calls := m.calls + 1 } := by
    simp only [reduceBy, act, note, hpop, hprod, if_false]
    rw [show ((t.row? rest.top.state).bind fun row => row.goto? r.sym) = some q from hnext]
    dsimp only
    rw [hstack]
  obtain ⟨row', -, rfl⟩ := Option.map_eq_some_iff.1 hstack
  refine ⟨_, ⟨hstep _ hprod hby, rfl, fun hquiet => ?_⟩, rfl, rfl, rfl, rfl, rfl, rfl⟩
  exact List.forall_mem_cons.2 ⟨rfl, hquiet⟩

/-- The last reduction. -/
theorem step_accept (acts : Actions σ V) (hk : m.token.kind.isLayout = false) {r : Reduction}
    {popped : List (Frame V)} {rest : Stack V} {value : V} {others : List V}
    (hgo : t.goto? m.stack.top.state m.token.kind.num = none)
    (hr : t.reduce? m.stack.top.state = some r) (hline : r.newlineOnly = false)
    (hframes : m.stack.frames = popped ++ rest.frames) (hsize : popped.length = r.size)
    (hprod : r.prod = 0) (hvalues : popped.reverse.filterMap Frame.value = value :: others) :
    ∃ m', m.step t acts = .done (some value) m' ∧ m'.calls = m.calls ∧
      m'.memory = acts.disposeAll (acts.disposeAll m.memory others) rest.values ∧
      ((∀ n ∈ m.notes, n.isError = false) → ∀ n ∈ m'.notes, n.isError = false) := by
  obtain ⟨hpop, -, hstep⟩ := step_reduceBy acts hk hgo hr hline hframes hsize
  have hby : reduceBy t acts (m.act .accept) r = .accepted value { m.act .accept with
      stack := rest
      memory := acts.disposeAll m.memory others } := by
    simp only [reduceBy, act, note, hpop, hprod, if_true, hvalues]
  exact ⟨_, hstep value _ hprod hby, rfl, rfl, fun hquiet => List.forall_mem_cons.2 ⟨rfl, hquiet⟩⟩

/-- Behind the value of the first head, the end is shifted and all is accepted. -/
theorem step_end (acts : Actions σ V) {m₀ : Machine σ V} {value : V} {r : Reduction} {q : Nat}
    (hbelow : m.stack.below = m₀.stack.frames) (hvalue : m.stack.top.value = some value)
    (hf : m.Faces []) (hgo : t.goto? m.stack.top.state Kind.eof.num = some q) (hq : q < t.rows.size)
    (hnone : t.goto? q Kind.eof.num = none) (hr : t.reduce? q = some r)
    (hline : r.newlineOnly = false) (hsize : r.size = 2) (hprod : r.prod = 0) :
    ∃ m' last, m.Calm t acts m' ∧ m'.step t acts = .done (some value) last ∧
      last.calls = m'.calls ∧
      last.memory = acts.disposeAll (acts.dispose (acts.token m.memory m.token).2
        (acts.token m.memory m.token).1) m₀.stack.values ∧
      ((∀ n ∈ m'.notes, n.isError = false) → ∀ n ∈ last.notes, n.isError = false) := by
  rw [← show m.token.kind.num = Kind.eof.num from hf.num_eq] at hgo
  obtain ⟨m', hcalm, hpushed, hf'⟩ := step_shift acts (hf.plain (by simp)) hgo hq
  rw [hf.2] at hf'
  rw [← hpushed.state] at hnone hr
  rw [← show m'.token.kind.num = Kind.eof.num from hf'.num_eq] at hnone
  -- the two frames above the first are the body of the start production
  have hframes : m'.stack.frames = [m'.stack.top, m.stack.top] ++ m₀.stack.frames := by
    rw [← hbelow, Stack.frames, hpushed.below]
    rfl
  have hvalues : [m'.stack.top, m.stack.top].reverse.filterMap Frame.value =
      [value, (acts.token m.memory m.token).1] := by
    simp [hvalue, hpushed.value]
  obtain ⟨last, hdone, hcalls, hmemory, hquiet⟩ := step_accept acts (hf'.plain (by simp)) hnone hr
    hline hframes hsize.symm hprod hvalues
  refine ⟨m', last, hcalm, hdone, hcalls, ?_, hquiet⟩
  rw [hmemory, hpushed.memory]
  rfl

/-! ## Trees -/

/-- Tokens that a machine can meet: none is about layout, and all are symbols. -/
structure Readable (g : Grammar) (tokens : List Token) : Prop where
  plain : ∀ u ∈ tokens, u.kind.isLayout = false
  terminal : ∀ u ∈ tokens, g.isTerminal u.kind.num = true

theorem Readable.next_ne {g : Grammar} (h : Readable g tokens) :
    nextSymbol tokens ≠ Kind.newline.num := by
  cases tokens with
  | nil => decide
  | cons u rest =>
    intro heq
    have hplain := h.plain u (by simp)
    rw [Kind.num_inj heq, Kind.isLayout] at hplain
    cases hplain

theorem Readable.right {g : Grammar} {rest : List Token} (h : Readable g (tokens ++ rest)) :
    Readable g rest :=
  ⟨fun u hu => h.plain u (List.mem_append_right _ hu),
    fun u hu => h.terminal u (List.mem_append_right _ hu)⟩

/-- A machine that waits for the symbol of a tree makes its value. -/
def TreeRuns (g : Grammar) (t : Table) (has : Nat → Item → Prop) (ahead : Nat → Item → Nat → Prop)
    (acts : Actions σ V) (tree : Tree) : Prop :=
  ∀ (m : Machine σ V) (i : Item) (tokens rest : List Token), tree.leaves = tokens.map Tree.leaf →
    m.Faces (tokens ++ rest) → Readable g (tokens ++ rest) → has m.stack.top.state i →
    i.next? g = some (tree.symbol g) → i.Next g (ahead m.stack.top.state i) (nextSymbol rest) →
    ∃ m' q, Runs t acts tree.count m m' ∧ m.Pushed m' q (tree.fold acts m.memory) ∧
      t.goto? m.stack.top.state (tree.symbol g) = some q ∧ m'.Faces rest

section

variable {g : Grammar} {has : Nat → Item → Prop} {ahead : Nat → Item → Nat → Prop}

/-- What comes next after some trees is what their symbols begin with, or what comes behind. -/
theorem next_of_trees {i : Item} {trees : List Tree} {rest : List Token} {after : Nat → Prop}
    (hb : Tree.Begins g (Tree.leavesOf trees) (i.rest g))
    (hleaves : Tree.leavesOf trees = tokens.map Tree.leaf) (hr : Readable g (tokens ++ rest))
    (hafter : after (nextSymbol rest)) : i.Next g after (nextSymbol (tokens ++ rest)) := by
  cases tokens with
  | nil => exact Or.inr ⟨hb.empty hleaves, hafter⟩
  | cons u tokens => exact Or.inl (hb.first u _ hleaves (hr.terminal u (by simp)))

/-- A machine that waits for the rest of a body makes the values of its trees. -/
theorem trees_run (hd : t.Decides g has ahead) {trees : List Tree}
    (hruns : ∀ tree ∈ trees, TreeRuns g t has ahead acts tree)
    (hbegins : ∀ tree ∈ trees, Tree.Begins g tree.leaves [tree.symbol g]) (m : Machine σ V)
    (i : Item) (tokens rest : List Token) (hleaves : Tree.leavesOf trees = tokens.map Tree.leaf)
    (hf : m.Faces (tokens ++ rest)) (hr : Readable g (tokens ++ rest))
    (hi : has m.stack.top.state i) (hbody : trees.map (Tree.symbol g) = (g.body i.prod).drop i.dot)
    (hahead : ahead m.stack.top.state i (nextSymbol rest)) :
    ∃ m' popped, Runs t acts (Tree.countAll trees) m m' ∧
      m'.stack.frames = popped ++ m.stack.frames ∧ popped.length = trees.length ∧
      popped.reverse.filterMap Frame.value = (Tree.foldAll acts m.memory trees).1 ∧
      m'.memory = (Tree.foldAll acts m.memory trees).2 ∧
      ahead m'.stack.top.state ⟨i.prod, i.dot + trees.length⟩ (nextSymbol rest) ∧
      m'.Faces rest := by
  induction trees generalizing m i tokens with
  | nil =>
    obtain rfl : tokens = [] := List.map_eq_nil_iff.1 hleaves.symm
    exact ⟨m, [], .refl m, rfl, rfl, rfl, rfl, hahead, hf⟩
  | cons tree trees ih =>
    obtain ⟨tokens, tokens', rfl, htree, htrees⟩ := List.map_eq_append_iff.1 hleaves.symm
    rw [List.append_assoc] at hf hr
    have hr' : Readable g (tokens' ++ rest) := hr.right
    have hnext : i.next? g = some (tree.symbol g) := by
      rw [Item.next?, ← List.head?_drop, ← hbody]
      rfl
    have hrest : trees.map (Tree.symbol g) = i.rest g := by
      rw [Item.rest, ← List.drop_drop, ← hbody]
      rfl
    have hb := Tree.Begins.ofTrees fun tree htree => hbegins tree (List.mem_cons_of_mem _ htree)
    rw [hrest] at hb
    obtain ⟨m₁, q, hrun, hpushed, hgo, hf₁⟩ := hruns tree (by simp) m i tokens (tokens' ++ rest)
      htree.symm hf hr hi hnext (next_of_trees hb htrees.symm hr' hahead)
    -- behind the tree, the dot of the item has moved
    obtain ⟨q', hgo', hi', hahead'⟩ := hd.goto _ i _ hi hnext
    obtain rfl := Option.some.inj (hgo.symm.trans hgo')
    obtain ⟨m', popped, hrun', hframes, hlen, hvalues, hmemory, hlast, hf'⟩ :=
      ih (fun tree htree => hruns tree (by simp [htree]))
        (fun tree htree => hbegins tree (by simp [htree])) m₁ i.advance tokens' htrees.symm hf₁ hr'
        (hpushed.state ▸ hi') hrest (hpushed.state ▸ hahead' _ hahead)
    rw [hpushed.memory] at hvalues hmemory
    refine ⟨m', popped ++ [m₁.stack.top], hrun.trans hrun', ?_, by simp [hlen], ?_, hmemory, ?_, hf'⟩
    · rw [hframes, List.append_assoc, List.singleton_append, ← hpushed.below]
      rfl
    · rw [List.reverse_append, List.filterMap_append, hvalues, List.reverse_singleton]
      simp [hpushed.value, Tree.foldAll]
    · rw [List.length_cons, Nat.add_comm trees.length 1, ← Nat.add_assoc]
      exact hlast

/-- **A machine follows a derivation tree.** -/
theorem tree_runs (acts : Actions σ V) (hg : g.WellFormed) (hb : t.Backed g has)
    (hd : t.Decides g has ahead) (hline : ∀ p, (g.reductionBy p).newlineOnly = false)
    {tree : Tree} (h : tree.IsDerivation g) : TreeRuns g t has ahead acts tree := by
  induction h with
  | leaf token =>
    intro m i tokens rest hleaves hf hr hi hnext _
    obtain ⟨u, rest', rfl, hu, hrest'⟩ := List.map_eq_cons_iff.1 hleaves.symm
    cases hu
    obtain rfl := List.map_eq_nil_iff.1 hrest'
    obtain ⟨q, hgo, -, -⟩ := hd.goto _ i _ hi hnext
    obtain ⟨rfl, hinput⟩ := hf
    obtain ⟨m', hcalm, hpushed, hf'⟩ := step_shift acts (hr.plain m.token (by simp)) hgo
      (hb.target _ _ _ hgo).1
    rw [hinput] at hf'
    exact ⟨m', q, hcalm.runs, hpushed, hgo, hf'⟩
  | error n token =>
    intro m i tokens rest hleaves
    cases tokens with
    | nil => cases hleaves
    | cons u tokens => cases hleaves
  | @node p children hp hbody hchildren ih =>
    intro m i tokens rest hleaves hf hr hi hnext hahead
    have hr' : Readable g rest := hr.right
    obtain ⟨hstart, hpredict⟩ := hd.predict _ i p hi hp hnext
    obtain ⟨m₁, popped, hrun, hframes, hlen, hvalues, hmemory, hlast, hf₁⟩ :=
      trees_run hd ih (fun c hc => (hchildren c hc).begins hg) m ⟨p, 0⟩ tokens rest hleaves hf hr
        hstart hbody (hpredict _ hr'.next_ne hahead)
    have hsize : children.length = (g.body p).length := by rw [← hbody, List.length_map]
    rw [Nat.zero_add, hsize] at hlast
    obtain ⟨hgo, hreduce⟩ := hd.reduce _ p _ hr'.next_ne hlast
    obtain ⟨q, hgoto, -, -⟩ := hd.goto _ i _ hi hnext
    -- nothing waits for the start symbol
    have hprod : p ≠ 0 := by
      rintro rfl
      exact hg.start i.prod (List.mem_of_getElem? hnext)
    rw [← hf₁.num_eq] at hgo
    obtain ⟨m', hcalm, htoken, hinput, hbelow, hstate, hvalue, hmemory'⟩ :=
      step_reduce acts (hf₁.plain hr'.plain) hgo hreduce (hline p) hframes (hlen.trans hsize) hprod
        hgoto (hb.target _ _ _ hgoto).1
    rw [hvalues, hmemory] at hvalue hmemory'
    refine ⟨m', q, hrun.trans hcalm.runs, ⟨hbelow, hstate, hvalue, hmemory'⟩, hgoto, ?_⟩
    cases rest with
    | nil => exact ⟨by rw [htoken]; exact hf₁.1, by rw [hinput]; exact hf₁.2⟩
    | cons u rest => exact ⟨by rw [htoken]; exact hf₁.1, by rw [hinput]; exact hf₁.2⟩

/-- A parser that has met a derivation of the first head accepts. -/
theorem start_runs (acts : Actions σ V) (hg : g.WellFormed) (hb : t.Backed g has)
    (hd : t.Decides g has ahead) (hline : ∀ p, (g.reductionBy p).newlineOnly = false)
    {tree : Tree} (h : tree.IsDerivation g) (hsym : g.body 0 = [tree.symbol g, Kind.eof.num]) {input : Input}
    (hleaves : tree.leaves = input.tokens.map Tree.leaf) (hr : Readable g input.tokens)
    (memory : σ) :
    ∃ m' last, Runs t acts (tree.count + 1) (start t memory input) m' ∧
      m'.step t acts = .done (some (tree.fold acts memory).1) last ∧ last.calls = m'.calls ∧
      ∀ n ∈ last.notes, n.isError = false := by
  have hf : (start t memory input : Machine σ V).Faces input.tokens := faces_next rfl
  have heof : Kind.eof.num ∈ (g.firstOfSeq g.firstSets [Kind.eof.num]).1.keys :=
    Grammar.mem_firstOfSeq_cons.2
      (Or.inl (Grammar.mem_firstSets_terminal hg.indexed (hg.predefined _ (by decide))))
  have hrest : (⟨0, 0⟩ : Item).rest g = [Kind.eof.num] := by simp [Item.rest, hsym]
  have hnext : (⟨0, 0⟩ : Item).next? g = some (tree.symbol g) := by simp [Item.next?, hsym]
  have hnext' : (⟨0, 1⟩ : Item).next? g = some Kind.eof.num := by simp [Item.next?, hsym]
  -- the tree, then the end
  obtain ⟨m₁, q₁, hrun, hpushed, hgo, hf₁⟩ := tree_runs acts hg hb hd hline h
    (start t memory input) ⟨0, 0⟩ input.tokens [] hleaves (by rwa [List.append_nil])
    (by rwa [List.append_nil]) hd.start hnext (Or.inl (by rw [hrest]; exact heof))
  obtain ⟨q₁', hgo', hi₁, -⟩ := hd.goto _ _ _ hd.start hnext
  obtain rfl := Option.some.inj (hgo.symm.trans hgo')
  obtain ⟨q₂, hgo₂, hi₂, -⟩ := hd.goto q₁ _ _ hi₁ hnext'
  -- the two frames above the first are the body of the start production
  have hi₂' : has q₂ ⟨0, (g.body 0).length⟩ := by rw [hsym]; exact hi₂
  obtain ⟨hnone, hreduce⟩ := hd.accept q₂ hi₂'
  rw [← hpushed.state] at hgo₂
  obtain ⟨m₂, last, hcalm, hdone, hcalls, -, hquiet⟩ := step_end acts hpushed.below hpushed.value
    hf₁ hgo₂ (hb.target _ _ _ hgo₂).1 hnone hreduce (hline 0) (by simp [Grammar.reductionBy, hsym])
    rfl
  have hruns := hrun.trans hcalm.runs
  refine ⟨m₂, last, hruns, hdone, hcalls, hquiet (hruns.quiet fun n hn => ?_)⟩
  rw [List.mem_singleton.1 hn]
  rfl

end

end Machine

/-! ## Sentences -/

/-- A grammar in which no symbol has a precedence and nothing is about layout. -/
structure Grammar.Plain (g : Grammar) : Prop where
  precedence : ∀ sym, g.precedenceOf sym = none
  layout : ∀ k : Kind, k.isLayout = true → ∀ p, k.num ∉ g.body p
  boundary : ∀ p ∈ g.productions, p.boundary = .anywhere

/-- **A parser accepts the sentences of its grammar.**  Where nothing has a precedence and
    nothing is about layout, where there are no conflicts and states have one complete item at
    most, and where the end is not shifted when all has been met, every sentence is parsed
    without an error; what is returned is the value of a derivation tree of it. -/
theorem parse_complete {code : List CodeNode} {g : Grammar} (hread : Grammar.read code = .ok g)
    (hplain : g.Plain) {strength : Strength} (hl : strength.LooksAhead)
    (hconf : (Automaton.build g strength).conflicts = [])
    (hone : ∀ s ∈ (Automaton.build g strength).states, (Automaton.completeItems g s).length ≤ 1)
    (hend : ∀ q, (Automaton.build g strength).Has q ⟨0, 2⟩ →
      (Automaton.build g strength).table.goto? q Kind.eof.num = none)
    {first : Nat} (hfirst : (g.body 0)[0]? = some first) {input : Input}
    (hterm : ∀ u ∈ input.tokens, g.isTerminal u.kind.num = true)
    (hderives : g.Derives [first] (input.tokens.map fun u => u.kind.num)) :
    ∃ tree : Tree, tree.IsDerivation g ∧ tree.symbol g = first ∧
      tree.leaves = input.tokens.map Tree.leaf ∧
      ∀ (acts : Actions σ V) (memory : σ) (budget : Nat), tree.count < budget →
        ∃ last, parse (Automaton.build g strength).table acts memory input budget =
            ⟨.finished (some (tree.fold acts memory).1), last⟩ ∧
          ∀ n ∈ last.notes, n.isError = false := by
  have hg := Grammar.read_wellFormed hread
  have hsound := Automaton.build_sound (Grammar.read_wellFormed hread).indexed strength
  obtain ⟨first', hbody⟩ := hg.start_body
  obtain rfl : first' = first := by simpa [hbody] using hfirst
  have hd := hsound.decides hg hl (fun q s hs => Automaton.build_complete hg.indexed hs)
    hplain.precedence hconf hone (by rwa [hbody])
  have hline (p : Nat) : (g.reductionBy p).newlineOnly = false := by
    unfold Grammar.reductionBy
    cases hp : g.productions[p]? with
    | none => rfl
    | some prod => simp [hplain.boundary prod (Array.mem_of_getElem? hp)]
  have hr : Machine.Readable g input.tokens := by
    refine ⟨fun u hu => Bool.eq_false_iff.2 fun hlay => ?_, hterm⟩
    rcases hderives.mem (List.mem_map_of_mem hu) with hmem | ⟨p, hmem⟩
    · refine hplain.layout u.kind hlay 0 ?_
      rw [hbody, List.mem_singleton.1 hmem]
      exact List.mem_cons_self ..
    · exact hplain.layout u.kind hlay p hmem
  obtain ⟨trees, hsymbols, hleaves, hderived⟩ := hderives.exists_trees
  obtain ⟨tree, rest, rfl, hsym, hrest⟩ := List.map_eq_cons_iff.1 hsymbols
  obtain rfl := List.map_eq_nil_iff.1 hrest
  rw [Tree.leavesOf, Tree.leavesOf, List.append_nil] at hleaves
  have htree := hderived tree (by simp)
  refine ⟨tree, htree, hsym, hleaves, fun acts memory budget hbudget => ?_⟩
  obtain ⟨m', last, hruns, hdone, hcalls, hquiet⟩ := Machine.start_runs acts hg
    hsound.backed hd hline htree (by rw [hbody, hsym]) hleaves hr memory
  have hm' : m'.calls = tree.count + 1 := by
    rw [hruns.calls]
    exact Nat.zero_add _
  exact ⟨last, hruns.runFor hdone hcalls (by omega) (by omega), hquiet⟩

section

open Automaton

/-- Whether the grammar of an automaton is plain, and the automaton without conflicts and with
    one complete item in a state at most. -/
def isSimple (a : Automaton) : Bool :=
  (a.grammar.symbols.all fun s => s.precedence.isNone) &&
  (a.grammar.productions.all fun p => p.boundary == .anywhere &&
    p.body.all fun s => !(Kind.ofNum s).isLayout) &&
  a.conflicts.isEmpty && a.states.all fun s => decide ((completeItems a.grammar s).length ≤ 1)

theorem isSimple_spec {a : Automaton} (h : isSimple a = true) :
    a.grammar.Plain ∧ a.conflicts = [] ∧
      ∀ s ∈ a.states, (completeItems a.grammar s).length ≤ 1 := by
  unfold isSimple at h
  simp only [Bool.and_eq_true, Array.all_eq_true_iff_forall_mem, beq_iff_eq, List.all_eq_true,
    Bool.not_eq_eq_eq_not, Bool.not_true, List.isEmpty_iff, decide_eq_true_eq,
    Option.isNone_iff_eq_none] at h
  obtain ⟨⟨⟨hs, hp⟩, hconf⟩, hone⟩ := h
  refine ⟨⟨fun sym => ?_, fun k hk p hmem => ?_, fun p hmem => (hp p hmem).1⟩, hconf, hone⟩
  · unfold Grammar.precedenceOf
    cases h : a.grammar.symbols[sym]? with
    | none => rfl
    | some s => exact hs s (Array.mem_of_getElem? h)
  · unfold Grammar.body at hmem
    cases h : a.grammar.productions[p]? with
    | none => simp [h] at hmem
    | some prod =>
      rw [h] at hmem
      have hplain := (hp prod (Array.mem_of_getElem? h)).2 k.num hmem
      rw [Kind.ofNum_num, hk] at hplain
      cases hplain

/-- Whether no state in which all has been met shifts the end. -/
def endsOnce (a : Automaton) : Bool :=
  a.states.all fun s => !(s.closure.contains ⟨0, 2⟩ && s.goTo.contains Kind.eof.num)

theorem endsOnce_spec {a : Automaton} (h : endsOnce a = true) {q : Nat} (hq : a.Has q ⟨0, 2⟩) :
    a.table.goto? q Kind.eof.num = none := by
  obtain ⟨s, hs, hmem⟩ := hq
  have htest := Array.all_eq_true_iff_forall_mem.1 h s (Array.mem_of_getElem? hs)
  rw [SortedMap.contains_iff.2 hmem] at htest
  rw [Option.eq_none_iff_forall_ne_some]
  intro q' hq'
  obtain ⟨s', hs', hfind⟩ := goto?_table.1 hq'
  obtain rfl := Option.some.inj (hs.symm.trans hs')
  rw [SortedMap.contains_iff.2 (SortedMap.mem_keys_of_find? hfind)] at htest
  cases htest

/-- A string and numbers, with nothing in front. -/
def numbered : String :=
  "S -> S NUMBER\n   | E STRING\nE -> \n"

/-- A string and a number. -/
def stringAndNumber : Input :=
  .ofList [(.string, ['x']), (.number, ['1'])]

set_option maxRecDepth 100000 in
/-- The empty head in front of the string is reduced before anything is shifted. -/
theorem parse_complete_numbered : ∃ (g : Grammar) (tree : Tree),
    Grammar.readText numbered = .ok g ∧ g.Plain ∧
    (build g .lalr).conflicts = [] ∧
    (∀ s ∈ (build g .lalr).states, (completeItems g s).length ≤ 1) ∧
    g.Derives [13] (stringAndNumber.tokens.map fun u => u.kind.num) ∧ tree.IsDerivation g ∧
    tree.leaves = stringAndNumber.tokens.map Tree.leaf ∧
    ∃ last, parse (build g .lalr).table treeActions {} stringAndNumber (tree.count + 1) =
        ⟨.finished (some (tree.fold treeActions {}).1), last⟩ ∧
      ∀ n ∈ last.notes, n.isError = false := by
  obtain ⟨g, hg, htest⟩ := Grammar.exists_readText numbered (fun g =>
    isSimple (build g .lalr) && endsOnce (build g .lalr) &&
    (stringAndNumber.tokens.all fun u => g.isTerminal u.kind.num) &&
    (List.range 4).map g.head == [12, 13, 13, 14] &&
    (List.range 4).map g.body == [[13, 11], [13, 1], [14, 4], []] && g.productions.size == 4)
    (by decide +kernel)
  simp only [Bool.and_eq_true, beq_iff_eq] at htest
  obtain ⟨⟨⟨⟨⟨hsimple, hend⟩, hterm⟩, hheads⟩, hbodies⟩, hsize⟩ := htest
  obtain ⟨hplain, hconf, hone⟩ := isSimple_spec hsimple
  rw [(build_sound (Grammar.read_wellFormed hg).indexed .lalr).grammar_eq] at hplain hone
  simp only [List.range_succ, List.range_zero, List.nil_append, List.cons_append, List.map_cons,
    List.map_nil, List.cons.injEq, and_true] at hheads hbodies
  obtain ⟨-, hhead₁, hhead₂, hhead₃⟩ := hheads
  obtain ⟨hbody₀, hbody₁, hbody₂, hbody₃⟩ := hbodies
  have hderives : g.Derives [13] (stringAndNumber.tokens.map fun u => u.kind.num) := by
    have h₁ := Grammar.Rewrites.intro (g := g) (p := 1) (by omega) [] []
    have h₂ := Grammar.Rewrites.intro (g := g) (p := 2) (by omega) [] [1]
    have h₃ := Grammar.Rewrites.intro (g := g) (p := 3) (by omega) [] [4, 1]
    rw [hhead₁, hbody₁] at h₁
    rw [hhead₂, hbody₂] at h₂
    rw [hhead₃, hbody₃] at h₃
    exact .head h₁ (.head h₂ (.single h₃))
  have hfirst : (g.body 0)[0]? = some 13 := by rw [hbody₀]; rfl
  obtain ⟨tree, htree, -, hleaves, hparse⟩ := parse_complete hg hplain (Or.inr (Or.inl rfl)) hconf
    hone (fun q => endsOnce_spec hend) hfirst (fun u hu => List.all_eq_true.1 hterm u hu) hderives
  exact ⟨g, tree, hg, hplain, hconf, hone, hderives, htree, hleaves,
    hparse treeActions {} _ (Nat.lt_succ_self _)⟩

/-- A sentence may go on behind two ends. -/
def behindEnds : String :=
  "S -> S '$eof' '$eof' NUMBER\n   | IDENTIFIER\n"

/-- A word. -/
def oneWord : Input :=
  .ofList [(.word, ['x'])]

set_option maxRecDepth 100000 in
/-- **An end that can be shifted is shifted**, also where the sentence is complete: without
    conflicts, a word is a sentence and is not accepted. -/
theorem parse_incomplete : ∃ g, Grammar.readText behindEnds = .ok g ∧ g.Plain ∧
    (build g .lalr).conflicts = [] ∧
    (∀ s ∈ (build g .lalr).states, (completeItems g s).length ≤ 1) ∧
    (g.body 0)[0]? = some 13 ∧ (∀ u ∈ oneWord.tokens, g.isTerminal u.kind.num = true) ∧
    g.Derives [13] (oneWord.tokens.map fun u => u.kind.num) ∧
    ∃ last, parse (build g .lalr).table treeActions {} oneWord 10 = ⟨.finished none, last⟩ ∧
      ∃ n ∈ last.notes, n.isError = true := by
  obtain ⟨g, hg, htest⟩ := Grammar.exists_readText behindEnds (fun g =>
    isSimple (build g .lalr) && (oneWord.tokens.all fun u => g.isTerminal u.kind.num) &&
    g.body 0 == [13, 11] && g.head 2 == 13 && g.body 2 == [2] && g.productions.size == 3 &&
    (parse (build g .lalr).table treeActions {} oneWord 10).result?.any Option.isNone &&
    (parse (build g .lalr).table treeActions {} oneWord 10).machine.notes.any Note.isError)
    (by decide +kernel)
  simp only [Bool.and_eq_true, beq_iff_eq] at htest
  obtain ⟨⟨⟨⟨⟨⟨⟨hsimple, hterm⟩, hbody₀⟩, hhead⟩, hbody⟩, hsize⟩, hresult⟩, herror⟩ := htest
  obtain ⟨hplain, hconf, hone⟩ := isSimple_spec hsimple
  rw [(build_sound (Grammar.read_wellFormed hg).indexed .lalr).grammar_eq] at hplain hone
  have hstep := Grammar.Rewrites.intro (g := g) (p := 2) (by omega) [] []
  rw [hhead, hbody] at hstep
  refine ⟨g, hg, hplain, hconf, hone, by rw [hbody₀]; rfl, fun u hu => List.all_eq_true.1 hterm u hu,
    .single hstep, ?_⟩
  obtain ⟨value, hresult, hnone⟩ := (Option.any_eq_true _ _).1 hresult
  have hverdict := Run.verdict_of_result? hresult
  rw [Option.isNone_iff_eq_none.1 hnone] at hverdict
  exact ⟨_, by rw [← hverdict], List.any_eq_true.1 herror⟩

end

end LayoutLR
