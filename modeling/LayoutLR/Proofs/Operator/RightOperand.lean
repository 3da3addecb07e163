/-
  Layout-aware LR toolkit — what stands to the right of an operator.

  A node whose production starts with its own head was made after the token behind
  that head was shifted.  Where such a node ends the body of another production,
  that production could have been reduced before the token; so the token wins over
  it.  To the right of an operator that groups to the left, or not at all, there
  is no operator of the same level.  To its left there may be one: `NON` does not
  keep operators of one level apart.  All this asks that the production has the
  precedence of its operator, and so that the operator is declared before it.

  * `Tree.Part`: the trees inside a tree;
  * `Grammar.Infix`: productions with an operator between two heads;
  * `Declarable.infix_rule`: the productions of declared operators are such;
  * `Stack.Nested`, `Machine.Move.nested`: what is known of the trees on a stack;
  * `right_operand_level`: the operators to the right of an operator;
  * `non_operator_chained`: an operator of the same level to its left, and to its right where
    it is declared too late.
-/
import LayoutLR.Proofs.Automaton.Settled
import LayoutLR.Proofs.Grammar.Associativity
import LayoutLR.Proofs.Operator.Grouping
import LayoutLR.Proofs.Parser.Derivation

namespace LayoutLR

/-! ## Trees -/

/-- A tree inside a tree. -/
inductive Tree.Part (x : Tree) : Tree → Prop
  | self : Part x x
  | child {prod : Nat} {children : List Tree} {c : Tree} (hc : c ∈ children) (h : Part x c) :
      Part x (.node prod children)

namespace Grammar

/-- A production with an operator between two heads, both of one precedence. -/
structure Infix (g : Grammar) (prod op : Nat) (p : Precedence) : Prop where
  body : g.body prod = [g.head prod, op, g.head prod]
  terminal : g.isTerminal op = true
  operator : g.precedenceOf op = some p
  production : g.Ranks prod p

/-- A production that starts with its own head, and the symbol behind it. -/
def Resumes (g : Grammar) (prod sym : Nat) : Prop :=
  ∃ rest, g.body prod = g.head prod :: sym :: rest

/-- Whether a production is one of an operator. -/
def isInfix (g : Grammar) (prod op : Nat) (p : Precedence) : Bool :=
  g.body prod == [g.head prod, op, g.head prod] && g.isTerminal op && g.precedenceOf op == some p &&
    g.productions[prod]?.bind Production.precedence == some p

theorem infix_of_isInfix {g : Grammar} {prod op : Nat} {p : Precedence}
    (h : g.isInfix prod op p = true) : g.Infix prod op p := by
  simp only [isInfix, Bool.and_eq_true, beq_iff_eq] at h
  exact ⟨h.1.1.1, h.1.1.2, h.1.2, h.2⟩

theorem Infix.resumes {g : Grammar} {prod op : Nat} {p : Precedence} (h : g.Infix prod op p) :
    g.Resumes prod op :=
  ⟨_, h.body⟩

/-- A node of the second production may end one of the first: the token behind its head wins
    over the first production. -/
def Nests (g : Grammar) (prod prod' : Nat) : Prop :=
  ∀ (sym : Nat) (p u : Precedence), g.Resumes prod' sym → g.isTerminal sym = true →
    g.Ranks prod p → g.precedenceOf sym = some u → u.allowsShiftOver p = true

end Grammar

/-- **Productions behind the declarations of their operators have the precedences of these.** -/
theorem Declarable.infix_rule {levels : List OperatorLevel} {rules : List (List Char)}
    (h : Declarable levels rules) {p : Nat} (hp : p < rules.length) :
    (operatorGrammar levels rules).Infix (p + 1) (operatorSymbol levels rules rules[p])
      (declaredFrom 0 levels rules[p]) := by
  obtain ⟨hhead, hbody, hprecedence, -⟩ := h.operatorRule hp
  obtain ⟨-, hterminal, hoperator, -⟩ := h.operator (h.mem hp)
  exact ⟨by rw [hbody, hhead], hterminal, hoperator, hprecedence⟩

/-- The last child of a node may end it. -/
def Tree.Nested (g : Grammar) : Tree → Prop
  | .leaf _ | .error _ _ => True
  | .node prod children =>
    ∀ prod' children', children.getLast? = some (.node prod' children') → g.Nests prod prod'

/-! ## Stacks -/

variable {g : Grammar} {t : Table} {has : Nat → Item → Prop}

/-- What is known of a tree that was pushed with a state: all nodes inside are nested, and the
    symbol behind the head of its production leads on from the state. -/
structure Tree.Grown (g : Grammar) (t : Table) (q : Nat) (v : Tree) : Prop where
  nested : ∀ x : Tree, x.Part v → x.Nested g
  resumed : ∀ prod children sym, v = .node prod children → g.Resumes prod sym →
    ∃ q', t.goto? q sym = some q'

theorem Tree.grown_leaf (q : Nat) (token : Token) : (Tree.leaf token).Grown g t q := by
  refine ⟨fun x hx => ?_, fun prod children sym h => by cases h⟩
  cases hx
  trivial

theorem Tree.grown_error (q n : Nat) (token : Token) : (Tree.error n token).Grown g t q := by
  refine ⟨fun x hx => ?_, fun prod children sym h => by cases h⟩
  cases hx
  trivial

namespace Stack

/-- All trees on a stack are grown. -/
def Nested (g : Grammar) (t : Table) (s : Stack Tree) : Prop :=
  ∀ x ∈ s.view, ∀ v, x.2.2 = some v → v.Grown g t x.1

theorem Nested.push {s stack : Stack Tree} {q sym : Nat} {v : Tree} (h : s.Nested g t)
    (hview : stack.view = (q, sym, some v) :: s.view) (hv : v.Grown g t q) : stack.Nested g t := by
  intro x hx v' hv'
  rw [hview] at hx
  rcases List.mem_cons.1 hx with rfl | hx
  · obtain rfl := Option.some.inj hv'
    exact hv
  · exact h x hx v' hv'

theorem Nested.suffix {s rest : Stack Tree} {popped : List (Frame Tree)} (h : s.Nested g t)
    (hframes : s.frames = popped ++ rest.frames) : rest.Nested g t := by
  intro x hx
  refine h x ?_
  rw [Stack.view, hframes, List.map_append]
  exact List.mem_append_right _ hx

theorem Nested.frame {s : Stack Tree} (h : s.Nested g t) {f : Frame Tree} (hf : f ∈ s.frames)
    {v : Tree} (hv : f.value = some v) : v.Grown g t f.state :=
  h f.view (List.mem_map_of_mem hf) v hv

end Stack

/-! ## Reductions -/

/-- Where a head is pushed, the first symbol of its body was before, if it is the head itself;
    so the second symbol leads on from there. -/
theorem Table.Path.resumes {V : Type} {popped : List (Frame V)} {rest : Stack V} {prod sym next : Nat}
    (hp : t.Path (popped ++ rest.frames)) (hsyms : (popped.map Frame.sym).reverse = g.body prod)
    (hgo : t.goto? rest.top.state (g.head prod) = some next) (hr : g.Resumes prod sym) :
    ∃ q', t.goto? next sym = some q' := by
  obtain ⟨later, hbody⟩ := hr
  rw [hbody, ← List.map_reverse] at hsyms
  obtain ⟨first, l, hfirst, hhead, hl⟩ := List.map_eq_cons_iff.1 hsyms
  obtain ⟨second, l', rfl, hsecond, -⟩ := List.map_eq_cons_iff.1 hl
  -- the two frames lie on the rest
  have hpopped : popped = l'.reverse ++ [second, first] := by
    rw [← List.reverse_reverse popped, hfirst]
    simp
  rw [hpopped, List.append_assoc] at hp
  have hpath : t.Path (second :: first :: rest.frames) := hp.suffix
  obtain ⟨-, hgo₂, -, hgo₁, -⟩ := hpath
  rw [hhead, hgo] at hgo₁
  rw [hsecond, ← Option.some.inj hgo₁] at hgo₂
  exact ⟨_, hgo₂⟩

/-- The table prefers a reduction to tokens that do not win over it. -/
def Table.Prefers (t : Table) (g : Grammar) : Prop :=
  ∀ (q sym q' : Nat) (r : Reduction) (p u : Precedence), t.reduce? q = some r →
    t.goto? q sym = some q' → g.isTerminal sym = true → g.Ranks r.prod p →
    g.precedenceOf sym = some u → u.allowsShiftOver p = true

theorem Automaton.table_prefers (hindexed : g.Indexed) (strength : Strength) :
    (build g strength).table.Prefers g := by
  intro q sym q' r p u hr hgo hterm hp hu
  obtain ⟨s, prod, hs, hred, rfl⟩ := reduce?_table.1 hr
  obtain ⟨s', hs', hfind⟩ := goto?_table.1 hgo
  obtain rfl := Option.some.inj (hs.symm.trans hs')
  exact allowsShiftOver_of_goTo hindexed hs (SortedMap.mem_keys_of_find? hfind) hterm hred hp hu

namespace Machine

variable {m m' : Machine TreeMemory Tree}

/-- The tree of a reduction is grown. -/
theorem grown_node (hpref : t.Prefers g) (hm : m.stack.Nested g t) (hp : t.Path m.stack.frames)
    {r : Reduction} {popped : List (Frame Tree)} {rest : Stack Tree} {next : Nat}
    (hr : t.reduce? m.stack.top.state = some r) (hframes : m.stack.frames = popped ++ rest.frames)
    (hsyms : (popped.map Frame.sym).reverse = g.body r.prod)
    (hvals : ∀ f ∈ popped, ∃ v, f.value = some v)
    (hgo : t.goto? rest.top.state (g.head r.prod) = some next) :
    (Tree.node r.prod (popped.reverse.filterMap Frame.value)).Grown g t next := by
  have hmem {f : Frame Tree} (hf : f ∈ popped) : f ∈ m.stack.frames := by
    rw [hframes]
    exact List.mem_append_left _ hf
  refine ⟨fun x hx => ?_, fun prod children sym heq hres => ?_⟩
  · cases hx with
    | self =>
      intro prod' children' hlast sym p u hres hterm hp hu
      -- the last child is the tree on top
      cases popped with
      | nil => cases hlast
      | cons top others =>
        obtain ⟨v, hv⟩ := hvals top (by simp)
        have htop : top = m.stack.top := (List.cons.inj hframes).1.symm
        have hnode : v = .node prod' children' := by
          rw [List.reverse_cons, List.filterMap_append] at hlast
          simpa [hv] using hlast
        obtain ⟨q', hgo⟩ := (hm.frame (hmem (by simp)) hv).resumed _ _ sym hnode hres
        rw [htop] at hgo
        exact hpref _ _ _ _ _ _ hr hgo hterm hp hu
    | child hc hx =>
      obtain ⟨f, hf, hv⟩ := List.mem_filterMap.1 hc
      exact (hm.frame (hmem (List.mem_reverse.1 hf)) hv).nested x hx
  · obtain ⟨rfl, -⟩ := Tree.node.inj heq
    rw [hframes] at hp
    exact hp.resumes hsyms hgo hres

/-- Every step keeps the trees grown. -/
theorem Move.nested (hpref : t.Prefers g) (hb : t.Backed g has) (hp : t.Path m.stack.frames)
    (h : Move t treeActions m (.next m')) (hm : m.stack.Nested g t) : m'.stack.Nested g t := by
  generalize hprog : (Progress.next m' : Progress TreeMemory Tree) = prog at h
  cases h with
  | layout hverb hview =>
    cases hprog
    intro x hx
    exact hm x (hview ▸ hx)
  | shift _ hgo hview =>
    cases hprog
    exact hm.push hview (Tree.grown_leaf _ _)
  | @reduce r verb popped rest stack next hr hne hverb hpop hgo hview =>
    cases hprog
    obtain ⟨popped', rest', hpop', hframes, -, hsyms, hvals, -⟩ := hp.reduce hb hr
    obtain ⟨rfl, rfl⟩ := Prod.mk.inj (Option.some.inj (hpop.symm.trans hpop'))
    have hsym : r.sym = g.head r.prod := by rw [(hb.reduce _ _ hr).1]; rfl
    rw [hsym] at hgo
    exact (hm.suffix hframes).push hview (grown_node hpref hm hp hr hframes hsyms hvals hgo)
  | resume hfind hskip hview =>
    cases hprog
    obtain ⟨top, -, hframes, -⟩ := findError_spec hfind
    exact (hm.suffix hframes).push hview (Tree.grown_error _ _ _)
  | accept => cases hprog
  | giveUp => cases hprog

theorem after_nested (hpref : t.Prefers g) (hb : t.Backed g has) (hne : g.body 0 ≠ [])
    {input : Input} {n : Nat} (h : (start t {} input).after t treeActions n = some m) :
    t.Path m.stack.frames ∧ m.stack.Nested g t := by
  refine after_induction (P := fun m => t.Path m.stack.frames ∧ m.stack.Nested g t)
    (fun m₁ m₂ hm hstep => ?_) n _ m ⟨start_path t _ input, fun x hx v hv => ?_⟩ h
  · have hmove := (step_turn hb hne hm.1 hstep).move
    exact ⟨hmove.path hb hm.1, hmove.nested hpref hb hm.1 hm.2⟩
  · rw [List.mem_singleton.1 hx] at hv
    cases hv

/-- A tree that is accepted was on the stack. -/
theorem Move.accepted_nested {tree : Tree} (h : Move t treeActions m (.done (some tree) m'))
    (hm : m.stack.Nested g t) :
    ∀ x : Tree, x.Part tree → x.Nested g := by
  generalize hprog : (Progress.done (some tree) m' : Progress TreeMemory Tree) = prog at h
  cases h with
  | @accept r popped rest value others hr hzero hpop hbody =>
    obtain rfl : tree = value := (by simpa using hprog : tree = value ∧ _).1
    have hmem : tree ∈ popped.reverse.filterMap Frame.value := by
      rw [hbody]
      exact List.mem_cons_self
    obtain ⟨f, hf, hv⟩ := List.mem_filterMap.1 hmem
    refine (hm.frame ?_ hv).nested
    rw [Stack.frames_pop? hpop]
    exact List.mem_append_left _ (List.mem_reverse.1 hf)
  | layout => cases hprog
  | shift => cases hprog
  | reduce => cases hprog
  | resume => cases hprog
  | giveUp => cases hprog

end Machine

/-- To the right of an operator there is no operator of a lower level, and one of the same level
    only if the operators of this level group to the right. -/
theorem Grammar.Infix.right_operand {code : List CodeNode} {prod prod' op op' : Nat}
    {p p' : Precedence} (hop : g.Infix prod op p) (hop' : g.Infix prod' op' p')
    (h : Grammar.read code = .ok g) {strength : Strength} {input : Input} {budget : Nat}
    {run : Run TreeMemory Tree} {tree : Tree}
    (hrun : run = parse (Automaton.build g strength).table treeActions {} input budget)
    (htree : run.verdict = .finished (some tree)) {children children' : List Tree}
    (hpart : (Tree.node prod children).Part tree)
    (hlast : children.getLast? = some (.node prod' children')) :
    p.level ≤ p'.level ∧ (p'.level = p.level → p.assoc = .right) := by
  have hg := Grammar.read_wellFormed h
  have hb := (Automaton.build_sound hg.indexed strength).backed
  have hpref := Automaton.table_prefers hg.indexed strength
  obtain ⟨n, m, hm, hstep⟩ := parse_last_step hrun htree
  obtain ⟨hp, hnested⟩ := Machine.after_nested hpref hb hg.body_ne_nil hm
  have hmove := Machine.step_move treeActions hb hg.body_ne_nil hp
  rw [hstep] at hmove
  have hnests : g.Nests prod prod' := hmove.accepted_nested hnested _ hpart prod' children' hlast
  have hwins := hnests op' p p' hop'.resumes hop'.terminal hop.production hop'.operator
  simp only [Precedence.allowsShiftOver, Bool.or_eq_true, Bool.and_eq_true, decide_eq_true_eq,
    beq_iff_eq] at hwins
  rcases hwins with hlt | ⟨hlevel, hright⟩
  · exact ⟨Nat.le_of_lt hlt, fun heq => by omega⟩
  · obtain rfl := Grammar.precedence_eq_of_level h hop'.operator hop.operator hlevel
    exact ⟨Nat.le_refl _, fun _ => hright⟩

/-- **To the right of an operator there is no operator of a lower level**, and one of the same
    level only if the operators of this level group to the right: in every grammar, where the
    productions of both have the precedences of their operators.  Operators that are declared
    before the productions, `NON` among them, give such productions. -/
theorem right_operand_level :
    (∀ {levels : List OperatorLevel} {rules : List (List Char)}, Declarable levels rules →
      ∃ g, Grammar.readText (operatorText levels rules) = .ok g ∧
        g.body (rules.length + 1) = [Kind.number.num] ∧
        ∀ (p : Nat) (hp : p < rules.length), ∃ op, g.name op = String.ofList rules[p] ∧
          g.Infix (p + 1) op (declaredFrom 0 levels rules[p])) ∧
    ∀ {code : List CodeNode} {g : Grammar}, Grammar.read code = .ok g →
      ∀ {strength : Strength} {input : Input} {budget : Nat} {run : Run TreeMemory Tree}
        {tree : Tree},
        run = parse (Automaton.build g strength).table treeActions {} input budget →
        run.verdict = .finished (some tree) →
        ∀ {prod prod' op op' : Nat} {p p' : Precedence} {children children' : List Tree},
          g.Infix prod op p → g.Infix prod' op' p' → (Tree.node prod children).Part tree →
          children.getLast? = some (.node prod' children') →
          p.level ≤ p'.level ∧ (p'.level = p.level → p.assoc = .right) := by
  refine ⟨fun h => ⟨_, h.readText, h.numberRule.2.1, fun p hp => ?_⟩, ?_⟩
  · exact ⟨_, (h.operator (h.mem hp)).2.2.2, h.infix_rule hp⟩
  · intro code g h strength input budget run tree hrun htree prod prod' op op' p p' children
      children' hop hop' hpart hlast
    exact hop.right_operand hop' h hrun htree hpart hlast

/-- The productions of a node and of its last child. -/
def Tree.lastPair? : Tree → Option (Nat × Nat)
  | .leaf _ | .error _ _ => none
  | .node prod children =>
    match children.getLast? with
    | some (.node prod' _) => some (prod, prod')
    | _ => none

/-- The productions of a node and of its first child. -/
def Tree.firstPair? : Tree → Option (Nat × Nat)
  | .node prod (.node prod' _ :: _) => some (prod, prod')
  | _ => none

theorem Tree.of_lastPair? {v : Tree} {prod prod' : Nat} (h : v.lastPair? = some (prod, prod')) :
    ∃ children children', v = .node prod children ∧
      children.getLast? = some (.node prod' children') := by
  unfold lastPair? at h
  split at h
  · cases h
  · cases h
  · split at h
    · rename_i hlast
      cases h
      exact ⟨_, _, rfl, hlast⟩
    · cases h

theorem Tree.of_firstPair? {v : Tree} {prod prod' : Nat} (h : v.firstPair? = some (prod, prod')) :
    ∃ children children', v = .node prod (.node prod' children' :: children) := by
  unfold firstPair? at h
  split at h
  · cases h
    exact ⟨_, _, rfl⟩
  · cases h

/-- Comparisons, which do not associate, of products, which bind tighter. -/
def comparedProducts : List OperatorLevel :=
  [⟨.non, [['<']]⟩, ⟨.left, [['*']]⟩]

/-- The same, where the product sign is any other mark. -/
def comparedMarks : String :=
  "$ NON '<'\n$ LEFT MARK\nE -> E '<' E\nE -> E MARK E\nE -> NUMBER\n"

set_option maxRecDepth 100000 in
/-- The productions of comparisons and products, and the product to the right of a comparison. -/
theorem right_operand_level_comparedProducts :
    (∃ g op, Grammar.readText (operatorText comparedProducts [['<'], ['*']]) = .ok g ∧
      g.name op = "<" ∧ g.Infix 1 op ⟨1, .non⟩) ∧
    ∃ g run tree children children' p p', Grammar.readText comparedMarks = .ok g ∧
      run = parse (Automaton.build g .lalr).table treeActions {} (.ofList [(.number, ['1']),
        (.reserved 0, ['<']), (.number, ['2']), (.mark, ['*']), (.number, ['3'])]) 20 ∧
      run.verdict = .finished (some tree) ∧ (Tree.node 1 children).Part tree ∧
      children.getLast? = some (.node 2 children') ∧ g.Infix 1 (Kind.reserved 0).num p ∧
      g.Infix 2 Kind.mark.num p' ∧ p.assoc = .non ∧ p.level < p'.level := by
  constructor
  · have h : Declarable comparedProducts [['<'], ['*']] :=
      ⟨by decide, by decide, by decide, by decide, by decide, by decide⟩
    obtain ⟨g, hg, -, hinfix⟩ := right_operand_level.1 h
    obtain ⟨op, hname, hop⟩ := hinfix 0 (by decide)
    exact ⟨g, op, hg, hname, hop⟩
  · obtain ⟨g, hg, htest⟩ := Grammar.exists_readText comparedMarks (fun g =>
      let run := parse (Automaton.build g .lalr).table treeActions {} (.ofList [(.number, ['1']),
        (.reserved 0, ['<']), (.number, ['2']), (.mark, ['*']), (.number, ['3'])]) 20
      run.result?.any (fun value => value.any fun tree => tree.lastPair? == some (1, 2)) &&
        g.isInfix 1 (Kind.reserved 0).num ⟨1, .non⟩ && g.isInfix 2 Kind.mark.num ⟨2, .left⟩)
      (by decide +kernel)
    simp only [Bool.and_eq_true] at htest
    obtain ⟨⟨hresult, hop⟩, hop'⟩ := htest
    obtain ⟨tree, hverdict, hpair⟩ := Run.exists_finished hresult
    obtain ⟨children, children', rfl, hlast⟩ := Tree.of_lastPair? (beq_iff_eq.1 hpair)
    have hop := Grammar.infix_of_isInfix hop
    have hop' := Grammar.infix_of_isInfix hop'
    obtain ⟨hle, hright⟩ := right_operand_level.2 hg rfl hverdict hop hop' .self hlast
    refine ⟨g, _, _, children, children', _, _, hg, rfl, hverdict, .self, hlast, hop, hop', rfl, ?_⟩
    exact Nat.lt_of_le_of_ne hle fun heq => by cases hright heq.symm

/-- Comparisons that do not associate. -/
def comparisons : String :=
  "$ NON '<'\nE -> E '<' E\nE -> NUMBER\n"

/-- Comparisons that are declared behind their production. -/
def comparisonsDeclaredLate : String :=
  "E -> E '<' E\nE -> NUMBER\n$ NON '<'\n"

/-- A comparison that is compared. -/
def comparedTwice : Input :=
  .ofList [(.number, ['1']), (.reserved 0, ['<']), (.number, ['2']), (.reserved 0, ['<']),
    (.number, ['3'])]

set_option maxRecDepth 100000 in
/-- **A chain of operators that do not associate** is accepted without an error: the first
    comparison stands to the left of the second.  Where the operator is declared behind its
    production, this has no precedence, and the second stands to the right of the first. -/
theorem non_operator_chained :
    (∃ g run children children' p, Grammar.readText comparisons = .ok g ∧
      g.Infix 1 (Kind.reserved 0).num p ∧ p.assoc = .non ∧
      run = parse (Automaton.build g .lalr).table treeActions {} comparedTwice 20 ∧
      run.machine.memory.errors = [] ∧
      run.verdict = .finished (some (.node 1 (.node 1 children' :: children)))) ∧
    ∃ g run children children' p, Grammar.readText comparisonsDeclaredLate = .ok g ∧
      g.body 1 = [g.head 1, (Kind.reserved 0).num, g.head 1] ∧
      g.precedenceOf (Kind.reserved 0).num = some p ∧ p.assoc = .non ∧
      run = parse (Automaton.build g .lalr).table treeActions {} comparedTwice 20 ∧
      run.machine.memory.errors = [] ∧ run.verdict = .finished (some (.node 1 children)) ∧
      children.getLast? = some (.node 1 children') := by
  constructor
  · obtain ⟨g, hg, htest⟩ := Grammar.exists_readText comparisons (fun g =>
      let run := parse (Automaton.build g .lalr).table treeActions {} comparedTwice 20
      run.result?.any (fun value => value.any fun tree => tree.firstPair? == some (1, 1)) &&
        run.machine.memory.errors.isEmpty && g.isInfix 1 (Kind.reserved 0).num ⟨1, .non⟩)
      (by decide +kernel)
    simp only [Bool.and_eq_true, List.isEmpty_iff] at htest
    obtain ⟨⟨hresult, herrors⟩, hop⟩ := htest
    obtain ⟨tree, hverdict, hpair⟩ := Run.exists_finished hresult
    obtain ⟨children, children', rfl⟩ := Tree.of_firstPair? (beq_iff_eq.1 hpair)
    exact ⟨g, _, children, children', _, hg, Grammar.infix_of_isInfix hop, rfl, rfl, herrors,
      hverdict⟩
  · obtain ⟨g, hg, htest⟩ := Grammar.exists_readText comparisonsDeclaredLate (fun g =>
      let run := parse (Automaton.build g .lalr).table treeActions {} comparedTwice 20
      run.result?.any (fun value => value.any fun tree => tree.lastPair? == some (1, 1)) &&
        run.machine.memory.errors.isEmpty &&
        g.body 1 == [g.head 1, (Kind.reserved 0).num, g.head 1] &&
        g.precedenceOf (Kind.reserved 0).num == some ⟨1, .non⟩)
      (by decide +kernel)
    simp only [Bool.and_eq_true, List.isEmpty_iff, beq_iff_eq] at htest
    obtain ⟨⟨⟨hresult, herrors⟩, hbody⟩, hprecedence⟩ := htest
    obtain ⟨tree, hverdict, hpair⟩ := Run.exists_finished hresult
    obtain ⟨children, children', rfl, hlast⟩ := Tree.of_lastPair? (beq_iff_eq.1 hpair)
    exact ⟨g, _, children, children', _, hg, hbody, hprecedence, rfl, rfl, herrors,
      hverdict, hlast⟩

end LayoutLR
