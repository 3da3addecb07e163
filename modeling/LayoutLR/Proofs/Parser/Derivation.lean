/-
  Layout-aware LR toolkit — a parse tree is a derivation of what was shifted.

  The trees on the stack are derivations of the symbols of their frames, and their
  leaves are what has been shifted, less what went with the frames that were
  dropped after an error, with a leaf for each error instead.  When the start
  production is reduced, its body is all that is on the stack.

  * `Tree.IsDerivation`: the children of a node are the body of its production;
  * `Tree.leaves`: the leaves from left to right;
  * `Standing`: the leaves that are left after what has happened;
  * `parse_tree_derivation`: the tree that a parser returns.
-/
import LayoutLR.Proofs.Parser.Reading

namespace LayoutLR

/-! ## Derivations -/

/-- The symbol that a tree stands for. -/
def Tree.symbol (g : Grammar) : Tree → Nat
  | .leaf token => token.kind.num
  | .error _ _ => Kind.error.num
  | .node prod _ => g.head prod

/-- A tree whose nodes are productions of the grammar: their children stand for the symbols of
    the body in order. -/
inductive Tree.IsDerivation (g : Grammar) : Tree → Prop
  | leaf (token : Token) : IsDerivation g (.leaf token)
  | error (n : Nat) (token : Token) : IsDerivation g (.error n token)
  | node {prod : Nat} {children : List Tree} (hprod : prod < g.productions.size)
      (hbody : children.map (Tree.symbol g) = g.body prod)
      (hchildren : ∀ c ∈ children, IsDerivation g c) : IsDerivation g (.node prod children)

mutual

/-- The leaves of a tree from left to right. -/
def Tree.leaves : Tree → List Tree
  | .leaf token => [.leaf token]
  | .error n token => [.error n token]
  | .node _ children => Tree.leavesOf children

/-- The leaves of some trees from left to right. -/
def Tree.leavesOf : List Tree → List Tree
  | [] => []
  | t :: rest => t.leaves ++ Tree.leavesOf rest

end

theorem Tree.leavesOf_append : ∀ ts us : List Tree,
    Tree.leavesOf (ts ++ us) = Tree.leavesOf ts ++ Tree.leavesOf us
  | [], _ => rfl
  | t :: ts, us => by
    rw [List.cons_append, Tree.leavesOf, Tree.leavesOf, Tree.leavesOf_append ts us,
      List.append_assoc]

/-- The token of a leaf that was shifted. -/
def Tree.shifted? : Tree → Option Token
  | .leaf token => some token
  | .error _ _ | .node _ _ => none

/-! ## What is left -/

/-- The number of errors that were met. -/
def errorCount (notes : List (Note Tree)) : Nat :=
  (notes.filter Note.isError).length

/-- Whether something happens that makes a leaf: a token is shifted, or an error is met. -/
def Note.makesLeaf : Note Tree → Bool
  | .act verb _ _ => verb == .shift || verb == .error
  | .take | .tooShort _ | .noTransition _ _ => false

/-- The leaves that are left after what has happened, newest first: a token that is shifted
    adds a leaf, and an error replaces the leaves of the frames that are dropped by one of its
    own. -/
inductive Standing (t : Table) : List (Note Tree) → List Tree → Prop
  | nil : Standing t [] []
  | shift {notes : List (Note Tree)} {leaves : List Tree} (stack : Stack Tree) (token : Token)
      (h : Standing t notes leaves) :
      Standing t (.act .shift stack token :: notes) (leaves ++ [.leaf token])
  | error {notes : List (Note Tree)} {kept lost : List Tree} {stack : Stack Tree} (token : Token)
      {dropped : List (Frame Tree)} {below : Stack Tree} {next : Nat}
      (hfind : Machine.findError t [] stack.frames = some (dropped, below, next))
      (hlost : lost = dropped.reverse.filterMap Frame.value)
      (h : Standing t notes (kept ++ Tree.leavesOf lost)) :
      Standing t (.act .error stack token :: notes) (kept ++ [.error (errorCount notes + 1) token])
  | other {notes : List (Note Tree)} {leaves : List Tree} {n : Note Tree}
      (hn : n.makesLeaf = false) (h : Standing t notes leaves) : Standing t (n :: notes) leaves

theorem Standing.takes {t : Table} {notes : List (Note Tree)} {leaves : List Tree}
    (h : Standing t notes leaves) (n : Nat) :
    Standing t (List.replicate n .take ++ notes) leaves := by
  induction n with
  | zero => exact h
  | succ n ih => exact .other rfl ih

theorem Note.shift?_eq_none {n : Note Tree} (h : n.makesLeaf = false) : n.shift? = none := by
  cases n with
  | act verb stack token =>
    rw [Note.makesLeaf, Bool.or_eq_false_iff] at h
    have hv : verb ≠ .shift := by simpa using h.1
    simp [Note.shift?, hv]
  | take => rfl
  | tooShort state => rfl
  | noTransition sym prod => rfl

/-- Without errors, what is left is what was shifted. -/
theorem Standing.eq_shifted {t : Table} {notes : List (Note Tree)} {leaves : List Tree}
    (h : Standing t notes leaves) (herr : ∀ n ∈ notes, n.isError = false) :
    leaves = (shifted notes).map Tree.leaf := by
  induction h with
  | nil => rfl
  | shift stack token _ ih =>
    rw [ih fun n hn => herr n (List.mem_cons_of_mem _ hn), shifted_cons, List.map_append]
    rfl
  | error => cases herr _ (List.mem_cons_self ..)
  | other hn _ ih =>
    rw [ih fun n hn => herr n (List.mem_cons_of_mem _ hn), shifted_cons, Note.shift?_eq_none hn]
    simp

/-- What is left comes in the order in which it was shifted. -/
theorem Standing.sublist {t : Table} {notes : List (Note Tree)} {leaves : List Tree}
    (h : Standing t notes leaves) : (leaves.filterMap Tree.shifted?).Sublist (shifted notes) := by
  induction h with
  | nil => exact .slnil
  | shift stack token _ ih =>
    rw [shifted_cons, List.filterMap_append]
    exact ih.append (List.Sublist.refl _)
  | @error notes kept lost _ _ _ _ _ _ _ _ ih =>
    rw [List.filterMap_append] at ih
    rw [shifted_cons, List.filterMap_append]
    exact ((List.sublist_append_left _ _).trans ih).append (List.nil_sublist _)
  | other hn _ ih =>
    rw [shifted_cons]
    exact ih.trans (List.sublist_append_left _ _)

/-! ## The trees on the stack -/

namespace Stack

/-- The trees on a stack are derivations of the symbols of their frames. -/
def Derived (g : Grammar) (s : Stack Tree) : Prop :=
  ∀ x ∈ s.view, ∀ v, x.2.2 = some v → v.IsDerivation g ∧ v.symbol g = x.2.1

theorem Derived.push {g : Grammar} {s stack : Stack Tree} {q sym : Nat} {v : Tree}
    (h : s.Derived g) (hview : stack.view = (q, sym, some v) :: s.view) (hv : v.IsDerivation g)
    (hsym : v.symbol g = sym) : stack.Derived g := by
  intro x hx v' hv'
  rw [hview] at hx
  rcases List.mem_cons.1 hx with rfl | hx
  · obtain rfl := Option.some.inj hv'
    exact ⟨hv, hsym⟩
  · exact h x hx v' hv'

theorem Derived.suffix {g : Grammar} {s rest : Stack Tree} {popped : List (Frame Tree)}
    (h : s.Derived g) (hframes : s.frames = popped ++ rest.frames) : rest.Derived g := by
  intro x hx
  refine h x ?_
  rw [Stack.view, hframes, List.map_append]
  exact List.mem_append_right _ hx

end Stack

theorem errorCount_cons {n : Note Tree} (h : n.isError = false) (notes : List (Note Tree)) :
    errorCount (n :: notes) = errorCount notes := by
  rw [errorCount, List.filter_cons_of_neg (by simp [h])]
  rfl

theorem errors_disposeAll (values : List Tree) (mem : TreeMemory) :
    (treeActions.disposeAll mem values).errors = mem.errors := by
  induction values generalizing mem with
  | nil => rfl
  | cons v values ih => exact ih (treeActions.dispose mem v)

theorem isError_of_errorCount_eq_zero {notes : List (Note Tree)} (h : errorCount notes = 0) :
    ∀ n ∈ notes, n.isError = false := by
  simpa using List.filter_eq_nil_iff.1 (List.length_eq_zero_iff.1 h)

theorem errorCount_replicate_take (n : Nat) (notes : List (Note Tree)) :
    errorCount (List.replicate n .take ++ notes) = errorCount notes := by
  induction n with
  | zero => rfl
  | succ n ih => exact ih

namespace Machine

variable {g : Grammar} {t : Table} {has : Nat → Item → Prop} {m m' : Machine TreeMemory Tree}

/-- The trees on the stack are derivations of their symbols, with all the leaves that are
    left. -/
structure Builds (g : Grammar) (t : Table) (m : Machine TreeMemory Tree) : Prop where
  derived : m.stack.Derived g
  standing : Standing t m.notes (Tree.leavesOf m.stack.values)
  errors : m.memory.errors.length = errorCount m.notes

theorem start_builds (g : Grammar) (t : Table) (input : Input) :
    (start t {} input : Machine TreeMemory Tree).Builds g t := by
  refine ⟨fun x hx v hv => ?_, .other rfl .nil, rfl⟩
  rw [List.mem_singleton.1 hx] at hv
  cases hv

/-- The values of a body stand for its symbols. -/
theorem symbols_values {popped : List (Frame Tree)}
    (hvals : ∀ f ∈ popped, ∃ v, f.value = some v)
    (htrees : ∀ f ∈ popped, ∀ v, f.value = some v → v.symbol g = f.sym) :
    (popped.filterMap Frame.value).map (Tree.symbol g) = popped.map Frame.sym := by
  induction popped with
  | nil => rfl
  | cons f popped ih =>
    obtain ⟨v, hv⟩ := hvals f (by simp)
    rw [List.filterMap_cons, hv]
    simp only [List.map_cons]
    rw [htrees f (by simp) v hv, ih (fun f' hf' => hvals f' (by simp [hf']))
      fun f' hf' => htrees f' (by simp [hf'])]

/-- The tree of a reduction is a derivation. -/
theorem node_isDerivation (hb : t.Backed g has) (hm : m.stack.Derived g) {r : Reduction}
    {popped : List (Frame Tree)} {rest : Stack Tree} (hne : r.prod ≠ 0)
    (hframes : m.stack.frames = popped ++ rest.frames)
    (hsyms : (popped.map Frame.sym).reverse = g.body r.prod)
    (hvals : ∀ f ∈ popped, ∃ v, f.value = some v) (hhas : has rest.top.state ⟨r.prod, 0⟩) :
    (Tree.node r.prod (popped.reverse.filterMap Frame.value)).IsDerivation g := by
  have hmem (f : Frame Tree) (hf : f ∈ popped.reverse) (v : Tree) (hv : f.value = some v) :
      v.IsDerivation g ∧ v.symbol g = f.sym := by
    refine hm f.view (List.mem_map_of_mem ?_) v hv
    rw [hframes]
    exact List.mem_append_left _ (List.mem_reverse.1 hf)
  refine .node ((hb.valid _ _ hhas).resolve_right hne) ?_ fun c hc => ?_
  · rw [symbols_values (by simpa using hvals) fun f hf v hv => (hmem f hf v hv).2,
      List.map_reverse, hsyms]
  · obtain ⟨f, hf, hv⟩ := List.mem_filterMap.1 hc
    exact (hmem f hf c hv).1

/-- Every step keeps it so. -/
theorem Move.builds (hb : t.Backed g has) (hp : t.Path m.stack.frames)
    (h : Move t treeActions m (.next m')) (hm : m.Builds g t) : m'.Builds g t := by
  generalize hprog : (Progress.next m' : Progress TreeMemory Tree) = prog at h
  cases h with
  | @layout verb stack hverb hview =>
    cases hprog
    have hverb' : (Note.act verb m.stack m.token : Note Tree).makesLeaf = false ∧
        (Note.act verb m.stack m.token : Note Tree).isError = false := by
      generalize m.token.kind = kind at hverb
      cases hverb <;> exact ⟨rfl, rfl⟩
    have hvalues : stack.values = m.stack.values := Stack.values_congr hview
    refine ⟨?_, .other rfl (.other hverb'.1 (hvalues ▸ hm.standing)), ?_⟩
    · intro x hx
      exact hm.derived x (hview ▸ hx)
    · exact hm.errors.trans (errorCount_cons hverb'.2 _).symm
  | @shift next stack _ hgo hview =>
    cases hprog
    refine ⟨hm.derived.push hview (.leaf _) rfl, .other rfl ?_, hm.errors⟩
    show Standing t _ (Tree.leavesOf stack.values)
    rw [Stack.values_push hview, Tree.leavesOf_append]
    exact .shift _ _ hm.standing
  | @reduce r verb popped rest stack next hr hne hverb hpop hgo hview =>
    cases hprog
    obtain ⟨popped', rest', hpop', hframes, hlen, hsyms, hvals, hhas, -⟩ := hp.reduce hb hr
    obtain ⟨rfl, rfl⟩ := Prod.mk.inj (Option.some.inj (hpop.symm.trans hpop'))
    have hverb' : (Note.act verb m.stack m.token : Note Tree).makesLeaf = false ∧
        (Note.act verb m.stack m.token : Note Tree).isError = false := by
      rcases hverb with rfl | rfl <;> exact ⟨rfl, rfl⟩
    have hsym : g.head r.prod = r.sym := by rw [(hb.reduce _ _ hr).1]; rfl
    have hnode := node_isDerivation hb hm.derived hne hframes hsyms hvals hhas
    refine ⟨(hm.derived.suffix hframes).push hview hnode hsym, .other hverb'.1 ?_, ?_⟩
    · show Standing t m.notes (Tree.leavesOf stack.values)
      have hstanding := hm.standing
      have hleaves : Tree.leavesOf [Tree.node r.prod (popped.reverse.filterMap Frame.value)] =
          Tree.leavesOf (popped.reverse.filterMap Frame.value) := List.append_nil _
      rw [Stack.values_append hframes, Tree.leavesOf_append, ← hleaves,
        ← Tree.leavesOf_append] at hstanding
      rwa [Stack.values_push hview]
    · exact hm.errors.trans (errorCount_cons hverb'.2 _).symm
  | @resume dropped below stack next sk _ _ hfind hskip hview =>
    cases hprog
    obtain ⟨top, htop, hframes, -⟩ := findError_spec hfind
    obtain rfl : dropped = top := htop
    refine ⟨(hm.derived.suffix hframes).push hview (.error _ _) rfl, Standing.takes ?_ _, ?_⟩
    · show Standing t _ (Tree.leavesOf stack.values)
      rw [Stack.values_push hview, Tree.leavesOf_append]
      have hstanding := hm.standing
      rw [Stack.values_append hframes, Tree.leavesOf_append] at hstanding
      have herror := Standing.error m.token hfind rfl hstanding
      rwa [← hm.errors] at herror
    · show (treeActions.disposeAll _ _).errors.length = errorCount _
      rw [errors_disposeAll, errorCount_replicate_take]
      show m.memory.errors.length + 1 = errorCount m.notes + 1
      rw [hm.errors]
  | accept => cases hprog
  | giveUp => cases hprog

/-- Trees are built all along a run. -/
theorem after_builds (hb : t.Backed g has) (hne : g.body 0 ≠ []) {input : Input} {n : Nat}
    (h : (start t {} input).after t treeActions n = some m) :
    t.Path m.stack.frames ∧ m.Builds g t ∧ m.Reads input := by
  refine after_induction (P := fun m => t.Path m.stack.frames ∧ m.Builds g t ∧ m.Reads input)
    (fun m₁ m₂ hm hstep => ?_) n _ m ⟨start_path t _ input, start_builds g t input,
      start_reads t _ input⟩ h
  have hmove := (step_turn hb hne hm.1 hstep).move
  exact ⟨hmove.path hb hm.1, hmove.builds hb hm.1 hm.2.1, hmove.reads hm.2.2⟩

/-- A derivation of the end is the token itself. -/
theorem eq_leaf_of_eof (hg : g.WellFormed) {v : Tree} (hv : v.IsDerivation g)
    (hsym : v.symbol g = Kind.eof.num) : ∃ token : Token, v = .leaf token ∧ token.kind = .eof := by
  cases hv with
  | leaf token => exact ⟨token, rfl, Kind.num_inj hsym⟩
  | error n token => cases hsym
  | @node p children hprod _ _ =>
    have hhead := hg.head p hprod
    have hterm := hg.predefined Kind.eof.num (by decide)
    rw [show g.head p = Kind.eof.num from hsym] at hhead
    simp only [Grammar.isTerminal, Grammar.isNonterminal, beq_iff_eq] at hhead hterm
    rw [hhead] at hterm
    cases hterm

/-- When the start production is reduced, its body is all that there is. -/
theorem accept_values (hb : t.Backed g has) (hg : g.WellFormed) (hp : t.Path m.stack.frames)
    (hm : m.Builds g t) {r : Reduction} {popped : List (Frame Tree)} {rest : Stack Tree}
    {value : Tree} {others : List Tree} (hr : t.reduce? m.stack.top.state = some r)
    (hzero : r.prod = 0) (hpop : m.stack.pop? r.size = some (popped, rest))
    (hbody : popped.reverse.filterMap Frame.value = value :: others) :
    value.IsDerivation g ∧ g.body 0 = [value.symbol g, Kind.eof.num] ∧
      ∃ last : Token, last.kind = .eof ∧ m.stack.values = [value, .leaf last] := by
  obtain ⟨popped', rest', hpop', hframes, hlen, hsyms, hvals, hhas, -⟩ := hp.reduce hb hr
  obtain ⟨rfl, rfl⟩ := Prod.mk.inj (Option.some.inj (hpop.symm.trans hpop'))
  rw [hzero] at hsyms hhas
  have hrest : rest.values = [] := by
    have hpath : t.Path rest.frames := (hframes ▸ hp).suffix
    obtain ⟨hbelow, hvalue⟩ := hpath.bottom hb (hb.start_only hg.start _ hhas)
    simp [Stack.values, Stack.frames, hbelow, hvalue]
  have hvalues : m.stack.values = value :: others := by
    rw [Stack.values_append hframes, hrest, hbody]
    rfl
  have hmem (f : Frame Tree) (hf : f ∈ popped.reverse) (v : Tree) (hv : f.value = some v) :
      v.IsDerivation g ∧ v.symbol g = f.sym := by
    refine hm.derived f.view (List.mem_map_of_mem ?_) v hv
    rw [hframes]
    exact List.mem_append_left _ (List.mem_reverse.1 hf)
  have hsymbols : (value :: others).map (Tree.symbol g) = g.body 0 := by
    rw [← hbody, symbols_values (by simpa using hvals) fun f hf v hv => (hmem f hf v hv).2,
      List.map_reverse, hsyms]
  have hderived (v : Tree) (hv : v ∈ value :: others) : v.IsDerivation g := by
    rw [← hbody] at hv
    obtain ⟨f, hf, hv⟩ := List.mem_filterMap.1 hv
    exact (hmem f hf v hv).1
  obtain ⟨first, hfirst⟩ := hg.start_body
  rw [hfirst] at hsymbols
  obtain ⟨v, rfl⟩ : ∃ v, others = [v] := by
    have := congrArg List.length hsymbols
    exact List.length_eq_one_iff.1 (by simpa using this)
  obtain ⟨rfl, hv⟩ : value.symbol g = first ∧ v.symbol g = Kind.eof.num := by
    simpa using hsymbols
  obtain ⟨last, rfl, hkind⟩ := eq_leaf_of_eof hg (hderived v (by simp)) hv
  exact ⟨hderived value (by simp), hfirst, last, hkind, hvalues⟩

end Machine

/-- The uses are cut at the last token that was shifted. -/
theorem exists_last_shift {notes : List (Note Tree)} {leaves : List Tree} {last : Token}
    (h : leaves ++ [.leaf last] = (shifted notes).map Tree.leaf) :
    ∃ before after, uses notes = before ++ (.shift, last) :: after ∧
      leaves = (before.filter fun u => u.1 == .shift).map (fun u => .leaf u.2) ∧
      ∀ u ∈ after, u.1 ≠ .shift := by
  rw [shifted, List.map_map] at h
  obtain ⟨xs, ys, hfilter, rfl, hys⟩ := List.map_eq_append_iff.1 h.symm
  obtain ⟨u, rest, rfl, hu, hrest⟩ := List.map_eq_cons_iff.1 hys
  obtain rfl := List.map_eq_nil_iff.1 hrest
  obtain ⟨l₁, l₂, hsplit, rfl, h₂⟩ := List.filter_eq_append_iff.1 hfilter
  obtain ⟨m₁, m₂, rfl, hm₁, hshift, hm₂⟩ := List.filter_eq_cons_iff.1 h₂
  obtain rfl : u = (.shift, last) := Prod.ext (by simpa using hshift) (by simpa using hu)
  refine ⟨l₁ ++ m₁, m₂, by rw [hsplit]; simp, ?_, fun y hy => ?_⟩
  · rw [List.filter_append, List.filter_eq_nil_iff.2 hm₁, List.append_nil]
    rfl
  · simpa using List.filter_eq_nil_iff.1 hm₂ y hy

/-- A run that returns ends with a step that gives the answer. -/
theorem parse_last_step {σ V : Type} {t : Table} {acts : Actions σ V} {memory : σ} {input : Input}
    {budget : Nat} {run : Run σ V} {value : Option V}
    (hrun : run = parse t acts memory input budget) (hvalue : run.verdict = .finished value) :
    ∃ (n : Nat) (m : Machine σ V), (Machine.start t memory input).after t acts n = some m ∧
      m.step t acts = .done value run.machine := by
  obtain ⟨n, m, hm, hend⟩ := Machine.runFor_cases t acts budget
    (input.tokens.length + budget + 2) (Machine.start t memory input)
  have hwithin {v : Verdict V} {m' : Machine σ V}
      (h : run = .within budget v m') : run.machine = m' ∧ v = .finished value := by
    rw [h] at hvalue ⊢
    unfold Run.within at hvalue ⊢
    dsimp only at hvalue ⊢
    split at hvalue
    · cases hvalue
    · exact ⟨rfl, hvalue⟩
  refine ⟨n, m, hm, ?_⟩
  rw [parse] at hrun
  rcases hend with hend | ⟨v, m', hstep, hend⟩ | ⟨m', hstep, hend⟩
  · rw [hrun, hend] at hvalue
    cases hvalue
  · obtain ⟨hmachine, hv⟩ := hwithin (hrun.trans hend)
    cases hv
    rw [hmachine, hstep]
  · obtain ⟨-, hv⟩ := hwithin (hrun.trans hend)
    cases hv

/-- A run that returns a tree ends with a step that gives it. -/
theorem parse_finished {g : Grammar} {t : Table} {has : Nat → Item → Prop} (hb : t.Backed g has)
    (hne : g.body 0 ≠ []) {input : Input} {budget : Nat} {run : Run TreeMemory Tree}
    {value : Option Tree} (hrun : run = parse t treeActions {} input budget)
    (hvalue : run.verdict = .finished value) :
    ∃ m : Machine TreeMemory Tree, m.step t treeActions = .done value run.machine ∧
      t.Path m.stack.frames ∧ m.Builds g t ∧ m.Reads input := by
  obtain ⟨n, m, hm, hstep⟩ := parse_last_step hrun hvalue
  exact ⟨m, hstep, Machine.after_builds hb hne hm⟩

/-- **The tree that a parser returns is a derivation of what it shifted.**  The root stands
    for the first head.  The leaves, with the end behind them, are what is left of the tokens
    that were shifted and the errors that were met, and no token that opens or closes a level
    is shifted; without errors they are the tokens that were taken before the end, less those
    that the layout took. -/
theorem parse_tree_derivation {code : List CodeNode} {g : Grammar}
    (hread : Grammar.read code = .ok g) (strength : Strength) (input : Input) (budget : Nat)
    {run : Run TreeMemory Tree} {tree : Tree}
    (hrun : run = parse (Automaton.build g strength).table treeActions {} input budget)
    (htree : run.verdict = .finished (some tree)) :
    tree.IsDerivation g ∧ g.body 0 = [tree.symbol g, Kind.eof.num] ∧
    (∀ u ∈ uses run.machine.notes, u.1 = .shift → u.2.kind ≠ .indent ∧ u.2.kind ≠ .outdent) ∧
    (∀ token, Tree.leaf token ∈ tree.leaves → token.kind ≠ .indent ∧ token.kind ≠ .outdent) ∧
    ∃ last : Token, last.kind = .eof ∧
      Standing (Automaton.build g strength).table run.machine.notes (tree.leaves ++ [.leaf last]) ∧
      ((tree.leaves ++ [Tree.leaf last]).filterMap Tree.shifted?).Sublist
        (input.take run.machine.taken) ∧
      (run.machine.memory.errors = [] →
        (uses run.machine.notes).map Prod.snd ++ [run.machine.token] =
          input.take run.machine.taken ∧
        ∃ before after, uses run.machine.notes = before ++ (.shift, last) :: after ∧
          tree.leaves = (before.filter fun u => u.1 == .shift).map (fun u => .leaf u.2) ∧
          (∀ u ∈ before, u.1 = .shift ∨ u.1.Lays u.2.kind) ∧
          ∀ u ∈ after, u.1.Lays u.2.kind) := by
  have hb := (Automaton.build_sound (Grammar.read_wellFormed hread).indexed strength).backed
  have hg := Grammar.read_wellFormed hread
  generalize (Automaton.build g strength).table = t at hb hrun
  obtain ⟨m, hstep, hp, hm, hreads⟩ := parse_finished hb hg.body_ne_nil hrun htree
  have hmove := Machine.step_move treeActions hb hg.body_ne_nil hp
  rw [hstep] at hmove
  generalize hprog : (Progress.done (some tree) run.machine : Progress TreeMemory Tree) = prog at hmove
  cases hmove with
  | @accept r popped rest value others hr hzero hpop hbody =>
    obtain ⟨rfl, hmachine⟩ : tree = value ∧ run.machine = _ := by simpa using hprog
    obtain ⟨hderived, hbody0, last, hlast, hvalues⟩ :=
      Machine.accept_values hb hg hp hm hr hzero hpop hbody
    obtain ⟨k, hk, htok, -, hsub, hused⟩ := hreads.place
    have hstanding : Standing t m.notes (tree.leaves ++ [.leaf last]) := by
      have := hm.standing
      rwa [hvalues] at this
    have huses : uses run.machine.notes = uses m.notes := by
      rw [hmachine]
      show uses (.act .accept m.stack m.token :: m.notes) = _
      rw [uses_cons]
      exact List.append_nil _
    have htaken : run.machine.taken = k + 1 := by rw [hmachine, ← hk]; rfl
    have htoken : run.machine.token = input.get k := by rw [hmachine, ← htok]; rfl
    have hlevel (u : Verb × Token) (hu : u ∈ uses m.notes) (hshift : u.1 = .shift) :
        u.2.kind ≠ .indent ∧ u.2.kind ≠ .outdent := (hreads.used u hu).not_level hshift
    refine ⟨hderived, hbody0, by rwa [huses], fun token htoken => ?_, last, hlast, ?_, ?_,
      fun herrors => ?_⟩
    · have hshifted : token ∈ shifted m.notes :=
        hstanding.sublist.subset (List.mem_filterMap.2 ⟨_, List.mem_append_left _ htoken, rfl⟩)
      exact hlevel _ (mem_shifted.1 hshifted) rfl
    · rw [hmachine]
      exact .other rfl hstanding
    · rw [htaken, Input.take_succ]
      exact (hstanding.sublist.trans hsub).trans (List.sublist_append_left _ _)
    · have herr : ∀ n ∈ m.notes, n.isError = false := by
        have : m.memory.errors = [] := by
          rw [hmachine] at herrors
          rwa [errors_disposeAll, errors_disposeAll] at herrors
        refine isError_of_errorCount_eq_zero (hm.errors.symm.trans ?_)
        rw [this]
        rfl
      refine ⟨by rw [huses, hused herr, htaken, htoken, Input.take_succ], ?_⟩
      obtain ⟨before, after, heq, hleaves, hafter⟩ :=
        exists_last_shift (hstanding.eq_shifted herr)
      have hlays (u : Verb × Token) (hu : u ∈ uses m.notes) := (hreads.used u hu).shift_or_lays
      rw [heq] at hlays
      refine ⟨before, after, huses.trans heq, hleaves, fun u hu => hlays u (by simp [hu]),
        fun u hu => (hlays u (by simp [hu])).resolve_left (hafter u hu)⟩
  | layout => cases hprog
  | shift => cases hprog
  | reduce => cases hprog
  | resume => cases hprog
  | giveUp => cases hprog

/-- Two words, or what is in front of a string. -/
def twoWays : String :=
  "S -> NUMBER IDENTIFIER\n   | ERROR STRING\n"

/-- The first number goes with its frame, the second is skipped. -/
def twoNumbers : Input :=
  .ofList [(.number, ['1']), (.number, ['2']), (.string, ['x'])]

set_option maxRecDepth 100000 in
/-- An error takes the place of what was shifted before it. -/
theorem parse_tree_derivation_twoWays : ∃ g run tree, Grammar.readText twoWays = .ok g ∧
    run = parse (Automaton.build g .slr).table treeActions {} twoNumbers 10 ∧
    run.verdict = .finished (some tree) ∧ tree.leaves.length = 2 ∧
    run.machine.memory.errors.length = 1 ∧ tree.IsDerivation g ∧
    ∃ last : Token, Standing (Automaton.build g .slr).table run.machine.notes
      (tree.leaves ++ [.leaf last]) := by
  obtain ⟨g, hg, htest⟩ := Grammar.exists_readText twoWays (fun g =>
    let run := parse (Automaton.build g .slr).table treeActions {} twoNumbers 10
    run.result?.any (fun value => value.any fun tree => tree.leaves.length == 2) &&
      run.machine.memory.errors.length == 1) (by decide +kernel)
  obtain ⟨hresult, herrors⟩ := Bool.and_eq_true_iff.1 htest
  obtain ⟨tree, hverdict, hleaves⟩ := Run.exists_finished hresult
  obtain ⟨hderived, -, -, -, last, -, hstanding, -⟩ :=
    parse_tree_derivation hg .slr twoNumbers 10 rfl hverdict
  exact ⟨g, _, tree, hg, rfl, hverdict, beq_iff_eq.1 hleaves, beq_iff_eq.1 herrors, hderived, last,
    hstanding⟩

end LayoutLR
