/-
  Layout-aware LR toolkit — the table of a grammar never fails its parser.

  A parser on the table of an automaton stays on paths through it, whatever the
  input, the actions and the errors on the way.  So the states that it meets
  exist, every reduction finds the frames of its body, and the head of the
  production can be pushed on what is left.

  * `Machine.after`: the machine after some steps;
  * `Machine.Safe`: what holds of a machine on a path;
  * `Machine.after_safe`, `runFor_cases`: all machines of a run;
  * `parse_safe`: no run meets an error of its table.
-/
import LayoutLR.Parser.Run
import LayoutLR.Parser.Tree
import LayoutLR.Proofs.Grammar.WellFormed
import LayoutLR.Proofs.Parser.Step

namespace LayoutLR

variable {σ V : Type}

/-- Whether a step has found nothing wrong with the table. -/
def Progress.Ordinary : Progress σ V → Prop
  | .next m | .done _ m => ∀ n ∈ m.notes, n.Ordinary
  | .broken _ => False

namespace Machine

variable {g : Grammar} {t : Table} {has : Nat → Item → Prop} {acts : Actions σ V}
  {m m' : Machine σ V}

/-! ## Steps -/

/-- The machine after some steps, if parsing is not over before. -/
def after (t : Table) (acts : Actions σ V) : (steps : Nat) → Machine σ V → Option (Machine σ V)
  | 0, m => some m
  | n + 1, m =>
    match m.step t acts with
    | .next m => after t acts n m
    | .done _ _ | .broken _ => none

/-- What a step preserves holds after any number of steps. -/
theorem after_induction {P : Machine σ V → Prop}
    (step : ∀ m m', P m → m.step t acts = .next m' → P m') :
    ∀ (n : Nat) (m m' : Machine σ V), P m → m.after t acts n = some m' → P m'
  | 0, m, m', h, he => by
    cases he
    exact h
  | n + 1, m, m', h, he => by
    unfold after at he
    split at he
    · rename_i m₁ hstep
      exact after_induction step n m₁ m' (step m m₁ h hstep) he
    · cases he
    · cases he

/-- The stack stays a path. -/
theorem Move.path (hb : t.Backed g has) (hp : t.Path m.stack.frames)
    (h : Move t acts m (.next m')) : t.Path m'.stack.frames := by
  generalize hprog : (Progress.next m' : Progress σ V) = prog at h
  cases h with
  | layout _ hview =>
    cases hprog
    exact hp.congr hview
  | shift _ hgo hview =>
    cases hprog
    exact hp.push hgo hview
  | reduce hr _ _ hpop hgo hview =>
    cases hprog
    obtain ⟨popped', rest', hpop', hframes, -⟩ := hp.reduce hb hr
    obtain ⟨rfl, rfl⟩ := Prod.mk.inj (Option.some.inj (hpop.symm.trans hpop'))
    rw [hframes] at hp
    exact hp.suffix.push hgo hview
  | resume hfind _ hview =>
    cases hprog
    obtain ⟨top, -, hsplit, hgo⟩ := findError_spec hfind
    rw [hsplit] at hp
    exact hp.suffix.push hgo hview
  | accept => cases hprog
  | giveUp => cases hprog

theorem step_path (hb : t.Backed g has) (hne : g.body 0 ≠ []) (hp : t.Path m.stack.frames)
    (h : m.step t acts = .next m') : t.Path m'.stack.frames :=
  (step_turn hb hne hp h).move.path hb hp

/-- No move notes an error of the table. -/
theorem Move.ordinary {prog : Progress σ V} (h : Move t acts m prog)
    (hm : ∀ n ∈ m.notes, n.Ordinary) : prog.Ordinary := by
  have hact (verb : Verb) : ∀ n ∈ (m.act verb).notes, n.Ordinary :=
    List.forall_mem_cons.2 ⟨trivial, hm⟩
  cases h with
  | layout => exact List.forall_mem_cons.2 ⟨trivial, hact _⟩
  | shift => exact List.forall_mem_cons.2 ⟨trivial, hact .shift⟩
  | reduce => exact hact _
  | accept => exact hact .accept
  | resume =>
    intro n hn
    rcases List.mem_append.1 hn with hn | hn
    · rw [List.eq_of_mem_replicate hn]
      trivial
    · exact hact .error n hn
  | giveUp hnotes => exact fun n hn => (hnotes n hn).elim (hm n) id

/-! ## Machines on a path -/

/-- A machine that is where its table has told it to be. -/
structure Safe (t : Table) (m : Machine σ V) : Prop where
  /-- The states of the frames exist. -/
  states : ∀ f ∈ m.stack.frames, f.state < t.rows.size
  /-- Each frame comes from the one below by a transition on its symbol. -/
  joined : m.stack.frames.IsChain fun above below =>
    t.goto? below.state above.sym = some above.state
  /-- There are enough frames for the reduction of the state on top. -/
  enough : ∀ r, t.reduce? m.stack.top.state = some r → r.size < m.stack.size
  /-- The head of the reduction can be pushed on the frames below its body. -/
  head : ∀ r, t.reduce? m.stack.top.state = some r → r.prod ≠ 0 → ∃ popped rest next,
    m.stack.pop? r.size = some (popped, rest) ∧ t.goto? rest.top.state r.sym = some next
  /-- So far the table has done nothing wrong. -/
  notes : ∀ n ∈ m.notes, n.Ordinary

theorem safe_of_path (hb : t.Backed g has) (hp : t.Path m.stack.frames)
    (hn : ∀ n ∈ m.notes, n.Ordinary) : m.Safe t := by
  refine ⟨hp.state_lt hb, hp.isChain, fun r hr => Nat.not_le.1 (size_lt_of_reduce hb hp hr),
    fun r hr hne => ?_, hn⟩
  obtain ⟨popped, rest, hpop, -, -, -, -, -, hhead⟩ := hp.reduce hb hr
  obtain ⟨next, hgo⟩ := hhead hne
  exact ⟨popped, rest, next, hpop, hgo⟩

theorem start_path (t : Table) (memory : σ) (input : Input) :
    t.Path (start t memory input : Machine σ V).stack.frames :=
  ⟨rfl, rfl⟩

/-- All machines of a run are on a path. -/
theorem after_path (hb : t.Backed g has) (hne : g.body 0 ≠ []) {n : Nat}
    (hp : t.Path m.stack.frames) (h : m.after t acts n = some m') : t.Path m'.stack.frames :=
  after_induction (P := fun m => t.Path m.stack.frames)
    (fun _ _ hp hstep => step_path hb hne hp hstep) n m m' hp h

theorem after_ordinary (hb : t.Backed g has) (hne : g.body 0 ≠ []) {n : Nat}
    (hp : t.Path m.stack.frames) (hm : ∀ n ∈ m.notes, n.Ordinary)
    (h : m.after t acts n = some m') : ∀ n ∈ m'.notes, n.Ordinary := by
  refine (after_induction (P := fun m => t.Path m.stack.frames ∧ ∀ n ∈ m.notes, n.Ordinary)
    (fun m₁ m₂ hp hstep => ?_) n m m' ⟨hp, hm⟩ h).2
  have hmove := (step_turn hb hne hp.1 hstep).move
  exact ⟨hmove.path hb hp.1, hmove.ordinary hp.2⟩

/-! ## Whole runs -/

/-- How a run ends: at a machine that was reached, or with its last step. -/
theorem runFor_cases (t : Table) (acts : Actions σ V) (budget : Nat) :
    ∀ (steps : Nat) (m₀ : Machine σ V), ∃ n m, m₀.after t acts n = some m ∧
      (m₀.runFor t acts budget steps = ⟨.exhausted, m⟩ ∨
        (∃ v m', m.step t acts = .done v m' ∧
          m₀.runFor t acts budget steps = .within budget (.finished v) m') ∨
        ∃ m', m.step t acts = .broken m' ∧
          m₀.runFor t acts budget steps = .within budget .broken m')
  | 0, m₀ => ⟨0, m₀, rfl, Or.inl rfl⟩
  | steps + 1, m₀ => by
    cases hstep : m₀.step t acts with
    | done v m' => exact ⟨0, m₀, rfl, Or.inr (Or.inl ⟨v, m', hstep, by rw [runFor, hstep]⟩)⟩
    | broken m' => exact ⟨0, m₀, rfl, Or.inr (Or.inr ⟨m', hstep, by rw [runFor, hstep]⟩)⟩
    | next m₁ =>
      have hafter (n : Nat) : m₀.after t acts (n + 1) = m₁.after t acts n := by
        rw [after, hstep]
      by_cases hbudget : budget < m₁.calls
      · refine ⟨1, m₁, hafter 0, Or.inl ?_⟩
        simp [runFor, hstep, hbudget]
      · obtain ⟨n, m, hm, hend⟩ := runFor_cases t acts budget steps m₁
        refine ⟨n + 1, m, by rw [hafter, hm], ?_⟩
        have hrun : m₀.runFor t acts budget (steps + 1) = m₁.runFor t acts budget steps := by
          simp [runFor, hstep, hbudget]
        rwa [hrun]

end Machine

/-- **No run meets an error of its table.**  At every step the states on the stack exist and
    are joined by transitions, the reduction of the state on top finds its frames, and its
    head can be pushed below them. -/
theorem parse_safe {code : List CodeNode} {g : Grammar} (hread : Grammar.read code = .ok g)
    (strength : Strength) (acts : Actions σ V) (memory : σ) (input : Input) :
    (∀ n m, (Machine.start (Automaton.build g strength).table memory input).after
        (Automaton.build g strength).table acts n = some m →
      m.Safe (Automaton.build g strength).table) ∧
    ∀ budget, (parse (Automaton.build g strength).table acts memory input budget).verdict ≠ .broken ∧
      ∀ n ∈ (parse (Automaton.build g strength).table acts memory input budget).machine.notes,
        n.Ordinary := by
  have hb := (Automaton.build_sound (Grammar.read_wellFormed hread).indexed strength).backed
  have hne := (Grammar.read_wellFormed hread).body_ne_nil
  generalize (Automaton.build g strength).table = t at hb
  have hp := Machine.start_path (V := V) t memory input
  have hn : ∀ n ∈ (Machine.start t memory input : Machine σ V).notes, n.Ordinary :=
    List.forall_mem_cons.2 ⟨trivial, by simp⟩
  have hsafe (n : Nat) (m : Machine σ V)
      (hm : (Machine.start t memory input).after t acts n = some m) :
      t.Path m.stack.frames ∧ ∀ n ∈ m.notes, n.Ordinary :=
    ⟨Machine.after_path hb hne hp hm, Machine.after_ordinary hb hne hp hn hm⟩
  refine ⟨fun n m hm => Machine.safe_of_path hb (hsafe n m hm).1 (hsafe n m hm).2, fun budget => ?_⟩
  obtain ⟨n, m, hm, hend⟩ := Machine.runFor_cases t acts budget (input.tokens.length + budget + 2)
    (Machine.start t memory input)
  obtain ⟨hpath, hnotes⟩ := hsafe n m hm
  have hmove := (Machine.step_move acts hb hne hpath).ordinary hnotes
  rcases hend with hrun | ⟨v, m', hstep, hrun⟩ | ⟨m', hstep, -⟩
  · rw [parse, hrun]
    exact ⟨by simp, hnotes⟩
  · rw [hstep] at hmove
    rw [parse, hrun]
    refine ⟨?_, hmove⟩
    unfold Run.within
    dsimp only
    split <;> simp
  · rw [hstep] at hmove
    exact hmove.elim

/-- What a run ended with, if it came to an end. -/
def Run.result? (run : Run σ V) : Option (Option V) :=
  match run.verdict with
  | .finished value => some value
  | .broken | .exhausted => none

theorem Run.verdict_of_result? {run : Run σ V} {value : Option V} (h : run.result? = some value) :
    run.verdict = .finished value := by
  unfold result? at h
  split at h
  · rename_i value' hverdict
    rw [hverdict, Option.some.inj h]
  · cases h
  · cases h

/-- A run that ends with a value that passes a test. -/
theorem Run.exists_finished {run : Run σ V} {test : V → Bool}
    (h : (run.result?.any fun value => value.any test) = true) :
    ∃ value, run.verdict = .finished (some value) ∧ test value = true := by
  obtain ⟨value, hresult, hvalue⟩ := (Option.any_eq_true _ _).1 h
  obtain ⟨value, rfl, htest⟩ := (Option.any_eq_true _ _).1 hvalue
  exact ⟨value, verdict_of_result? hresult, htest⟩

/-- A run of a parser on a text of a grammar, up to a machine that passes a test. -/
theorem Machine.exists_after (text : String) (input : Input) (steps : Nat)
    (test : Table → Machine TreeMemory Tree → Bool)
    (h : ((Grammar.readText text).toOption.any fun g =>
      ((Machine.start (Automaton.build g .lalr).table {} input).after (Automaton.build g .lalr).table
        treeActions steps).any (test (Automaton.build g .lalr).table)) = true) :
    ∃ g m, Grammar.readText text = .ok g ∧
    (Machine.start (Automaton.build g .lalr).table {} input).after (Automaton.build g .lalr).table
      treeActions steps = some m ∧ test (Automaton.build g .lalr).table m = true := by
  obtain ⟨g, hg, htest⟩ := Grammar.exists_readText text _ h
  obtain ⟨m, hm, htest⟩ := (Option.any_eq_true _ _).1 htest
  exact ⟨g, m, hg, hm, htest⟩

/-- A list of numbers, with errors in between. -/
def numberList : String :=
  "L -> L NUMBER\n   | L ERROR\n   | NUMBER\n"

/-- Two numbers around something else. -/
def interrupted : Input :=
  .ofList [(.number, ['1']), (.string, ['x']), (.number, ['2'])]

set_option maxRecDepth 100000 in
/-- After five steps the parser has gone on after an error. -/
theorem parse_safe_numberList : ∃ g, Grammar.readText numberList = .ok g ∧
    (∃ m, (Machine.start (Automaton.build g .lalr).table {} interrupted).after
        (Automaton.build g .lalr).table treeActions 5 = some m ∧ m.memory.errors ≠ [] ∧
      m.Safe (Automaton.build g .lalr).table) ∧
    (parse (Automaton.build g .lalr).table treeActions {} interrupted 10).verdict ≠ .broken := by
  obtain ⟨g, hg, htest⟩ := Grammar.exists_readText numberList (fun g =>
    match (Machine.start (Automaton.build g .lalr).table {} interrupted).after
        (Automaton.build g .lalr).table treeActions 5 with
    | some m => !m.memory.errors.isEmpty
    | none => false) (by decide +kernel)
  obtain ⟨hsafe, hrun⟩ := parse_safe hg .lalr treeActions {} interrupted
  refine ⟨g, hg, ?_, (hrun 10).1⟩
  split at htest
  · rename_i m hm
    exact ⟨m, hm, by simpa using htest, hsafe 5 m hm⟩
  · cases htest

end LayoutLR
