/-
  Layout-aware LR toolkit — which tokens looking ahead finds usable.

  After an error was pushed, a token is skipped unless looking ahead finds that it can
  be shifted.  The parser itself may reduce as often as it likes before it shifts the
  token; looking ahead gives up after as many reductions as there are states and
  frames.  A deep stack can need more, several for each frame, and then a token is
  skipped that the parser could use.

  * `Machine.ShiftsAfter.canShift?`: looking ahead finds out, if it may go on for long enough;
  * `Machine.errorStack?`: the stack after an error was pushed;
  * `usable_token_seen`: exactly which usable tokens are found.
-/
import LayoutLR.Proofs.Parser.Layering

namespace LayoutLR

variable {σ V : Type}

namespace Machine

/-! ## The copy of the stack -/

section

variable {t : Table} {token : Token} {lineStart : Bool} {n top : Nat} {below rest : List Nat}

theorem canShift?_of_goto {q : Nat} (hgo : t.goto? top token.kind.num = some q) :
    canShift? t token (n + 1) lineStart (top :: below) = some true := by
  obtain ⟨row, hrow, hgo⟩ := Option.bind_eq_some_iff.1 hgo
  simp [canShift?, hrow, hgo]

theorem canShift?_of_reduce {r : Reduction} {state next : Nat} (hr : t.reduce? top = some r)
    (hmay : mayReduce r token lineStart = true) (hdrop : (top :: below).drop r.size = state :: rest)
    (hgo : t.goto? state r.sym = some next)
    (h : canShift? t token n false (next :: state :: rest) = some true) :
    canShift? t token (n + 1) lineStart (top :: below) = some true := by
  obtain ⟨row, hrow, hred⟩ := Option.bind_eq_some_iff.1 hr
  obtain ⟨row', hrow', hgo⟩ := Option.bind_eq_some_iff.1 hgo
  have hsize : ¬ (top :: below).length ≤ r.size := by
    intro hle
    rw [List.drop_eq_nil_of_le hle] at hdrop
    cases hdrop
  unfold canShift?
  simp only [hrow, Option.bind_eq_bind, Option.bind_some, hred, hmay, hdrop, hrow', hgo, hsize,
    decide_false, Bool.not_true, Bool.or_self, Bool.false_eq_true, if_false, h]
  split <;> rfl

end

/-! ## The parser itself -/

variable {g : Grammar} {t : Table} {has : Nat → Item → Prop} {acts : Actions σ V}
  {m m' : Machine σ V} {n : Nat}

/-- A parser goes on in one way only. -/
theorem ShiftsAfter.unique {k k' : Nat} (h : m.ShiftsAfter t acts k) (h' : m.ShiftsAfter t acts k') :
    k = k' := by
  induction h generalizing k' with
  | shift hstep hnotes =>
    cases h' with
    | shift => rfl
    | reduce hstep' hnotes' =>
      cases hstep.symm.trans hstep'
      rw [hnotes] at hnotes'
      cases hnotes'
  | reduce hstep hnotes _ _ ih =>
    cases h' with
    | shift hstep' hnotes' =>
      cases hstep.symm.trans hstep'
      rw [hnotes] at hnotes'
      cases hnotes'
    | reduce hstep' _ _ h' =>
      cases hstep.symm.trans hstep'
      rw [ih h']

/-- A step that shifts the token has a transition on it. -/
theorem Turn.goto?_of_shift (h : Turn t acts m m')
    (hnotes : m'.notes = .take :: .act .shift m.stack m.token :: m.notes) :
    ∃ q, t.goto? m.stack.top.state m.token.kind.num = some q := by
  cases h with
  | shift _ _ hgo => exact ⟨_, hgo⟩
  | record => cases hnotes
  | cancel => cases hnotes
  | discard => cases hnotes
  | reduce => cases hnotes
  | resume =>
    -- there would be one more error
    have herrors := congrArg (List.countP Note.isError) hnotes
    simp [act, note, Note.isError] at herrors
    omega

/-- A step that reduces does so with the states too. -/
theorem Turn.states_of_reduce (hb : t.Backed g has) (hp : t.Path m.stack.frames)
    (h : Turn t acts m m') (hnotes : m'.notes = .act .reduce m.stack m.token :: m.notes) :
    ∃ r state next rest, t.reduce? m.stack.top.state = some r ∧
      m.stack.states.drop r.size = state :: rest ∧ t.goto? state r.sym = some next ∧
      m'.stack.states = next :: state :: rest := by
  cases h with
  | record => cases hnotes
  | cancel => cases hnotes
  | discard => cases hnotes
  | shift => cases hnotes
  | @reduce r verb popped below stack next _ hr _ hpop hgo hpush =>
    obtain ⟨popped', below', hpop', hframes, hlen, -⟩ := hp.reduce hb hr
    obtain ⟨rfl, rfl⟩ := Prod.mk.inj (Option.some.inj (hpop.symm.trans hpop'))
    refine ⟨r, below.top.state, next, below.below.map Frame.state, hr, ?_, hgo, ?_⟩
    · rw [Stack.states, hframes, List.map_append, ← hlen, ← List.length_map (f := Frame.state),
        List.drop_left]
      rfl
    · rw [Stack.states_eq_view, Stack.view_push? hpush, List.map_cons, ← Stack.states_eq_view]
      rfl
  | resume =>
    have herrors := congrArg (List.countP Note.isError) hnotes
    simp [act, note, Note.isError] at herrors
    omega

/-- What the parser shifts after some reductions is found by looking ahead for longer. -/
theorem ShiftsAfter.canShift? {k : Nat} (hb : t.Backed g has) (hne : g.body 0 ≠ [])
    (hanywhere : ∀ q r, t.reduce? q = some r → r.newlineOnly = false) (h : m.ShiftsAfter t acts k)
    (hp : t.Path m.stack.frames) (hk : k < n) (lineStart : Bool) :
    canShift? t m.token n lineStart m.stack.states = some true := by
  induction h generalizing n lineStart with
  | shift hstep hnotes =>
    obtain ⟨n, rfl⟩ := Nat.exists_eq_succ_of_ne_zero (Nat.ne_of_gt hk)
    obtain ⟨q, hgo⟩ := (step_turn hb hne hp hstep).goto?_of_shift hnotes
    exact canShift?_of_goto hgo
  | @reduce _ m m' hstep hnotes htoken _ ih =>
    obtain ⟨n, rfl⟩ := Nat.exists_eq_succ_of_ne_zero (Nat.ne_of_gt (Nat.zero_lt_of_lt hk))
    obtain ⟨r, state, next, rest, hr, hdrop, hgo, hstates⟩ :=
      (step_turn hb hne hp hstep).states_of_reduce hb hp hnotes
    have hp' := after_path hb hne hp (n := 1) (by rw [after, hstep]; rfl)
    have hcan := ih hp' (Nat.lt_of_succ_lt_succ hk) false
    rw [hstates, htoken] at hcan
    exact canShift?_of_reduce hr (by simp [mayReduce, hanywhere _ r hr]) hdrop hgo hcan

/-! ## After an error was pushed -/

/-- The stack after an error at the token was pushed, before tokens are skipped. -/
def errorStack? (t : Table) (acts : Actions σ V) (m : Machine σ V) : Option (Stack V) :=
  (findError t [] m.stack.frames).bind fun (_, below, next) =>
    below.push? t next Kind.error.num 0 false (acts.error m.memory m.token).1

/-- It is on this stack that a parser looks ahead when it goes on after an error. -/
theorem recover_eq_resync {stack : Stack V} (h : m.errorStack? t acts = some stack) :
    ∃ mid indents, mid.stack = stack ∧ mid.token = m.token ∧ mid.input = m.input ∧
      recover t acts m = resync t acts mid indents := by
  obtain ⟨⟨dropped, below, next⟩, hfind, hpush⟩ := Option.bind_eq_some_iff.1 h
  refine ⟨{ m.act .error with
    stack
    memory := acts.disposeAll (acts.error m.memory m.token).2 (dropped.filterMap Frame.value)
    calls := m.calls + 1 }, total (dropped.map Frame.indents), rfl, rfl, rfl, ?_⟩
  unfold recover
  dsimp only [act, note] at hpush ⊢
  rw [hfind]
  dsimp only
  rw [hpush]
  rfl

theorem path_errorStack? {stack : Stack V} (hp : t.Path m.stack.frames)
    (h : m.errorStack? t acts = some stack) : t.Path stack.frames := by
  obtain ⟨⟨dropped, below, next⟩, hfind, hpush⟩ := Option.bind_eq_some_iff.1 h
  obtain ⟨top, -, hframes, hgo⟩ := findError_spec hfind
  rw [hframes] at hp
  exact hp.suffix.push hgo (Stack.view_push? hpush)

end Machine

theorem Grammar.reductionBy_newlineOnly {g : Grammar}
    (h : ∀ p ∈ g.productions, p.boundary = .anywhere) (p : Nat) :
    (g.reductionBy p).newlineOnly = false := by
  cases hget : g.productions[p]? with
  | none => simp [reductionBy, hget]
  | some q => simp [reductionBy, hget, h q (Array.mem_of_getElem? hget)]

/-- **Which usable tokens are found.**  In a grammar whose productions may end anywhere, let an
    error be pushed, and let the parser shift a token from there after some reductions.  Looking
    ahead finds the token usable if and only if there are fewer reductions than states and frames
    together.  Layout tokens apart. -/
theorem usable_token_seen {code : List CodeNode} {g : Grammar} (hread : Grammar.read code = .ok g)
    (hanywhere : ∀ p ∈ g.productions, p.boundary = .anywhere) (strength : Strength)
    (acts : Actions σ V) (memory : σ) (input : Input) {n : Nat} {m : Machine σ V}
    (hm : (Machine.start (Automaton.build g strength).table memory input).after
      (Automaton.build g strength).table acts n = some m) {stack : Stack V}
    (hstack : m.errorStack? (Automaton.build g strength).table acts = some stack)
    {m' : Machine σ V} (hm' : m'.stack = stack) (hkind : m'.token.kind.isLayout = false) {k : Nat}
    (hk : m'.ShiftsAfter (Automaton.build g strength).table acts k) :
    Machine.inLookahead? (Automaton.build g strength).table stack m'.token = some true ↔
      k < (Automaton.build g strength).table.rows.size + stack.size := by
  have hsound := Automaton.build_sound (Grammar.read_wellFormed hread).indexed strength
  have hwf := Grammar.read_wellFormed hread
  have hb := hsound.backed
  have hne := hwf.body_ne_nil
  have hstart := hsound.goto?_eq_none hwf.start
  generalize (Automaton.build g strength).table = t at hb hstart hm hstack hk ⊢
  subst hm'
  have hp := Machine.path_errorStack? (Machine.after_path hb hne (Machine.start_path t memory input) hm)
    hstack
  constructor
  · intro hlook
    have hready : m'.Ready t (t.rows.size + m'.stack.size) := ⟨_, hlook, id⟩
    obtain ⟨k', hlt, hshifts⟩ := hready.shiftsAfter acts hb hne hstart hp hkind
    rwa [hk.unique hshifts]
  · intro hlt
    have hreduce (q : Nat) (r : Reduction) (hr : t.reduce? q = some r) : r.newlineOnly = false := by
      rw [(hb.reduce q r hr).1]
      exact Grammar.reductionBy_newlineOnly hanywhere _
    exact hk.canShift? hb hne hreduce hp hlt _

/-- Names that are nested in each other, with an error in the innermost place. -/
def nestedNames : String :=
  "S -> A NUMBER\nA -> B\nB -> IDENTIFIER A\n   | ERROR\n"

/-- So many names, and a number. -/
def namesBeforeNumber (n : Nat) : Input :=
  .ofList (List.replicate n (.word, ['x']) ++ [(.number, ['1'])])

set_option maxRecDepth 100000 in
theorem nestedNames_anywhere {g : Grammar} (hg : Grammar.readText nestedNames = .ok g) :
    ∀ p ∈ g.productions, p.boundary = .anywhere := by
  obtain ⟨g', hg', htest⟩ := Grammar.exists_readText nestedNames (fun g =>
    g.productions.all fun p => decide (p.boundary = .anywhere)) (by decide +kernel)
  obtain rfl := Except.ok.inj (hg.symm.trans hg')
  exact fun p hp => of_decide_eq_true (Array.all_eq_true'.1 htest p hp)

/-- After an error behind some names, a number that can be shifted on the copy of the stack is
    shifted. -/
theorem nestedNames_shiftsAfter {g : Grammar} (hg : Grammar.readText nestedNames = .ok g)
    {names steps n : Nat} {m : Machine TreeMemory Tree} {stack : Stack Tree}
    (hm : (Machine.start (Automaton.build g .lalr).table {} (namesBeforeNumber names)).after
      (Automaton.build g .lalr).table treeActions steps = some m)
    (hstack : m.errorStack? (Automaton.build g .lalr).table treeActions = some stack)
    (hkind : m.token.kind = .number)
    (hcan : Machine.canShift? (Automaton.build g .lalr).table m.token n false stack.states = some true) :
    ∃ k < n, ({ m with stack } : Machine TreeMemory Tree).ShiftsAfter
      (Automaton.build g .lalr).table treeActions k := by
  have hsound := Automaton.build_sound (Grammar.read_wellFormed hg).indexed .lalr
  have hwf := Grammar.read_wellFormed hg
  have hp := Machine.path_errorStack? (Machine.after_path hsound.backed hwf.body_ne_nil
    (Machine.start_path _ {} (namesBeforeNumber names)) hm) hstack
  refine Machine.Ready.shiftsAfter treeActions hsound.backed hwf.body_ne_nil
    (hsound.goto?_eq_none hwf.start) hp ?_ ⟨false, hcan, by simp⟩
  show m.token.kind.isLayout = false
  rw [hkind]
  rfl

set_option maxRecDepth 100000 in
/-- Behind one name the number can be shifted after four reductions, and is found. -/
theorem usable_token_seen_nestedNames : ∃ g m stack k, Grammar.readText nestedNames = .ok g ∧
    (∀ p ∈ g.productions, p.boundary = .anywhere) ∧
    (Machine.start (Automaton.build g .lalr).table {} (namesBeforeNumber 1)).after
      (Automaton.build g .lalr).table treeActions 1 = some m ∧
    m.errorStack? (Automaton.build g .lalr).table treeActions = some stack ∧
    m.token.kind = .number ∧
    ({ m with stack } : Machine TreeMemory Tree).ShiftsAfter (Automaton.build g .lalr).table
      treeActions k ∧
    Machine.inLookahead? (Automaton.build g .lalr).table stack m.token = some true := by
  obtain ⟨g, m, hg, hm, htest⟩ := Machine.exists_after nestedNames (namesBeforeNumber 1) 1 (fun t m =>
    (m.errorStack? t treeActions).any fun stack => decide (m.token.kind = .number ∧
      5 ≤ t.rows.size + stack.size ∧
      Machine.canShift? t m.token 5 false stack.states = some true)) (by decide +kernel)
  obtain ⟨stack, hstack, htest⟩ := (Option.any_eq_true _ _).1 htest
  obtain ⟨hkind, hbound, hcan⟩ := of_decide_eq_true htest
  obtain ⟨k, hk, hshifts⟩ := nestedNames_shiftsAfter hg hm hstack hkind hcan
  have hanywhere := nestedNames_anywhere hg
  have hplain : m.token.kind.isLayout = false := by
    rw [hkind]
    rfl
  have hfound := usable_token_seen hg hanywhere .lalr treeActions {} (namesBeforeNumber 1) hm hstack
    (show ({ m with stack } : Machine TreeMemory Tree).stack = stack from rfl) hplain hshifts
  exact ⟨g, m, stack, k, hg, hanywhere, hm, hstack, hkind, hshifts,
    hfound.2 (Nat.lt_of_lt_of_le hk hbound)⟩

set_option maxRecDepth 100000 in
/-- Behind nine names the number can be shifted after twenty reductions, as many as there are
    states and frames: it is not found, and the parser gives up. -/
theorem usable_token_missed : ∃ g m stack last, Grammar.readText nestedNames = .ok g ∧
    (∀ p ∈ g.productions, p.boundary = .anywhere) ∧
    (Machine.start (Automaton.build g .lalr).table {} (namesBeforeNumber 9)).after
      (Automaton.build g .lalr).table treeActions 9 = some m ∧
    m.errorStack? (Automaton.build g .lalr).table treeActions = some stack ∧
    m.token.kind = .number ∧
    (∃ k, ({ m with stack } : Machine TreeMemory Tree).ShiftsAfter (Automaton.build g .lalr).table
      treeActions k) ∧
    Machine.inLookahead? (Automaton.build g .lalr).table stack m.token = some false ∧
    m.step (Automaton.build g .lalr).table treeActions = .done none last ∧
    m.notes.countP Note.isError < last.notes.countP Note.isError := by
  obtain ⟨g, m, hg, hm, htest⟩ := Machine.exists_after nestedNames (namesBeforeNumber 9) 9 (fun t m =>
    ((m.errorStack? t treeActions).any fun stack => decide (m.token.kind = .number ∧
      Machine.canShift? t m.token 21 false stack.states = some true ∧
      Machine.inLookahead? t stack m.token = some false)) &&
    match m.step t treeActions with
    | .done none last => decide (m.notes.countP Note.isError < last.notes.countP Note.isError)
    | _ => false) (by decide +kernel)
  obtain ⟨hat, hgivesUp⟩ := Bool.and_eq_true_iff.1 htest
  obtain ⟨stack, hstack, htest⟩ := (Option.any_eq_true _ _).1 hat
  obtain ⟨hkind, hcan, hmissed⟩ := of_decide_eq_true htest
  obtain ⟨k, -, hshifts⟩ := nestedNames_shiftsAfter hg hm hstack hkind hcan
  split at hgivesUp
  · rename_i last hstep
    exact ⟨g, m, stack, last, hg, nestedNames_anywhere hg, hm, hstack, hkind, ⟨k, hshifts⟩, hmissed,
      hstep, of_decide_eq_true hgivesUp⟩
  · cases hgivesUp

end LayoutLR
