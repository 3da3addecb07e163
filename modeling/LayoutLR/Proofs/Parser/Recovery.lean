/-
  Layout-aware LR toolkit — looking ahead tells the truth.

  After an error tokens are skipped until one can be shifted.  Whether it can is
  found out on a copy of the stack that has the states only.  The parser itself
  then does what the copy has done: it reduces some times, and shifts the token.

  * `Machine.Ready`: looking ahead finds that the token can be shifted;
  * `Machine.Ready.step`: a step on the copy is a step of the parser;
  * `Machine.ShiftsAfter`: the parser shifts its token after some reductions;
  * `Machine.skip?_stops`: where skipping stops, the token can be shifted;
  * `recovery_shifts`: the token after an error is shifted.
-/
import LayoutLR.Proofs.Parser.Reading

namespace LayoutLR

variable {σ V : Type}

namespace Stack

/-- The states on a stack, from the top down. -/
def states (s : Stack V) : List Nat :=
  s.frames.map Frame.state

theorem states_eq_view (s : Stack V) : s.states = s.view.map Prod.fst := by
  rw [states, view, List.map_map]
  rfl

end Stack

namespace Machine

/-! ## The copy of the stack -/

section

variable {t : Table} {token : Token} {lineStart : Bool} {n top : Nat} {below states : List Nat}

/-- A token that can be shifted has a transition, or there is a reduction after which it can
    be shifted. -/
theorem canShift?_cases (h : canShift? t token (n + 1) lineStart (top :: below) = some true) :
    (∃ q, t.goto? top token.kind.num = some q) ∨
      t.goto? top token.kind.num = none ∧ ∃ r state rest next, t.reduce? top = some r ∧
        mayReduce r token lineStart = true ∧ (top :: below).drop r.size = state :: rest ∧
        t.goto? state r.sym = some next ∧
        canShift? t token n false (next :: state :: rest) = some true := by
  unfold canShift? at h
  obtain ⟨row, hrow, h⟩ := Option.bind_eq_some_iff.1 h
  simp only [Table.goto?, Table.reduce?, hrow, Option.bind_some]
  split at h
  · rename_i hgo
    exact Or.inl (Option.isSome_iff_exists.1 hgo)
  rename_i hgo
  refine Or.inr ⟨by simpa using hgo, ?_⟩
  split at h
  · cases h
  rename_i r hr
  split at h
  · cases h
  rename_i hmay
  split at h
  · cases h
  rename_i state rest hdrop
  obtain ⟨row', hrow', h⟩ := Option.bind_eq_some_iff.1 h
  split at h
  · cases h
  rename_i next hnext
  rw [Bool.or_eq_true, not_or] at hmay
  exact ⟨r, state, rest, next, hr, by simpa using hmay.2, hdrop, by simp [hrow', hnext], h⟩

/-- There is a transition on a token that can be shifted. -/
theorem exists_goto_of_canShift? (h : canShift? t token n lineStart states = some true) :
    ∃ q q', t.goto? q token.kind.num = some q' := by
  induction n generalizing lineStart states with
  | zero => cases h
  | succ n ih =>
    cases states with
    | nil => cases h
    | cons top below =>
      rcases canShift?_cases h with ⟨q, hgo⟩ | ⟨-, r, state, rest, next, -, -, -, -, h⟩
      · exact ⟨top, q, hgo⟩
      · exact ih h

end

/-! ## The parser itself -/

/-- Looking ahead finds that the token can be shifted after fewer than `n` reductions. -/
def Ready (t : Table) (n : Nat) (m : Machine σ V) : Prop :=
  ∃ lineStart, canShift? t m.token n lineStart m.stack.states = some true ∧
    (lineStart = true → atLineStart m.stack = true)

/-- Line breaks are not put off: a state with a transition on a line break has no reduction. -/
def BreaksFirst (t : Table) : Prop :=
  ∀ q q', t.goto? q Kind.newline.num = some q' → t.reduce? q = none

theorem breaksFirst_iff {t : Table} : BreaksFirst t ↔
    ∀ row ∈ t.rows, row.goto? Kind.newline.num ≠ none → row.reduce = none := by
  constructor
  · intro h row hrow hgo
    obtain ⟨q, hq⟩ := Array.getElem?_of_mem hrow
    obtain ⟨q', hgo⟩ := Option.ne_none_iff_exists'.1 hgo
    rw [← Table.reduce?_of_row hq]
    exact h q q' ((Table.goto?_of_row hq _).trans hgo)
  · intro h q q' hgo
    obtain ⟨row, hrow, hgo⟩ := Option.bind_eq_some_iff.1 hgo
    rw [Table.reduce?_of_row hrow]
    exact h row (Array.mem_of_getElem? hrow) (by simp [hgo])

instance (t : Table) : Decidable (BreaksFirst t) :=
  decidable_of_iff _ breaksFirst_iff.symm

variable {g : Grammar} {t : Table} {has : Nat → Item → Prop} {acts : Actions σ V}
  {m m' : Machine σ V} {n : Nat}

/-- A token that is shifted, or a line break that is discarded. -/
structure Takes (t : Table) (m m' : Machine σ V) (verb : Verb) : Prop where
  verb_eq : verb = .shift ∧
      t.goto? m.stack.top.state m.token.kind.num = some m'.stack.top.state ∨
    verb = .discard ∧ m.token.kind = .newline
  notes : m'.notes = .take :: .act verb m.stack m.token :: m.notes
  next : m.input.next = (m'.token, m'.input)

/-- A reduction that leaves the token as it is. -/
structure Reduces (m m' : Machine σ V) (verb : Verb) : Prop where
  verb_eq : verb = .reduce ∨ verb = .force ∧ m.token.kind = .newline
  notes : m'.notes = .act verb m.stack m.token :: m.notes
  token : m'.token = m.token
  input : m'.input = m.input

theorem reduceOrFail_reduces (acts : Actions σ V) (hb : t.Backed g has)
    (hp : t.Path m.stack.frames) {row : Row} {r : Reduction}
    (hrow : t.row? m.stack.top.state = some row) (hred : row.reduce = some r)
    (hmay : mayReduce r m.token (atLineStart m.stack) = true) (hprod : r.prod ≠ 0) {forced : Bool}
    (hforced : forced = true → m.token.kind = .newline) {state next : Nat} {rest : List Nat}
    (hdrop : m.stack.states.drop r.size = state :: rest) (hgo : t.goto? state r.sym = some next) :
    ∃ m', reduceOrFail t acts m row forced = .next m' ∧
      m.Reduces m' (if forced then .force else .reduce) ∧
      m'.stack.states = next :: state :: rest := by
  have hr : t.reduce? m.stack.top.state = some r := (Table.reduce?_of_row hrow).trans hred
  obtain ⟨popped, below, next', stack, hpop, hgo', hpush, hby⟩ := reduceBy_pushed acts hb hp hr hprod
  have hbelow : below.states = state :: rest := by
    obtain ⟨popped', below', hpop', hframes, hlen, -⟩ := hp.reduce hb hr
    obtain ⟨rfl, rfl⟩ := Prod.mk.inj (Option.some.inj (hpop.symm.trans hpop'))
    rw [Stack.states, hframes, List.map_append, ← hlen] at hdrop
    rwa [← List.length_map (f := Frame.state), List.drop_left] at hdrop
  obtain rfl : below.top.state = state := (List.cons.inj hbelow).1
  obtain rfl : next' = next := Option.some.inj (hgo'.symm.trans hgo)
  have hsize := size_lt_of_reduce hb hp hr
  refine ⟨{ m.act (if forced then .force else .reduce) with
      stack
      memory := (acts.reduce m.memory r.prod (popped.reverse.filterMap Frame.value)).2
      calls := m.calls + 1 }, ?_, ⟨?_, rfl, rfl, rfl⟩, ?_⟩
  · simp [reduceOrFail, hred, hmay, hsize, hprod, hby]
  · cases forced with
    | true => exact Or.inr ⟨rfl, hforced rfl⟩
    | false => exact Or.inl rfl
  · show stack.states = _
    rw [Stack.states_eq_view, Stack.view_push? hpush, List.map_cons, ← Stack.states_eq_view, hbelow]

theorem shift_takes (acts : Actions σ V) (hb : t.Backed g has) {row : Row} {q : Nat}
    (hrow : t.row? m.stack.top.state = some row) (hgo : row.goto? m.token.kind.num = some q) :
    ∃ m', shiftOrReduce t acts m row = .next m' ∧ m.Takes t m' .shift ∧
      m'.stack.states = q :: m.stack.states := by
  have hq := (Table.goto?_of_row hrow m.token.kind.num).trans hgo
  obtain ⟨stack, hpush⟩ := m.stack.exists_push? (hb.target _ _ _ hq).1 m.token.kind.num 0
    (m.token.kind == .newline) (acts.token m.memory m.token).1
  obtain ⟨row', -, rfl⟩ := Option.map_eq_some_iff.1 hpush
  simp only [shiftOrReduce, hgo, Machine.shift, act, note, hpush, Progress.ofStack?]
  exact ⟨_, rfl, ⟨Or.inl ⟨rfl, hq⟩, rfl, rfl⟩, rfl⟩

theorem mayReduce_mono {r : Reduction} {token : Token} {b b' : Bool} (hb : b = true → b' = true)
    (h : mayReduce r token b = true) : mayReduce r token b' = true := by
  simp only [mayReduce, Bool.or_eq_true] at h ⊢
  exact h.imp_right hb

/-- **The parser does what the copy of its stack has done**: it takes the token, or reduces and
    still can take it. -/
theorem Ready.step (acts : Actions σ V) (hb : t.Backed g has)
    (hstart : ∀ q, t.goto? q g.start = none) (hp : t.Path m.stack.frames)
    (hkind : m.token.kind.isLayout = false ∨ m.token.kind = .newline ∧ BreaksFirst t)
    (h : m.Ready t (n + 1)) : ∃ m' verb, m.step t acts = .next m' ∧
      (m.Takes t m' verb ∨ m.Reduces m' verb ∧ m'.Ready t n) := by
  obtain ⟨lineStart, hcan, hline⟩ := h
  obtain ⟨row, hrow⟩ : ∃ row, t.row? m.stack.top.state = some row :=
    ⟨_, Array.getElem?_eq_getElem (hp.state_lt hb m.stack.top (by simp [Stack.frames]))⟩
  have hgoto := Table.goto?_of_row hrow
  have hreduce := Table.reduce?_of_row hrow
  by_cases hdiscard : m.token.kind = .newline ∧ m.stack.top.newlinePermitted = false
  · refine ⟨(m.act .discard).advance, .discard, ?_, Or.inl ⟨Or.inr ⟨rfl, hdiscard.1⟩, rfl, rfl⟩⟩
    simp [Machine.step, hrow, hdiscard, stepNewline]
  have hperm : m.token.kind = .newline → m.stack.top.newlinePermitted = true := by
    intro hbreak
    simpa [hbreak] using hdiscard
  rcases canShift?_cases hcan with ⟨q, hgo⟩ | ⟨hgo, r, state, rest, next, hr, hmay, hdrop, hnext, hcan⟩
  · rw [hgoto] at hgo
    obtain ⟨m', hshift, htakes, -⟩ := shift_takes acts hb hrow hgo
    refine ⟨m', .shift, ?_, Or.inl htakes⟩
    rcases hkind with hplain | ⟨hbreak, hfirst⟩
    · rw [step_plain acts hplain hrow, hshift]
    · have hnone : row.reduce = none := by
        rw [← hreduce]
        exact hfirst _ q (by rw [← hbreak, hgoto, hgo])
      simp [Machine.step, hrow, hbreak, stepNewline, hperm hbreak, lineForces, hnone, hshift]
  · -- nothing waits for the head of the start production, so this is not the last reduction
    have hprod : r.prod ≠ 0 := by
      intro hzero
      have hsym := congrArg Reduction.sym (hb.reduce _ r hr).1
      rw [hzero] at hsym
      have := hstart state
      rw [← show r.sym = g.start from hsym, hnext] at this
      cases this
    have hreduces (forced : Bool) (hforced : forced = true → m.token.kind = .newline) :=
      reduceOrFail_reduces acts hb hp hrow (hreduce ▸ hr) (mayReduce_mono hline hmay) hprod
        hforced hdrop hnext
    have hready (m' : Machine σ V) {verb : Verb} (hred : m.Reduces m' verb)
        (hstates : m'.stack.states = next :: state :: rest) : m'.Ready t n :=
      ⟨false, by rw [hred.token, hstates]; exact hcan, by simp⟩
    rw [hgoto] at hgo
    rcases hkind with hplain | ⟨hbreak, -⟩
    · obtain ⟨m', hstep, hred, hstates⟩ := hreduces false (by simp)
      refine ⟨m', _, ?_, Or.inr ⟨hred, hready m' hred hstates⟩⟩
      rw [step_plain acts hplain hrow, shiftOrReduce, hgo, hstep]
    · obtain ⟨m', hstep, hred, hstates⟩ := hreduces (lineForces row m.stack.top) fun _ => hbreak
      refine ⟨m', _, ?_, Or.inr ⟨hred, hready m' hred hstates⟩⟩
      rw [hbreak] at hgo
      rw [← hstep]
      cases hforces : lineForces row m.stack.top <;>
        simp [Machine.step, hrow, hbreak, stepNewline, hperm hbreak, hforces, shiftOrReduce, hgo]

/-- From here the parser reduces some times, and then shifts the token. -/
inductive Shifts (t : Table) (acts : Actions σ V) : Machine σ V → Prop
  | shift {m m' : Machine σ V} (hstep : m.step t acts = .next m')
      (hnotes : m'.notes = .take :: .act .shift m.stack m.token :: m.notes) : Shifts t acts m
  | reduce {m m' : Machine σ V} (hstep : m.step t acts = .next m')
      (hnotes : m'.notes = .act .reduce m.stack m.token :: m.notes)
      (htoken : m'.token = m.token) (h : Shifts t acts m') : Shifts t acts m

/-- From here the parser reduces so many times, and then shifts the token. -/
inductive ShiftsAfter (t : Table) (acts : Actions σ V) : Nat → Machine σ V → Prop
  | shift {m m' : Machine σ V} (hstep : m.step t acts = .next m')
      (hnotes : m'.notes = .take :: .act .shift m.stack m.token :: m.notes) :
      ShiftsAfter t acts 0 m
  | reduce {n : Nat} {m m' : Machine σ V} (hstep : m.step t acts = .next m')
      (hnotes : m'.notes = .act .reduce m.stack m.token :: m.notes) (htoken : m'.token = m.token)
      (h : ShiftsAfter t acts n m') : ShiftsAfter t acts (n + 1) m

theorem ShiftsAfter.shifts (h : m.ShiftsAfter t acts n) : m.Shifts t acts := by
  induction h with
  | shift hstep hnotes => exact .shift hstep hnotes
  | reduce hstep hnotes htoken _ ih => exact .reduce hstep hnotes htoken ih

/-- A token that can be shifted on the copy of the stack is shifted after as few reductions. -/
theorem Ready.shiftsAfter (acts : Actions σ V) (hb : t.Backed g has) (hne : g.body 0 ≠ [])
    (hstart : ∀ q, t.goto? q g.start = none) (hp : t.Path m.stack.frames)
    (hkind : m.token.kind.isLayout = false) (h : m.Ready t n) :
    ∃ k < n, m.ShiftsAfter t acts k := by
  have hplain : m.token.kind ≠ .newline := by
    intro hbreak
    rw [hbreak] at hkind
    cases hkind
  induction n generalizing m with
  | zero =>
    obtain ⟨lineStart, hcan, -⟩ := h
    cases hcan
  | succ n ih =>
    obtain ⟨m', verb, hstep, htakes | ⟨hred, hready⟩⟩ := h.step acts hb hstart hp (Or.inl hkind)
    · rcases htakes.verb_eq with ⟨rfl, -⟩ | ⟨-, hbreak⟩
      · exact ⟨0, Nat.succ_pos n, .shift hstep htakes.notes⟩
      · exact absurd hbreak hplain
    · rcases hred.verb_eq with rfl | ⟨-, hbreak⟩
      · rw [← hred.token] at hkind hplain
        obtain ⟨k, hk, hshifts⟩ := ih (step_path hb hne hp hstep) hkind hready hplain
        exact ⟨k + 1, Nat.succ_lt_succ hk, .reduce hstep hred.notes hred.token hshifts⟩
      · exact absurd hbreak hplain

theorem Ready.shifts (hb : t.Backed g has) (hne : g.body 0 ≠ [])
    (hstart : ∀ q, t.goto? q g.start = none) (hp : t.Path m.stack.frames)
    (hkind : m.token.kind.isLayout = false) (h : m.Ready t n) : m.Shifts t acts := by
  obtain ⟨k, -, hshifts⟩ := h.shiftsAfter acts hb hne hstart hp hkind
  exact hshifts.shifts

/-! ## Recovery -/

/-- Skipping stops at a token that can be shifted, at the end, or at the end of a level. -/
theorem skip?_stops {s : Stack V} {eof : Token} (heof : eof.kind = .eof) {sk : Skipped}
    (tokens : List Token) : ∀ {must : Bool} {token : Token} {indents taken : Nat},
      skip? t s eof must token indents taken tokens = some sk →
      inLookahead? t s sk.token = some true ∨ sk.token.kind = .eof ∨ sk.token.kind = .outdent := by
  have hstops {must : Bool} {token : Token} (h : stopsAt? t s must token = some true) :
      inLookahead? t s token = some true ∨ token.kind = .eof ∨ token.kind = .outdent := by
    unfold stopsAt? at h
    split at h
    · rename_i hkind
      exact Or.inr (Or.inl hkind)
    split at h
    · cases h
    · exact Or.inl h
  induction tokens with
  | nil =>
    intro must token indents taken h
    rw [skip?] at h
    obtain ⟨stop, hstop, rfl⟩ := Option.map_eq_some_iff.1 h
    cases stop with
    | true => exact hstops hstop
    | false => exact Or.inr (Or.inl heof)
  | cons next rest ih =>
    intro must token indents taken h
    rw [skip?] at h
    split at h
    · cases h
    · rename_i hstop
      obtain rfl := Option.some.inj h
      exact hstops hstop
    · split at h
      · rename_i hout
        obtain rfl := Option.some.inj h
        exact Or.inr (Or.inr hout.1)
      · exact ih h

/-- After an error was pushed and tokens were skipped, the token can be shifted. -/
theorem ready_addIndents {below stack : Stack V} {next : Nat} {v : V} {sk : Skipped} {must : Bool}
    {token : Token} {indents taken : Nat} {input : Input}
    (hpush : below.push? t next Kind.error.num 0 false v = some stack)
    (hskip : skip? t stack input.eof must token indents taken input.tokens = some sk)
    (hend : sk.token.kind = .eof → inLookahead? t stack sk.token = some true)
    (hout : sk.token.kind ≠ .outdent) (htoken : m.token = sk.token)
    (hstack : m.stack = addIndents stack sk.indents) : m.Ready t (t.rows.size + stack.size) := by
  have hlook : inLookahead? t stack sk.token = some true := by
    rcases skip?_stops rfl input.tokens hskip with hlook | heof | hkind
    · exact hlook
    · exact hend heof
    · exact absurd hkind hout
  -- the frame of the error does not start a line
  have hline : atLineStart stack = false := by
    obtain ⟨row, -, rfl⟩ := Option.map_eq_some_iff.1 hpush
    simp [atLineStart]
  have hstates : m.stack.states = stack.states := by
    rw [hstack]
    rfl
  refine ⟨false, ?_, by simp⟩
  rw [htoken, hstates, Stack.states, ← hline]
  exact hlook

/-- After a step with an error, the token can be shifted. -/
theorem Turn.ready (h : Turn t acts m m')
    (herror : m.notes.countP Note.isError < m'.notes.countP Note.isError)
    (hout : m'.token.kind ≠ .outdent) : ∃ n, m'.Ready t n := by
  cases h with
  | resume _ _ hpush hskip hend => exact ⟨_, ready_addIndents hpush hskip hend hout rfl rfl⟩
  | record => simp [advance, act, note, Note.isError] at herror
  | cancel => simp [advance, act, note, Note.isError] at herror
  | discard => simp [advance, act, note, Note.isError] at herror
  | shift => simp [advance, act, note, Note.isError] at herror
  | reduce hverb => rcases hverb with rfl | rfl <;> simp [act, note, Note.isError] at herror

end Machine

/-- **The token after an error is shifted.**  Where looking ahead finds that a token can be
    shifted, the parser reduces some times and then shifts it; and when it goes on after an
    error, it does so at such a token.  Layout tokens apart. -/
theorem recovery_shifts {code : List CodeNode} {g : Grammar} (hread : Grammar.read code = .ok g)
    (strength : Strength) (acts : Actions σ V) (memory : σ) (input : Input) {n : Nat}
    {m : Machine σ V} (hm : (Machine.start (Automaton.build g strength).table memory input).after
      (Automaton.build g strength).table acts n = some m) :
    (m.token.kind.isLayout = false →
        Machine.inLookahead? (Automaton.build g strength).table m.stack m.token = some true →
        m.Shifts (Automaton.build g strength).table acts) ∧
      ∀ m', m.step (Automaton.build g strength).table acts = .next m' →
        m.notes.countP Note.isError < m'.notes.countP Note.isError →
        m'.token.kind.isLayout = false → m'.Shifts (Automaton.build g strength).table acts := by
  have hsound := Automaton.build_sound (Grammar.read_wellFormed hread).indexed strength
  have hwf := Grammar.read_wellFormed hread
  have hb := hsound.backed
  have hne := hwf.body_ne_nil
  have hstart := hsound.goto?_eq_none hwf.start
  generalize (Automaton.build g strength).table = t at hb hstart hm ⊢
  have hp := Machine.after_path hb hne (Machine.start_path t memory input) hm
  refine ⟨fun hkind hlook => ?_, fun m' hstep herror hkind => ?_⟩
  · have hready : m.Ready t (t.rows.size + m.stack.size) := ⟨_, hlook, id⟩
    exact hready.shifts hb hne hstart hp hkind
  · have hout : m'.token.kind ≠ .outdent := by
      intro hout
      rw [hout] at hkind
      cases hkind
    obtain ⟨k, hready⟩ := (Machine.step_turn hb hne hp hstep).ready herror hout
    have hp' := Machine.after_path hb hne hp (n := 1) (by rw [Machine.after, hstep]; rfl)
    exact hready.shifts hb hne hstart hp' hkind

set_option maxRecDepth 100000 in
/-- The third step goes on after an error, at a number that is shifted after a reduction. -/
theorem recovery_shifts_numberList : ∃ g m m', Grammar.readText numberList = .ok g ∧
    (Machine.start (Automaton.build g .lalr).table {} interrupted).after
      (Automaton.build g .lalr).table treeActions 2 = some m ∧
    m.step (Automaton.build g .lalr).table treeActions = .next m' ∧
    m.notes.countP Note.isError < m'.notes.countP Note.isError ∧ m'.token.kind = .number ∧
    m'.Shifts (Automaton.build g .lalr).table treeActions := by
  obtain ⟨g, hg, htest⟩ := Grammar.exists_readText numberList (fun g =>
    match (Machine.start (Automaton.build g .lalr).table {} interrupted).after
        (Automaton.build g .lalr).table treeActions 2 with
    | some m =>
      match m.step (Automaton.build g .lalr).table treeActions with
      | .next m' => decide (m.notes.countP Note.isError < m'.notes.countP Note.isError) &&
          decide (m'.token.kind = .number)
      | _ => false
    | none => false) (by decide +kernel)
  split at htest
  · rename_i m hm
    split at htest
    · rename_i m' hstep
      simp only [Bool.and_eq_true, decide_eq_true_eq] at htest
      obtain ⟨herror, hkind⟩ := htest
      have hplain : m'.token.kind.isLayout = false := by
        rw [hkind]
        rfl
      exact ⟨g, m, m', hg, hm, hstep, herror, hkind,
        (recovery_shifts hg .lalr treeActions {} interrupted hm).2 m' hstep herror hplain⟩
    · cases htest
  · cases htest

end LayoutLR
