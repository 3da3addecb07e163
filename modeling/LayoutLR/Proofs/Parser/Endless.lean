/-
  Layout-aware LR toolkit — parsing that does not come to an end.

  Without conflicts a parser may still go on for ever.  At the end of the input it
  may reduce an empty body again and again, or shift the end again and again; and
  after an error it may go on at a token that it does not take, only to meet the
  next error there.

  * `Machine.Endless`: a parser goes on for ever;
  * `Table.Spins`: what a parser does at the end, to the states on its stack;
  * `Machine.endless_at_end`: stacks that it does not get away from;
  * `Machine.endless_at_outdent`, `Machine.endless_at_break`: errors that come again and again;
  * `parse_endless`: none of the conditions of a tame grammar can be left out.
-/
import LayoutLR.Proofs.Parser.Halting

namespace LayoutLR

variable {σ V : Type}

namespace Machine

variable {t : Table} {acts : Actions σ V} {m m' : Machine σ V} {n : Nat}

/-- A parser goes on for ever. -/
def Endless (t : Table) (acts : Actions σ V) (m : Machine σ V) : Prop :=
  ∀ n, ∃ m', m.after t acts n = some m'

theorem Endless.of_step (hstep : m.step t acts = .next m') (h : m'.Endless t acts) :
    m.Endless t acts := by
  intro n
  cases n with
  | zero => exact ⟨m, rfl⟩
  | succ n =>
    rw [after, hstep]
    exact h n

theorem Endless.of_after (hm : m.after t acts n = some m') (h : m'.Endless t acts) :
    m.Endless t acts := by
  induction n generalizing m with
  | zero =>
    obtain rfl := Option.some.inj hm
    exact h
  | succ n ih =>
    rw [after] at hm
    split at hm
    · rename_i m₁ hstep
      exact .of_step hstep (ih hm)
    · cases hm
    · cases hm

/-- A parser goes on for ever if it always gets back to where it can go on. -/
theorem endless_of_step {P : Machine σ V → Prop}
    (hstep : ∀ m, P m → ∃ m', m.step t acts = .next m' ∧ P m') (hm : P m) : m.Endless t acts := by
  intro n
  induction n generalizing m with
  | zero => exact ⟨m, rfl⟩
  | succ n ih =>
    obtain ⟨m', hnext, hm'⟩ := hstep m hm
    rw [after, hnext]
    exact ih hm'

end Machine

/-! ## At the end -/

/-- What a parser does at the end, to the states on its stack from the top down. -/
inductive Table.Spins (t : Table) : List Nat → List Nat → Prop
  | shift {top q : Nat} {below : List Nat} (hgo : t.goto? top Kind.eof.num = some q) :
      Spins t (top :: below) (q :: top :: below)
  | reduce {top state next : Nat} {below rest : List Nat} {r : Reduction}
      (hgo : t.goto? top Kind.eof.num = none) (hr : t.reduce? top = some r) (hne : r.prod ≠ 0)
      (hdrop : (top :: below).drop r.size = state :: rest)
      (hnext : t.goto? state r.sym = some next) : Spins t (top :: below) (next :: state :: rest)

/-- An empty body is reduced in a state that leads back to itself. -/
@[mk_iff]
structure Table.Refills (t : Table) (q : Nat) (r : Reduction) : Prop where
  stuck : t.goto? q Kind.eof.num = none
  reduce : t.reduce? q = some r
  inner : r.prod ≠ 0
  empty : r.size = 0
  back : t.goto? q r.sym = some q

instance (t : Table) (q : Nat) (r : Reduction) : Decidable (t.Refills q r) :=
  decidable_of_iff _ (Table.refills_iff t q r).symm

namespace Machine

variable {g : Grammar} {t : Table} {has : Nat → Item → Prop} {acts : Actions σ V}
  {m : Machine σ V}

/-- A parser looks at the end. -/
@[mk_iff]
structure AtEnd (m : Machine σ V) : Prop where
  kind : m.token.kind = .eof
  input : m.input.tokens.isEmpty = true

instance (m : Machine σ V) : Decidable m.AtEnd :=
  decidable_of_iff _ (atEnd_iff m).symm

/-- The end stays the next token when it is taken. -/
theorem AtEnd.next {m' : Machine σ V} (h : m.AtEnd)
    (hnext : m.input.next = (m'.token, m'.input)) : m'.AtEnd := by
  rw [Input.next, List.isEmpty_iff.1 h.input] at hnext
  obtain ⟨htoken, hinput⟩ := Prod.mk.inj hnext
  exact ⟨by rw [← htoken]; rfl, by rw [← hinput]; exact h.input⟩

theorem step_at_end (acts : Actions σ V) (hb : t.Backed g has) (hp : t.Path m.stack.frames)
    (hend : m.AtEnd) {states : List Nat} (h : t.Spins m.stack.states states) :
    ∃ m', m.step t acts = .next m' ∧ m'.AtEnd ∧ m'.stack.states = states := by
  have hkind := hend.kind
  have hplain : m.token.kind.isLayout = false := by rw [hkind]; rfl
  generalize hstates : m.stack.states = before at h
  cases h with
  | shift hgo =>
    obtain ⟨rfl, rfl⟩ := List.cons.inj hstates
    rw [← hkind] at hgo
    obtain ⟨row, hrow, hgo⟩ := Option.bind_eq_some_iff.1 hgo
    obtain ⟨m', hshift, htakes, hstates⟩ := shift_takes acts hb hrow hgo
    exact ⟨m', by rw [step_plain acts hplain hrow, hshift], hend.next htakes.next, hstates⟩
  | @reduce _ _ _ _ _ r hgo hr hne hdrop hnext =>
    obtain ⟨rfl, rfl⟩ := List.cons.inj hstates
    rw [← hkind] at hgo
    obtain ⟨row, hrow, hred⟩ := Option.bind_eq_some_iff.1 hr
    rw [Table.goto?_of_row hrow] at hgo
    have hmay : mayReduce r m.token (atLineStart m.stack) = true := by
      simp [mayReduce, endsLine, hkind]
    have hforced (h : false = true) : m.token.kind = .newline := by cases h
    obtain ⟨m', hstep, hreduces, hstates'⟩ := reduceOrFail_reduces acts hb hp hrow hred hmay hne
      hforced hdrop hnext
    refine ⟨m', ?_, ⟨?_, ?_⟩, hstates'⟩
    · rw [step_plain acts hplain hrow, shiftOrReduce, hgo, hstep]
    · rw [hreduces.token, hkind]
    · rw [hreduces.input, hend.input]

/-- **At the end a parser goes on for ever** on stacks that lead to such stacks again. -/
theorem endless_at_end (hb : t.Backed g has) (hne : g.body 0 ≠ []) {P : List Nat → Prop}
    (hspins : ∀ states, P states → ∃ states', t.Spins states states' ∧ P states')
    (hp : t.Path m.stack.frames) (hend : m.AtEnd) (hm : P m.stack.states) :
    m.Endless t acts := by
  refine endless_of_step (P := fun m => t.Path m.stack.frames ∧ m.AtEnd ∧ P m.stack.states) ?_
    ⟨hp, hend, hm⟩
  rintro m ⟨hp, hend, hm⟩
  obtain ⟨states, hspin, hstates⟩ := hspins m.stack.states hm
  obtain ⟨m', hstep, hend', rfl⟩ := step_at_end acts hb hp hend hspin
  exact ⟨m', hstep, step_path hb hne hp hstep, hend', hstates⟩

/-- An empty body is reduced again and again. -/
theorem endless_of_refills (hb : t.Backed g has) (hne : g.body 0 ≠ []) {q : Nat} {r : Reduction}
    (h : t.Refills q r) (hp : t.Path m.stack.frames) (hend : m.AtEnd)
    (hstate : m.stack.top.state = q) : m.Endless t acts := by
  refine endless_at_end hb hne (P := fun states => states.head? = some q) ?_ hp hend
    (congrArg some hstate)
  intro states hstates
  obtain ⟨below, rfl⟩ := List.head?_eq_some_iff.1 hstates
  exact ⟨q :: q :: below, .reduce h.stuck h.reduce h.inner (by rw [h.empty]; rfl) h.back, rfl⟩

/-- The same stack comes again and again. -/
theorem endless_of_cycle (hb : t.Backed g has) (hne : g.body 0 ≠ []) {states : List Nat}
    (hcycle : Relation.TransGen t.Spins states states) (hp : t.Path m.stack.frames)
    (hend : m.AtEnd) (hm : m.stack.states = states) : m.Endless t acts := by
  refine endless_at_end hb hne (P := fun s => Relation.TransGen t.Spins s states) ?_ hp hend
    (hm ▸ hcycle)
  intro s hs
  obtain ⟨s', hspin, hs'⟩ := Relation.TransGen.head'_iff.1 hs
  refine ⟨s', hspin, ?_⟩
  rcases Relation.reflTransGen_iff_eq_or_transGen.1 hs' with rfl | hs'
  · exact hcycle
  · exact hs'

end Machine

/-! ## After errors -/

/-- A line break is an error in one state, and is put off in the state behind the error. -/
@[mk_iff]
structure Table.PutsOff (t : Table) (q q' : Nat) (r : Reduction) : Prop where
  error : t.goto? q Kind.error.num = some q'
  stuck : t.goto? q Kind.newline.num = none ∧ t.reduce? q = none
  waits : t.goto? q' Kind.newline.num ≠ none
  reduce : t.reduce? q' = some r
  single : r.size = 1
  inner : r.prod ≠ 0
  back : t.goto? q r.sym = some q

instance (t : Table) (q q' : Nat) (r : Reduction) : Decidable (t.PutsOff q q' r) :=
  decidable_of_iff _ (Table.putsOff_iff t q q' r).symm

namespace Machine

variable {t : Table} {acts : Actions σ V} {m : Machine σ V}

/-- The error is pushed on top, and the parser goes on at the same token if it can be shifted
    there, unless the last error was there as well. -/
theorem recover_on_top (acts : Actions σ V) {q q' : Nat}
    (hgo : t.goto? m.stack.top.state Kind.error.num = some q)
    (htoken : t.goto? q m.token.kind.num = some q') (hkind : m.token.kind ≠ .eof)
    (hfresh : m.recoveredAt ≠ some (m.stack.size + 1)) :
    ∃ m', recover t acts m = .next m' ∧ m'.token = m.token ∧
      m'.recoveredAt = some m'.stack.size ∧
      m.stack.push? t q Kind.error.num 0 false (acts.error m.memory m.token).1 = some m'.stack := by
  obtain ⟨row, hrow, hgo'⟩ := Option.bind_eq_some_iff.1 htoken
  have hfind : findError t [] m.stack.frames = some ([], m.stack, q) := by
    have hgo : ((t.row? m.stack.top.state).bind fun row => row.goto? Kind.error.num) = some q := hgo
    simp [Stack.frames, findError, hgo]
  obtain ⟨stack, hpush⟩ : ∃ stack, m.stack.push? t q Kind.error.num 0 false
      (acts.error m.memory m.token).1 = some stack := by simp [Stack.push?, hrow]
  obtain ⟨row', -, hstack⟩ := Option.map_eq_some_iff.1 hpush
  have hsize : stack.size = m.stack.size + 1 := by
    rw [← hstack]
    rfl
  have hflat : addIndents stack 0 = stack := by
    rw [← hstack]
    rfl
  have hstop : stopsAt? t stack false m.token = some true := by
    have hlook : inLookahead? t stack m.token = some true := by
      rw [inLookahead?, hsize, ← hstack, ← Nat.add_assoc]
      simp [canShift?, Stack.frames, hrow, hgo']
    simp [stopsAt?, hkind, hlook]
  have hskip : skip? t stack m.input.eof false m.token 0 0 m.input.tokens =
      some ⟨m.token, m.input.tokens, 0, 0⟩ := by
    cases m.input.tokens <;> simp [skip?, hstop]
  have hmust : (m.recoveredAt == some stack.size) = false := by
    rw [hsize]
    simpa using hfresh
  simp only [recover, act, note, hfind, hpush, Progress.ofStack?, resync, hmust, List.map_nil,
    total, hskip, hkind, if_false, hflat]
  exact ⟨_, rfl, rfl, rfl, rfl⟩

/-- A parser looks at the end of a level that was not opened, and there was no error on top. -/
@[mk_iff]
structure Unlevelled (q : Nat) (m : Machine σ V) : Prop where
  state : m.stack.top.state = q
  kind : m.token.kind = .outdent
  fresh : m.recoveredAt ≠ some (m.stack.size + 1)
  flat : ∀ f ∈ m.stack.frames, f.indents = 0

instance (q : Nat) (m : Machine σ V) : Decidable (m.Unlevelled q) :=
  decidable_of_iff _ (unlevelled_iff q m).symm

theorem Unlevelled.step (acts : Actions σ V) {q q' : Nat} (hr : t.reduce? q = none)
    (hgo : t.goto? q Kind.error.num = some q) (hout : t.goto? q Kind.outdent.num = some q')
    (hm : m.Unlevelled q) : ∃ m', m.step t acts = .next m' ∧ m'.Unlevelled q := by
  obtain ⟨hstate, hkind, hfresh, hflat⟩ := hm
  subst hstate
  obtain ⟨row, hrow, -⟩ := Option.bind_eq_some_iff.1 hgo
  rw [Table.reduce?_of_row hrow] at hr
  have hcancel : m.stack.canCancelIndent = false := by
    unfold Stack.canCancelIndent
    split
    · rename_i f hf
      simp [hflat f (List.mem_of_getElem? hf)]
    · rfl
  have hstep : m.step t acts = recover t acts m := by
    simp [Machine.step, hrow, hkind, stepOutdent, reducesInside, hr, hcancel]
  rw [← hkind] at hout
  obtain ⟨m', hrecover, htoken, hat, hpush⟩ := recover_on_top acts hgo hout (by simp [hkind]) hfresh
  obtain ⟨row', -, hstack⟩ := Option.map_eq_some_iff.1 hpush
  refine ⟨m', by rw [hstep, hrecover], ?_, by rw [htoken, hkind], ?_, ?_⟩
  · rw [← hstack]
  · rw [hat]
    simp
  · rw [← hstack]
    exact List.forall_mem_cons.2 ⟨rfl, hflat⟩

/-- **A parser goes on for ever at the end of a level** that can be shifted behind an error: it
    never is. -/
theorem endless_at_outdent {q q' : Nat} (hr : t.reduce? q = none)
    (hgo : t.goto? q Kind.error.num = some q) (hout : t.goto? q Kind.outdent.num = some q')
    (hm : m.Unlevelled q) : m.Endless t acts := by
  refine endless_of_step ?_ hm
  intro m hm
  exact hm.step acts hr hgo hout

/-- A parser looks at a line break in the middle of a line, and there was no error on top. -/
@[mk_iff]
structure BrokenOff (q : Nat) (m : Machine σ V) : Prop where
  state : m.stack.top.state = q
  kind : m.token.kind = .newline
  fresh : m.recoveredAt ≠ some (m.stack.size + 1)
  permitted : m.stack.top.newlinePermitted = true
  started : 0 < m.stack.top.sinceNewline

instance (q : Nat) (m : Machine σ V) : Decidable (m.BrokenOff q) :=
  decidable_of_iff _ (brokenOff_iff q m).symm

/-- The same with an error on top. -/
structure OnError (q q' : Nat) (m : Machine σ V) : Prop where
  state : m.stack.top.state = q'
  kind : m.token.kind = .newline
  here : m.recoveredAt = some m.stack.size
  permitted : m.stack.top.newlinePermitted = true
  flat : m.stack.top.indents = 0
  started : 1 < m.stack.top.sinceNewline
  below : ∃ f fs, m.stack.below = f :: fs ∧ f.state = q ∧ f.newlinePermitted = true

theorem BrokenOff.step (acts : Actions σ V) {q q' : Nat} {r : Reduction} (h : t.PutsOff q q' r)
    (hm : m.BrokenOff q) : ∃ m', m.step t acts = .next m' ∧ m'.OnError q q' := by
  obtain ⟨hstate, hkind, hfresh, hperm, hstarted⟩ := hm
  subst hstate
  obtain ⟨row, hrow, -⟩ := Option.bind_eq_some_iff.1 h.error
  obtain ⟨hgo, hreduce⟩ := h.stuck
  rw [Table.goto?_of_row hrow] at hgo
  rw [Table.reduce?_of_row hrow] at hreduce
  have hstep : m.step t acts = recover t acts m := by
    simp [Machine.step, hrow, hkind, stepNewline, hperm, lineForces, hreduce, shiftOrReduce, hgo,
      reduceOrFail, fail]
  obtain ⟨q'', hwaits⟩ := Option.ne_none_iff_exists'.1 h.waits
  rw [← hkind] at hwaits
  obtain ⟨m', hrecover, htoken, hat, hpush⟩ :=
    recover_on_top acts h.error hwaits (by simp [hkind]) hfresh
  obtain ⟨row', -, hstack⟩ := Option.map_eq_some_iff.1 hpush
  refine ⟨m', by rw [hstep, hrecover], ?_, by rw [htoken, hkind], hat, ?_, ?_, ?_, ?_⟩
  · rw [← hstack]
  · simp [← hstack, hperm]
  · rw [← hstack]
  · simp [← hstack, hstarted]
  · exact ⟨m.stack.top, m.stack.below, by rw [← hstack]; rfl, rfl, hperm⟩

theorem OnError.step (acts : Actions σ V) {q q' : Nat} {r : Reduction} (h : t.PutsOff q q' r)
    (hm : m.OnError q q') : ∃ m', m.step t acts = .next m' ∧ m'.BrokenOff q := by
  obtain ⟨hstate, hkind, hat, hperm, hflat, hstarted, f, fs, hbelow, rfl, hperm'⟩ := hm
  subst hstate
  obtain ⟨row, hrow, hreduce⟩ := Option.bind_eq_some_iff.1 h.reduce
  obtain ⟨row', hrow', -⟩ := Option.bind_eq_some_iff.1 h.error
  have hforces : lineForces row m.stack.top = true := by
    simp [lineForces, hreduce, h.single, hstarted, Nat.le_of_lt hstarted]
  have hstep : m.step t acts = reduceOrFail t acts m row true := by
    simp [Machine.step, hrow, hkind, stepNewline, hperm, hforces]
  have hmay : mayReduce r m.token (atLineStart m.stack) = true := by
    simp [mayReduce, endsLine, hkind]
  have hsize : ¬ m.stack.size ≤ r.size := by simp [Stack.size, hbelow, h.single]
  have hback := h.back
  rw [Table.goto?_of_row hrow'] at hback
  have hpop : m.stack.pop? r.size = some ([m.stack.top], ⟨f, fs⟩) := by
    simp [Stack.pop?, h.single, Stack.frames, hbelow]
  have hline : m.stack.top.sinceNewline ≠ 0 := by omega
  simp only [hstep, reduceOrFail, hreduce, hmay, Bool.not_true, Bool.false_eq_true, if_false, hsize,
    h.inner, if_true, reduceBy, act, note, hpop, hrow', Option.bind_some, hback,
    Stack.push?, Option.map_some]
  refine ⟨_, rfl, rfl, hkind, ?_, ?_, ?_⟩
  · simp [hat, Stack.size, hbelow, Stack.frames]
  · simp [hflat, hperm', total]
  · simp [hline]

/-- **A parser goes on for ever at a line break** that is put off behind an error. -/
theorem endless_at_break {q q' : Nat} {r : Reduction} (h : t.PutsOff q q' r)
    (hm : m.BrokenOff q) : m.Endless t acts := by
  refine endless_of_step (P := fun m => m.BrokenOff q ∨ m.OnError q q') ?_ (Or.inl hm)
  rintro m (hm | hm)
  · obtain ⟨m', hstep, hm'⟩ := hm.step acts h
    exact ⟨m', hstep, Or.inr hm'⟩
  · obtain ⟨m', hstep, hm'⟩ := hm.step acts h
    exact ⟨m', hstep, Or.inl hm'⟩

end Machine

/-! ## Grammars -/

open Automaton

/-- A text of a grammar without conflicts that satisfies `P`, and an input on which a parser goes
    on for ever. -/
def Runaway (text : String) (input : Input) (P : Grammar → Prop) : Prop :=
  ∃ g, Grammar.readText text = .ok g ∧ (build g .lalr).conflicts = [] ∧ P g ∧
    (Machine.start (build g .lalr).table {} input).Endless (build g .lalr).table treeActions

/-- A parser goes on for ever if it does so after some steps. -/
theorem runaway_of_test {text : String} {input : Input} {P : Grammar → Prop} [DecidablePred P]
    (steps : Nat) {Q : Table → Machine TreeMemory Tree → Prop} [∀ t m, Decidable (Q t m)]
    (hloop : ∀ g t has m, t.Backed g has → g.body 0 ≠ [] → t.Path m.stack.frames → Q t m →
      m.Endless t treeActions)
    (h : ((Grammar.readText text).toOption.any fun g =>
      decide ((build g .lalr).conflicts = [] ∧ P g) &&
        ((Machine.start (build g .lalr).table {} input).after (build g .lalr).table treeActions
          steps).any fun m => decide (Q (build g .lalr).table m)) = true) :
    Runaway text input P := by
  obtain ⟨g, hg, htest⟩ := Grammar.exists_readText text _ h
  obtain ⟨hsafe, hrun⟩ := Bool.and_eq_true_iff.1 htest
  obtain ⟨hc, hP⟩ := of_decide_eq_true hsafe
  refine ⟨g, hg, hc, hP, ?_⟩
  have hwf := Grammar.read_wellFormed hg
  have hb := (build_sound hwf.indexed .lalr).backed
  have hne := hwf.body_ne_nil
  obtain ⟨m, hm, hQ⟩ := (Option.any_eq_true _ _).1 hrun
  have hp := Machine.after_path hb hne (Machine.start_path _ _ input) hm
  exact .of_after hm (hloop g _ _ m hb hne hp (of_decide_eq_true hQ))

set_option maxRecDepth 100000 in
/-- **None of the conditions of a tame grammar can be left out**: without conflicts, a parser goes
    on for ever if reductions without tokens are not asked for (or by a line break only that can
    be shifted as well), if they have a precedence, if the end is met again, if the end of a level
    is waited for behind an error, and if line breaks are put off there. -/
theorem parse_endless :
    Runaway "S -> A S\nA ->\n" (.ofList [])
      (fun g => g.Unranked ∧ g.EndsOnce ∧ g.uses .error = false) ∧
    Runaway "S -> A S\n   | NEWLINE\nA ->\n" (.ofList [])
      (fun g => g.Unranked ∧ g.EndsOnce ∧ g.uses .error = false) ∧
    Runaway "$ LEFT NUMBER\nS -> A S\n   | NUMBER\nA -> $$NUMBER\n" (.ofList [])
      (fun g => g.Prompt ∧ g.EndsOnce ∧ g.uses .error = false) ∧
    Runaway "S -> S '$eof' '$eof'\n   | IDENTIFIER\n" (.ofList [(.word, ['x'])])
      (fun g => g.Prompt ∧ g.Unranked ∧ g.uses .error = false) ∧
    Runaway "R -> ERROR R\n   | ERROR OUT\n" (.ofList [(.outdent, [])])
      (fun g => g.Prompt ∧ g.Unranked ∧ g.EndsOnce ∧ Machine.BreaksFirst (build g .lalr).table) ∧
    Runaway "S -> STRING R\nR -> E R\n   | NUMBER\nE -> ERROR\n   | ERROR NEWLINE\n"
      (.ofList [(.string, ['x']), (.newline, [])])
      (fun g => g.Prompt ∧ g.Unranked ∧ g.EndsOnce ∧ g.uses .outdent = false) := by
  have hrefills (q : Nat) (r : Reduction) (g : Grammar) (t : Table) (has : Nat → Item → Prop)
      (m : Machine TreeMemory Tree) (hb : t.Backed g has) (hne : g.body 0 ≠ [])
      (hp : t.Path m.stack.frames) (h : t.Refills q r ∧ m.AtEnd ∧ m.stack.top.state = q) :
      m.Endless t treeActions :=
    Machine.endless_of_refills hb hne h.1 hp h.2.1 h.2.2
  refine ⟨?_, ?_, ?_, ?_, ?_, ?_⟩
  · exact runaway_of_test 1 (hrefills 2 ⟨2, 0, 14, false⟩) (by decide +kernel)
  · exact runaway_of_test 1 (hrefills 3 ⟨3, 0, 14, false⟩) (by decide +kernel)
  · exact runaway_of_test 1 (hrefills 2 ⟨3, 0, 14, false⟩) (by decide +kernel)
  · -- the end is shifted twice, and both are reduced
    refine runaway_of_test 2 (Q := fun t m => (t.goto? 2 Kind.eof.num = some 3 ∧
      t.goto? 3 Kind.eof.num = some 4 ∧ t.goto? 4 Kind.eof.num = none ∧
      t.reduce? 4 = some ⟨1, 3, 13, false⟩ ∧ t.goto? 0 13 = some 2) ∧
      m.AtEnd ∧ m.stack.states = [2, 0]) ?_ (by decide +kernel)
    rintro g t has m hb hne hp ⟨⟨hshift, hshift', hgo, hred, hback⟩, hend, hstates⟩
    refine Machine.endless_of_cycle hb hne ?_ hp hend hstates
    exact .head (.shift hshift) (.head (.shift hshift')
      (.single (.reduce hgo hred (by decide) rfl hback)))
  · refine runaway_of_test 1 (Q := fun t m => (t.reduce? 1 = none ∧
      t.goto? 1 Kind.error.num = some 1 ∧ t.goto? 1 Kind.outdent.num = some 3) ∧
      m.Unlevelled 1) ?_ (by decide +kernel)
    rintro g t has m - - - ⟨⟨hr, hgo, hout⟩, hm⟩
    exact Machine.endless_at_outdent hr hgo hout hm
  · refine runaway_of_test 3 (Q := fun t m => t.PutsOff 6 3 ⟨4, 1, 15, false⟩ ∧ m.BrokenOff 6) ?_
      (by decide +kernel)
    rintro g t has m - - - ⟨hputs, hm⟩
    exact Machine.endless_at_break hputs hm

end LayoutLR
