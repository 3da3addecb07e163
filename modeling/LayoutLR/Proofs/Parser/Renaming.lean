/-
  Layout-aware LR toolkit — tables with other names for their states.

  Where the states of one table fall together to those of another, a parser on the
  one and a parser on the other go side by side: they shift, reduce and follow the
  layout in the same way, and meet their first error at the same token.  Only
  recovery can tell the tables apart, as it looks at how many states there are.

  * `Table.Renames`: tables that do the same under other names;
  * `Machine.rename`: a parser with other states;
  * `Machine.step_rename`: steps side by side;
  * `strengths_run_alike`: strength does not matter before the first error.
-/
import LayoutLR.Parser.Tree
import LayoutLR.Proofs.Automaton.Strengths
import LayoutLR.Proofs.Automaton.Table
import LayoutLR.Proofs.Parser.Calls

namespace LayoutLR

variable {σ V : Type} {f : Nat → Nat} {t t' : Table}

/-! ## Tables -/

/-- Rows that do the same under other names. -/
structure Row.Renames (f : Nat → Nat) (row row' : Row) : Prop where
  goto : ∀ sym, row'.goto? sym = (row.goto? sym).map f
  reduce : row'.reduce = row.reduce
  startsLine : row'.startsLine = row.startsLine
  minPrefix : row'.minPrefix = row.minPrefix

/-- Tables that do the same under other names. -/
structure Table.Renames (f : Nat → Nat) (t t' : Table) : Prop where
  start : f 0 = 0
  row : ∀ q, Option.Rel (Row.Renames f) (t.row? q) (t'.row? (f q))

theorem Table.Renames.startsLine (h : t.Renames f t') (q : Nat) :
    (t'.row? (f q)).map Row.startsLine = (t.row? q).map Row.startsLine := by
  have hrow := h.row q
  generalize t.row? q = row at hrow
  generalize t'.row? (f q) = row' at hrow
  cases hrow with
  | none => rfl
  | some hrow => exact congrArg some hrow.startsLine

theorem Table.Renames.goto (h : t.Renames f t') (q sym : Nat) :
    ((t'.row? (f q)).bind fun row => row.goto? sym) =
      ((t.row? q).bind fun row => row.goto? sym).map f := by
  have hrow := h.row q
  generalize t.row? q = row at hrow
  generalize t'.row? (f q) = row' at hrow
  cases hrow with
  | none => rfl
  | some hrow => exact hrow.goto sym

/-! ## Stacks -/

/-- A frame with another state. -/
def Frame.rename (f : Nat → Nat) (x : Frame V) : Frame V :=
  { x with state := f x.state }

/-- A stack with other states. -/
def Stack.rename (f : Nat → Nat) (s : Stack V) : Stack V :=
  ⟨s.top.rename f, s.below.map (Frame.rename f)⟩

namespace Stack

@[simp]
theorem frames_rename (s : Stack V) : (s.rename f).frames = s.frames.map (Frame.rename f) :=
  rfl

@[simp]
theorem size_rename (s : Stack V) : (s.rename f).size = s.size := by
  simp [size, Stack.rename]

theorem filterMap_rename (fs : List (Frame V)) :
    (fs.map (Frame.rename f)).filterMap Frame.value = fs.filterMap Frame.value := by
  rw [List.filterMap_map]
  rfl

@[simp]
theorem values_rename (s : Stack V) : (s.rename f).values = s.values := by
  rw [values, frames_rename, ← List.map_reverse, filterMap_rename]
  rfl

theorem initial_rename (h : t.Renames f t') : (initial t : Stack V).rename f = initial t' := by
  have hline := h.startsLine 0
  rw [h.start] at hline
  simp [initial, Stack.rename, Frame.rename, h.start, hline]

theorem push?_rename (h : t.Renames f t') (s : Stack V) (state sym indents : Nat)
    (startsLine : Bool) (v : V) : (s.rename f).push? t' (f state) sym indents startsLine v =
      (s.push? t state sym indents startsLine v).map (Stack.rename f) := by
  have hrow := h.row state
  unfold push?
  generalize t.row? state = row at hrow
  generalize t'.row? (f state) = row' at hrow
  cases hrow with
  | none => rfl
  | some hrow =>
    simp only [Option.map_some, hrow.startsLine]
    rfl

theorem pop?_rename (s : Stack V) (n : Nat) : (s.rename f).pop? n =
    (s.pop? n).map fun r => (r.1.map (Frame.rename f), r.2.rename f) := by
  unfold pop?
  rw [frames_rename, ← List.map_drop, ← List.map_take]
  cases s.frames.drop n <;> rfl

theorem canCancelIndent_rename (s : Stack V) :
    (s.rename f).canCancelIndent = s.canCancelIndent := by
  have htop : (s.rename f).top.sinceIndent = s.top.sinceIndent := rfl
  unfold canCancelIndent
  rw [frames_rename, List.getElem?_map, htop]
  cases s.frames[s.top.sinceIndent]? <;> rfl

theorem refreshAll_rename (h : t.Renames f t') (upper below : List (Frame V)) :
    refreshAll t' (upper.map (Frame.rename f)) (below.map (Frame.rename f)) =
      (refreshAll t upper below).map (Frame.rename f) := by
  have hrefresh (x : Frame V) (below : List (Frame V)) :
      refresh t' (x.rename f) (below.map (Frame.rename f)) = (refresh t x below).rename f := by
    have hline := h.startsLine x.state
    cases below <;> simp [refresh, Frame.rename, hline]
  induction upper with
  | nil => rfl
  | cons x upper ih =>
    simp only [refreshAll, List.map_cons, List.foldr_cons] at ih ⊢
    rw [ih, hrefresh]

theorem ofFrames_rename (s : Stack V) (fs : List (Frame V)) :
    (s.rename f).ofFrames (fs.map (Frame.rename f)) = (s.ofFrames fs).rename f := by
  cases fs <;> rfl

theorem cancelIndent_rename (h : t.Renames f t') (s : Stack V) :
    (s.rename f).cancelIndent t' = (s.cancelIndent t).rename f := by
  have htop : (s.rename f).top.sinceIndent = s.top.sinceIndent := rfl
  unfold cancelIndent
  rw [frames_rename, htop, ← List.map_drop, ← List.map_take]
  cases s.frames.drop s.top.sinceIndent with
  | nil => rfl
  | cons x below =>
    have hx : (x.rename f).indents = x.indents := rfl
    simp only [List.map_cons, hx]
    by_cases hzero : x.indents = 0
    · simp only [hzero, if_true]
    · by_cases hpos : 0 < x.indents - 1
      · simp only [hzero, hpos, if_true, if_false]
        rw [← ofFrames_rename, List.map_append]
        rfl
      · simp only [hzero, hpos, if_false]
        rw [← ofFrames_rename, ← refreshAll_rename h, List.map_append]
        rfl

end Stack

/-! ## Machines -/

/-- A note about other states. -/
def Note.rename (f : Nat → Nat) : Note V → Note V
  | .take => .take
  | .act verb stack token => .act verb (stack.rename f) token
  | .tooShort state => .tooShort (f state)
  | .noTransition sym prod => .noTransition sym prod

/-- A parser with other states. -/
def Machine.rename (f : Nat → Nat) (m : Machine σ V) : Machine σ V :=
  { m with stack := m.stack.rename f, notes := m.notes.map (Note.rename f) }

/-- What a step leads to, with other states. -/
def Progress.rename (f : Nat → Nat) : Progress σ V → Progress σ V
  | .next m => .next (m.rename f)
  | .done value m => .done value (m.rename f)
  | .broken m => .broken (m.rename f)

/-- What a reduction leads to, with other states. -/
def Machine.Reduced.rename (f : Nat → Nat) : Machine.Reduced σ V → Machine.Reduced σ V
  | .pushed m => .pushed (m.rename f)
  | .accepted value m => .accepted value (m.rename f)
  | .failed m => .failed (m.rename f)
  | .broken m => .broken (m.rename f)

namespace Machine

variable {acts : Actions σ V}

theorem start_rename (h : t.Renames f t') (memory : σ) (input : Input) :
    (start t memory input : Machine σ V).rename f = start t' memory input := by
  simp [start, Machine.rename, Stack.initial_rename h, Note.rename]

theorem disposeStack_rename (m : Machine σ V) :
    (m.rename f).disposeStack acts = (m.disposeStack acts).rename f := by
  simp [disposeStack, Machine.rename]

theorem shift_rename (h : t.Renames f t') (m : Machine σ V) (next : Nat) :
    (m.rename f).shift t' acts (f next) = (m.shift t acts next).rename f := by
  unfold shift
  simp only [act, note, Machine.rename, Stack.push?_rename h]
  cases m.stack.push? t next m.token.kind.num 0 (m.token.kind == .newline)
    (acts.token m.memory m.token).1 <;> rfl

theorem reduceBy_rename (acts : Actions σ V) (h : t.Renames f t') (m : Machine σ V)
    (r : Reduction) :
    (m.rename f).reduceBy t' acts r = (m.reduceBy t acts r).rename f := by
  unfold reduceBy
  simp only [Machine.rename, Stack.pop?_rename]
  cases m.stack.pop? r.size with
  | none => rfl
  | some popped =>
    obtain ⟨popped, stack⟩ := popped
    have hindents : (popped.map (Frame.rename f)).map Frame.indents = popped.map Frame.indents := by
      rw [List.map_map]
      rfl
    have hlines : ((popped.map (Frame.rename f)).any fun x => x.sinceNewline == 0) =
        popped.any fun x => x.sinceNewline == 0 := by
      rw [List.any_map]
      rfl
    have hgoto : ((t'.row? (stack.rename f).top.state).bind fun row => row.goto? r.sym) =
        ((t.row? stack.top.state).bind fun row => row.goto? r.sym).map f :=
      h.goto stack.top.state r.sym
    simp only [Option.map_some, ← List.map_reverse, Stack.filterMap_rename, hindents, hlines, hgoto]
    split
    · cases popped.reverse.filterMap Frame.value <;> rfl
    · cases (t.row? stack.top.state).bind fun row => row.goto? r.sym with
      | none => rfl
      | some next =>
        simp only [Option.map_some, Stack.push?_rename h]
        cases stack.push? t next r.sym (total (popped.map Frame.indents))
          (popped.any fun x => x.sinceNewline == 0)
          (acts.reduce m.memory r.prod (popped.reverse.filterMap Frame.value)).1 <;> rfl

end Machine

/-! ## Side by side -/

/-- Calls that are the same up to an error at the same token. -/
def PartAtError (calls calls' : List (Call V)) : Prop :=
  ∃ before u after after', calls = before ++ .error u :: after ∧
    calls' = before ++ .error u :: after'

theorem PartAtError.mono {calls calls' more more' : List (Call V)} (h : PartAtError calls calls')
    (hmore : calls <+: more) (hmore' : calls' <+: more') : PartAtError more more' := by
  obtain ⟨before, u, after, after', rfl, rfl⟩ := h
  obtain ⟨rest, rfl⟩ := hmore
  obtain ⟨rest', rfl⟩ := hmore'
  exact ⟨before, u, after ++ rest, after' ++ rest', by simp, by simp⟩

/-- Steps that do the same under other names, or meet an error at the same token. -/
def Progress.Together (f : Nat → Nat) (p p' : Progress (σ × List (Call V)) V) : Prop :=
  p' = p.rename f ∨ PartAtError p.machine.memory.2 p'.machine.memory.2

namespace Machine

variable {acts : Actions σ V} {m m' : Machine (σ × List (Call V)) V} {row row' : Row}

/-- Recovery starts with the call for the error. -/
theorem recover_parts (t t' : Table) (hmemory : m'.memory = m.memory) (htoken : m'.token = m.token) :
    PartAtError (recover t acts.logged m).machine.memory.2
      (recover t' acts.logged m').machine.memory.2 := by
  have hlog := recover_memory acts.logged_keeps t m
  have hlog' := recover_memory acts.logged_keeps t' m'
  rw [hmemory, htoken] at hlog'
  exact PartAtError.mono ⟨m.memory.2, m.token, [], [], rfl, rfl⟩ hlog hlog'

theorem fail_rename (t t' : Table) :
    (fail t acts.logged m).Together f (fail t' acts.logged (m.rename f)) := by
  have htoken : (m.rename f).token = m.token := rfl
  have heof : (m.rename f).eofError = m.eofError := rfl
  unfold fail
  rw [htoken, heof]
  split
  · split
    · exact Or.inl (congrArg (Progress.done none) (disposeStack_rename m))
    · exact Or.inr (recover_parts t t' rfl rfl)
  · exact Or.inr (recover_parts t t' rfl rfl)

theorem reduceOrFail_rename (h : t.Renames f t') (hrow : row.Renames f row') (forced : Bool) :
    (reduceOrFail t acts.logged m row forced).Together f
      (reduceOrFail t' acts.logged (m.rename f) row' forced) := by
  unfold reduceOrFail
  rw [hrow.reduce]
  cases row.reduce with
  | none => exact fail_rename t t'
  | some r =>
    have hline : atLineStart (m.rename f).stack = atLineStart m.stack := rfl
    have htoken : (m.rename f).token = m.token := rfl
    have hsize : (m.rename f).stack.size = m.stack.size := Stack.size_rename _
    simp only [hline, htoken, hsize]
    split
    · exact fail_rename t t'
    split
    · exact fail_rename (m := m.note (.tooShort m.stack.top.state)) t t'
    generalize (if r.prod = 0 then Verb.accept else if forced then .force else .reduce) = verb
    have hby := reduceBy_rename acts.logged h (m.act verb) r
    rw [show (m.rename f).act verb = (m.act verb).rename f from rfl, hby]
    cases reduceBy t acts.logged (m.act verb) r with
    | pushed m₁ => exact Or.inl rfl
    | accepted value m₁ => exact Or.inl (congrArg (Progress.done (some value)) (disposeStack_rename m₁))
    | failed m₁ => exact fail_rename t t'
    | broken m₁ => exact Or.inl rfl

theorem shiftOrReduce_rename (h : t.Renames f t') (hrow : row.Renames f row') :
    (shiftOrReduce t acts.logged m row).Together f
      (shiftOrReduce t' acts.logged (m.rename f) row') := by
  unfold shiftOrReduce
  rw [show (m.rename f).token = m.token from rfl, hrow.goto]
  cases row.goto? m.token.kind.num with
  | some next => exact Or.inl (shift_rename h m next)
  | none => exact reduceOrFail_rename h hrow false

theorem stepOutdent_rename (h : t.Renames f t') (hrow : row.Renames f row') :
    (stepOutdent t acts.logged m row).Together f
      (stepOutdent t' acts.logged (m.rename f) row') := by
  have hinside : reducesInside row' (m.rename f).stack.top = reducesInside row m.stack.top := by
    simp only [reducesInside, hrow.reduce]
    rfl
  have hsince : (m.rename f).stack.top.sinceIndent = m.stack.top.sinceIndent := rfl
  have hcancel : (m.rename f).stack.canCancelIndent = m.stack.canCancelIndent :=
    Stack.canCancelIndent_rename _
  unfold stepOutdent
  simp only [hinside, hsince, hcancel, hrow.minPrefix]
  split
  · exact reduceOrFail_rename h hrow true
  split
  · refine Or.inl ?_
    simp only [act, note, Machine.rename, Stack.cancelIndent_rename h]
    rfl
  · exact Or.inr (recover_parts t t' rfl rfl)

theorem stepNewline_rename (h : t.Renames f t') (hrow : row.Renames f row') :
    (stepNewline t acts.logged m row).Together f
      (stepNewline t' acts.logged (m.rename f) row') := by
  have hforces : lineForces row' (m.rename f).stack.top = lineForces row m.stack.top := by
    simp only [lineForces, hrow.reduce]
    rfl
  have hpermitted : (m.rename f).stack.top.newlinePermitted = m.stack.top.newlinePermitted := rfl
  unfold stepNewline
  simp only [hforces, hpermitted]
  split
  · exact Or.inl rfl
  split
  · exact reduceOrFail_rename h hrow true
  · exact shiftOrReduce_rename h hrow

/-- **Steps side by side.** -/
theorem step_rename (acts : Actions σ V) (h : t.Renames f t') (m : Machine (σ × List (Call V)) V) :
    (m.step t acts.logged).Together f ((m.rename f).step t' acts.logged) := by
  have hrow := h.row m.stack.top.state
  have hstate : (m.rename f).stack.top.state = f m.stack.top.state := rfl
  have htoken : (m.rename f).token = m.token := rfl
  unfold step
  rw [hstate, htoken]
  generalize t.row? m.stack.top.state = row at hrow
  generalize t'.row? (f m.stack.top.state) = row' at hrow
  cases hrow with
  | none => exact Or.inl rfl
  | some hrow =>
    dsimp only
    split
    · refine Or.inl ?_
      rw [hrow.startsLine]
      rfl
    · exact stepOutdent_rename h hrow
    · exact stepNewline_rename h hrow
    · exact shiftOrReduce_rename h hrow

end Machine

/-- Runs that end in the same way after the same calls, or meet an error at the same token. -/
def Run.Together (r r' : Run (σ × List (Call V)) V) : Prop :=
  (r'.verdict = r.verdict ∧ r'.machine.memory.2 = r.machine.memory.2) ∨
    PartAtError r.machine.memory.2 r'.machine.memory.2

/-- The calls of the first step are the first calls of a run. -/
theorem Machine.step_calls_first (acts : Actions σ V) (t : Table) (budget steps : Nat)
    (m : Machine (σ × List (Call V)) V) : (m.step t acts.logged).machine.memory.2 <+:
      (m.runFor t acts.logged budget (steps + 1)).machine.memory.2 := by
  unfold runFor
  split
  · rename_i m' hstep
    rw [hstep]
    split
    · exact List.prefix_rfl
    · exact runFor_memory acts.logged_keeps t budget steps m'
  · rename_i hstep
    rw [hstep]
    exact List.prefix_rfl
  · rename_i hstep
    rw [hstep]
    exact List.prefix_rfl

/-- **Runs side by side.** -/
theorem Machine.runFor_rename (acts : Actions σ V) (h : t.Renames f t') (budget : Nat) :
    ∀ (steps : Nat) (m : Machine (σ × List (Call V)) V),
      (m.runFor t acts.logged budget steps).Together
        ((m.rename f).runFor t' acts.logged budget steps)
  | 0, m => Or.inl ⟨rfl, rfl⟩
  | steps + 1, m => by
    rcases step_rename acts h m with hsame | hparts
    · unfold runFor
      rw [hsame]
      cases m.step t acts.logged with
      | next m₁ =>
        have hcalls : (m₁.rename f).calls = m₁.calls := rfl
        simp only [Progress.rename, hcalls]
        split
        · exact Or.inl ⟨rfl, rfl⟩
        · exact runFor_rename acts h budget steps m₁
      | done value m₁ => exact Or.inl ⟨rfl, rfl⟩
      | broken m₁ => exact Or.inl ⟨rfl, rfl⟩
    · exact Or.inr (hparts.mono (step_calls_first acts t budget steps m)
        (step_calls_first acts t' budget steps (m.rename f)))

theorem parse_rename (h : t.Renames f t') (acts : Actions σ V) (memory : σ) (input : Input)
    (budget : Nat) : (parse t acts.logged (memory, []) input budget).Together
      (parse t' acts.logged (memory, []) input budget) := by
  unfold parse
  rw [← Machine.start_rename h]
  exact Machine.runFor_rename acts h budget _ _

/-! ## Before the first error -/

section

variable {calls calls' : List (Call V)}

theorem PartAtError.takeWhile (h : PartAtError calls calls') :
    (calls.takeWhile fun c => !c.isError) = calls'.takeWhile fun c => !c.isError := by
  obtain ⟨before, u, after, after', rfl, rfl⟩ := h
  induction before with
  | nil => simp [Call.isError]
  | cons c before ih =>
    cases hc : c.isError <;> simp [hc, ih]

theorem PartAtError.find? (h : PartAtError calls calls') :
    calls.find? Call.isError = calls'.find? Call.isError := by
  obtain ⟨before, u, after, after', rfl, rfl⟩ := h
  simp only [List.find?_append, List.find?_cons, Call.isError]

theorem PartAtError.exists_error (h : PartAtError calls calls') : ∃ c ∈ calls, c.isError = true := by
  obtain ⟨before, u, after, after', rfl, rfl⟩ := h
  exact ⟨.error u, by simp, rfl⟩

end

/-- Runs that can only be told apart after an error. -/
structure SameBeforeError (acts : Actions σ V) (memory : σ) (input : Input) (budget : Nat)
    (t t' : Table) : Prop where
  /-- The calls before the first one for an error. -/
  calls : ((callsOf t acts memory input budget).takeWhile fun c => !c.isError) =
    (callsOf t' acts memory input budget).takeWhile fun c => !c.isError
  /-- The first call for an error. -/
  error : (callsOf t acts memory input budget).find? Call.isError =
    (callsOf t' acts memory input budget).find? Call.isError
  /-- How the runs end if there is none. -/
  verdict : (∀ c ∈ callsOf t acts memory input budget, c.isError = false) →
    (parse t acts memory input budget).verdict = (parse t' acts memory input budget).verdict

theorem Table.Renames.sameBeforeError (h : t.Renames f t') (acts : Actions σ V) (memory : σ)
    (input : Input) (budget : Nat) : SameBeforeError acts memory input budget t t' := by
  rcases parse_rename h acts memory input budget with ⟨hverdict, hcalls⟩ | hparts
  · refine ⟨congrArg _ hcalls.symm, congrArg _ hcalls.symm, fun _ => ?_⟩
    rw [verdict_logged t, verdict_logged t', hverdict]
  · refine ⟨hparts.takeWhile, hparts.find?, fun hquiet => ?_⟩
    obtain ⟨c, hc, herror⟩ := hparts.exists_error
    rw [hquiet c hc] at herror
    cases herror

namespace SameBeforeError

variable {acts : Actions σ V} {memory : σ} {input : Input} {budget : Nat} {t'' : Table}

theorem quiet_iff (h : SameBeforeError acts memory input budget t t') :
    (∀ c ∈ callsOf t acts memory input budget, c.isError = false) ↔
      ∀ c ∈ callsOf t' acts memory input budget, c.isError = false := by
  have hnone (calls : List (Call V)) :
      (∀ c ∈ calls, c.isError = false) ↔ calls.find? Call.isError = none := by
    simp
  rw [hnone, hnone, h.error]

theorem symm (h : SameBeforeError acts memory input budget t t') :
    SameBeforeError acts memory input budget t' t :=
  ⟨h.calls.symm, h.error.symm, fun hquiet => (h.verdict (h.quiet_iff.2 hquiet)).symm⟩

theorem trans (h : SameBeforeError acts memory input budget t t')
    (h' : SameBeforeError acts memory input budget t' t'') :
    SameBeforeError acts memory input budget t t'' :=
  ⟨h.calls.trans h'.calls, h.error.trans h'.error,
    fun hquiet => (h.verdict hquiet).trans (h'.verdict (h.quiet_iff.1 hquiet))⟩

end SameBeforeError

namespace Automaton

variable {a b : Automaton} {g : Grammar} {strength : Strength}

/-- The table of an automaton and that of one to which its states fall together. -/
theorem CollapsesTo.renames (h : a.CollapsesTo b) (ha : a.Sound g strength)
    (hg : b.grammar = g) (hstart : a.collapse b 0 = some 0) :
    a.table.Renames (fun q => (a.collapse b q).getD b.states.size) b.table := by
  refine ⟨by simp [hstart], fun q => ?_⟩
  rw [row?_table, row?_table]
  by_cases hq : q < a.states.size
  · obtain ⟨q', hq', hcol⟩ := h.defined q hq
    have hs := Array.getElem?_eq_getElem hq
    have hs' := Array.getElem?_eq_getElem hq'
    have halike := h.alike q q' _ _ hcol hs hs'
    rw [hs, hcol, Option.getD_some, hs', Option.map_some, Option.map_some]
    refine .some ⟨fun sym => ?_, ?_, halike.startsLine.symm, halike.minPrefix.symm⟩
    · have hgo := h.goTo q q' _ _ hcol hs hs' sym
      simp only [State.row, Row.goto?]
      rw [← hgo]
      cases hfind : a.states[q].goTo.find? sym with
      | none => rfl
      | some j =>
        -- the target is a state, so it falls together with one
        obtain ⟨-, s, -, hj, -⟩ := ha.edge (goto?_table.2 ⟨_, hs, hfind⟩)
        obtain ⟨j', -, hcol'⟩ := h.defined j (Array.getElem?_eq_some_iff.1 hj).1
        simp [hcol']
    · simp [State.row, hg, ha.grammar_eq, halike.reduce]
  · have hnone : a.states[q]? = none := by simpa using hq
    have hcol : a.collapse b q = none := by
      simp [collapse, getElem?_kernels, hnone]
    rw [hnone, hcol]
    simp

/-- The tables of a grammar are those at `LALR` with other names. -/
theorem exists_renames_build (hindexed : g.Indexed) (strength : Strength) :
    ∃ f, (build g strength).table.Renames f (build g .lalr).table := by
  have hkernel (strength : Strength) : (build g strength).kernels[0]? = some [⟨0, 0⟩] := by
    obtain ⟨s, hs, hkeys⟩ := (build_sound hindexed strength).start
    rw [getElem?_kernels, hs, Option.map_some, hkeys]
  have hzero : 0 < (build g .lalr).states.size := by
    obtain ⟨s, hs, -⟩ := (build_sound hindexed .lalr).start
    exact (Array.getElem?_eq_some_iff.1 hs).1
  have hself := collapse_self (kernels_nodup hindexed (by decide)) hzero
  refine ⟨_, (build_collapsesTo hindexed strength (by decide)).renames (build_sound hindexed strength)
    (build_sound hindexed .lalr).grammar_eq ?_⟩
  rw [← hself, collapse, collapse, hkernel, hkernel]

end Automaton

/-- **Strength does not matter before the first error.**  On the tables of a grammar at any two
    strengths, a parser makes the same calls up to the first one for an error, meets this error
    at the same token, and ends in the same way if there is none. -/
theorem strengths_run_alike {code : List CodeNode} {g : Grammar} (hread : Grammar.read code = .ok g)
    (strength strength' : Strength) (acts : Actions σ V) (memory : σ) (input : Input)
    (budget : Nat) : SameBeforeError acts memory input budget (Automaton.build g strength).table
      (Automaton.build g strength').table := by
  have hindexed := (Grammar.read_wellFormed hread).indexed
  obtain ⟨f, hf⟩ := Automaton.exists_renames_build hindexed strength
  obtain ⟨f', hf'⟩ := Automaton.exists_renames_build hindexed strength'
  exact (hf.sameBeforeError acts memory input budget).trans
    (hf'.sameBeforeError acts memory input budget).symm

/-- A number and a word, with nothing behind them that fits. -/
def unfinished : Input :=
  .ofList [(.number, ['1']), (.word, ['x']), (.mark, ['+'])]

open Automaton in
set_option maxRecDepth 100000 in
/-- At `LR1` and at `LALR` the tables differ, and the word is reduced before the error. -/
theorem strengths_run_alike_crossedEndings : ∃ g, Grammar.readText crossedEndings = .ok g ∧
    (build g .lr1).table.rows.size = (build g .lalr).table.rows.size + 1 ∧
    ((callsOf (build g .lr1).table treeActions {} unfinished 10).take 4).map Call.isError =
      [false, false, false, true] ∧
    SameBeforeError treeActions {} unfinished 10 (build g .lr1).table (build g .lalr).table := by
  obtain ⟨g, hg, htest⟩ := Grammar.exists_readText crossedEndings (fun g =>
    (build g .lr1).table.rows.size == (build g .lalr).table.rows.size + 1 &&
    ((callsOf (build g .lr1).table treeActions {} unfinished 10).take 4).map Call.isError ==
      [false, false, false, true]) (by decide +kernel)
  simp only [Bool.and_eq_true, beq_iff_eq] at htest
  exact ⟨g, hg, htest.1, htest.2, strengths_run_alike hg .lr1 .lalr treeActions {} unfinished 10⟩

end LayoutLR
