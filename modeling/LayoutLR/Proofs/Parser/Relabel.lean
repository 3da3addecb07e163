/-
  Layout-aware LR toolkit — a parser does not look at values.

  What a parser does is up to its table and its tokens; values are only handed
  from action to action.  So two sets of actions whose values and memories
  correspond lead to runs that correspond, step by step.

  * `Actions.Maps`: actions that correspond;
  * `Machine.map`: a parser with other values;
  * `Machine.step_map`: a step with other values;
  * `parse_map`: a run with other values.
-/
import LayoutLR.Parser.Run

namespace LayoutLR

variable {σ τ V W : Type} {f : V → W} {k : σ → τ}

/-- Actions that do the same to corresponding values and memories. -/
structure Actions.Maps (f : V → W) (k : σ → τ) (acts : Actions σ V) (acts' : Actions τ W) :
    Prop where
  token : ∀ mem t, acts'.token (k mem) t = (acts.token mem t).map f k
  reduce : ∀ mem p body, acts'.reduce (k mem) p (body.map f) = (acts.reduce mem p body).map f k
  error : ∀ mem t, acts'.error (k mem) t = (acts.error mem t).map f k
  dispose : ∀ mem v, acts'.dispose (k mem) (f v) = k (acts.dispose mem v)

theorem Actions.Maps.disposeAll {acts : Actions σ V} {acts' : Actions τ W}
    (h : acts.Maps f k acts') (mem : σ) (values : List V) :
    acts'.disposeAll (k mem) (values.map f) = k (acts.disposeAll mem values) := by
  induction values generalizing mem with
  | nil => rfl
  | cons v values ih =>
    simp only [Actions.disposeAll, List.map_cons, List.foldl_cons, h.dispose] at ih ⊢
    exact ih _

/-! ## Stacks -/

/-- A frame with another value. -/
def Frame.map (f : V → W) (x : Frame V) : Frame W where
  state := x.state
  sym := x.sym
  value := x.value.map f
  indents := x.indents
  sinceNewline := x.sinceNewline
  sinceIndent := x.sinceIndent
  newlinePermitted := x.newlinePermitted

/-- A stack with other values. -/
def Stack.map (f : V → W) (s : Stack V) : Stack W :=
  ⟨s.top.map f, s.below.map (Frame.map f)⟩

namespace Stack

@[simp] theorem frames_map (s : Stack V) : (s.map f).frames = s.frames.map (Frame.map f) :=
  rfl

@[simp] theorem size_map (s : Stack V) : (s.map f).size = s.size := by
  simp [size, Stack.map]

theorem filterMap_value (fs : List (Frame V)) :
    (fs.map (Frame.map f)).filterMap Frame.value = (fs.filterMap Frame.value).map f := by
  rw [List.filterMap_map, List.map_filterMap]
  rfl

@[simp] theorem values_map (s : Stack V) : (s.map f).values = s.values.map f := by
  rw [values, frames_map, ← List.map_reverse, filterMap_value]
  rfl

theorem push?_map (t : Table) (s : Stack V) (state sym indents : Nat) (startsLine : Bool) (v : V) :
    (s.map f).push? t state sym indents startsLine (f v) =
      (s.push? t state sym indents startsLine v).map (Stack.map f) := by
  unfold push?
  cases t.row? state <;> rfl

theorem pop?_map (s : Stack V) (n : Nat) : (s.map f).pop? n =
    (s.pop? n).map fun r => (r.1.map (Frame.map f), r.2.map f) := by
  unfold pop?
  rw [frames_map, ← List.map_drop, ← List.map_take]
  cases s.frames.drop n <;> rfl

theorem canCancelIndent_map (s : Stack V) : (s.map f).canCancelIndent = s.canCancelIndent := by
  have htop : (s.map f).top.sinceIndent = s.top.sinceIndent := rfl
  unfold canCancelIndent
  rw [frames_map, List.getElem?_map, htop]
  cases s.frames[s.top.sinceIndent]? <;> rfl

theorem refreshAll_map (t : Table) (upper below : List (Frame V)) :
    refreshAll t (upper.map (Frame.map f)) (below.map (Frame.map f)) =
      (refreshAll t upper below).map (Frame.map f) := by
  have hrefresh (x : Frame V) (below : List (Frame V)) :
      refresh t (x.map f) (below.map (Frame.map f)) = (refresh t x below).map f := by
    cases below <;> rfl
  induction upper with
  | nil => rfl
  | cons x upper ih =>
    simp only [refreshAll, List.map_cons, List.foldr_cons] at ih ⊢
    rw [ih, hrefresh]

theorem ofFrames_map (s : Stack V) (fs : List (Frame V)) :
    (s.map f).ofFrames (fs.map (Frame.map f)) = (s.ofFrames fs).map f := by
  cases fs <;> rfl

theorem cancelIndent_map (t : Table) (s : Stack V) :
    (s.map f).cancelIndent t = (s.cancelIndent t).map f := by
  have htop : (s.map f).top.sinceIndent = s.top.sinceIndent := rfl
  unfold cancelIndent
  rw [frames_map, htop, ← List.map_drop, ← List.map_take]
  cases s.frames.drop s.top.sinceIndent with
  | nil => rfl
  | cons x below =>
    have hx : (x.map f).indents = x.indents := rfl
    simp only [List.map_cons, hx]
    by_cases hzero : x.indents = 0
    · simp only [hzero, if_true]
    · by_cases hpos : 0 < x.indents - 1
      · simp only [hzero, hpos, if_true, if_false]
        rw [← ofFrames_map, List.map_append]
        rfl
      · simp only [hzero, hpos, if_false]
        rw [← ofFrames_map, ← refreshAll_map, List.map_append]
        rfl

end Stack

/-! ## Machines -/

/-- A note about other values. -/
def Note.map (f : V → W) : Note V → Note W
  | .take => .take
  | .act verb stack token => .act verb (stack.map f) token
  | .tooShort state => .tooShort state
  | .noTransition sym prod => .noTransition sym prod

/-- A parser with other values. -/
def Machine.map (f : V → W) (k : σ → τ) (m : Machine σ V) : Machine τ W where
  stack := m.stack.map f
  token := m.token
  input := m.input
  memory := k m.memory
  recoveredAt := m.recoveredAt
  eofError := m.eofError
  calls := m.calls
  taken := m.taken
  notes := m.notes.map (Note.map f)

/-- What a step leads to, with other values. -/
def Progress.map (f : V → W) (k : σ → τ) : Progress σ V → Progress τ W
  | .next m => .next (m.map f k)
  | .done value m => .done (value.map f) (m.map f k)
  | .broken m => .broken (m.map f k)

/-- What a reduction leads to, with other values. -/
def Machine.Reduced.map (f : V → W) (k : σ → τ) : Machine.Reduced σ V → Machine.Reduced τ W
  | .pushed m => .pushed (m.map f k)
  | .accepted value m => .accepted (f value) (m.map f k)
  | .failed m => .failed (m.map f k)
  | .broken m => .broken (m.map f k)

namespace Machine

variable {acts : Actions σ V} {acts' : Actions τ W}

theorem disposeStack_map (h : acts.Maps f k acts') (m : Machine σ V) :
    (m.map f k).disposeStack acts' = (m.disposeStack acts).map f k := by
  have hmem := h.disposeAll m.memory m.stack.values
  rw [← Stack.values_map] at hmem
  simp only [disposeStack, Machine.map, hmem]

theorem inLookahead?_map (t : Table) (s : Stack V) (token : Token) :
    inLookahead? t (s.map f) token = inLookahead? t s token := by
  unfold inLookahead?
  rw [Stack.frames_map, List.map_map, Stack.size_map]
  rfl

theorem skip?_map (t : Table) (s : Stack V) (eof : Token) (tokens : List Token) :
    ∀ (must : Bool) (token : Token) (indents taken : Nat),
      skip? t (s.map f) eof must token indents taken tokens =
        skip? t s eof must token indents taken tokens := by
  have hstops (must : Bool) (token : Token) :
      stopsAt? t (s.map f) must token = stopsAt? t s must token := by
    simp only [stopsAt?, inLookahead?_map]
  induction tokens with
  | nil =>
    intro must token indents taken
    simp only [skip?, hstops]
  | cons next rest ih =>
    intro must token indents taken
    simp only [skip?, hstops, ih]

theorem findError_map (t : Table) (fs : List (Frame V)) : ∀ dropped : List (Frame V),
    findError t (dropped.map (Frame.map f)) (fs.map (Frame.map f)) =
      (findError t dropped fs).map fun r => (r.1.map (Frame.map f), r.2.1.map f, r.2.2) := by
  induction fs with
  | nil =>
    intro dropped
    rfl
  | cons x fs ih =>
    intro dropped
    have hstate : (x.map f).state = x.state := rfl
    simp only [findError, List.map_cons, hstate]
    cases (t.row? x.state).bind fun row => row.goto? Kind.error.num with
    | some next => simp [Stack.map, List.map_reverse]
    | none =>
      rw [← List.map_cons]
      exact ih (x :: dropped)

/-! ## Steps -/

theorem resync_map (h : acts.Maps f k acts') (t : Table) (m : Machine σ V) (indents : Nat) :
    (m.map f k).resync t acts' indents = (m.resync t acts indents).map f k := by
  have hnotes (n : Nat) : (List.replicate n Note.take ++ m.notes).map (Note.map f) =
      List.replicate n Note.take ++ m.notes.map (Note.map f) := by
    simp [Note.map]
  unfold resync
  simp only [Machine.map, Stack.size_map, skip?_map]
  cases skip? t m.stack m.input.eof (m.recoveredAt == some m.stack.size) m.token indents 0
    m.input.tokens with
  | none => rfl
  | some sk =>
    -- the machine after the tokens were skipped
    let m₁ : Machine σ V := { m with
      recoveredAt := some m.stack.size
      token := sk.token
      input := { m.input with tokens := sk.tokens }
      taken := m.taken + sk.taken
      notes := List.replicate sk.taken .take ++ m.notes }
    simp only [inLookahead?_map, ← hnotes]
    cases (if sk.token.kind = .eof then inLookahead? t m.stack sk.token else some true) with
    | none => rfl
    | some go =>
      cases go with
      | false => exact congrArg (Progress.done none) (disposeStack_map h m₁)
      | true => rfl

theorem recover_map (h : acts.Maps f k acts') (t : Table) (m : Machine σ V) :
    (m.map f k).recover t acts' = (m.recover t acts).map f k := by
  have hfind := findError_map (f := f) t m.stack.frames []
  rw [List.map_nil] at hfind
  unfold recover
  simp only [act, note, Machine.map, Stack.frames_map, h.error, Prod.map, hfind]
  cases findError t [] m.stack.frames with
  | none =>
    have hdropped : (m.stack.frames.map (Frame.map f)).dropLast.filterMap Frame.value =
        (m.stack.frames.dropLast.filterMap Frame.value).map f := by
      rw [← List.map_dropLast, Stack.filterMap_value]
    have hbottom : ((m.stack.frames.map (Frame.map f)).getLast?.bind Frame.value).toList =
        (m.stack.frames.getLast?.bind Frame.value).toList.map f := by
      rw [List.getLast?_map]
      cases m.stack.frames.getLast? with
      | none => rfl
      | some x => cases hx : x.value <;> simp [Frame.map, hx]
    simp only [Option.map_none, hdropped, hbottom, ← List.map_cons, ← List.map_append, h.disposeAll]
    rfl
  | some r =>
    obtain ⟨dropped, stack, next⟩ := r
    have hindents : (dropped.map (Frame.map f)).map Frame.indents = dropped.map Frame.indents := by
      rw [List.map_map]
      rfl
    simp only [Option.map_some, Stack.filterMap_value, h.disposeAll, hindents, Stack.push?_map]
    cases stack.push? t next Kind.error.num 0 false (acts.error m.memory m.token).1 with
    | none => rfl
    | some s =>
      -- the machine with the error on top
      let m₁ : Machine σ V := { m.act .error with
        stack := s
        memory := acts.disposeAll (acts.error m.memory m.token).2 (dropped.filterMap Frame.value)
        calls := m.calls + 1 }
      exact resync_map h t m₁ _

theorem shift_map (h : acts.Maps f k acts') (t : Table) (m : Machine σ V) (next : Nat) :
    (m.map f k).shift t acts' next = (m.shift t acts next).map f k := by
  unfold shift
  simp only [act, note, Machine.map, h.token, Prod.map, Stack.push?_map]
  cases m.stack.push? t next m.token.kind.num 0 (m.token.kind == .newline)
    (acts.token m.memory m.token).1 <;> rfl

theorem reduceBy_map (h : acts.Maps f k acts') (t : Table) (m : Machine σ V) (r : Reduction) :
    (m.map f k).reduceBy t acts' r = (m.reduceBy t acts r).map f k := by
  unfold reduceBy
  simp only [Machine.map, Stack.pop?_map]
  cases m.stack.pop? r.size with
  | none => rfl
  | some popped =>
    obtain ⟨popped, stack⟩ := popped
    have hindents : (popped.map (Frame.map f)).map Frame.indents = popped.map Frame.indents := by
      rw [List.map_map]
      rfl
    have hlines : ((popped.map (Frame.map f)).any fun x => x.sinceNewline == 0) =
        popped.any fun x => x.sinceNewline == 0 := by
      rw [List.any_map]
      rfl
    have hstate : (stack.map f).top.state = stack.top.state := rfl
    simp only [Option.map_some, ← List.map_reverse, Stack.filterMap_value, h.reduce, Prod.map,
      hindents, hlines, hstate, Stack.push?_map]
    split
    · cases popped.reverse.filterMap Frame.value with
      | nil => rfl
      | cons value rest =>
        simp only [List.map_cons, h.disposeAll]
        rfl
    · cases (t.row? stack.top.state).bind fun row => row.goto? r.sym with
      | none =>
        simp only [note, h.dispose]
        rfl
      | some next =>
        dsimp only
        cases stack.push? t next r.sym (total (popped.map Frame.indents))
          (popped.any fun x => x.sinceNewline == 0)
          (acts.reduce m.memory r.prod (popped.reverse.filterMap Frame.value)).1 <;> rfl

theorem fail_map (h : acts.Maps f k acts') (t : Table) (m : Machine σ V) :
    (m.map f k).fail t acts' = (m.fail t acts).map f k := by
  unfold fail
  have htoken : (m.map f k).token = m.token := rfl
  have heof : (m.map f k).eofError = m.eofError := rfl
  rw [htoken, heof]
  split
  · split
    · exact congrArg (Progress.done none) (disposeStack_map h m)
    · exact recover_map h t { m with eofError := true }
  · exact recover_map h t m

theorem reduceOrFail_map (h : acts.Maps f k acts') (t : Table) (m : Machine σ V) (row : Row)
    (forced : Bool) :
    (m.map f k).reduceOrFail t acts' row forced = (m.reduceOrFail t acts row forced).map f k := by
  unfold reduceOrFail
  cases row.reduce with
  | none => exact fail_map h t m
  | some r =>
    have hline : atLineStart (m.map f k).stack = atLineStart m.stack := rfl
    have htoken : (m.map f k).token = m.token := rfl
    have hsize : (m.map f k).stack.size = m.stack.size := Stack.size_map _
    simp only [hline, htoken, hsize]
    split
    · exact fail_map h t m
    · split
      · exact fail_map h t (m.note (.tooShort m.stack.top.state))
      · generalize (if r.prod = 0 then Verb.accept else if forced then .force else .reduce) = verb
        have hred := reduceBy_map h t (m.act verb) r
        rw [show (m.map f k).act verb = (m.act verb).map f k from rfl, hred]
        cases reduceBy t acts (m.act verb) r with
        | pushed m₁ => rfl
        | accepted value m₁ =>
          exact congrArg (Progress.done (some (f value))) (disposeStack_map h m₁)
        | failed m₁ => exact fail_map h t m₁
        | broken m₁ => rfl

theorem shiftOrReduce_map (h : acts.Maps f k acts') (t : Table) (m : Machine σ V) (row : Row) :
    (m.map f k).shiftOrReduce t acts' row = (m.shiftOrReduce t acts row).map f k := by
  unfold shiftOrReduce
  rw [show (m.map f k).token = m.token from rfl]
  cases row.goto? m.token.kind.num with
  | some next => exact shift_map h t m next
  | none => exact reduceOrFail_map h t m row false

theorem stepOutdent_map (h : acts.Maps f k acts') (t : Table) (m : Machine σ V) (row : Row) :
    (m.map f k).stepOutdent t acts' row = (m.stepOutdent t acts row).map f k := by
  have hinside : reducesInside row (m.map f k).stack.top = reducesInside row m.stack.top := rfl
  have hsince : (m.map f k).stack.top.sinceIndent = m.stack.top.sinceIndent := rfl
  have hcancel : (m.map f k).stack.canCancelIndent = m.stack.canCancelIndent :=
    Stack.canCancelIndent_map _
  unfold stepOutdent
  simp only [hinside, hsince, hcancel]
  split
  · exact reduceOrFail_map h t m row true
  · split
    · simp only [act, note, Machine.map, Stack.cancelIndent_map]
      rfl
    · exact recover_map h t m

theorem stepNewline_map (h : acts.Maps f k acts') (t : Table) (m : Machine σ V) (row : Row) :
    (m.map f k).stepNewline t acts' row = (m.stepNewline t acts row).map f k := by
  have hforces : lineForces row (m.map f k).stack.top = lineForces row m.stack.top := rfl
  have hpermitted : (m.map f k).stack.top.newlinePermitted = m.stack.top.newlinePermitted := rfl
  unfold stepNewline
  simp only [hforces, hpermitted]
  split
  · rfl
  · split
    · exact reduceOrFail_map h t m row true
    · exact shiftOrReduce_map h t m row

/-- **A step with other values.** -/
theorem step_map (h : acts.Maps f k acts') (t : Table) (m : Machine σ V) :
    (m.map f k).step t acts' = (m.step t acts).map f k := by
  have hstate : (m.map f k).stack.top.state = m.stack.top.state := rfl
  have htoken : (m.map f k).token = m.token := rfl
  unfold step
  simp only [hstate, htoken]
  cases t.row? m.stack.top.state with
  | none => rfl
  | some row =>
    dsimp only
    split
    · rfl
    · exact stepOutdent_map h t m row
    · exact stepNewline_map h t m row
    · exact shiftOrReduce_map h t m row

end Machine

/-! ## Runs -/

/-- A verdict about other values. -/
def Verdict.map (f : V → W) : Verdict V → Verdict W
  | .finished value => .finished (value.map f)
  | .broken => .broken
  | .exhausted => .exhausted

/-- A run with other values. -/
def Run.map (f : V → W) (k : σ → τ) (r : Run σ V) : Run τ W :=
  ⟨r.verdict.map f, r.machine.map f k⟩

theorem Run.within_map (budget : Nat) (verdict : Verdict V) (m : Machine σ V) :
    (Run.within budget verdict m).map f k = Run.within budget (verdict.map f) (m.map f k) := by
  have hcalls : (m.map f k).calls = m.calls := rfl
  unfold Run.within Run.map
  rw [hcalls]
  split <;> rfl

theorem Machine.runFor_map {acts : Actions σ V} {acts' : Actions τ W} (h : acts.Maps f k acts')
    (t : Table) (budget : Nat) : ∀ (steps : Nat) (m : Machine σ V),
      (m.map f k).runFor t acts' budget steps = (m.runFor t acts budget steps).map f k
  | 0, _ => rfl
  | steps + 1, m => by
    unfold runFor
    rw [step_map h]
    cases m.step t acts with
    | next m₁ =>
      have hcalls : (m₁.map f k).calls = m₁.calls := rfl
      simp only [Progress.map, hcalls]
      split
      · rfl
      · exact runFor_map h t budget steps m₁
    | done value m₁ => exact (Run.within_map budget (.finished value) m₁).symm
    | broken m₁ => exact (Run.within_map budget .broken m₁).symm

/-- **A run with other values.**  Actions that correspond make the same run of a parser. -/
theorem parse_map {acts : Actions σ V} {acts' : Actions τ W} (h : acts.Maps f k acts') (t : Table)
    (memory : σ) (input : Input) (budget : Nat) :
    parse t acts' (k memory) input budget = (parse t acts memory input budget).map f k :=
  Machine.runFor_map h t budget _ (.start t memory input)

end LayoutLR
