/-
  Layout-aware LR toolkit — steps of a parser with layout.

  Inside a level a parser goes on as if there were no layout: a frame that is pushed
  knows how far up the last open level is, and nothing on the way there has a level
  open.  The start of a level is recorded on the frame on top, and its end is
  cancelled there again, when all above it is reduced.

  * `Stack.Laid`: a frame is put on top inside a level;
  * `Stack.Laid.cancel`: a level that is closed leaves the stack as if it had never been open;
  * `Machine.Flows`: some steps that go on;
  * `Machine.shift_plain`, `Machine.shift_newline`, `Machine.reduce_made`: what is pushed inside a
    level;
  * `Machine.record_flows`, `Machine.cancel_flows`: a level is opened and closed.
-/
import LayoutLR.Proofs.Parser.Completeness

namespace LayoutLR

variable {σ V : Type} {t : Table}

/-! ## Frames -/

namespace Stack

/-- A frame was put on top of a stack, and no level is open at it. -/
structure Laid (s s' : Stack V) (q : Nat) (v : V) : Prop where
  below : s'.below = s.frames
  state : s'.top.state = q
  value : s'.top.value = some v
  indents : s'.top.indents = 0
  sinceIndent : s'.top.sinceIndent = s.top.sinceIndent + 1
  permitted : s'.top.newlinePermitted = true

theorem push?_laid {s : Stack V} {q : Nat} (hq : q < t.rows.size)
    (hs : s.top.newlinePermitted = true) (sym : Nat) (startsLine : Bool) (v : V) :
    ∃ s', s.push? t q sym 0 startsLine v = some s' ∧ s.Laid s' q v ∧
      s'.top.sinceNewline = if startsLine then 0 else s.top.sinceNewline + 1 := by
  obtain ⟨s', hpush⟩ := s.exists_push? hq sym 0 startsLine v
  refine ⟨s', hpush, ?_⟩
  obtain ⟨row, -, rfl⟩ := Option.map_eq_some_iff.1 hpush
  exact ⟨⟨rfl, rfl, rfl, rfl, rfl, by simp [hs]⟩, rfl⟩

theorem Laid.frames {s s' : Stack V} {q : Nat} {v : V} (h : s.Laid s' q v) :
    s'.frames = s'.top :: s.frames := by
  rw [← h.below]
  rfl

/-- A level that is closed leaves the stack as if it had never been open. -/
theorem Laid.cancel {s o b : Stack V} {q q' : Nat} {v v' : V} (ho : s.Laid o q v)
    (hline : (t.row? q).map Row.startsLine = some true) (hb : (o.recordIndent true).Laid b q' v') :
    b.canCancelIndent = true ∧ ∃ o', s.Laid o' q v ∧ o'.Laid (b.cancelIndent t) q' v' := by
  have hsince : b.top.sinceIndent = 1 := hb.sinceIndent
  have hframes : b.frames = b.top :: { o.top with
      indents := o.top.indents + 1
      sinceNewline := 0
      sinceIndent := 0
      newlinePermitted := o.top.newlinePermitted } :: s.frames := by
    rw [hb.frames, ← ho.below]
    rfl
  refine ⟨by simp [canCancelIndent, hsince, hframes], ?_⟩
  let f : Frame V := { o.top with
    sinceNewline := 0
    sinceIndent := s.top.sinceIndent + 1
    newlinePermitted := true }
  have hcancel : b.cancelIndent t = ⟨{ b.top with
      sinceIndent := s.top.sinceIndent + 2
      newlinePermitted := true }, f :: s.frames⟩ := by
    have hindents : o.top.indents = 0 := ho.indents
    have hstate : o.top.state = q := ho.state
    unfold cancelIndent
    rw [hsince, hframes]
    simp [hindents, hstate, hline, refreshAll, refresh, ofFrames, Stack.frames, f]
  rw [hcancel]
  refine ⟨⟨f, s.frames⟩, ⟨rfl, ho.state, ho.value, ho.indents, rfl, rfl⟩, ?_⟩
  exact ⟨rfl, hb.state, hb.value, hb.indents, rfl, rfl⟩

/-- The levels of some frames with none open. -/
theorem total_indents {popped : List (Frame V)} (h : ∀ f ∈ popped, f.indents = 0) :
    total (popped.map Frame.indents) = 0 := by
  have := total_map_le_mul fun f hf => Nat.le_of_eq (h f hf)
  omega

end Stack

namespace Machine

variable {acts : Actions σ V} {m m' m'' : Machine σ V} {row : Row} {r : Reduction} {q : Nat}
  {u : Token} {rest : List Token} {v : V × σ}

/-! ## Some steps -/

/-- Steps that go on. -/
inductive Flows (t : Table) (acts : Actions σ V) : Machine σ V → Machine σ V → Prop
  | refl (m : Machine σ V) : Flows t acts m m
  | step {m m' m'' : Machine σ V} (h : m.step t acts = .next m') (hs : Flows t acts m' m'') :
      Flows t acts m m''

theorem Flows.trans (h : Flows t acts m m') (h' : Flows t acts m' m'') : Flows t acts m m'' := by
  induction h with
  | refl => exact h'
  | step hstep _ ih => exact .step hstep (ih h')

theorem Flows.single (h : m.step t acts = .next m') : Flows t acts m m' :=
  .step h (.refl m')

/-- A run that ends, if it may go on for long enough. -/
theorem Flows.finishes (h : Flows t acts m m') {value : Option V} {last : Machine σ V}
    (hdone : m'.step t acts = .done value last) : ∃ enough, ∀ budget steps, enough ≤ budget →
      enough ≤ steps → m.runFor t acts budget steps = ⟨.finished value, last⟩ := by
  induction h with
  | refl m =>
    refine ⟨last.calls + 1, fun budget steps hbudget hsteps => ?_⟩
    obtain ⟨steps, rfl⟩ := Nat.exists_eq_succ_of_ne_zero (Nat.ne_of_gt (Nat.lt_of_lt_of_le
      (Nat.succ_pos _) hsteps))
    have hle : ¬ budget < last.calls := by omega
    simp only [runFor, hdone, Run.within, hle, if_false]
  | @step m m₁ m' hstep _ ih =>
    obtain ⟨enough, hrun⟩ := ih hdone
    refine ⟨enough + m₁.calls + 1, fun budget steps hbudget hsteps => ?_⟩
    obtain ⟨steps, rfl⟩ := Nat.exists_eq_succ_of_ne_zero (Nat.ne_of_gt (Nat.lt_of_lt_of_le
      (Nat.succ_pos _) hsteps))
    have hle : ¬ budget < m₁.calls := by omega
    simp only [runFor, hstep, hle, if_false]
    exact hrun budget steps (by omega) (by omega)

/-! ## Inside a level -/

/-- What a machine has made of some tokens: a frame on top of its stack, with nothing open. -/
structure Made (t : Table) (acts : Actions σ V) (m m' : Machine σ V) (q : Nat) (r : V × σ)
    (rest : List Token) : Prop where
  flows : Flows t acts m m'
  laid : m.stack.Laid m'.stack q r.1
  memory : m'.memory = r.2
  sinceNewline : m'.stack.top.sinceNewline ≤ m.stack.top.sinceNewline + 1
  faces : m'.Faces rest

/-- A token with a transition is shifted. -/
theorem shift_made (hstep : m.step t acts = shiftOrReduce t acts m row)
    (hgo : row.goto? m.token.kind.num = some q) (hq : q < t.rows.size)
    (hpermitted : m.stack.top.newlinePermitted = true) :
    ∃ m', m.Made t acts m' q (acts.token m.memory m.token) m.input.tokens ∧
      (m.token.kind = .newline → m'.stack.top.sinceNewline = 0) := by
  obtain ⟨stack, hpush, hlaid, hsince⟩ := Stack.push?_laid hq hpermitted m.token.kind.num
    (m.token.kind == .newline) (acts.token m.memory m.token).1
  rw [shiftOrReduce, hgo] at hstep
  dsimp only [shift, act, note] at hstep
  rw [hpush] at hstep
  refine ⟨_, ⟨.single hstep, hlaid, rfl, ?_, faces_next rfl⟩, fun hkind => ?_⟩
  · show stack.top.sinceNewline ≤ _
    rw [hsince]
    split
    · exact Nat.zero_le _
    · exact Nat.le_refl _
  · show stack.top.sinceNewline = 0
    rw [hsince, hkind]
    rfl

theorem shift_plain (acts : Actions σ V) (hf : m.Faces (u :: rest)) (hk : u.kind.isLayout = false)
    (hgo : t.goto? m.stack.top.state u.kind.num = some q) (hq : q < t.rows.size)
    (hpermitted : m.stack.top.newlinePermitted = true) :
    ∃ m', m.Made t acts m' q (acts.token m.memory u) rest := by
  obtain ⟨rfl, rfl⟩ := hf
  obtain ⟨row, hrow, hgo⟩ := Option.bind_eq_some_iff.1 hgo
  obtain ⟨m', h, -⟩ := shift_made (step_plain acts hk hrow) hgo hq hpermitted
  exact ⟨m', h⟩

/-- A line break is shifted like other tokens, unless it forces a reduction. -/
theorem shift_newline (acts : Actions σ V) (hf : m.Faces (u :: rest)) (hk : u.kind = .newline)
    (hgo : t.goto? m.stack.top.state u.kind.num = some q) (hq : q < t.rows.size)
    (hpermitted : m.stack.top.newlinePermitted = true)
    (hfree : t.reduce? m.stack.top.state = none ∨ m.stack.top.sinceNewline ≤ 1) :
    ∃ m', m.Made t acts m' q (acts.token m.memory u) rest ∧ m'.stack.top.sinceNewline = 0 := by
  obtain ⟨rfl, rfl⟩ := hf
  obtain ⟨row, hrow, hgo⟩ := Option.bind_eq_some_iff.1 hgo
  have hforces : lineForces row m.stack.top = false := by
    rcases hfree with hnone | hle
    · rw [Table.reduce?, hrow] at hnone
      simp [lineForces, show row.reduce = none from hnone]
    · unfold lineForces
      cases row.reduce with
      | none => rfl
      | some r => simp [Nat.not_lt.2 hle]
  have hstep : m.step t acts = shiftOrReduce t acts m row := by
    unfold step
    rw [hrow]
    simp [hk, stepNewline, hpermitted, hforces]
  obtain ⟨m', h, hsince⟩ := shift_made hstep hgo hq hpermitted
  exact ⟨m', h, hsince hk⟩

/-- At the end of a line a state reduces, if the body is inside the level. -/
theorem step_atEnd (hrow : t.row? m.stack.top.state = some row) (hr : row.reduce = some r)
    (hend : endsLine m.token = true) (hgo : row.goto? m.token.kind.num = none)
    (hpermitted : m.stack.top.newlinePermitted = true) (hinside : r.size ≤ m.stack.top.sinceIndent) :
    ∃ forced, m.step t acts = reduceOrFail t acts m row forced := by
  have hkind : m.token.kind = .newline ∨ m.token.kind = .eof ∨ m.token.kind = .outdent := by
    simpa [endsLine, or_assoc] using hend
  unfold step
  rw [hrow]
  rcases hkind with hkind | hkind | hkind
  · simp only [hkind, stepNewline, hpermitted, Bool.not_true, Bool.false_eq_true, if_false]
    split
    · exact ⟨true, rfl⟩
    · rw [shiftOrReduce, hgo]
      exact ⟨false, rfl⟩
  · simp only [hkind, shiftOrReduce]
    rw [hkind] at hgo
    rw [hgo]
    exact ⟨false, rfl⟩
  · have hreduces : reducesInside row m.stack.top = true := by
      simpa [reducesInside, hr] using hinside
    simp only [hkind, stepOutdent, hreduces, if_true]
    exact ⟨true, rfl⟩

/-- At the end of a line, a body that is all inside the level is reduced. -/
theorem reduce_made {m₀ : Machine σ V} (h₀ : Flows t acts m₀ m)
    (hr : t.reduce? m.stack.top.state = some r) (hline : r.newlineOnly = false)
    (hprod : r.prod ≠ 0) (hend : endsLine m.token = true)
    (hnone : t.goto? m.stack.top.state m.token.kind.num = none) (hpermitted : m.stack.top.newlinePermitted = true)
    (hinside : r.size ≤ m.stack.top.sinceIndent) (popped : List (Frame V))
    (hframes : m.stack.frames = popped ++ m₀.stack.frames) (hsize : popped.length = r.size)
    (hindents : ∀ f ∈ popped, f.indents = 0) (hgo : t.goto? m₀.stack.top.state r.sym = some q)
    (hq : q < t.rows.size) (hpermitted₀ : m₀.stack.top.newlinePermitted = true)
    (hf : m.Faces rest) :
    ∃ m', m₀.Made t acts m' q
      (acts.reduce m.memory r.prod (popped.reverse.filterMap Frame.value)) rest := by
  obtain ⟨row, hrow, hr⟩ := Option.bind_eq_some_iff.1 hr
  rw [Table.goto?, hrow] at hnone
  obtain ⟨forced, hstep⟩ := step_atEnd hrow hr hend hnone hpermitted hinside
  have hlt : ¬ m.stack.size ≤ r.size := by
    rw [Stack.size_eq, hframes, List.length_append, hsize]
    simp [Stack.frames]
  have hmay : mayReduce r m.token (atLineStart m.stack) = true := by simp [mayReduce, hline]
  obtain ⟨stack, hpush, hlaid, hsince⟩ := Stack.push?_laid hq hpermitted₀ r.sym
    (popped.any fun f => f.sinceNewline == 0)
    (acts.reduce m.memory r.prod (popped.reverse.filterMap Frame.value)).1
  have hby (verb : Verb) : reduceBy t acts (m.act verb) r = .pushed { m.act verb with
      stack
      memory := (acts.reduce m.memory r.prod (popped.reverse.filterMap Frame.value)).2
      calls := m.calls + 1 } := by
    simp only [reduceBy, act, note, hsize ▸ pop?_frames hframes, hprod, if_false]
    rw [show ((t.row? m₀.stack.top.state).bind fun row => row.goto? r.sym) = some q from hgo]
    dsimp only
    rw [Stack.total_indents hindents, hpush]
  have hnext : m.step t acts = .next { m.act (if forced then .force else .reduce) with
      stack
      memory := (acts.reduce m.memory r.prod (popped.reverse.filterMap Frame.value)).2
      calls := m.calls + 1 } := by
    rw [hstep]
    simp [reduceOrFail, hr, hmay, hlt, hprod, hby]
  refine ⟨_, h₀.trans (.single hnext), hlaid, rfl, ?_, ?_⟩
  · rw [hsince]
    split
    · exact Nat.zero_le _
    · exact Nat.le_refl _
  · cases rest with
    | nil => exact hf
    | cons u rest => exact hf

/-- A body of one symbol. -/
theorem Made.reduce (h : m.Made t acts m' q v rest) {prod sym q' : Nat}
    (hr : t.reduce? q = some ⟨prod, 1, sym, false⟩) (hprod : prod ≠ 0)
    (hend : endsLine m'.token = true) (hnone : t.goto? q m'.token.kind.num = none)
    (hgo : t.goto? m.stack.top.state sym = some q') (hq' : q' < t.rows.size)
    (hpermitted : m.stack.top.newlinePermitted = true) :
    ∃ m'', m.Made t acts m'' q' (acts.reduce v.2 prod [v.1]) rest := by
  rw [← h.laid.state] at hr hnone
  obtain ⟨m'', hmade⟩ := reduce_made h.flows hr rfl hprod hend hnone h.laid.permitted
    (by rw [h.laid.sinceIndent]; exact Nat.succ_pos _) [m'.stack.top] h.laid.frames rfl
    (by simpa using h.laid.indents) hgo hq' hpermitted h.faces
  refine ⟨m'', ?_⟩
  simpa [h.laid.value, h.memory] using hmade

/-! ## Between levels -/

/-- A level is recorded on the frame on top. -/
theorem record_flows (acts : Actions σ V) (hf : m.Faces (u :: rest)) (hk : u.kind = .indent)
    (hrow : t.row? m.stack.top.state = some row) :
    ∃ m', Flows t acts m m' ∧ m'.stack = m.stack.recordIndent row.startsLine ∧
      m'.memory = m.memory ∧ m'.Faces rest := by
  obtain ⟨rfl, rfl⟩ := hf
  have hstep : m.step t acts =
      .next { m.act .record with stack := m.stack.recordIndent row.startsLine }.advance := by
    unfold step
    rw [hrow]
    simp only [hk]
    rfl
  exact ⟨_, .single hstep, rfl, rfl, faces_next rfl⟩

/-- A level is closed, when all above it is reduced. -/
theorem cancel_flows (acts : Actions σ V) (hf : m.Faces (u :: rest)) (hk : u.kind = .outdent)
    (hrow : t.row? m.stack.top.state = some row) (hreduces : reducesInside row m.stack.top = false)
    (hkernel : m.stack.top.sinceIndent ≤ row.minPrefix) (hopen : m.stack.canCancelIndent = true) :
    ∃ m', Flows t acts m m' ∧ m'.stack = m.stack.cancelIndent t ∧ m'.memory = m.memory ∧
      m'.Faces rest := by
  obtain ⟨rfl, rfl⟩ := hf
  have hstep : m.step t acts =
      .next { m.act .cancel with stack := m.stack.cancelIndent t }.advance := by
    unfold step
    rw [hrow]
    simp only [hk, stepOutdent, hreduces, hkernel, hopen]
    rfl
  exact ⟨_, .single hstep, rfl, rfl, faces_next rfl⟩

end Machine

end LayoutLR
