/-
  Layout-aware LR toolkit — what a step of a parser comes to.

  Whatever the table is, a step does one of a few things: the layout takes the token, the
  token is shifted, the state on top reduces, or there is an error.  What all steps do
  is told from this, without another look at the order in which a parser tries them.

  * `Machine.Choice`, `Machine.step_choice`: what a parser turns to;
  * `Machine.Attempt`, `Machine.reduceOrFail_attempt`: what becomes of a reduction;
  * `Machine.fail_cases`: what it means that nothing fits;
  * `Machine.Recovered`, `Machine.recover_cases`: what recovery leads to.
-/
import LayoutLR.Parser.Machine
import LayoutLR.Proofs.Automaton.Table

namespace LayoutLR

variable {σ V : Type}

namespace Machine

/-! ## Steps -/

/-- What a parser turns to at its token. -/
inductive Choice (t : Table) (acts : Actions σ V) (m : Machine σ V) : Progress σ V → Prop
  /-- There is no such state. -/
  | lost (hrow : t.row? m.stack.top.state = none) : Choice t acts m (.broken m)
  | record {row : Row} (hkind : m.token.kind = .indent)
      (hrow : t.row? m.stack.top.state = some row) : Choice t acts m
        (.next ({ m.act .record with
          stack := m.stack.recordIndent row.startsLine } : Machine σ V).advance)
  | cancel (hkind : m.token.kind = .outdent) (hopen : m.stack.canCancelIndent = true) :
      Choice t acts m
        (.next ({ m.act .cancel with stack := m.stack.cancelIndent t } : Machine σ V).advance)
  | discard (hkind : m.token.kind = .newline) : Choice t acts m (.next (m.act .discard).advance)
  | shift {next : Nat} (hin : m.token.kind ≠ .indent) (hout : m.token.kind ≠ .outdent)
      (hgo : t.goto? m.stack.top.state m.token.kind.num = some next) :
      Choice t acts m (shift t acts m next)
  | reduce {row : Row} (forced : Bool) (hin : m.token.kind ≠ .indent)
      (hrow : t.row? m.stack.top.state = some row) :
      Choice t acts m (reduceOrFail t acts m row forced)
  /-- The end of a level that cannot be cancelled. -/
  | recover (hkind : m.token.kind = .outdent) : Choice t acts m (recover t acts m)

variable {t : Table} {m : Machine σ V} {row : Row}

theorem shiftOrReduce_choice (acts : Actions σ V) (hin : m.token.kind ≠ .indent)
    (hout : m.token.kind ≠ .outdent) (hrow : t.row? m.stack.top.state = some row) :
    Choice t acts m (shiftOrReduce t acts m row) := by
  unfold shiftOrReduce
  split
  · rename_i next hgo
    exact .shift hin hout ((Table.goto?_of_row hrow _).trans hgo)
  · exact .reduce false hin hrow

/-- **What a step comes to.** -/
theorem step_choice (t : Table) (acts : Actions σ V) (m : Machine σ V) :
    Choice t acts m (m.step t acts) := by
  unfold step
  cases hrow : t.row? m.stack.top.state with
  | none => exact .lost hrow
  | some row =>
    dsimp only
    split
    · rename_i hkind
      exact .record hkind hrow
    · rename_i hkind
      have hin : m.token.kind ≠ .indent := by simp [hkind]
      unfold stepOutdent
      dsimp only
      split
      · exact .reduce true hin hrow
      split
      · rename_i hcan
        exact .cancel hkind (Bool.and_eq_true_iff.1 hcan).2
      · exact .recover hkind
    · rename_i hkind
      have hin : m.token.kind ≠ .indent := by simp [hkind]
      unfold stepNewline
      dsimp only
      split
      · exact .discard hkind
      split
      · exact .reduce true hin hrow
      · exact shiftOrReduce_choice acts hin (by simp [hkind]) hrow
    · rename_i hin hout _
      exact shiftOrReduce_choice acts hin hout hrow

/-! ## Reductions -/

/-- The state on top may reduce before the token, and there are frames enough. -/
structure Attempts (m : Machine σ V) (row : Row) (forced : Bool) (r : Reduction) (verb : Verb) :
    Prop where
  reduce : row.reduce = some r
  may : mayReduce r m.token (atLineStart m.stack) = true
  size : ¬ m.stack.size ≤ r.size
  verb : verb = if r.prod = 0 then .accept else if forced then .force else .reduce

/-- What becomes of a reduction. -/
inductive Attempt (t : Table) (acts : Actions σ V) (m : Machine σ V) (row : Row) (forced : Bool) :
    Progress σ V → Prop
  /-- There is none that may happen before the token. -/
  | refused : Attempt t acts m row forced (fail t acts m)
  | tooShort {r : Reduction} (hred : row.reduce = some r) (hsize : m.stack.size ≤ r.size) :
      Attempt t acts m row forced (fail t acts (m.note (.tooShort m.stack.top.state)))
  | pushed {r : Reduction} {verb : Verb} {m' : Machine σ V} (h : m.Attempts row forced r verb)
      (hby : reduceBy t acts (m.act verb) r = .pushed m') : Attempt t acts m row forced (.next m')
  | accepted {r : Reduction} {verb : Verb} {value : V} {m' : Machine σ V}
      (h : m.Attempts row forced r verb)
      (hby : reduceBy t acts (m.act verb) r = .accepted value m') :
      Attempt t acts m row forced (.done (some value) (m'.disposeStack acts))
  | failed {r : Reduction} {verb : Verb} {m' : Machine σ V} (h : m.Attempts row forced r verb)
      (hby : reduceBy t acts (m.act verb) r = .failed m') :
      Attempt t acts m row forced (fail t acts m')
  | broken {r : Reduction} {verb : Verb} {m' : Machine σ V} (h : m.Attempts row forced r verb)
      (hby : reduceBy t acts (m.act verb) r = .broken m') :
      Attempt t acts m row forced (.broken m')

theorem reduceOrFail_attempt (t : Table) (acts : Actions σ V) (m : Machine σ V) (row : Row)
    (forced : Bool) : Attempt t acts m row forced (reduceOrFail t acts m row forced) := by
  unfold reduceOrFail
  cases hred : row.reduce with
  | none => exact .refused
  | some r =>
    dsimp only
    split
    · exact .refused
    rename_i hmay
    split
    · rename_i hsize
      exact .tooShort hred hsize
    rename_i hsize
    have h : m.Attempts row forced r _ := ⟨hred, by simpa using hmay, hsize, rfl⟩
    split
    · exact .pushed h ‹_›
    · exact .accepted h ‹_›
    · exact .failed h ‹_›
    · exact .broken h ‹_›

/-! ## Errors -/

/-- Where nothing fits parsing is over, or there is an error. -/
theorem fail_cases (t : Table) (acts : Actions σ V) (m : Machine σ V) :
    fail t acts m = .done none (m.disposeStack acts) ∨
      ∃ eofError, fail t acts m = recover t acts { m with eofError } := by
  unfold fail
  split
  · split
    · exact Or.inl rfl
    · exact Or.inr ⟨true, rfl⟩
  · exact Or.inr ⟨m.eofError, rfl⟩

/-- What recovery leads to. -/
inductive Recovered (t : Table) (acts : Actions σ V) (m : Machine σ V) : Progress σ V → Prop
  | resume {dropped : List (Frame V)} {below stack : Stack V} {next : Nat} {sk : Skipped}
      (hfind : findError t [] m.stack.frames = some (dropped, below, next))
      (hpush : below.push? t next Kind.error.num 0 false (acts.error m.memory m.token).1 = some stack)
      (hskip : skip? t stack m.input.eof (m.recoveredAt == some stack.size) m.token
        (total (dropped.map Frame.indents)) 0 m.input.tokens = some sk)
      (hend : sk.token.kind = .eof → inLookahead? t stack sk.token = some true) :
      Recovered t acts m (.next { m.act .error with
        stack := addIndents stack sk.indents
        recoveredAt := some stack.size
        token := sk.token
        input := { m.input with tokens := sk.tokens }
        memory := acts.disposeAll (acts.error m.memory m.token).2 (dropped.filterMap Frame.value)
        calls := m.calls + 1
        taken := m.taken + sk.taken
        notes := List.replicate sk.taken .take ++ (m.act .error).notes })
  /-- There is no way to go on. -/
  | giveUp {last : Machine σ V} (k : Nat)
      (hnotes : last.notes = List.replicate k .take ++ .act .error m.stack m.token :: m.notes) :
      Recovered t acts m (.done none last)
  | broken {last : Machine σ V} : Recovered t acts m (.broken last)

theorem recover_cases (t : Table) (acts : Actions σ V) (m : Machine σ V) :
    Recovered t acts m (recover t acts m) := by
  unfold recover
  dsimp only [act, note]
  cases hfind : findError t [] m.stack.frames with
  | none => exact .giveUp 0 rfl
  | some found =>
    obtain ⟨dropped, below, next⟩ := found
    dsimp only
    cases hpush : below.push? t next Kind.error.num 0 false (acts.error m.memory m.token).1 with
    | none => exact .broken
    | some stack =>
      dsimp only [Progress.ofStack?]
      unfold resync
      dsimp only
      split
      · exact .broken
      · rename_i sk hskip
        split
        · exact .broken
        · exact .giveUp sk.taken rfl
        · rename_i hstop
          refine .resume hfind hpush hskip fun heof => ?_
          rwa [if_pos heof] at hstop

end Machine

end LayoutLR
