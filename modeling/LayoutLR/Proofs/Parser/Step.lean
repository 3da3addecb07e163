/-
  Layout-aware LR toolkit — what a step of a parser can do.

  On a table with items behind its rows, and a stack that is a path through them,
  a step meets no state that does not exist, no reduction of more frames than there
  are, and no head that cannot be pushed.  So it is one of a few turns, or the last.
  A turn says which frame is pushed with how many levels, and at which token a parser
  goes on after an error; a move forgets the levels and lines of the stack.

  * `Machine.Turn`: the steps after which there is more to do, with the layout;
  * `Machine.Does`, `Machine.step_does`: every step is a turn or the last one;
  * `Machine.Move`, `Machine.step_move`: every step is a move.
-/
import LayoutLR.Proofs.Parser.Choices
import LayoutLR.Proofs.Parser.Path

namespace LayoutLR

variable {σ V : Type}

/-- Whether the parser has done something with a token, and not found its table wrong. -/
def Note.Ordinary : Note V → Prop
  | .take | .act _ _ _ => True
  | .tooShort _ | .noTransition _ _ => False

/-- What is done with a token that is not shifted. -/
inductive Verb.Lays : Verb → Kind → Prop
  | record : Lays .record .indent
  | cancel : Lays .cancel .outdent
  | discard : Lays .discard .newline

/-- What is done with a token that is used up: the layout takes it, or it is shifted and does
    not open or close a level. -/
inductive Verb.Uses : Verb → Kind → Prop
  | shift {kind : Kind} (hin : kind ≠ .indent) (hout : kind ≠ .outdent) : Uses .shift kind
  | lay {verb : Verb} {kind : Kind} (h : verb.Lays kind) : Uses verb kind

namespace Machine

/-! ## Turns -/

/-- What a step has done, if there is more to do. -/
inductive Turn (t : Table) (acts : Actions σ V) (m : Machine σ V) : Machine σ V → Prop
  | record (startsLine : Bool) (hkind : m.token.kind = .indent) :
      Turn t acts m
        ({ m.act .record with stack := m.stack.recordIndent startsLine } : Machine σ V).advance
  | cancel (hkind : m.token.kind = .outdent) (hopen : m.stack.canCancelIndent = true) :
      Turn t acts m
        ({ m.act .cancel with stack := m.stack.cancelIndent t } : Machine σ V).advance
  | discard (hkind : m.token.kind = .newline) : Turn t acts m (m.act .discard).advance
  | shift {next : Nat} {stack : Stack V} (hin : m.token.kind ≠ .indent)
      (hout : m.token.kind ≠ .outdent)
      (hgo : t.goto? m.stack.top.state m.token.kind.num = some next)
      (hpush : m.stack.push? t next m.token.kind.num 0 (m.token.kind == .newline)
        (acts.token m.memory m.token).1 = some stack) :
      Turn t acts m ({ m.act .shift with
        stack
        memory := (acts.token m.memory m.token).2
        calls := m.calls + 1
        recoveredAt := none
        eofError := false } : Machine σ V).advance
  | reduce {r : Reduction} {verb : Verb} {popped : List (Frame V)} {rest stack : Stack V}
      {next : Nat} (hverb : verb = .reduce ∨ verb = .force)
      (hr : t.reduce? m.stack.top.state = some r) (hne : r.prod ≠ 0)
      (hpop : m.stack.pop? r.size = some (popped, rest))
      (hgo : t.goto? rest.top.state r.sym = some next)
      (hpush : rest.push? t next r.sym (total (popped.map Frame.indents))
        (popped.any fun f => f.sinceNewline == 0)
        (acts.reduce m.memory r.prod (popped.reverse.filterMap Frame.value)).1 = some stack)
      (hmay : mayReduce r m.token (atLineStart m.stack) = true) :
      Turn t acts m { m.act verb with
        stack
        memory := (acts.reduce m.memory r.prod (popped.reverse.filterMap Frame.value)).2
        calls := m.calls + 1 }
  | resume {dropped : List (Frame V)} {below stack : Stack V} {next : Nat} {sk : Skipped}
      {eofError : Bool} (hin : m.token.kind ≠ .indent)
      (hfind : findError t [] m.stack.frames = some (dropped, below, next))
      (hpush : below.push? t next Kind.error.num 0 false (acts.error m.memory m.token).1 = some stack)
      (hskip : skip? t stack m.input.eof (m.recoveredAt == some stack.size) m.token
        (total (dropped.map Frame.indents)) 0 m.input.tokens = some sk)
      (hend : sk.token.kind = .eof → inLookahead? t stack sk.token = some true) :
      Turn t acts m { m.act .error with
        eofError
        stack := addIndents stack sk.indents
        recoveredAt := some stack.size
        token := sk.token
        input := { m.input with tokens := sk.tokens }
        memory := acts.disposeAll (acts.error m.memory m.token).2 (dropped.filterMap Frame.value)
        calls := m.calls + 1
        taken := m.taken + sk.taken
        notes := List.replicate sk.taken .take ++ (m.act .error).notes }

/-- What a step does: a turn, or the last thing. -/
inductive Does (t : Table) (acts : Actions σ V) (m : Machine σ V) : Progress σ V → Prop
  | turn {m' : Machine σ V} (h : Turn t acts m m') : Does t acts m (.next m')
  | accept {r : Reduction} {popped : List (Frame V)} {rest : Stack V} {value : V}
      {others : List V} (hr : t.reduce? m.stack.top.state = some r) (hzero : r.prod = 0)
      (hpop : m.stack.pop? r.size = some (popped, rest))
      (hbody : popped.reverse.filterMap Frame.value = value :: others) :
      Does t acts m (.done (some value) { m.act .accept with
        stack := rest
        memory := acts.disposeAll (acts.disposeAll m.memory others) rest.values })
  /-- The last error was at the end of the input as well. -/
  | stop : Does t acts m (.done none (m.disposeStack acts))
  /-- There is no way to go on after an error. -/
  | giveUp {last : Machine σ V} (k : Nat)
      (hnotes : last.notes = List.replicate k .take ++ .act .error m.stack m.token :: m.notes) :
      Does t acts m (.done none last)

/-! ## Moves -/

/-- What a step leads to. -/
inductive Move (t : Table) (acts : Actions σ V) (m : Machine σ V) : Progress σ V → Prop
  /-- The layout takes the token. -/
  | layout {verb : Verb} {stack : Stack V} (hverb : verb.Lays m.token.kind)
      (hview : stack.view = m.stack.view) :
      Move t acts m (.next ({ m.act verb with stack } : Machine σ V).advance)
  | shift {next : Nat} {stack : Stack V} (huses : Verb.shift.Uses m.token.kind)
      (hgo : t.goto? m.stack.top.state m.token.kind.num = some next)
      (hview : stack.view =
        (next, m.token.kind.num, some (acts.token m.memory m.token).1) :: m.stack.view) :
      Move t acts m (.next ({ m.act .shift with
        stack
        memory := (acts.token m.memory m.token).2
        calls := m.calls + 1
        recoveredAt := none
        eofError := false } : Machine σ V).advance)
  | reduce {r : Reduction} {verb : Verb} {popped : List (Frame V)} {rest stack : Stack V}
      {next : Nat} (hr : t.reduce? m.stack.top.state = some r) (hne : r.prod ≠ 0)
      (hverb : verb = .reduce ∨ verb = .force)
      (hpop : m.stack.pop? r.size = some (popped, rest))
      (hgo : t.goto? rest.top.state r.sym = some next)
      (hview : stack.view = (next, r.sym,
        some (acts.reduce m.memory r.prod (popped.reverse.filterMap Frame.value)).1) :: rest.view) :
      Move t acts m (.next { m.act verb with
        stack
        memory := (acts.reduce m.memory r.prod (popped.reverse.filterMap Frame.value)).2
        calls := m.calls + 1 })
  | accept {r : Reduction} {popped : List (Frame V)} {rest : Stack V} {value : V}
      {others : List V} (hr : t.reduce? m.stack.top.state = some r)
      (hzero : r.prod = 0) (hpop : m.stack.pop? r.size = some (popped, rest))
      (hbody : popped.reverse.filterMap Frame.value = value :: others) :
      Move t acts m (.done (some value) { m.act .accept with
        stack := rest
        memory := acts.disposeAll (acts.disposeAll m.memory others) rest.values })
  /-- After an error frames are dropped, and then tokens. -/
  | resume {dropped : List (Frame V)} {below stack : Stack V} {next : Nat} {sk : Skipped}
      {eofError : Bool} {recoveredAt : Option Nat}
      (hfind : findError t [] m.stack.frames = some (dropped, below, next))
      (hskip : ∃ (s : Stack V) (must : Bool) (indents : Nat),
        skip? t s m.input.eof must m.token indents 0 m.input.tokens = some sk)
      (hview : stack.view =
        (next, Kind.error.num, some (acts.error m.memory m.token).1) :: below.view) :
      Move t acts m (.next { m.act .error with
        stack, eofError, recoveredAt
        token := sk.token
        input := { m.input with tokens := sk.tokens }
        memory := acts.disposeAll (acts.error m.memory m.token).2 (dropped.filterMap Frame.value)
        calls := m.calls + 1
        taken := m.taken + sk.taken
        notes := List.replicate sk.taken .take ++ (m.act .error).notes })
  /-- There is no way to go on. -/
  | giveUp {m' : Machine σ V} (hnotes : ∀ n ∈ m'.notes, n ∈ m.notes ∨ n.Ordinary) :
      Move t acts m (.done none m')

variable {g : Grammar} {t : Table} {has : Nat → Item → Prop} {acts : Actions σ V}
  {m m' : Machine σ V} {row : Row}

/-! ## Looking ahead and recovering -/

/-- Looking ahead stays among the states of the table. -/
theorem canShift?_some (hb : t.Backed g has) (token : Token) :
    ∀ (steps : Nat) (lineStart : Bool) (states : List Nat), (∀ q ∈ states, q < t.rows.size) →
      ∃ b, canShift? t token steps lineStart states = some b
  | 0, _, _, _ => ⟨false, rfl⟩
  | _ + 1, _, [], _ => ⟨false, rfl⟩
  | n + 1, lineStart, top :: below, h => by
    have hrow (q : Nat) (hq : q < t.rows.size) : ∃ row, t.row? q = some row :=
      ⟨_, Array.getElem?_eq_getElem hq⟩
    obtain ⟨row, htop⟩ := hrow top (h top (by simp))
    unfold canShift?
    rw [htop]
    simp only [Option.bind_eq_bind, Option.bind_some, Option.pure_def]
    split
    · exact ⟨true, rfl⟩
    cases row.reduce with
    | none => exact ⟨false, rfl⟩
    | some r =>
      dsimp only
      split
      · exact ⟨false, rfl⟩
      cases hdrop : (top :: below).drop r.size with
      | nil => exact ⟨false, rfl⟩
      | cons state rest =>
        have hmem : ∀ q ∈ state :: rest, q < t.rows.size := fun q hq =>
          h q (List.mem_of_mem_drop (hdrop ▸ hq))
        obtain ⟨row', hstate⟩ := hrow state (hmem state (by simp))
        dsimp only
        rw [hstate, Option.bind_some]
        cases hgo : row'.goto? r.sym with
        | none => exact ⟨false, rfl⟩
        | some next =>
          refine canShift?_some hb token n false _ fun q hq => ?_
          rcases List.mem_cons.1 hq with rfl | hq
          · exact (hb.target state r.sym q (by rw [Table.goto?, hstate]; exact hgo)).1
          · exact hmem q hq

theorem inLookahead?_some (hb : t.Backed g has) {s : Stack V} (hp : t.Path s.frames)
    (token : Token) : ∃ b, inLookahead? t s token = some b := by
  refine canShift?_some hb token _ _ _ fun q hq => ?_
  obtain ⟨f, hf, rfl⟩ := List.mem_map.1 hq
  exact hp.state_lt hb f hf

theorem stopsAt?_some (hb : t.Backed g has) {s : Stack V} (hp : t.Path s.frames) (must : Bool)
    (token : Token) : ∃ b, stopsAt? t s must token = some b := by
  unfold stopsAt?
  split
  · exact ⟨_, rfl⟩
  split
  · exact ⟨_, rfl⟩
  · exact inLookahead?_some hb hp token

theorem skip?_some (hb : t.Backed g has) {s : Stack V} (hp : t.Path s.frames) (eof : Token)
    (tokens : List Token) : ∀ (must : Bool) (token : Token) (indents taken : Nat),
      ∃ sk, skip? t s eof must token indents taken tokens = some sk := by
  induction tokens with
  | nil =>
    intro must token indents taken
    obtain ⟨b, hstop⟩ := stopsAt?_some hb hp must token
    exact ⟨_, by rw [skip?, hstop, Option.map_some]⟩
  | cons next rest ih =>
    intro must token indents taken
    obtain ⟨b, hstop⟩ := stopsAt?_some hb hp must token
    rw [skip?, hstop]
    cases b with
    | true => exact ⟨_, rfl⟩
    | false =>
      dsimp only
      split
      · exact ⟨_, rfl⟩
      · exact ih _ _ _ _

/-- The frames that are dropped before one has a transition on the error symbol. -/
theorem findError_spec {fs dropped₀ dropped : List (Frame V)} {below : Stack V} {next : Nat}
    (h : findError t dropped₀ fs = some (dropped, below, next)) :
    ∃ top, dropped = dropped₀.reverse ++ top ∧ fs = top ++ below.frames ∧
      t.goto? below.top.state Kind.error.num = some next := by
  induction fs generalizing dropped₀ with
  | nil => cases h
  | cons f fs ih =>
    unfold findError at h
    split at h
    · rename_i q hq
      obtain ⟨rfl, rfl, rfl⟩ : dropped₀.reverse = dropped ∧ ⟨f, fs⟩ = below ∧ q = next := by
        simpa using h
      exact ⟨[], by simp, rfl, hq⟩
    · obtain ⟨top, rfl, rfl, hgo⟩ := ih h
      exact ⟨f :: top, by simp, rfl, hgo⟩

theorem recover_does (hb : t.Backed g has) (hp : t.Path m.stack.frames)
    (hin : m.token.kind ≠ .indent) (eofError : Bool) :
    Does t acts m (recover t acts { m with eofError }) := by
  unfold recover
  dsimp only [act, note]
  cases hfind : findError t [] m.stack.frames with
  | none => exact .giveUp 0 rfl
  | some r =>
    obtain ⟨dropped, below, next⟩ := r
    obtain ⟨top, -, hsplit, hgo⟩ := findError_spec hfind
    have hbelow : t.Path below.frames := by
      rw [hsplit] at hp
      exact hp.suffix
    obtain ⟨stack, hpush⟩ := below.exists_push? (hb.target _ _ _ hgo).1 Kind.error.num 0 false
      (acts.error m.memory m.token).1
    have hpath : t.Path stack.frames := hbelow.push hgo (Stack.view_push? hpush)
    dsimp only
    rw [hpush]
    dsimp only [Progress.ofStack?]
    unfold resync
    dsimp only
    obtain ⟨sk, hskip⟩ := skip?_some hb hpath m.input.eof m.input.tokens
      (m.recoveredAt == some stack.size) m.token (total (dropped.map Frame.indents)) 0
    rw [hskip]
    dsimp only
    obtain ⟨stop, hstop⟩ : ∃ b,
        (if sk.token.kind = .eof then inLookahead? t stack sk.token else some true) = some b := by
      split
      · exact inLookahead?_some hb hpath sk.token
      · exact ⟨true, rfl⟩
    rw [hstop]
    cases stop with
    | true =>
      refine .turn (.resume hin hfind hpush hskip fun heof => ?_)
      rwa [if_pos heof] at hstop
    | false => exact .giveUp sk.taken rfl

/-! ## Shifting and reducing -/

theorem fail_does (hb : t.Backed g has) (hp : t.Path m.stack.frames)
    (hin : m.token.kind ≠ .indent) : Does t acts m (fail t acts m) := by
  rcases fail_cases t acts m with h | ⟨eofError, h⟩
  · rw [h]
    exact .stop
  · rw [h]
    exact recover_does hb hp hin eofError

/-- All frames of a body have a value. -/
theorem length_values {popped : List (Frame V)} (h : ∀ f ∈ popped, ∃ v, f.value = some v) :
    (popped.filterMap Frame.value).length = popped.length := by
  induction popped with
  | nil => rfl
  | cons f popped ih =>
    obtain ⟨v, hv⟩ := h f (by simp)
    simp [hv, ih fun f' hf' => h f' (by simp [hf'])]

/-- A reduction that is not the last one pushes its head. -/
theorem reduceBy_pushed (acts : Actions σ V) (hb : t.Backed g has) (hp : t.Path m.stack.frames)
    {r : Reduction} (hr : t.reduce? m.stack.top.state = some r) (hprod : r.prod ≠ 0) :
    ∃ popped rest next stack, m.stack.pop? r.size = some (popped, rest) ∧
      t.goto? rest.top.state r.sym = some next ∧
      rest.push? t next r.sym (total (popped.map Frame.indents))
        (popped.any fun f => f.sinceNewline == 0)
        (acts.reduce m.memory r.prod (popped.reverse.filterMap Frame.value)).1 = some stack ∧
      ∀ verb, reduceBy t acts (m.act verb) r = .pushed { m.act verb with
        stack
        memory := (acts.reduce m.memory r.prod (popped.reverse.filterMap Frame.value)).2
        calls := m.calls + 1 } := by
  obtain ⟨popped, rest, hpop, -, -, -, -, -, hhead⟩ := hp.reduce hb hr
  obtain ⟨next, hgo⟩ := hhead hprod
  obtain ⟨stack, hpush⟩ := rest.exists_push? (hb.target _ _ _ hgo).1 r.sym
    (total (popped.map Frame.indents)) (popped.any fun f => f.sinceNewline == 0)
    (acts.reduce m.memory r.prod (popped.reverse.filterMap Frame.value)).1
  refine ⟨popped, rest, next, stack, hpop, hgo, hpush, fun verb => ?_⟩
  have hgo' : ((t.row? rest.top.state).bind fun row => row.goto? r.sym) = some next := hgo
  simp only [reduceBy, act, note, hpop, hprod, if_false, hgo', hpush]

/-- The last reduction gives a value. -/
theorem reduceBy_accepted (acts : Actions σ V) (hb : t.Backed g has) (hne : g.body 0 ≠ [])
    (hp : t.Path m.stack.frames) {r : Reduction} (hr : t.reduce? m.stack.top.state = some r)
    (hprod : r.prod = 0) :
    ∃ popped rest value others, m.stack.pop? r.size = some (popped, rest) ∧
      popped.reverse.filterMap Frame.value = value :: others ∧
      ∀ verb, reduceBy t acts (m.act verb) r = .accepted value { m.act verb with
        stack := rest
        memory := acts.disposeAll m.memory others } := by
  obtain ⟨popped, rest, hpop, -, hlen, hsyms, hvals, -, -⟩ := hp.reduce hb hr
  have hsize : r.size = (g.body 0).length := by
    rw [← hprod, ← hsyms, List.length_reverse, List.length_map, hlen]
  cases hbody : popped.reverse.filterMap Frame.value with
  | nil =>
    -- the body of the start production is not empty
    have hzero := congrArg List.length hbody
    rw [length_values (by simpa using hvals), List.length_reverse, hlen, hsize] at hzero
    exact absurd (List.length_eq_zero_iff.1 hzero) hne
  | cons value others =>
    refine ⟨popped, rest, value, others, hpop, hbody, fun verb => ?_⟩
    simp only [reduceBy, act, note, hpop, hprod, if_true, hbody]

theorem size_lt_of_reduce (hb : t.Backed g has) (hp : t.Path m.stack.frames) {r : Reduction}
    (hr : t.reduce? m.stack.top.state = some r) : ¬ m.stack.size ≤ r.size := by
  obtain ⟨popped, rest, -, hframes, hlen, -⟩ := hp.reduce hb hr
  rw [Stack.size_eq, hframes, List.length_append, hlen, ← Stack.size_eq]
  simp only [Stack.size]
  omega

/-- What a reduction leads to is what a step does. -/
def Reduced.Fits (t : Table) (acts : Actions σ V) (m : Machine σ V) : Reduced σ V → Prop
  | .pushed m' => Does t acts m (.next m')
  | .accepted value m' => Does t acts m (.done (some value) (m'.disposeStack acts))
  | .failed _ | .broken _ => False

/-- A reduction that may happen pushes its head, or is the last one. -/
theorem Attempts.fits (acts : Actions σ V) (hb : t.Backed g has) (hne : g.body 0 ≠ [])
    (hp : t.Path m.stack.frames) (hrow : t.row? m.stack.top.state = some row) {forced : Bool}
    {r : Reduction} {verb : Verb} (h : m.Attempts row forced r verb) :
    (reduceBy t acts (m.act verb) r).Fits t acts m := by
  have hr : t.reduce? m.stack.top.state = some r := (Table.reduce?_of_row hrow).trans h.reduce
  have hverb := h.verb
  by_cases hzero : r.prod = 0
  · obtain ⟨popped, rest, value, others, hpop, hbody, hby⟩ := reduceBy_accepted acts hb hne hp hr hzero
    rw [if_pos hzero] at hverb
    rw [hby, hverb]
    exact .accept hr hzero hpop hbody
  · obtain ⟨popped, rest, next, stack, hpop, hgo, hpush, hby⟩ := reduceBy_pushed acts hb hp hr hzero
    rw [if_neg hzero] at hverb
    rw [hby]
    refine .turn (.reduce ?_ hr hzero hpop hgo hpush h.may)
    cases forced with
    | true => exact Or.inr hverb
    | false => exact Or.inl hverb

theorem reduceOrFail_does (hb : t.Backed g has) (hne : g.body 0 ≠ []) (hp : t.Path m.stack.frames)
    (hrow : t.row? m.stack.top.state = some row) (hin : m.token.kind ≠ .indent) (forced : Bool) :
    Does t acts m (reduceOrFail t acts m row forced) := by
  have hattempt := reduceOrFail_attempt t acts m row forced
  generalize reduceOrFail t acts m row forced = p at hattempt
  cases hattempt with
  | refused => exact fail_does hb hp hin
  | tooShort hred hsize =>
    exact absurd hsize (size_lt_of_reduce hb hp ((Table.reduce?_of_row hrow).trans hred))
  | pushed h hby | accepted h hby =>
    have hfits := h.fits acts hb hne hp hrow
    rw [hby] at hfits
    exact hfits
  | failed h hby | broken h hby =>
    have hfits := h.fits acts hb hne hp hrow
    rw [hby] at hfits
    exact hfits.elim

/-- A token that is not about layout is shifted, or there is a reduction. -/
theorem step_plain (acts : Actions σ V) (hk : m.token.kind.isLayout = false)
    (hrow : t.row? m.stack.top.state = some row) :
    m.step t acts = shiftOrReduce t acts m row := by
  unfold step
  rw [hrow]
  dsimp only
  split
  · simp_all [Kind.isLayout]
  · simp_all [Kind.isLayout]
  · simp_all [Kind.isLayout]
  · rfl

theorem step_unshifted (acts : Actions σ V) (hk : m.token.kind.isLayout = false) {r : Reduction}
    (hgo : t.goto? m.stack.top.state m.token.kind.num = none)
    (hr : t.reduce? m.stack.top.state = some r) :
    ∃ row, row.reduce = some r ∧ m.step t acts = reduceOrFail t acts m row false := by
  obtain ⟨row, hrow, hreduce⟩ := Option.bind_eq_some_iff.1 hr
  have hnone : row.goto? m.token.kind.num = none := by
    rw [Table.goto?, hrow] at hgo
    exact hgo
  refine ⟨row, hreduce, ?_⟩
  rw [step_plain acts hk hrow, shiftOrReduce, hnone]

/-- **What every step does.** -/
theorem step_does (acts : Actions σ V) (hb : t.Backed g has) (hne : g.body 0 ≠ [])
    (hp : t.Path m.stack.frames) : Does t acts m (m.step t acts) := by
  have hchoice := step_choice t acts m
  generalize m.step t acts = p at hchoice
  cases hchoice with
  | lost hrow =>
    have hlt := hp.state_lt hb m.stack.top (by simp [Stack.frames])
    exact absurd ((Array.getElem?_eq_getElem hlt).symm.trans hrow) (Option.some_ne_none _)
  | record hkind => exact .turn (.record _ hkind)
  | cancel hkind hopen => exact .turn (.cancel hkind hopen)
  | discard hkind => exact .turn (.discard hkind)
  | shift hin hout hgo =>
    obtain ⟨stack, hpush⟩ := m.stack.exists_push? (hb.target _ _ _ hgo).1 m.token.kind.num 0
      (m.token.kind == .newline) (acts.token m.memory m.token).1
    simp only [Machine.shift, act, note, hpush, Progress.ofStack?]
    exact .turn (.shift hin hout hgo hpush)
  | reduce forced hin hrow => exact reduceOrFail_does hb hne hp hrow hin forced
  | recover hkind => exact recover_does hb hp (by simp [hkind]) m.eofError

/-- **Every step that goes on is a turn.** -/
theorem step_turn (hb : t.Backed g has) (hne : g.body 0 ≠ []) (hp : t.Path m.stack.frames)
    (h : m.step t acts = .next m') : Turn t acts m m' := by
  have hdoes := step_does acts hb hne hp
  rw [h] at hdoes
  cases hdoes with
  | turn hturn => exact hturn

/-- What happened stays known. -/
theorem Turn.notes_suffix (h : Turn t acts m m') : m.notes <:+ m'.notes := by
  cases h with
  | record => exact ⟨[.take, .act .record m.stack m.token], rfl⟩
  | cancel => exact ⟨[.take, .act .cancel m.stack m.token], rfl⟩
  | discard => exact ⟨[.take, .act .discard m.stack m.token], rfl⟩
  | shift => exact ⟨[.take, .act .shift m.stack m.token], rfl⟩
  | @reduce _ verb => exact ⟨[.act verb m.stack m.token], rfl⟩
  | @resume _ _ _ _ sk =>
    refine ⟨List.replicate sk.taken .take ++ [.act .error m.stack m.token], ?_⟩
    rw [List.append_assoc]
    rfl

theorem Turn.move (h : Turn t acts m m') : Move t acts m (.next m') := by
  cases h with
  | record startsLine hkind =>
    exact .layout (hkind ▸ .record) (Stack.view_recordIndent m.stack startsLine)
  | cancel hkind => exact .layout (hkind ▸ .cancel) (Stack.view_cancelIndent t m.stack)
  | discard hkind => exact .layout (hkind ▸ .discard) (rfl : m.stack.view = _)
  | shift hin hout hgo hpush => exact .shift (.shift hin hout) hgo (Stack.view_push? hpush)
  | reduce hverb hr hne hpop hgo hpush =>
    exact .reduce hr hne hverb hpop hgo (Stack.view_push? hpush)
  | resume _ hfind hpush hskip =>
    refine .resume hfind ⟨_, _, _, hskip⟩ ?_
    rw [← Stack.view_push? hpush]
    exact Stack.view_updateTop _ rfl

/-- **Every step is a move.** -/
theorem step_move (acts : Actions σ V) (hb : t.Backed g has) (hne : g.body 0 ≠ [])
    (hp : t.Path m.stack.frames) : Move t acts m (m.step t acts) := by
  have hdoes := step_does acts hb hne hp
  generalize m.step t acts = p at hdoes
  cases hdoes with
  | turn hturn => exact hturn.move
  | accept hr hzero hpop hbody => exact .accept hr hzero hpop hbody
  | stop => exact .giveUp fun n hn => Or.inl hn
  | giveUp k hnotes =>
    refine .giveUp fun n hn => ?_
    rw [hnotes, List.mem_append, List.mem_cons] at hn
    rcases hn with hn | rfl | hn
    · rw [List.eq_of_mem_replicate hn]
      exact Or.inr trivial
    · exact Or.inr trivial
    · exact Or.inl hn

/-- No step is broken off. -/
theorem step_ne_broken (hb : t.Backed g has) (hne : g.body 0 ≠ []) (hp : t.Path m.stack.frames) :
    m.step t acts ≠ .broken m' := by
  intro h
  have hdoes := step_does acts hb hne hp
  rw [h] at hdoes
  cases hdoes

end Machine

end LayoutLR
