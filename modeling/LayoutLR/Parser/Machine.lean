/-
  Layout-aware LR toolkit — one step of a parser.

  A parser looks at the next token and the state on top.  It shifts the token if
  there is a transition, else it reduces; it never asks whether the token may
  come after the reduction.  Levels are recorded on the frame on top and
  cancelled again by their end, a line break that means nothing here is
  discarded, and the end of a level or of a line forces reductions.  Where
  nothing fits, frames are dropped until one takes an error, and tokens until
  parsing can go on.

  * `Machine`: a parser in the middle of its work;
  * `Machine.step`: the next thing that it does;
  * `Machine.canShift?`: whether a token can be shifted after some reductions;
  * `Machine.recover`: going on after an error.
-/
import LayoutLR.Parser.Input
import LayoutLR.Parser.Stack
import LayoutLR.Total

namespace LayoutLR

variable {σ V : Type}

/-! ## Machines -/

/-- What a parser does with a token. -/
inductive Verb where
  | record
  | cancel
  | discard
  | shift
  | reduce
  /-- A reduction that the layout forces. -/
  | force
  | accept
  | error
deriving DecidableEq, Repr

/-- What happens in a parser, for those who watch. -/
inductive Note (V : Type) where
  /-- A token is taken from the input. -/
  | take
  /-- Something is about to be done with a token. -/
  | act (verb : Verb) (stack : Stack V) (token : Token)
  /-- A state reduces more frames than there are. -/
  | tooShort (state : Nat)
  /-- There is no transition on the head of a reduction. -/
  | noTransition (sym prod : Nat)

/-- A parser in the middle of its work. -/
structure Machine (σ V : Type) where
  stack : Stack V
  /-- The token that is looked at. -/
  token : Token
  input : Input
  /-- The memory of the actions. -/
  memory : σ
  /-- The number of frames after the last error, until a token is shifted. -/
  recoveredAt : Option Nat := none
  /-- Whether the last error was at the end, with nothing shifted since. -/
  eofError : Bool := false
  /-- How many values the actions were asked for. -/
  calls : Nat := 0
  /-- How many tokens were taken. -/
  taken : Nat := 0
  /-- What happened, newest first. -/
  notes : List (Note V) := []

/-- What one step leads to. -/
inductive Progress (σ V : Type) where
  /-- There is more to do. -/
  | next (m : Machine σ V)
  /-- Parsing is over, with the value of the start symbol or without. -/
  | done (value : Option V) (m : Machine σ V)
  /-- The table has no state of a number that it names. -/
  | broken (m : Machine σ V)

/-- Goes on if the state existed. -/
def Progress.ofStack? (m : Machine σ V) (f : Stack V → Progress σ V) : Option (Stack V) → Progress σ V
  | some s => f s
  | none => .broken m

namespace Machine

/-- Adds a note. -/
def note (m : Machine σ V) (n : Note V) : Machine σ V :=
  { m with notes := n :: m.notes }

/-- Notes what is done with the token. -/
def act (m : Machine σ V) (verb : Verb) : Machine σ V :=
  m.note (.act verb m.stack m.token)

/-- Takes the next token. -/
def advance (m : Machine σ V) : Machine σ V :=
  let (token, input) := m.input.next
  { m.note .take with token, input, taken := m.taken + 1 }

/-- A machine at the start of its input. -/
def start (t : Table) (memory : σ) (input : Input) : Machine σ V :=
  let (token, rest) := input.next
  { stack := .initial t, token, input := rest, memory, taken := 1, notes := [.take] }

/-- Gives the values on the stack up. -/
def disposeStack (acts : Actions σ V) (m : Machine σ V) : Machine σ V :=
  { m with memory := acts.disposeAll m.memory m.stack.values }

/-! ## Line boundaries -/

/-- Whether a token stands at the end of a line. -/
def endsLine (t : Token) : Bool :=
  t.kind == .newline || t.kind == .eof || t.kind == .outdent

/-- Whether the frame on top ends with the start of a line. -/
def atLineStart (s : Stack V) : Bool :=
  s.top.indents == 0 && s.top.sinceNewline == 0

/-- Whether a reduction that has to end at a line boundary may happen before a token. -/
def mayReduce (r : Reduction) (token : Token) (lineStart : Bool) : Bool :=
  !r.newlineOnly || endsLine token || lineStart

/-! ## Looking ahead -/

/-- Whether the token can be shifted after at most `steps` reductions, on a stack of states
    from the top down; `none` if the table has no such state.  Only the real top of the
    stack can be at the start of a line. -/
def canShift? (t : Table) (token : Token) : (steps : Nat) → (lineStart : Bool) → List Nat → Option Bool
  | 0, _, _ => some false
  | _ + 1, _, [] => some false
  | n + 1, lineStart, top :: below => do
    let row ← t.row? top
    if (row.goto? token.kind.num).isSome then return true
    match row.reduce with
    | none => return false
    | some r =>
      if (top :: below).length ≤ r.size || !mayReduce r token lineStart then return false
      match (top :: below).drop r.size with
      | [] => return false
      | state :: rest =>
        let row ← t.row? state
        match row.goto? r.sym with
        | none => return false
        | some next => canShift? t token n false (next :: state :: rest)

/-- Whether the token can be shifted on a stack, possibly after reductions. -/
def inLookahead? (t : Table) (s : Stack V) (token : Token) : Option Bool :=
  canShift? t token (t.rows.size + s.size) (atLineStart s) (s.frames.map Frame.state)

/-! ## Recovery -/

/-- The frames that are dropped before one has a transition on the error symbol, from the
    top down, with the frame and the state that it leads to; `none` if there is no such
    frame. -/
def findError (t : Table) : List (Frame V) → List (Frame V) → Option (List (Frame V) × Stack V × Nat)
  | _, [] => none
  | dropped, f :: below =>
    match (t.row? f.state).bind fun row => row.goto? Kind.error.num with
    | some next => some (dropped.reverse, ⟨f, below⟩, next)
    | none => findError t (f :: dropped) below

/-- The token and the input after skipping, the levels that stay open, and the number of
    tokens taken. -/
structure Skipped where
  token : Token
  tokens : List Token
  indents : Nat
  taken : Nat

/-- Whether skipping stops at a token: at the end, or if it can be shifted and need not be
    dropped. -/
def stopsAt? (t : Table) (s : Stack V) (must : Bool) (token : Token) : Option Bool :=
  if token.kind = .eof then some true
  else if must then some false
  else inLookahead? t s token

/-- The levels that are open after a token. -/
def openLevels (indents : Nat) : Kind → Nat
  | .indent => indents + 1
  | .outdent => indents - 1
  | _ => indents

/-- Skips tokens until one can be shifted, the end is reached, or the end of a level comes
    that was not opened here; `must` drops the first token in any case. -/
def skip? (t : Table) (s : Stack V) (eof : Token) (must : Bool) (token : Token)
    (indents taken : Nat) : List Token → Option Skipped
  | [] =>
    (stopsAt? t s must token).map fun stop =>
      if stop then ⟨token, [], indents, taken⟩ else ⟨eof, [], indents, taken + 1⟩
  | next :: rest =>
    match stopsAt? t s must token with
    | none => none
    | some true => some ⟨token, next :: rest, indents, taken⟩
    | some false =>
      if next.kind = .outdent ∧ indents = 0 then some ⟨next, rest, indents, taken + 1⟩
      else skip? t s eof false next (openLevels indents next.kind) (taken + 1) rest

/-- Adds levels that were skipped to the frame on top. -/
def addIndents (s : Stack V) (indents : Nat) : Stack V :=
  s.updateTop fun f =>
    let total := f.indents + indents
    { f with indents := total, sinceIndent := if 0 < total then 0 else f.sinceIndent }

/-- Skips tokens after an error was pushed, `indents` levels having been open in the frames
    that were dropped. -/
def resync (t : Table) (acts : Actions σ V) (m : Machine σ V) (indents : Nat) : Progress σ V :=
  let depth := m.stack.size
  match skip? t m.stack m.input.eof (m.recoveredAt == some depth) m.token indents 0 m.input.tokens with
  | none => .broken m
  | some sk =>
    let m := { m with
      recoveredAt := some depth
      token := sk.token
      input := { m.input with tokens := sk.tokens }
      taken := m.taken + sk.taken
      notes := List.replicate sk.taken .take ++ m.notes }
    match if sk.token.kind = .eof then inLookahead? t m.stack sk.token else some true with
    | none => .broken m
    | some false => .done none (m.disposeStack acts)
    | some true => .next { m with stack := addIndents m.stack sk.indents }

/-- Goes on after an error at the token: drops frames until one has a transition on the
    error symbol, and then tokens. -/
def recover (t : Table) (acts : Actions σ V) (m : Machine σ V) : Progress σ V :=
  let m := m.act .error
  let (value, memory) := acts.error m.memory m.token
  let m := { m with memory, calls := m.calls + 1 }
  match findError t [] m.stack.frames with
  | none =>
    -- the frames above the bottom go first, then the error, then the bottom
    let dropped := m.stack.frames.dropLast.filterMap Frame.value
    let bottom := (m.stack.frames.getLast?.bind Frame.value).toList
    .done none { m with memory := acts.disposeAll m.memory (dropped ++ value :: bottom) }
  | some (dropped, stack, next) =>
    let m := { m with
      stack
      memory := acts.disposeAll m.memory (dropped.filterMap Frame.value) }
    .ofStack? m (fun stack => resync t acts { m with stack } (total (dropped.map Frame.indents)))
      (stack.push? t next Kind.error.num 0 false value)

/-! ## Shifting and reducing -/

/-- Shifts the token. -/
def shift (t : Table) (acts : Actions σ V) (m : Machine σ V) (next : Nat) : Progress σ V :=
  let m := m.act .shift
  let (value, memory) := acts.token m.memory m.token
  let m := { m with memory, calls := m.calls + 1 }
  .ofStack? m (fun stack => .next ({ m with stack, recoveredAt := none, eofError := false }.advance))
    (m.stack.push? t next m.token.kind.num 0 (m.token.kind == .newline) value)

/-- What a reduction leads to. -/
inductive Reduced (σ V : Type) where
  /-- The head was pushed. -/
  | pushed (m : Machine σ V)
  /-- The start production was reduced. -/
  | accepted (value : V) (m : Machine σ V)
  /-- There is no way to go on but with an error. -/
  | failed (m : Machine σ V)
  /-- The table has no state of a number that it names. -/
  | broken (m : Machine σ V)

/-- Reduces. -/
def reduceBy (t : Table) (acts : Actions σ V) (m : Machine σ V) (r : Reduction) : Reduced σ V :=
  match m.stack.pop? r.size with
  | none => .failed m
  | some (popped, stack) =>
    let body := popped.reverse.filterMap Frame.value
    let m := { m with stack }
    if r.prod = 0 then
      match body with
      | [] => .failed m
      | value :: rest => .accepted value { m with memory := acts.disposeAll m.memory rest }
    else
      let (value, memory) := acts.reduce m.memory r.prod body
      let m := { m with memory, calls := m.calls + 1 }
      match (t.row? stack.top.state).bind fun row => row.goto? r.sym with
      | none =>
        .failed { m.note (.noTransition r.sym r.prod) with memory := acts.dispose m.memory value }
      | some next =>
        let indents := total (popped.map Frame.indents)
        let startsLine := popped.any fun f => f.sinceNewline == 0
        match stack.push? t next r.sym indents startsLine value with
        | none => .broken m
        | some stack => .pushed { m with stack }

/-- Nothing fits the token: an error, or the end if the last error was at the end too. -/
def fail (t : Table) (acts : Actions σ V) (m : Machine σ V) : Progress σ V :=
  if m.token.kind = .eof then
    if m.eofError then .done none (m.disposeStack acts)
    else recover t acts { m with eofError := true }
  else recover t acts m

/-- Reduces if the state on top can, else fails; `forced` if the layout asks for it. -/
def reduceOrFail (t : Table) (acts : Actions σ V) (m : Machine σ V) (row : Row) (forced : Bool) :
    Progress σ V :=
  match row.reduce with
  | none => fail t acts m
  | some r =>
    if !mayReduce r m.token (atLineStart m.stack) then fail t acts m
    else if m.stack.size ≤ r.size then fail t acts (m.note (.tooShort m.stack.top.state))
    else
      let verb : Verb := if r.prod = 0 then .accept else if forced then .force else .reduce
      match reduceBy t acts (m.act verb) r with
      | .pushed m => .next m
      | .accepted value m => .done (some value) (m.disposeStack acts)
      | .failed m => fail t acts m
      | .broken m => .broken m

/-! ## Steps -/

/-- Whether the end of a line forces a reduction: more than one frame since the line
    started, and the body is among them. -/
def lineForces (row : Row) (top : Frame V) : Bool :=
  match row.reduce with
  | some r => decide (1 < top.sinceNewline) && decide (r.size ≤ top.sinceNewline)
  | none => false

/-- Whether a state can reduce inside the last open level. -/
def reducesInside (row : Row) (top : Frame V) : Bool :=
  match row.reduce with
  | some r => decide (r.size ≤ top.sinceIndent)
  | none => false

/-- Shifts if there is a transition on the token, else reduces. -/
def shiftOrReduce (t : Table) (acts : Actions σ V) (m : Machine σ V) (row : Row) : Progress σ V :=
  match row.goto? m.token.kind.num with
  | some next => shift t acts m next
  | none => reduceOrFail t acts m row false

/-- The end of a level: a reduction inside the level, else the level is cancelled, else an
    error. -/
def stepOutdent (t : Table) (acts : Actions σ V) (m : Machine σ V) (row : Row) : Progress σ V :=
  let top := m.stack.top
  if reducesInside row top then reduceOrFail t acts m row true
  else if decide (top.sinceIndent ≤ row.minPrefix) && m.stack.canCancelIndent then
    let m := m.act .cancel
    .next { m with stack := m.stack.cancelIndent t }.advance
  else recover t acts m

/-- The end of a line. -/
def stepNewline (t : Table) (acts : Actions σ V) (m : Machine σ V) (row : Row) : Progress σ V :=
  let top := m.stack.top
  if !top.newlinePermitted then .next (m.act .discard).advance
  else if lineForces row top then reduceOrFail t acts m row true
  else shiftOrReduce t acts m row

/-- The next thing that a parser does. -/
def step (t : Table) (acts : Actions σ V) (m : Machine σ V) : Progress σ V :=
  match t.row? m.stack.top.state with
  | none => .broken m
  | some row =>
    match m.token.kind with
    | .indent =>
      let m := m.act .record
      .next { m with stack := m.stack.recordIndent row.startsLine }.advance
    | .outdent => stepOutdent t acts m row
    | .newline => stepNewline t acts m row
    | _ => shiftOrReduce t acts m row

end Machine

end LayoutLR
