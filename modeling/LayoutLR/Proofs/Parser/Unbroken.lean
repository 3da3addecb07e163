/-
  Layout-aware LR toolkit — steps that do not look at line breaks.

  A step looks at one token, and where it takes the next one it does not look further; only
  skipping after an error goes on through the input, and it passes over every line break
  where none can be shifted.  So parsers in front of inputs that differ in line breaks alone
  do the same, and are then again in front of such inputs.

  * `Input.unbroken`, `Machine.unbroken`: an input without line breaks, and a parser that
    looks at the next token that is none;
  * `Machine.skip?_unbroken`: where skipping stops;
  * `Machine.moved`: a parser in front of another input;
  * `Machine.step_moved`: a step in front of another input.
-/
import LayoutLR.Proofs.Parser.Recovery

namespace LayoutLR

variable {σ V : Type}

/-! ## Inputs -/

/-- The tokens that are no line breaks. -/
def unbrokenTokens (tokens : List Token) : List Token :=
  tokens.filter fun u => u.kind != .newline

theorem unbrokenTokens_newline {u : Token} (h : u.kind = .newline) (tokens : List Token) :
    unbrokenTokens (u :: tokens) = unbrokenTokens tokens := by
  simp [unbrokenTokens, h]

theorem unbrokenTokens_of_ne {u : Token} (h : u.kind ≠ .newline) (tokens : List Token) :
    unbrokenTokens (u :: tokens) = u :: unbrokenTokens tokens := by
  simp [unbrokenTokens, h]

namespace Input

/-- The input without its line breaks. -/
def unbroken (i : Input) : Input :=
  { i with tokens := unbrokenTokens i.tokens }

/-- The input with a token in front. -/
def cons (u : Token) (i : Input) : Input :=
  { i with tokens := u :: i.tokens }

theorem unbroken_unbroken (i : Input) : i.unbroken.unbroken = i.unbroken := by
  simp [unbroken, unbrokenTokens]

theorem unbroken_cons_newline {u : Token} (h : u.kind = .newline) (i : Input) :
    (i.cons u).unbroken = i.unbroken := by
  simp [unbroken, cons, unbrokenTokens_newline h]

theorem unbroken_cons_of_ne {u : Token} (h : u.kind ≠ .newline) (i : Input) :
    (i.cons u).unbroken = i.unbroken.cons u := by
  simp [unbroken, cons, unbrokenTokens_of_ne h]

theorem unbroken_cons_congr {i j : Input} (h : i.unbroken = j.unbroken) (u : Token) :
    (i.cons u).unbroken = (j.cons u).unbroken := by
  by_cases hkind : u.kind = .newline
  · rw [unbroken_cons_newline hkind, unbroken_cons_newline hkind, h]
  · rw [unbroken_cons_of_ne hkind, unbroken_cons_of_ne hkind, h]

/-- A token may be put back: the end is met again and again. -/
theorem next_unbroken_cons (i : Input) :
    (i.next.2.cons i.next.1).unbroken.next = i.unbroken.next := by
  unfold next
  cases h : i.tokens with
  | nil => simp [unbroken, cons, h, unbrokenTokens, eof, Token.synthetic]
  | cons u rest => simp [unbroken, cons, h]

end Input

/-! ## Skipping -/

namespace Machine

section

variable {t : Table} {s : Stack V} {eof : Token}

/-- What is skipped behind a token that is dropped. -/
def skipBehind? (t : Table) (s : Stack V) (eof : Token) (indents taken : Nat) :
    List Token → Option Skipped
  | [] => some ⟨eof, [], indents, taken + 1⟩
  | next :: rest =>
    if next.kind = .outdent ∧ indents = 0 then some ⟨next, rest, indents, taken + 1⟩
    else skip? t s eof false next (openLevels indents next.kind) (taken + 1) rest

theorem skip?_eq (must : Bool) (token : Token) (indents taken : Nat) (tokens : List Token) :
    skip? t s eof must token indents taken tokens = (stopsAt? t s must token).bind fun stop =>
      if stop then some ⟨token, tokens, indents, taken⟩
      else skipBehind? t s eof indents taken tokens := by
  cases tokens with
  | nil =>
    rw [skip?]
    cases stopsAt? t s must token with
    | none => rfl
    | some stop => cases stop <;> rfl
  | cons next rest =>
    rw [skip?]
    cases stopsAt? t s must token with
    | none => rfl
    | some stop => cases stop <;> rfl

/-- Where skipping stops, without line breaks. -/
def Skipped.unbroken (sk : Skipped) : Skipped :=
  { sk with tokens := unbrokenTokens sk.tokens, taken := 0 }

/-- Line breaks are skipped where none can be shifted. -/
theorem skipBehind?_unbroken
    (hpass : ∀ u : Token, u.kind = .newline → inLookahead? t s u = some false) (tokens : List Token) :
    ∀ indents taken taken',
      (skipBehind? t s eof indents taken (unbrokenTokens tokens)).map Skipped.unbroken =
        (skipBehind? t s eof indents taken' tokens).map Skipped.unbroken := by
  induction tokens with
  | nil =>
    intro indents taken taken'
    rfl
  | cons next rest ih =>
    intro indents taken taken'
    by_cases hkind : next.kind = .newline
    · have hstop : stopsAt? t s false next = some false := by
        simp [stopsAt?, hkind, hpass next hkind]
      rw [unbrokenTokens_newline hkind, skipBehind?, if_neg (by simp [hkind]), skip?_eq, hstop, hkind]
      exact ih indents taken (taken' + 1)
    · rw [unbrokenTokens_of_ne hkind]
      simp only [skipBehind?]
      split
      · simp [Skipped.unbroken, unbrokenTokens]
      · rw [skip?_eq, skip?_eq]
        cases stopsAt? t s false next with
        | none => rfl
        | some stop =>
          cases stop with
          | true => simp [Skipped.unbroken, unbrokenTokens]
          | false => exact ih _ _ _

/-- Line breaks behind a token do not matter for where skipping stops. -/
theorem skip?_unbroken
    (hpass : ∀ u : Token, u.kind = .newline → inLookahead? t s u = some false)
    {tokens tokens' : List Token} (htokens : unbrokenTokens tokens = unbrokenTokens tokens')
    (eof : Token) (must : Bool) (token : Token) (indents : Nat) :
    (skip? t s eof must token indents 0 tokens).map Skipped.unbroken =
      (skip? t s eof must token indents 0 tokens').map Skipped.unbroken := by
  rw [skip?_eq, skip?_eq]
  cases stopsAt? t s must token with
  | none => rfl
  | some stop =>
    cases stop with
    | true => simp [Skipped.unbroken, htokens]
    | false =>
      show (skipBehind? t s eof indents 0 tokens).map _ = (skipBehind? t s eof indents 0 tokens').map _
      rw [← skipBehind?_unbroken hpass tokens indents 0, htokens,
        skipBehind?_unbroken hpass tokens' indents 0]

end

/-! ## Parsers -/

variable {g : Grammar} {t : Table} {has : Nat → Item → Prop} {acts : Actions σ V}
  {m m' k : Machine σ V} {i : Input} {taken : Nat} {notes : List (Note V)} {row : Row}

/-- The parser at the next token that is no line break, with nothing noted. -/
def unbroken (m : Machine σ V) : Machine σ V :=
  { m with
    token := (m.input.cons m.token).unbroken.next.1
    input := (m.input.cons m.token).unbroken.next.2
    taken := 0
    notes := [] }

/-- The parser in front of another input, with other things noted. -/
def moved (m : Machine σ V) (i : Input) (taken : Nat) (notes : List (Note V)) : Machine σ V :=
  { m with input := i, taken, notes }

theorem unbroken_moved (hi : i.unbroken = m.input.unbroken) :
    (m.moved i taken notes).unbroken = m.unbroken := by
  simp only [unbroken, moved, Input.unbroken_cons_congr hi]

theorem unbroken_advance (m : Machine σ V) : m.advance.unbroken =
    { m with
      token := m.input.unbroken.next.1
      input := m.input.unbroken.next.2
      taken := 0
      notes := [] } := by
  have hnext := m.input.next_unbroken_cons
  simp only [unbroken, advance, note, hnext]

theorem unbroken_advance_moved (hi : i.unbroken = m.input.unbroken) :
    (m.moved i taken notes).advance.unbroken = m.advance.unbroken := by
  simp only [unbroken_advance, moved, hi]

/-- Discarding a line break leads to the same token. -/
theorem unbroken_discard (hkind : m.token.kind = .newline) :
    (m.act .discard).advance.unbroken = m.unbroken := by
  rw [unbroken_advance, unbroken, Input.unbroken_cons_newline hkind]
  rfl

theorem unbroken_of_ne (hkind : m.token.kind ≠ .newline) :
    m.unbroken = m.moved m.input.unbroken 0 [] := by
  simp only [unbroken, moved, Input.unbroken_cons_of_ne hkind]
  rfl

theorem stack_eq_of_unbroken (h : k.unbroken = m.unbroken) : k.stack = m.stack := by
  show k.unbroken.stack = m.unbroken.stack
  rw [h]

theorem calls_eq_of_unbroken (h : k.unbroken = m.unbroken) : k.calls = m.calls := by
  show k.unbroken.calls = m.unbroken.calls
  rw [h]

theorem memory_eq_of_unbroken (h : k.unbroken = m.unbroken) : k.memory = m.memory := by
  show k.unbroken.memory = m.unbroken.memory
  rw [h]

/-- Parsers that are the same at a token that is no line break. -/
theorem eq_moved_of_unbroken (h : k.unbroken = m.unbroken) (hk : k.token.kind ≠ .newline)
    (hm : m.token.kind ≠ .newline) :
    k.input.unbroken = m.input.unbroken ∧ k = m.moved k.input k.taken k.notes := by
  rw [unbroken_of_ne hk, unbroken_of_ne hm] at h
  obtain ⟨⟩ := k
  obtain ⟨⟩ := m
  simp_all [moved]

end Machine

/-- What a step leads to, without line breaks. -/
def Progress.unbroken : Progress σ V → Progress σ V
  | .next m => .next m.unbroken
  | .done value m => .done value m.unbroken
  | .broken m => .broken m.unbroken

theorem Progress.unbroken_eq_next {p : Progress σ V} {m : Machine σ V}
    (h : p.unbroken = .next m.unbroken) : ∃ k, p = .next k ∧ k.unbroken = m.unbroken := by
  cases p with
  | next k => exact ⟨k, rfl, Progress.next.inj h⟩
  | done | broken => cases h

theorem Progress.unbroken_eq_done {p : Progress σ V} {m : Machine σ V} {value : Option V}
    (h : p.unbroken = .done value m.unbroken) :
    ∃ k, p = .done value k ∧ k.unbroken = m.unbroken := by
  cases p with
  | done value' k =>
    obtain ⟨rfl, hk⟩ := Progress.done.inj h
    exact ⟨k, rfl, hk⟩
  | next | broken => cases h

/-- What a reduction leads to, without line breaks. -/
def Machine.Reduced.unbroken : Machine.Reduced σ V → Machine.Reduced σ V
  | .pushed m => .pushed m.unbroken
  | .accepted value m => .accepted value m.unbroken
  | .failed m => .failed m.unbroken
  | .broken m => .broken m.unbroken

namespace Machine

/-! ## Steps without line breaks -/

variable {g : Grammar} {t : Table} {has : Nat → Item → Prop} {acts : Actions σ V}
  {m m' k : Machine σ V} {i : Input} {row : Row}

theorem resync_moved (hpass : ∀ u : Token, u.kind = .newline → inLookahead? t m.stack u = some false)
    (hi : i.unbroken = m.input.unbroken) (taken : Nat) (notes : List (Note V)) (indents : Nat) :
    (resync t acts (m.moved i taken notes) indents).unbroken = (resync t acts m indents).unbroken := by
  have heof : i.unbroken.eof = m.input.unbroken.eof := congrArg Input.eof hi
  have hskip := skip?_unbroken hpass (congrArg Input.tokens hi) m.input.eof
    (m.recoveredAt == some m.stack.size) m.token indents
  unfold resync
  dsimp only [moved]
  rw [show i.eof = m.input.eof from heof]
  cases hsk : skip? t m.stack m.input.eof (m.recoveredAt == some m.stack.size) m.token indents 0
      m.input.tokens with
  | none =>
    rw [hsk, Option.map_none] at hskip
    rw [Option.map_eq_none_iff.1 hskip]
    exact congrArg Progress.broken (unbroken_moved hi)
  | some sk =>
    rw [hsk] at hskip
    obtain ⟨sk', hsk', hsame⟩ := Option.map_eq_some_iff.1 hskip
    obtain ⟨token, tokens, levels, n⟩ := sk
    obtain ⟨token', tokens', levels', n'⟩ := sk'
    obtain ⟨rfl, htokens, rfl, -⟩ := Skipped.mk.inj hsame
    have hi' : ({ i with tokens := tokens' } : Input).unbroken =
        ({ m.input with tokens } : Input).unbroken := by
      unfold Input.unbroken at hi ⊢
      rw [htokens, (Input.mk.inj hi).2.1, (Input.mk.inj hi).2.2]
    -- the parser after the tokens were skipped
    let m₁ : Machine σ V := { m with
      recoveredAt := some m.stack.size
      token := token'
      input := { m.input with tokens }
      taken := m.taken + n
      notes := List.replicate n .take ++ m.notes }
    rw [hsk']
    dsimp only
    cases if token'.kind = .eof then inLookahead? t m.stack token' else some true with
    | none => exact congrArg Progress.broken (unbroken_moved (m := m₁) hi')
    | some stop =>
      cases stop with
      | false => exact congrArg (Progress.done none) (unbroken_moved (m := m₁.disposeStack acts) hi')
      | true =>
        exact congrArg Progress.next
          (unbroken_moved (m := { m₁ with stack := addIndents m.stack levels' }) hi')

theorem shift_moved (t : Table) (acts : Actions σ V) (hi : i.unbroken = m.input.unbroken)
    (taken : Nat) (notes : List (Note V)) (next : Nat) :
    (shift t acts (m.moved i taken notes) next).unbroken = (shift t acts m next).unbroken := by
  -- the parser after the call
  let m₁ : Machine σ V := { m.act .shift with
    memory := (acts.token m.memory m.token).2
    calls := m.calls + 1 }
  unfold shift
  dsimp only [act, note, moved]
  cases m.stack.push? t next m.token.kind.num 0 (m.token.kind == .newline)
      (acts.token m.memory m.token).1 with
  | none => exact congrArg Progress.broken (unbroken_moved (m := m₁) hi)
  | some stack =>
    exact congrArg Progress.next (unbroken_advance_moved
      (m := { m₁ with stack, recoveredAt := none, eofError := false }) hi)

theorem reduceBy_moved (t : Table) (acts : Actions σ V) (hi : i.unbroken = m.input.unbroken)
    (taken : Nat) (notes : List (Note V)) (r : Reduction) :
    (reduceBy t acts (m.moved i taken notes) r).unbroken = (reduceBy t acts m r).unbroken := by
  unfold reduceBy
  dsimp only [note, moved]
  cases m.stack.pop? r.size with
  | none => exact congrArg Reduced.failed (unbroken_moved hi)
  | some popped =>
    obtain ⟨popped, stack⟩ := popped
    dsimp only
    split
    · split
      · exact congrArg Reduced.failed (unbroken_moved (m := { m with stack }) hi)
      · rename_i value rest _
        exact congrArg (Reduced.accepted value) (unbroken_moved
          (m := { m with stack, memory := acts.disposeAll m.memory rest }) hi)
    -- the parser after the call
    let m₁ : Machine σ V := { m with
      stack
      memory := (acts.reduce m.memory r.prod (popped.reverse.filterMap Frame.value)).2
      calls := m.calls + 1 }
    split
    · exact congrArg Reduced.failed (unbroken_moved (m := { m₁ with memory := acts.dispose _ _ }) hi)
    · split
      · exact congrArg Reduced.broken (unbroken_moved (m := m₁) hi)
      · rename_i stack' _
        exact congrArg Reduced.pushed (unbroken_moved (m := { m₁ with stack := stack' }) hi)

/-- A reduction on a path finds its body, and pushes its head or accepts. -/
theorem reduceBy_finds (acts : Actions σ V) (hb : t.Backed g has) (hne : g.body 0 ≠ [])
    (hp : t.Path m.stack.frames) {r : Reduction} (hr : t.reduce? m.stack.top.state = some r)
    (verb : Verb) : (∃ m', reduceBy t acts (m.act verb) r = .pushed m') ∨
      ∃ value m', reduceBy t acts (m.act verb) r = .accepted value m' := by
  by_cases hzero : r.prod = 0
  · obtain ⟨_, _, _, _, -, -, haccepted⟩ := reduceBy_accepted acts hb hne hp hr hzero
    exact Or.inr ⟨_, _, haccepted verb⟩
  · obtain ⟨_, _, _, _, -, -, -, hpushed⟩ := reduceBy_pushed acts hb hp hr hzero
    exact Or.inl ⟨_, hpushed verb⟩

section

variable (hb : t.Backed g has) (hgo : ∀ q, t.goto? q Kind.newline.num = none)

include hb hgo

/-- No line break can be shifted, whatever is on the stack. -/
theorem inLookahead?_newline {s : Stack V} (hp : t.Path s.frames) {u : Token}
    (hkind : u.kind = .newline) : inLookahead? t s u = some false := by
  obtain ⟨b, hlook⟩ := inLookahead?_some hb hp u
  cases b with
  | false => exact hlook
  | true =>
    obtain ⟨q, q', hshift⟩ := exists_goto_of_canShift? hlook
    rw [hkind, hgo] at hshift
    cases hshift

variable (hp : t.Path m.stack.frames) (hi : i.unbroken = m.input.unbroken)

include hp hi

theorem recover_moved (acts : Actions σ V) (taken : Nat) (notes : List (Note V)) :
    (recover t acts (m.moved i taken notes)).unbroken = (recover t acts m).unbroken := by
  unfold recover
  dsimp only [act, note, moved]
  cases hfind : findError t [] m.stack.frames with
  | none => exact congrArg (Progress.done none) (unbroken_moved (m := { m.act .error with
      memory := _, calls := m.calls + 1 }) hi)
  | some found =>
    obtain ⟨dropped, below, next⟩ := found
    obtain ⟨top, -, hsplit, herror⟩ := findError_spec hfind
    rw [hsplit] at hp
    -- the parser with some frames less
    let m₁ : Machine σ V := { m.act .error with
      stack := below
      memory := acts.disposeAll (acts.error m.memory m.token).2 (dropped.filterMap Frame.value)
      calls := m.calls + 1 }
    dsimp only
    cases hpush : below.push? t next Kind.error.num 0 false (acts.error m.memory m.token).1 with
    | none => exact congrArg Progress.broken (unbroken_moved (m := m₁) hi)
    | some stack =>
      have hpath : t.Path stack.frames := hp.suffix.push herror (Stack.view_push? hpush)
      exact resync_moved (m := { m₁ with stack })
        (fun u hkind => inLookahead?_newline hb hgo hpath hkind) hi _ _ _

theorem fail_moved (acts : Actions σ V) (taken : Nat) (notes : List (Note V)) :
    (fail t acts (m.moved i taken notes)).unbroken = (fail t acts m).unbroken := by
  unfold fail
  have htoken : (m.moved i taken notes).token = m.token := rfl
  have heof : (m.moved i taken notes).eofError = m.eofError := rfl
  rw [htoken, heof]
  split
  · split
    · exact congrArg (Progress.done none) (unbroken_moved (m := m.disposeStack acts) hi)
    · exact recover_moved (m := { m with eofError := true }) hb hgo hp hi acts taken notes
  · exact recover_moved hb hgo hp hi acts taken notes

variable (hne : g.body 0 ≠ []) (hrow : t.row? m.stack.top.state = some row)

include hne hrow

theorem reduceOrFail_moved (acts : Actions σ V) (taken : Nat) (notes : List (Note V))
    (forced : Bool) : (reduceOrFail t acts (m.moved i taken notes) row forced).unbroken =
      (reduceOrFail t acts m row forced).unbroken := by
  unfold reduceOrFail
  cases hred : row.reduce with
  | none => exact fail_moved hb hgo hp hi acts taken notes
  | some r =>
    have hr : t.reduce? m.stack.top.state = some r := (Table.reduce?_of_row hrow).trans hred
    have htoken : (m.moved i taken notes).token = m.token := rfl
    have hstack : (m.moved i taken notes).stack = m.stack := rfl
    dsimp only
    rw [htoken, hstack, if_neg (size_lt_of_reduce hb hp hr)]
    split
    · exact fail_moved hb hgo hp hi acts taken notes
    rw [if_neg (size_lt_of_reduce hb hp hr)]
    generalize (if r.prod = 0 then Verb.accept else if forced then .force else .reduce) = verb
    have hby : (reduceBy t acts ((m.moved i taken notes).act verb) r).unbroken =
        (reduceBy t acts (m.act verb) r).unbroken :=
      reduceBy_moved t acts (m := m.act verb) hi taken (.act verb m.stack m.token :: notes) r
    rcases reduceBy_finds acts hb hne hp hr verb with ⟨m₁, hpushed⟩ | ⟨value, m₁, haccepted⟩
    · rw [hpushed] at hby ⊢
      cases hby' : reduceBy t acts ((m.moved i taken notes).act verb) r with
      | pushed m₂ =>
        rw [hby'] at hby
        exact congrArg Progress.next (Reduced.pushed.inj hby)
      | accepted | failed | broken =>
        rw [hby'] at hby
        cases hby
    · rw [haccepted] at hby ⊢
      cases hby' : reduceBy t acts ((m.moved i taken notes).act verb) r with
      | accepted value' m₂ =>
        rw [hby'] at hby
        obtain ⟨rfl, hsame⟩ := Reduced.accepted.inj hby
        exact congrArg (Progress.done (some value')) (congrArg (disposeStack acts) hsame)
      | pushed | failed | broken =>
        rw [hby'] at hby
        cases hby

theorem shiftOrReduce_moved (acts : Actions σ V) (taken : Nat) (notes : List (Note V)) :
    (shiftOrReduce t acts (m.moved i taken notes) row).unbroken =
      (shiftOrReduce t acts m row).unbroken := by
  unfold shiftOrReduce
  rw [show (m.moved i taken notes).token = m.token from rfl]
  split
  · exact shift_moved t acts hi taken notes _
  · exact reduceOrFail_moved hb hgo hp hi hne hrow acts taken notes false

theorem stepOutdent_moved (acts : Actions σ V) (taken : Nat) (notes : List (Note V)) :
    (stepOutdent t acts (m.moved i taken notes) row).unbroken =
      (stepOutdent t acts m row).unbroken := by
  unfold stepOutdent
  rw [show (m.moved i taken notes).stack = m.stack from rfl]
  dsimp only
  split
  · exact reduceOrFail_moved hb hgo hp hi hne hrow acts taken notes true
  split
  · exact congrArg Progress.next (unbroken_advance_moved
      (m := { m.act .cancel with stack := m.stack.cancelIndent t }) hi)
  · exact recover_moved hb hgo hp hi acts taken notes

theorem stepNewline_moved (acts : Actions σ V) (taken : Nat) (notes : List (Note V)) :
    (stepNewline t acts (m.moved i taken notes) row).unbroken =
      (stepNewline t acts m row).unbroken := by
  unfold stepNewline
  rw [show (m.moved i taken notes).stack = m.stack from rfl]
  dsimp only
  split
  · exact congrArg Progress.next (unbroken_advance_moved (m := m.act .discard) hi)
  split
  · exact reduceOrFail_moved hb hgo hp hi hne hrow acts taken notes true
  · exact shiftOrReduce_moved hb hgo hp hi hne hrow acts taken notes

omit hrow in
/-- **A step does not look at line breaks further on.** -/
theorem step_moved (acts : Actions σ V) (taken : Nat) (notes : List (Note V)) :
    ((m.moved i taken notes).step t acts).unbroken = (m.step t acts).unbroken := by
  unfold step
  rw [show (m.moved i taken notes).stack = m.stack from rfl,
    show (m.moved i taken notes).token = m.token from rfl]
  cases hrow : t.row? m.stack.top.state with
  | none => exact congrArg Progress.broken (unbroken_moved hi)
  | some row =>
    dsimp only
    split
    · exact congrArg Progress.next (unbroken_advance_moved
        (m := { m.act .record with stack := m.stack.recordIndent row.startsLine }) hi)
    · exact stepOutdent_moved hb hgo hp hi hne hrow acts taken notes
    · exact stepNewline_moved hb hgo hp hi hne hrow acts taken notes
    · exact shiftOrReduce_moved hb hgo hp hi hne hrow acts taken notes

end

end Machine

end LayoutLR
