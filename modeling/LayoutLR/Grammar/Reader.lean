/-
  Layout-aware LR toolkit — reading a grammar.

  A grammar is written one statement a line: productions `Head -> symbols`, lines
  `| symbols` that go on with the last head, and lines that start with `$` for
  value types and precedences.  Action code stands between `${` and `}$` at the
  end of an alternative and is taken as raw text.  A statement that fails is
  skipped up to the end of its line, and reading goes on below.

  * `Source`: the tokens, with one that may have been put back, and the calls to it so far;
  * `readBody`, `readAlternatives`, `readDirective`: the statements;
  * `readStatements`: all statements up to the end;
  * `Grammar.read`: the grammar, or everything that is wrong with it.
-/
import LayoutLR.Grammar.Draft
import LayoutLR.Token.Scanner

namespace LayoutLR

/-! ## Tokens of a grammar -/

/-- The known marks of grammars. -/
def grammarMarks : Array (List Char) :=
  #[['$'], ['$', '$'], ['$', '*'], ['$', '\x7b'], ['-', '>'], ['|']]

/-- `$`, which starts a declaration. -/
@[match_pattern]
def Kind.dollar : Kind := .reserved 0

/-- `$$`, which marks a precedence or a boundary. -/
@[match_pattern]
def Kind.dollars : Kind := .reserved 1

/-- `$*`, which starts the declaration of a plain type. -/
@[match_pattern]
def Kind.dollarStar : Kind := .reserved 2

/-- The mark that opens action code. -/
@[match_pattern]
def Kind.openAction : Kind := .reserved 3

/-- `->`, which stands after a head. -/
@[match_pattern]
def Kind.arrow : Kind := .reserved 4

/-- `|`, which stands between alternatives. -/
@[match_pattern]
def Kind.bar : Kind := .reserved 5

/-- How grammars are cut into tokens: comments and levels are of no concern. -/
def grammarConfig : Config where
  ignored := { Ignored.comments with indent := true, outdent := true }
  known := grammarMarks

/-- A token in an error. -/
def Token.describe (t : Token) : String :=
  match t.kind with
  | .newline => "end of line"
  | .eof => "end of input"
  | _ => s!"`{String.ofList t.text}`"

/-- The text between the quotes of a string. -/
def unquote (text : List Char) : List Char :=
  if 2 ≤ text.length then (text.drop 1).dropLast else text

/-- What is odd about a grammar that can still be read. -/
inductive GrammarWarning where
  /-- A line is nested deeper than can be tracked. -/
  | tooDeep (line : Nat)
  /-- A mark names no symbol with a precedence. -/
  | noPrecedence (line : Nat) (name : String)
deriving DecidableEq, Repr

/-- The wording of a warning. -/
def GrammarWarning.message : GrammarWarning → String
  | tooDeep line => Scanner.warning line
  | noPrecedence line name =>
    s!"line {line}: `$${name}` does not name a symbol with a precedence, ignored"

/-! ## Sources -/

/-- A call of the reader: for the next token, to put a token back, or for raw text. -/
inductive ReaderCall where
  | next
  | unread (t : Token)
  | raw (marker : List Char)

/-- A scanner with room for one token that was put back. -/
structure Source where
  scanner : Scanner
  pending : Option Token := none
  /-- The warnings so far, newest first. -/
  warnings : List GrammarWarning := []
  /-- The calls so far, newest first. -/
  calls : List ReaderCall := []

namespace Source

/-- The next token. -/
def next (s : Source) : Token × Source :=
  match s.pending with
  | some t => (t, { s with pending := none, calls := .next :: s.calls })
  | none =>
    let (t, scanner) := s.scanner.nextToken
    (t, { scanner := { scanner with tooDeep := [] }, pending := none,
          warnings := scanner.tooDeep.map .tooDeep ++ s.warnings, calls := .next :: s.calls })

/-- Puts a token back. -/
def unread (s : Source) (t : Token) : Source :=
  { s with pending := some t, calls := .unread t :: s.calls }

/-- Adds a warning. -/
def warn (s : Source) (w : GrammarWarning) : Source :=
  { s with warnings := w :: s.warnings }

/-- The raw text up to a marker, if there is the marker. -/
def takeUntil (s : Source) (marker : List Char) : Option (List Char) × Source :=
  let asked : Source := { s with calls := .raw marker :: s.calls }
  match s.scanner.takeUntil? marker with
  | some (text, scanner) => (some text, { asked with scanner })
  | none => (none, asked)

/-- The weight of a token that was put back; the one at the end weighs nothing. -/
def pendingWeight : Option Token → Nat
  | some t => if t.kind = .eof then 0 else 1
  | none => 0

/-- A bound on the tokens that are left. -/
def weight (s : Source) : Nat :=
  2 * s.scanner.weight + pendingWeight s.pending

/-- Reading a token makes the source lighter, by enough to put it back, until the end. -/
theorem next_weight (s : Source) :
    s.next.2.weight + pendingWeight (some s.next.1) ≤ s.weight := by
  unfold next
  split
  · rename_i t h
    simp [weight, h, pendingWeight]
  · rename_i h
    have hl := s.scanner.nextToken_lighter
    have hw : ({ s.scanner.nextToken.2 with tooDeep := [] } : Scanner).weight =
      s.scanner.nextToken.2.weight := rfl
    simp only [weight, hw, h, pendingWeight]
    rcases hl with hl | ⟨he, hl⟩
    · split <;> omega
    · simp only [he, if_true]
      omega

theorem next_weight_lt {s : Source} (h : s.next.1.kind ≠ .eof) : s.next.2.weight < s.weight := by
  have := next_weight s
  simp only [pendingWeight, h, if_false] at this
  omega

theorem next_weight_le (s : Source) : s.next.2.weight ≤ s.weight := by
  have := next_weight s
  omega

theorem unread_weight_le (s : Source) (t : Token) :
    (s.unread t).weight ≤ s.weight + pendingWeight (some t) := by
  simp only [unread, weight]
  omega

/-- Putting a token back that was just read leaves the source no heavier. -/
theorem unread_next_weight_le (s : Source) : (s.next.2.unread s.next.1).weight ≤ s.weight :=
  Nat.le_trans (unread_weight_le ..) (next_weight s)

theorem takeUntil_weight_le (s : Source) (marker : List Char) :
    (s.takeUntil marker).2.weight ≤ s.weight := by
  unfold takeUntil
  dsimp only
  split
  · rename_i h
    have := Scanner.takeUntil?_weight_le h
    simp only [weight]
    omega
  · exact Nat.le_refl _

/-- The line of the token that comes next. -/
def peekLine (s : Source) : Nat × Source :=
  let (t, s₁) := s.next
  (t.line, s₁.unread t)

theorem peekLine_weight_le (s : Source) : s.peekLine.2.weight ≤ s.weight :=
  unread_next_weight_le s

/-- Goes behind the end of the current line. -/
def skipLine (s : Source) : Source :=
  let r := s.next
  if r.1.kind = .newline then r.2
  else if _e : r.1.kind = .eof then r.2.unread r.1
  else r.2.skipLine
termination_by s.weight
decreasing_by exact next_weight_lt _e

theorem skipLine_weight_le (s : Source) : s.skipLine.weight ≤ s.weight := by
  fun_induction skipLine s with
  | case1 s => exact s.next_weight_le
  | case2 s => exact s.unread_next_weight_le
  | case3 s _ _ _ ih => exact Nat.le_trans ih s.next_weight_le

theorem skipLine_weight_lt {s : Source} (h : s.next.1.kind ≠ .eof) : s.skipLine.weight < s.weight := by
  have hl := next_weight_lt h
  rw [skipLine, dif_neg h]
  split
  · exact hl
  · exact Nat.lt_of_le_of_lt (skipLine_weight_le _) hl

end Source

/-! ## Statements -/

/-- What reading a part of a statement gives: a failure or a result, and where to go on. -/
structure Outcome (α : Type) where
  result : Except GrammarError α
  draft : Draft
  source : Source

/-- The failure at a token that does not fit; the token is put back. -/
def Outcome.unexpected {α : Type} (d : Draft) (s : Source) (t : Token) (expected : String) :
    Outcome α :=
  ⟨.error (.unexpected t.line expected t.describe), d, s.unread t⟩

/-- An alternative as far as it was read. -/
structure Alternative where
  /-- The symbols of the body, last first. -/
  symbols : List Nat := []
  precedence : Option Precedence := none
  boundary : Boundary := .anywhere
  action : Option (List Char) := none
  actionLine : Nat := 0

/-- The name that a token gives to a symbol. -/
def Token.symbolName (t : Token) : String :=
  String.ofList (if t.kind = .string then unquote t.text else t.text)

/-- The mark after `$$`: a boundary, or the name of a symbol whose precedence counts. -/
def Alternative.mark (b : Alternative) (d : Draft) (s : Source) (name : String) (line : Nat) :
    Alternative × Source :=
  if name = "NEWLINE" then ({ b with boundary := .newline }, s)
  else if name = "OUT" then ({ b with boundary := .outdent }, s)
  else
    let precedence := d.precedenceOf name
    ({ b with precedence },
      if precedence.isSome then s else s.warn (.noPrecedence line name))

theorem Alternative.mark_weight (b : Alternative) (d : Draft) (s : Source) (name : String)
    (line : Nat) : (b.mark d s name line).2.weight = s.weight := by
  unfold mark
  split
  · rfl
  · split
    · rfl
    · dsimp only
      split <;> rfl

/-- The end of an alternative after its action code, and whether another one follows. -/
def readEnd (d : Draft) (s : Source) (b : Alternative) : Outcome (Alternative × Bool) :=
  let (t, s₁) := s.next
  if t.kind = .newline ∨ t.kind = .eof then ⟨.ok (b, false), d, s₁.unread t⟩
  else if t.kind = .bar then ⟨.ok (b, true), d, s₁⟩
  else .unexpected d s₁ t "end of line after action code"

/-- Where reading an alternative stands after one more token. -/
inductive BodyStep where
  /-- The alternative is complete, or it failed. -/
  | done (o : Outcome (Alternative × Bool))
  /-- There is more of it. -/
  | more (d : Draft) (s : Source) (b : Alternative)

/-- Takes a symbol into an alternative. -/
def BodyStep.ofEffect (s : Source) (b : Alternative) : Draft.Effect Nat → BodyStep
  | (.error e, d) => .done ⟨.error e, d, s⟩
  | (.ok i, d) => .more d s { b with symbols := i :: b.symbols }

/-- Reads on after `$$`. -/
def readMark (d : Draft) (s : Source) (b : Alternative) : BodyStep :=
  let (t, s₁) := s.next
  if t.kind = .word ∨ t.kind = .mark ∨ t.kind = .string then
    let (b', s₂) := b.mark d s₁ t.symbolName t.line
    .more d s₂ b'
  else .done (.unexpected d s₁ t "a symbol name after `$$`")

/-- Reads action code that starts at the given line. -/
def readAction (d : Draft) (s : Source) (b : Alternative) (line : Nat) :
    Outcome (Alternative × Bool) :=
  match s.takeUntil ['\x7d', '$'] with
  | (none, s₁) => ⟨.error (.unterminatedAction line), d, s₁⟩
  | (some code, s₁) => readEnd d s₁ { b with action := some code, actionLine := line }

/-- Reads one more token of an alternative. -/
def bodyStep (d : Draft) (s : Source) (b : Alternative) : BodyStep :=
  let (t, s₁) := s.next
  match t.kind with
  | .newline | .eof => .done ⟨.ok (b, false), d, s₁.unread t⟩
  | .bar => .done ⟨.ok (b, true), d, s₁⟩
  | .word => .ofEffect s₁ b (d.bodySymbol t.symbolName t.line)
  | .string | .mark => .ofEffect s₁ b (d.literal t.symbolName t.line)
  | .dollars => readMark d s₁ b
  | .openAction => .done (readAction d s₁ b t.line)
  | _ => .done (.unexpected d s₁ t "a symbol")

/-- A step leaves the source lighter than `w` if it goes on; at the end the source is no
    heavier, and lighter if a bar follows. -/
def BodyStep.Lighter (w : Nat) : BodyStep → Prop
  | .done o => o.source.weight ≤ w ∧ ∀ b, o.result = .ok (b, true) → o.source.weight < w
  | .more _ s _ => s.weight < w

theorem BodyStep.Lighter.mono {v w : Nat} {r : BodyStep} (h : r.Lighter v) (hvw : v ≤ w) :
    r.Lighter w := by
  cases r with
  | done o => exact ⟨Nat.le_trans h.1 hvw, fun b hb => Nat.lt_of_lt_of_le (h.2 b hb) hvw⟩
  | more d s b => exact Nat.lt_of_lt_of_le h hvw

theorem readEnd_lighter (d : Draft) (s : Source) (b : Alternative) :
    (BodyStep.done (readEnd d s b)).Lighter s.weight := by
  have hu := Source.unread_next_weight_le s
  unfold readEnd
  dsimp only
  split
  · exact ⟨hu, by simp⟩
  · rename_i hk
    have hl := Source.next_weight_lt (s := s) fun e => hk (.inr e)
    split
    · exact ⟨Nat.le_of_lt hl, fun _ _ => hl⟩
    · exact ⟨hu, by simp [Outcome.unexpected]⟩

theorem readAction_lighter (d : Draft) (s : Source) (b : Alternative) (line : Nat) :
    (BodyStep.done (readAction d s b line)).Lighter s.weight := by
  have hw := s.takeUntil_weight_le ['\x7d', '$']
  unfold readAction
  split <;> rename_i h <;> rw [h] at hw
  · exact ⟨hw, by simp⟩
  · exact (readEnd_lighter ..).mono hw

theorem readMark_lighter (d : Draft) (s : Source) (b : Alternative) :
    (readMark d s b).Lighter s.weight := by
  unfold readMark
  dsimp only
  split
  · rename_i hk
    have hl := Source.next_weight_lt (s := s) (by rintro e; simp [e] at hk)
    have hm := b.mark_weight d s.next.2 s.next.1.symbolName s.next.1.line
    simp only [BodyStep.Lighter, hm]
    exact hl
  · exact ⟨Source.unread_next_weight_le s, by simp [Outcome.unexpected]⟩

theorem ofEffect_lighter {w : Nat} {s : Source} (b : Alternative) (e : Draft.Effect Nat)
    (h : s.weight < w) : (BodyStep.ofEffect s b e).Lighter w := by
  unfold BodyStep.ofEffect
  split
  · exact ⟨Nat.le_of_lt h, by simp⟩
  · exact h

/-- Reading a token of an alternative makes the source lighter. -/
theorem bodyStep_lighter (d : Draft) (s : Source) (b : Alternative) :
    (bodyStep d s b).Lighter s.weight := by
  have hu := Source.unread_next_weight_le s
  have hl := Source.next_weight_lt (s := s)
  unfold bodyStep
  dsimp only
  split <;> rename_i hk
  · exact ⟨hu, by simp⟩
  · exact ⟨hu, by simp⟩
  · have hl := hl (by simp [hk])
    exact ⟨Nat.le_of_lt hl, fun _ _ => hl⟩
  · exact ofEffect_lighter _ _ (hl (by simp [hk]))
  · exact ofEffect_lighter _ _ (hl (by simp [hk]))
  · exact ofEffect_lighter _ _ (hl (by simp [hk]))
  · exact (readMark_lighter ..).mono (Nat.le_of_lt (hl (by simp [hk])))
  · exact (readAction_lighter ..).mono (Nat.le_of_lt (hl (by simp [hk])))
  · exact ⟨hu, by simp [Outcome.unexpected]⟩

/-- Reads the rest of an alternative, and tells whether another one follows on the line. -/
def readBody (d : Draft) (s : Source) (b : Alternative) : Outcome (Alternative × Bool) :=
  match _h : bodyStep d s b with
  | .done o => o
  | .more d' s' b' => readBody d' s' b'
termination_by s.weight
decreasing_by
  have h := bodyStep_lighter d s b
  rwa [_h] at h

theorem readBody_lighter (d : Draft) (s : Source) (b : Alternative) :
    (BodyStep.done (readBody d s b)).Lighter s.weight := by
  fun_induction readBody d s b with
  | case1 d s b o h =>
    have hl := bodyStep_lighter d s b
    rwa [h] at hl
  | case2 d s b d' s' b' h ih =>
    have hl := bodyStep_lighter d s b
    rw [h] at hl
    exact ih.mono (Nat.le_of_lt hl)

/-- The production of an alternative. -/
def Alternative.production (b : Alternative) (d : Draft) (head line : Nat) : Production :=
  let body := b.symbols.reverse
  { head, body, precedence := b.precedence.or (d.bodyPrecedence body), action := b.action,
    actionLine := b.actionLine, boundary := b.boundary, line }

/-- Reads the alternatives of a head up to the end of the line. -/
def readAlternatives (d : Draft) (s : Source) (head : Nat) : Outcome Unit :=
  let line := s.peekLine.1
  let o := readBody d s.peekLine.2 {}
  match _h : o.result with
  | .error e => ⟨.error e, o.draft, o.source⟩
  | .ok (b, more) =>
    let d' := { o.draft with productions := o.draft.productions.push (b.production o.draft head line) }
    if _m : more = true then readAlternatives d' o.source head else ⟨.ok (), d', o.source⟩
termination_by s.weight
decreasing_by
  have hl := readBody_lighter d s.peekLine.2 {}
  have hp := s.peekLine_weight_le
  exact Nat.lt_of_lt_of_le (hl.2 b (_m ▸ _h)) hp

theorem readAlternatives_weight_le (d : Draft) (s : Source) (head : Nat) :
    (readAlternatives d s head).source.weight ≤ s.weight := by
  have hb (d : Draft) (s : Source) : (readBody d s.peekLine.2 {}).source.weight ≤ s.weight :=
    Nat.le_trans (readBody_lighter d s.peekLine.2 {}).1 s.peekLine_weight_le
  fun_induction readAlternatives d s head with
  | case1 d s o e h => exact hb d s
  | case2 d s line o b d' h ih => exact Nat.le_trans ih (hb d s)
  | case3 d s line o b more h d' m => exact hb d s

/-- Reads a production: the arrow after its head, then the alternatives. -/
def readProduction (d : Draft) (s : Source) (headToken : Token) : Outcome Unit :=
  match d.defineHead (String.ofList headToken.text) headToken.line with
  | (.error e, d) => ⟨.error e, d, s⟩
  | (.ok head, d) =>
    let (t, s₁) := s.next
    if t.kind = .arrow then
      readAlternatives { d with head := some head, firstHead := d.firstHead.or (some head) } s₁ head
    else .unexpected d s₁ t "`->`"

theorem readProduction_weight_le (d : Draft) (s : Source) (t : Token) :
    (readProduction d s t).source.weight ≤ s.weight := by
  unfold readProduction
  split
  · exact Nat.le_refl _
  · dsimp only
    split
    · exact Nat.le_trans (readAlternatives_weight_le ..) s.next_weight_le
    · exact s.unread_next_weight_le

/-! ## Declarations -/

/-- Whether a token may stand in a declaration. -/
def Kind.isDeclared : Kind → Bool
  | .word | .mark | .string | .reserved _ => true
  | _ => false

/-- Reads the tokens of a declaration; `words` are those before, last first. -/
def readWords (s : Source) (words : List Token) : Except GrammarError (List Token) × Source :=
  let r := s.next
  if r.1.kind = .newline ∨ r.1.kind = .eof then (.ok words.reverse, r.2.unread r.1)
  else if _d : r.1.kind.isDeclared then readWords r.2 (r.1 :: words)
  else
    (.error (.unexpected r.1.line "a type name or a symbol" r.1.describe), r.2.unread r.1)
termination_by s.weight
decreasing_by
  exact Source.next_weight_lt fun e => by simp [r, e, Kind.isDeclared] at _d

theorem readWords_weight_le (s : Source) (words : List Token) :
    (readWords s words).2.weight ≤ s.weight := by
  fun_induction readWords s words with
  | case1 s => exact s.unread_next_weight_le
  | case2 s _ _ _ _ ih => exact Nat.le_trans ih s.next_weight_le
  | case3 s => exact s.unread_next_weight_le

/-- The words of a type, with a space between two neighbouring names. -/
def typeText : List Token → List Char
  | [] => []
  | [t] => t.text
  | t :: u :: rest =>
    t.text ++ (if t.kind = .word ∧ u.kind = .word then [' '] else []) ++ typeText (u :: rest)

/-- Declares the precedence of the given symbols, up to the first that cannot have it. -/
def declareAll (d : Draft) (p : Precedence) : List Token → Draft.Effect Unit
  | [] => (.ok (), d)
  | t :: rest =>
    let kind := if t.kind = .word then SymbolKind.virtual else .terminal
    match d.declare p t.symbolName kind t.line with
    | (.error e, d) => (.error e, d)
    | (.ok (), d) => declareAll d p rest

/-- A precedence declaration; each starts a new level above the ones before. -/
def declarePrecedence (d : Draft) (assoc : Assoc) (line : Nat) (words : List Token) :
    Draft.Effect Unit :=
  if words.isEmpty then (.error (.emptyDeclaration line assoc), d)
  else declareAll { d with level := d.level + 1 } ⟨d.level + 1, assoc⟩ words

/-- What a declaration with at least one word says: a precedence, that heads have no type,
    or the type of the heads that follow. -/
def declareWords (d : Draft) (plain : Bool) (first : Token) (rest : List Token) :
    Draft.Effect Unit :=
  let word := if plain = false ∧ first.kind = .word then String.ofList first.text else ""
  match Assoc.ofKeyword? word with
  | some assoc => declarePrecedence d assoc first.line rest
  | none =>
    if word = "void" ∧ rest.isEmpty = true then (.ok (), { d with valueType := none })
    else
      let text := String.ofList (typeText (first :: rest))
      (.ok (), { d with valueType := some (if plain then .plain text else .boxed text) })

/-- A declaration says the type of heads, or it gives symbols a precedence, one level above the
    ones before. -/
theorem declareWords_cases (d : Draft) (plain : Bool) (first : Token) (rest : List Token) :
    (∃ type, declareWords d plain first rest = (.ok (), { d with valueType := type })) ∨
    (∃ assoc, declareWords d plain first rest =
      (.error (.emptyDeclaration first.line assoc), d)) ∨
    ∃ assoc, declareWords d plain first rest =
      declareAll { d with level := d.level + 1 } ⟨d.level + 1, assoc⟩ rest := by
  unfold declareWords
  dsimp only
  generalize (if plain = false ∧ first.kind = .word then String.ofList first.text else "") = word
  cases Assoc.ofKeyword? word with
  | some assoc =>
    dsimp only [declarePrecedence]
    split
    · exact Or.inr (Or.inl ⟨assoc, rfl⟩)
    · exact Or.inr (Or.inr ⟨assoc, rfl⟩)
  | none =>
    dsimp only
    split
    · exact Or.inl ⟨_, rfl⟩
    · exact Or.inl ⟨_, rfl⟩

/-- Reads a declaration. -/
def readDirective (d : Draft) (s : Source) (plain : Bool) : Outcome Unit :=
  match readWords s [] with
  | (.error e, s₁) => ⟨.error e, d, s₁⟩
  | (.ok [], s₁) =>
    let (t, s₂) := s₁.next
    .unexpected d s₂ t "a type name or an associativity"
  | (.ok (first :: rest), s₁) =>
    let (result, d) := declareWords d plain first rest
    ⟨result, d, s₁⟩

theorem readDirective_weight_le (d : Draft) (s : Source) (plain : Bool) :
    (readDirective d s plain).source.weight ≤ s.weight := by
  have h := readWords_weight_le s []
  unfold readDirective
  split <;> rename_i e <;> rw [e] at h
  · exact h
  · exact Nat.le_trans (Source.unread_next_weight_le _) h
  · exact h

/-! ## Grammars -/

/-- Reads the statement that starts with the given token, which was just read. -/
def readStatement (d : Draft) (s : Source) (t : Token) : Outcome Unit :=
  match t.kind with
  | .dollar => readDirective d s false
  | .dollarStar => readDirective d s true
  | .bar =>
    match d.head with
    | some head => readAlternatives d s head
    | none => ⟨.error (.strayBar t.line), d, s⟩
  | .word => readProduction d s t
  | _ => .unexpected d s t "a production or a `$` directive"

/-- Whether a statement may start with a token. -/
def Kind.Opens (k : Kind) : Prop :=
  k = .dollar ∨ k = .dollarStar ∨ k = .bar ∨ k = .word

instance : DecidablePred Kind.Opens := fun _ => inferInstanceAs (Decidable (_ ∨ _))

/-- At another token, no statement starts. -/
theorem readStatement_of_not_opens {t : Token} (hk : ¬ t.kind.Opens) (d : Draft) (s : Source) :
    readStatement d s t = .unexpected d s t "a production or a `$` directive" := by
  unfold readStatement
  split <;> rename_i h
  · exact absurd (Or.inl h) hk
  · exact absurd (Or.inr (Or.inl h)) hk
  · exact absurd (Or.inr (Or.inr (Or.inl h))) hk
  · exact absurd (Or.inr (Or.inr (Or.inr h))) hk
  · rfl

/-- What a statement is, by its first token. -/
theorem readStatement_cases {t : Token} (hk : t.kind.Opens) (d : Draft) (s : Source) :
    (∃ plain, readStatement d s t = readDirective d s plain) ∨
    (∃ head, readStatement d s t = readAlternatives d s head) ∨
    readStatement d s t = ⟨.error (.strayBar t.line), d, s⟩ ∨
    t.kind = .word ∧ readStatement d s t = readProduction d s t := by
  unfold readStatement
  split
  · exact Or.inl ⟨_, rfl⟩
  · exact Or.inl ⟨_, rfl⟩
  · split
    · exact Or.inr (Or.inl ⟨_, rfl⟩)
    · exact Or.inr (Or.inr (Or.inl rfl))
  · exact Or.inr (Or.inr (Or.inr ⟨‹_›, rfl⟩))
  · rename_i hdollar hstar hbar hword
    rcases hk with hk | hk | hk | hk
    · exact absurd hk hdollar
    · exact absurd hk hstar
    · exact absurd hk hbar
    · exact absurd hk hword

theorem readStatement_weight_le {t : Token} (hk : t.kind.Opens) (d : Draft) (s : Source) :
    (readStatement d s t).source.weight ≤ s.weight := by
  rcases readStatement_cases hk d s with ⟨_, h⟩ | ⟨_, h⟩ | h | ⟨-, h⟩
  · exact h ▸ readDirective_weight_le ..
  · exact h ▸ readAlternatives_weight_le ..
  · exact h ▸ Nat.le_refl s.weight
  · exact h ▸ readProduction_weight_le ..

/-- The source after a statement: a failed one is skipped to the end of its line. -/
def Outcome.resume (o : Outcome Unit) : Source :=
  match o.result with
  | .ok _ => o.source
  | .error _ => o.source.skipLine

/-- The errors after a statement, newest first. -/
def Outcome.addError (o : Outcome Unit) (errors : List GrammarError) : List GrammarError :=
  match o.result with
  | .ok _ => errors
  | .error e => e :: errors

theorem Outcome.resume_weight_le (o : Outcome Unit) : o.resume.weight ≤ o.source.weight := by
  unfold resume
  split
  · exact Nat.le_refl _
  · exact Source.skipLine_weight_le _

/-- After a statement the source is lighter than before it: a first token that was put back is
    skipped. -/
theorem readStatement_resume_lt (d : Draft) {s : Source} (h : s.next.1.kind ≠ .eof) :
    (readStatement d s.next.2 s.next.1).resume.weight < s.weight := by
  by_cases hk : s.next.1.kind.Opens
  · exact Nat.lt_of_le_of_lt (Nat.le_trans (Outcome.resume_weight_le _)
      (readStatement_weight_le hk ..)) (Source.next_weight_lt h)
  · rw [readStatement_of_not_opens hk]
    exact Nat.lt_of_lt_of_le (Source.skipLine_weight_lt (s := s.next.2.unread s.next.1) h)
      s.unread_next_weight_le

/-- What reading gives: the draft, the errors, the warnings and the calls, these newest first. -/
structure Reading where
  draft : Draft
  errors : List GrammarError
  warnings : List GrammarWarning
  calls : List ReaderCall

/-- Reads all statements. -/
def readStatements (d : Draft) (errors : List GrammarError) (s : Source) : Reading :=
  let r := s.next
  if _e : r.1.kind = .eof then ⟨d, errors, r.2.warnings, r.2.calls⟩
  else if r.1.kind = .newline then readStatements d errors r.2
  else
    let o := readStatement d r.2 r.1
    readStatements o.draft (o.addError errors) o.resume
termination_by s.weight
decreasing_by
  · exact Source.next_weight_lt _e
  · exact readStatement_resume_lt d _e

/-- Reads the statements of some code. -/
def readCode (code : List CodeNode) : Reading :=
  readStatements .new [] { scanner := .ofCode grammarConfig code }

/-- The grammar written in some code, or all that is wrong with it. -/
def Grammar.read (code : List CodeNode) : Except (List GrammarError) Grammar :=
  let r := readCode code
  r.draft.finish r.errors.reverse

/-- The grammar written in a text. -/
def Grammar.readText (text : String) : Except (List GrammarError) Grammar :=
  Grammar.read [.ofText text.toList]

/-- The warnings about the grammar written in some code, in order. -/
def Grammar.readWarnings (code : List CodeNode) : List GrammarWarning :=
  (readCode code).warnings.reverse

/-- What reading some code calls, in order. -/
def codeCalls (code : List CodeNode) : List ReaderCall :=
  (readCode code).calls.reverse

end LayoutLR
