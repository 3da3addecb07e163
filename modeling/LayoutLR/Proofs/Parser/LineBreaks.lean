/-
  Layout-aware LR toolkit — line breaks that mean nothing.

  Where no body has a line break in it, a line may end nowhere and no line break can be
  shifted.  So a parser discards each line break that it looks at, and skips those behind an
  error together with its token.  Both take tokens and do nothing else: a run does the same
  without the line breaks, in fewer steps.

  * `Grammar.isLineLike_of_unbroken`: grammars without line breaks;
  * `Machine.stepsLeft`: a run never ends because it made too many steps;
  * `Machine.runFor_unbroken`: runs with and without line breaks, side by side;
  * `line_breaks_dropped`: the calls and the result of a run do not hang on line breaks.
-/
import LayoutLR.Proofs.Grammar.Flags
import LayoutLR.Proofs.Parser.Halting
import LayoutLR.Proofs.Parser.Layering
import LayoutLR.Proofs.Parser.Unbroken

namespace LayoutLR

variable {σ V : Type}

/-! ## Grammars without line breaks -/

namespace Grammar

variable {g : Grammar}

/-- If no body has a line break in it, the line break alone is line-like. -/
theorem isLineLike_of_unbroken (hg : g.WellFormed) (hfree : ∀ p, Kind.newline.num ∉ g.body p)
    {s : Nat} (h : g.isLineLike s = true) : s = Kind.newline.num := by
  obtain ⟨form, hderives, hmem⟩ := (isLineLike_iff_derives hg).1 h
  rcases hderives.mem hmem with hs | ⟨p, hp⟩
  · exact (List.mem_singleton.1 hs).symm
  · exact absurd hp (hfree p)

end Grammar

/-- If no body has a line break in it, no state waits for the end of a line. -/
theorem Automaton.startsLine_of_unbroken {g : Grammar} (hg : g.WellFormed)
    (hfree : ∀ p, Kind.newline.num ∉ g.body p) (strength : Strength) (q : Nat) :
    (Automaton.build g strength).table.startsLine q = false := by
  have hsound := build_sound hg.indexed strength
  rw [Table.startsLine, row?_table]
  cases hs : (build g strength).states[q]? with
  | none => rfl
  | some s =>
    show s.startsLine = false
    by_contra hline
    rw [Bool.not_eq_false, (build_processed hg.indexed hs).startsLine,
      hsound.grammar_eq] at hline
    obtain ⟨sym, hsym, hlike⟩ := List.any_eq_true.1 hline
    obtain ⟨i, -, hnext⟩ := mem_nextSymbols.1 hsym
    rw [Grammar.isLineLike_of_unbroken hg hfree hlike] at hnext
    exact hfree i.prod (List.mem_of_getElem? hnext)

/-- Where no state waits for the end of a line, a line may end nowhere. -/
theorem Table.Layered.permitted_eq_false {t : Table} (hline : ∀ q, t.startsLine q = false) :
    ∀ {fs : List (Frame V)}, t.Layered fs → ∀ f ∈ fs, f.newlinePermitted = false
  | [], _, f, hf => by cases hf
  | [b], h, f, hf => by
    rw [List.mem_singleton.1 hf, h.permitted, hline]
  | f' :: b :: fs, h, f, hf => by
    have hbelow := permitted_eq_false hline h.2
    rcases List.mem_cons.1 hf with rfl | hf
    · have hb := hbelow b List.mem_cons_self
      rcases h.1.permitted with hperm | hcarries
      · rw [hperm, hline, hb, Bool.and_false, Bool.or_false]
      · rw [hcarries.permitted, hline, hb, Bool.or_false]
    · exact hbelow f hf

/-! ## Steps that are left -/

theorem Input.length_next_le (i : Input) :
    i.next.2.tokens.length + (if i.next.1.kind = .eof then 0 else 1) ≤ i.tokens.length := by
  unfold Input.next
  cases h : i.tokens with
  | nil => simp [h, Input.eof, Token.synthetic]
  | cons u rest =>
    dsimp only [List.length_cons]
    split <;> omega

namespace Machine

variable {g : Grammar} {t : Table} {has : Nat → Item → Prop} {acts : Actions σ V}
  {m m' k : Machine σ V}

/-- How much there is to read: the tokens of the input, and the next one if it is not the end. -/
def toRead (m : Machine σ V) : Nat :=
  m.input.tokens.length + if m.token.kind = .eof then 0 else 1

/-- The steps that a run can still make: one for each token, and one for each value that it may
    ask for. -/
def stepsLeft (budget : Nat) (m : Machine σ V) : Nat :=
  m.toRead + (budget - m.calls)

theorem toRead_advance (m : Machine σ V) : m.advance.toRead ≤ m.input.tokens.length := by
  exact m.input.length_next_le

/-- Skipping leaves no more to read. -/
theorem skip?_toRead {s : Stack V} {eof token : Token} {must : Bool} {indents taken : Nat}
    {tokens : List Token} {sk : Skipped} (heof : eof.kind = .eof)
    (h : skip? t s eof must token indents taken tokens = some sk) :
    sk.tokens.length + (if sk.token.kind = .eof then 0 else 1) ≤
      tokens.length + if token.kind = .eof then 0 else 1 := by
  obtain ⟨n, -, htokens, htoken⟩ := skip?_spec tokens h
  rw [htokens, htoken, List.length_drop]
  cases n with
  | zero => exact Nat.le_refl _
  | succ n =>
    rw [List.getElem?_cons_succ]
    by_cases hn : n < tokens.length
    · split <;> omega
    · simp [List.getElem?_eq_none (Nat.not_lt.1 hn), heof]
      omega

theorem Turn.stepsLeft_lt (h : Turn t acts m m') {budget : Nat} (hcalls : m'.calls ≤ budget) :
    m'.stepsLeft budget < m.stepsLeft budget := by
  -- what takes a token that is not the end
  have htakes {m₁ : Machine σ V} (hinput : m₁.input = m.input) (hsame : m₁.calls = m.calls)
      (hkind : m.token.kind ≠ .eof) : m₁.advance.stepsLeft budget < m.stepsLeft budget := by
    have hread := toRead_advance m₁
    rw [hinput] at hread
    have hmore : m.toRead = m.input.tokens.length + 1 := by simp [toRead, hkind]
    have hsame : m₁.advance.calls = m.calls := hsame
    unfold stepsLeft
    omega
  -- what asks for a value
  have hasks (hread : m'.toRead ≤ m.toRead) (hmore : m'.calls = m.calls + 1) :
      m'.stepsLeft budget < m.stepsLeft budget := by
    unfold stepsLeft
    omega
  cases h with
  | record startsLine hkind => exact htakes rfl rfl (by simp [hkind])
  | cancel hkind => exact htakes rfl rfl (by simp [hkind])
  | discard hkind => exact htakes rfl rfl (by simp [hkind])
  | shift => exact hasks ((toRead_advance _).trans (Nat.le_add_right _ _)) rfl
  | reduce => exact hasks (Nat.le_refl _) rfl
  | resume _ _ _ hskip => exact hasks (skip?_toRead rfl hskip) rfl

/-! ## Runs side by side -/

section

variable (hb : t.Backed g has) (hgo : ∀ q, t.goto? q Kind.newline.num = none)
  (hline : ∀ q, t.startsLine q = false) (hne : g.body 0 ≠ [])

include hb hline

/-- A line break is discarded. -/
theorem step_newline (acts : Actions σ V) (hp : t.Path m.stack.frames)
    (hl : t.Layered m.stack.frames) (hkind : m.token.kind = .newline) :
    m.step t acts = .next (m.act .discard).advance := by
  obtain ⟨row, hrow⟩ : ∃ row, t.row? m.stack.top.state = some row :=
    ⟨_, Array.getElem?_eq_getElem (hp.state_lt hb m.stack.top List.mem_cons_self)⟩
  have hdeaf := hl.permitted_eq_false hline m.stack.top List.mem_cons_self
  simp [step, hrow, hkind, stepNewline, hdeaf]

theorem runFor_newline (acts : Actions σ V) (hp : t.Path m.stack.frames)
    (hl : t.Layered m.stack.frames) (hkind : m.token.kind = .newline) {budget : Nat}
    (hcalls : m.calls ≤ budget) (steps : Nat) : m.runFor t acts budget (steps + 1) =
      (m.act .discard).advance.runFor t acts budget steps := by
  have hsame : (m.act .discard).advance.calls = m.calls := rfl
  rw [runFor, step_newline hb hline acts hp hl hkind]
  dsimp only
  rw [if_neg (by omega)]

include hgo hne

/-- **Runs with and without line breaks** end in the same way, with the same memory. -/
theorem runFor_unbroken (acts : Actions σ V) {budget steps steps' : Nat}
    (hp : t.Path m.stack.frames) (hl : t.Layered m.stack.frames) (h : k.unbroken = m.unbroken)
    (hcalls : m.calls ≤ budget) (hsteps : m.stepsLeft budget < steps)
    (hsteps' : k.stepsLeft budget < steps') :
    (k.runFor t acts budget steps').verdict = (m.runFor t acts budget steps).verdict ∧
      (k.runFor t acts budget steps').machine.memory =
        (m.runFor t acts budget steps).machine.memory := by
  generalize hn : steps + steps' = n
  induction n using Nat.strong_induction_on generalizing m k steps steps' with
  | _ n ih =>
    have hstack := stack_eq_of_unbroken h
    have hcalls' := calls_eq_of_unbroken h
    obtain ⟨steps, rfl⟩ := Nat.exists_eq_succ_of_ne_zero (Nat.ne_of_gt (Nat.zero_lt_of_lt hsteps))
    obtain ⟨steps', rfl⟩ := Nat.exists_eq_succ_of_ne_zero (Nat.ne_of_gt (Nat.zero_lt_of_lt hsteps'))
    by_cases hm : m.token.kind = .newline
    · have hturn : Turn t acts m (m.act .discard).advance := .discard hm
      have hless := hturn.stepsLeft_lt hcalls
      rw [runFor_newline hb hline acts hp hl hm hcalls]
      exact ih (steps + (steps' + 1)) (by omega) hp hl (h.trans (unbroken_discard hm).symm) hcalls
        (by omega) hsteps' rfl
    by_cases hk : k.token.kind = .newline
    · have hturn : Turn t acts k (k.act .discard).advance := .discard hk
      have hless := hturn.stepsLeft_lt (hcalls'.trans_le hcalls)
      rw [runFor_newline hb hline acts (hstack ▸ hp) (hstack ▸ hl) hk (hcalls'.trans_le hcalls)]
      exact ih (steps + 1 + steps') (by omega) hp hl ((unbroken_discard hk).trans h) hcalls hsteps
        (by omega) rfl
    obtain ⟨hi, hmoved⟩ := eq_moved_of_unbroken h hk hm
    have hsame : (k.step t acts).unbroken = (m.step t acts).unbroken := by
      rw [hmoved]
      exact step_moved hb hgo hp hi hne acts _ _
    unfold runFor
    cases hstep : m.step t acts with
    | broken m₁ => exact absurd hstep (step_ne_broken hb hne hp)
    | done value m₁ =>
      rw [hstep] at hsame
      obtain ⟨k₁, hstep', hlast⟩ := Progress.unbroken_eq_done hsame
      rw [hstep']
      simp only [Run.within, calls_eq_of_unbroken hlast, memory_eq_of_unbroken hlast, and_self]
    | next m₁ =>
      rw [hstep] at hsame
      obtain ⟨k₁, hstep', hsame⟩ := Progress.unbroken_eq_next hsame
      have hcalls₁ := calls_eq_of_unbroken hsame
      rw [hstep']
      dsimp only
      rw [hcalls₁]
      split
      · exact ⟨rfl, memory_eq_of_unbroken hsame⟩
      · rename_i hbudget
        have hpk : t.Path k.stack.frames := hstack ▸ hp
        have hless := (step_turn hb hne hp hstep).stepsLeft_lt (Nat.not_lt.1 hbudget)
        have hless' := (step_turn hb hne hpk hstep').stepsLeft_lt
          (hcalls₁.trans_le (Nat.not_lt.1 hbudget))
        exact ih (steps + steps') (by omega) (step_path hb hne hp hstep)
          ((step_reshaped hstep).layered hl) hsame (Nat.not_lt.1 hbudget) (by omega) (by omega) rfl

end

theorem start_unbroken (t : Table) (memory : σ) (input : Input) :
    (start t memory input.unbroken : Machine σ V).unbroken =
      (start t memory input : Machine σ V).unbroken := by
  have hnext := input.next_unbroken_cons
  have hnext' := input.unbroken.next_unbroken_cons
  rw [Input.unbroken_unbroken] at hnext'
  simp only [unbroken, start, hnext, hnext']

/-- A run never ends because it made too many steps. -/
theorem start_stepsLeft (t : Table) (memory : σ) (input : Input) (budget : Nat) :
    (start t memory input : Machine σ V).stepsLeft budget < input.tokens.length + budget + 2 := by
  have hread : (start t memory input : Machine σ V).toRead ≤ input.tokens.length :=
    input.length_next_le
  have hcalls : (start t memory input : Machine σ V).calls = 0 := rfl
  unfold stepsLeft
  omega

end Machine

/-- Runs over an input with and without its line breaks end in the same way, with the same memory. -/
theorem parse_unbroken {g : Grammar} (hg : g.WellFormed)
    (hfree : ∀ p, Kind.newline.num ∉ g.body p) (strength : Strength) (acts : Actions σ V)
    (memory : σ) (input : Input) (budget : Nat) :
    (parse (Automaton.build g strength).table acts memory input.unbroken budget).verdict =
        (parse (Automaton.build g strength).table acts memory input budget).verdict ∧
      (parse (Automaton.build g strength).table acts memory input.unbroken budget).machine.memory =
        (parse (Automaton.build g strength).table acts memory input budget).machine.memory := by
  have hsound := Automaton.build_sound hg.indexed strength
  exact Machine.runFor_unbroken hsound.backed (hsound.goto?_eq_none hfree)
    (Automaton.startsLine_of_unbroken hg hfree strength) hg.body_ne_nil acts
    (Machine.start_path _ memory input) (Stack.initial_layered _)
    (Machine.start_unbroken _ memory input) (Nat.zero_le budget)
    (Machine.start_stepsLeft _ memory input budget)
    (Machine.start_stepsLeft _ memory input.unbroken budget)

/-- **Line breaks that no body mentions change nothing.**  If no body of a grammar has a line break
    in it, a parser makes the same calls on an input as on the input without its line breaks, in
    the same order and with the same tokens and values, through all errors; and it ends in the
    same way, with the same value. -/
theorem line_breaks_dropped {code : List CodeNode} {g : Grammar} (hread : Grammar.read code = .ok g)
    (hfree : ∀ p, Kind.newline.num ∉ g.body p) (strength : Strength) (acts : Actions σ V)
    (memory : σ) (input : Input) (budget : Nat) :
    callsOf (Automaton.build g strength).table acts memory input.unbroken budget =
        callsOf (Automaton.build g strength).table acts memory input budget ∧
      (parse (Automaton.build g strength).table acts memory input.unbroken budget).verdict =
        (parse (Automaton.build g strength).table acts memory input budget).verdict := by
  have hg := Grammar.read_wellFormed hread
  obtain ⟨-, hcalls⟩ := parse_unbroken hg hfree strength acts.logged (memory, []) input budget
  exact ⟨congrArg Prod.snd hcalls, (parse_unbroken hg hfree strength acts memory input budget).1⟩

/-- Numbers on lines of their own, with something else between them. -/
def brokenNumbers : Input :=
  .ofList [(.number, ['1']), (.newline, []), (.string, ['x']), (.newline, []), (.newline, []),
    (.number, ['2']), (.newline, [])]

set_option maxRecDepth 100000 in
/-- The string is an error, behind which two line breaks are skipped. -/
theorem line_breaks_dropped_brokenNumbers : ∃ g, Grammar.readText numberList = .ok g ∧
    (∀ p, Kind.newline.num ∉ g.body p) ∧
    brokenNumbers.unbroken.tokens.map Token.kind = [.number, .string, .number] ∧
    (callsOf (Automaton.build g .lalr).table treeActions {} brokenNumbers 20).countP Call.isError = 1 ∧
    callsOf (Automaton.build g .lalr).table treeActions {} brokenNumbers.unbroken 20 =
      callsOf (Automaton.build g .lalr).table treeActions {} brokenNumbers 20 ∧
    (parse (Automaton.build g .lalr).table treeActions {} brokenNumbers.unbroken 20).verdict =
      (parse (Automaton.build g .lalr).table treeActions {} brokenNumbers 20).verdict := by
  obtain ⟨g, hg, htest⟩ := Grammar.exists_readText numberList (fun g => !g.uses .newline &&
    (callsOf (Automaton.build g .lalr).table treeActions {} brokenNumbers 20).countP
      Call.isError == 1) (by decide +kernel)
  simp only [Bool.and_eq_true, Bool.not_eq_true', beq_iff_eq] at htest
  obtain ⟨huses, herror⟩ := htest
  have hfree := Grammar.not_mem_body_of_uses huses
  exact ⟨g, hg, hfree, by decide, herror,
    line_breaks_dropped hg hfree .lalr treeActions {} brokenNumbers 20⟩

end LayoutLR
