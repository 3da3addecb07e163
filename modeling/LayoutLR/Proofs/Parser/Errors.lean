/-
  Layout-aware LR toolkit — errors between two tokens.

  After an error a parser goes on at a token that can be shifted, or else takes one.
  So before it meets the next error it should have taken a token, and a second error
  at the same depth drops the token in any case.  This fails for the ends of levels
  and of lines only: looking ahead may find that they can be shifted where the parser
  never shifts them, and then errors are pushed on errors.

  * `sinceTake`: what happened since a token was taken;
  * `ErrsOnce`: an error is the first since a token was taken;
  * `Machine.Resumed`: what holds after every step of a run;
  * `errors_between_tokens`: at most one error, if the token is heeded;
  * `errors_outnumber_frames`: errors that are pushed on errors at a token that is not heeded.
-/
import LayoutLR.Proofs.Parser.Calls
import LayoutLR.Proofs.Parser.Halting

namespace LayoutLR

variable {σ V : Type}

/-! ## Notes between two tokens -/

/-- Whether a note is about a token that is taken. -/
def Note.isTake : Note V → Bool
  | .take => true
  | .act _ _ _ | .tooShort _ | .noTransition _ _ => false

/-- What happened since a token was taken, newest first. -/
def sinceTake (notes : List (Note V)) : List (Note V) :=
  notes.takeWhile fun n => !n.isTake

@[simp]
theorem sinceTake_take (notes : List (Note V)) : sinceTake (.take :: notes) = [] :=
  rfl

@[simp]
theorem sinceTake_act (verb : Verb) (s : Stack V) (u : Token) (notes : List (Note V)) :
    sinceTake (.act verb s u :: notes) = .act verb s u :: sinceTake notes :=
  rfl

/-- Where tokens were taken at the end, nothing happened since. -/
theorem not_mem_sinceTake {k : Nat} (hk : k ≠ 0) (notes : List (Note V)) (n : Note V) :
    n ∉ sinceTake (List.replicate k .take ++ notes) := by
  obtain ⟨k, rfl⟩ := Nat.exists_eq_succ_of_ne_zero hk
  simp [List.replicate_succ]

/-- Every error was the first since a token was taken, if its token is heeded. -/
def ErrsOnce (t : Table) (notes : List (Note V)) : Prop :=
  ∀ s u past, (.act .error s u :: past) <:+ notes → Machine.Heeds t u.kind →
    ∀ n ∈ sinceTake past, n.isError = false

namespace ErrsOnce

variable {t : Table} {notes past : List (Note V)} {verb : Verb} {s : Stack V} {u : Token}

theorem cons {n : Note V} (h : ErrsOnce t notes)
    (hn : ∀ s u, n = .act .error s u → Machine.Heeds t u.kind →
      ∀ n' ∈ sinceTake notes, n'.isError = false) : ErrsOnce t (n :: notes) := by
  intro s u past hpast hheeds
  rcases List.suffix_cons_iff.1 hpast with heq | hpast
  · obtain ⟨hn', rfl⟩ := List.cons.inj heq
    exact hn s u hn'.symm hheeds
  · exact h s u past hpast hheeds

theorem takes (k : Nat) (h : ErrsOnce t notes) : ErrsOnce t (List.replicate k .take ++ notes) := by
  induction k with
  | zero => exact h
  | succ k ih => exact ih.cons (by simp)

theorem act (h : ErrsOnce t notes) (hverb : verb ≠ .error) (s : Stack V) (u : Token) :
    ErrsOnce t (.act verb s u :: notes) :=
  h.cons (by simp [hverb])

theorem error (h : ErrsOnce t notes)
    (hfirst : Machine.Heeds t u.kind → ∀ n ∈ sinceTake notes, n.isError = false) (s : Stack V) :
    ErrsOnce t (.act .error s u :: notes) := by
  refine h.cons ?_
  rintro s' u' heq
  cases heq
  exact hfirst

/-- So there is at most one error between two tokens. -/
theorem countP_le (h : ErrsOnce t notes) (hpast : past <:+ notes)
    (hheeds : ∀ s u, .act .error s u ∈ sinceTake past → Machine.Heeds t u.kind) :
    (sinceTake past).countP Note.isError ≤ 1 := by
  induction past with
  | nil => exact Nat.zero_le 1
  | cons n past ih =>
    have hlater : past <:+ notes := (List.suffix_cons n past).trans hpast
    cases n with
    | take => exact Nat.zero_le 1
    | tooShort | noTransition =>
      refine ih hlater fun s u hu => hheeds s u (List.mem_cons_of_mem _ hu)
    | act verb s u =>
      have ih := ih hlater fun s u hu => hheeds s u (List.mem_cons_of_mem _ hu)
      by_cases hverb : verb = .error
      · subst hverb
        have hnone : (sinceTake past).countP Note.isError = 0 := by
          rw [List.countP_eq_zero]
          intro n hn
          simpa using h s u past hpast (hheeds s u (List.mem_cons_self)) n hn
        rw [sinceTake_act, List.countP_cons, hnone]
        split <;> decide
      · rw [sinceTake_act, List.countP_cons_of_neg]
        · exact ih
        · cases verb <;> simp_all [Note.isError]

end ErrsOnce

namespace Machine

variable {g : Grammar} {t : Table} {has : Nat → Item → Prop} {acts : Actions σ V}
  {m m' : Machine σ V} {value : Option V}

/-! ## The last step -/

/-- The notes after the last step. -/
inductive Closes (m : Machine σ V) : List (Note V) → Prop
  | quiet : Closes m m.notes
  | accept : Closes m (.act .accept m.stack m.token :: m.notes)
  | error (k : Nat) : Closes m (List.replicate k .take ++ .act .error m.stack m.token :: m.notes)

/-- **What the last step adds to the notes.** -/
theorem step_closes (hb : t.Backed g has) (hne : g.body 0 ≠ []) (hp : t.Path m.stack.frames)
    (h : m.step t acts = .done value m') : m.Closes m'.notes := by
  have hdoes := step_does acts hb hne hp
  rw [h] at hdoes
  cases hdoes with
  | accept => exact .accept
  | stop => exact .quiet
  | giveUp k hnotes =>
    rw [hnotes]
    exact .error k

/-! ## Steps -/

/-- Errors are the first since a token was taken, and after such an error the token can be
    shifted; all this if the token is heeded. -/
structure Resumed (t : Table) (m : Machine σ V) : Prop where
  once : ErrsOnce t m.notes
  ready : Heeds t m.token.kind → (∃ n ∈ sinceTake m.notes, n.isError = true) →
    (m.token.kind.isLayout = false ∨ m.token.kind = .newline ∧ BreaksFirst t) ∧ ∃ n, m.Ready t n

theorem start_resumed (t : Table) (memory : σ) (input : Input) :
    (start t memory input : Machine σ V).Resumed t where
  once := ErrsOnce.takes 1 fun _ _ _ hpast => absurd (List.suffix_nil.1 hpast) (List.cons_ne_nil _ _)
  ready _ h := by
    obtain ⟨n, hn, -⟩ := h
    cases hn

/-- A step that takes a token without an error. -/
theorem Resumed.takes (h : m.Resumed t) {verb : Verb} (hverb : verb ≠ .error)
    (hnotes : m'.notes = .take :: .act verb m.stack m.token :: m.notes) : m'.Resumed t := by
  refine ⟨hnotes ▸ .takes 1 (h.once.act hverb _ _), fun _ he => ?_⟩
  obtain ⟨n, hn, -⟩ := he
  rw [hnotes] at hn
  cases hn

section

variable (hb : t.Backed g has) (hne : g.body 0 ≠ []) (hstart : ∀ q, t.goto? q g.start = none)
  (hp : t.Path m.stack.frames) (h : m.Resumed t)

include hb hstart hp h

/-- After an error the parser goes on at the token, or takes it. -/
theorem Resumed.step_ready (acts : Actions σ V) (hheeds : Heeds t m.token.kind)
    (herror : ∃ n ∈ sinceTake m.notes, n.isError = true) :
    ∃ m', m.step t acts = .next m' ∧ m'.Resumed t := by
  obtain ⟨hkind, n, hready⟩ := h.ready hheeds herror
  cases n with
  | zero =>
    obtain ⟨lineStart, hcan, -⟩ := hready
    cases hcan
  | succ n =>
    obtain ⟨m', verb, hstep, htakes | ⟨hred, hready'⟩⟩ := hready.step acts hb hstart hp hkind
    · refine ⟨m', hstep, h.takes ?_ htakes.notes⟩
      rcases htakes.verb_eq with ⟨rfl, -⟩ | ⟨rfl, -⟩ <;> decide
    · refine ⟨m', hstep, ?_, fun _ _ => ⟨hred.token ▸ hkind, n, hready'⟩⟩
      rw [hred.notes]
      refine h.once.act ?_ _ _
      rcases hred.verb_eq with rfl | ⟨rfl, -⟩ <;> decide

include hne

/-- **What a step preserves.** -/
theorem Resumed.next (hstep : m.step t acts = .next m') : m'.Resumed t := by
  by_cases hlater : Heeds t m.token.kind ∧ ∃ n ∈ sinceTake m.notes, n.isError = true
  · obtain ⟨m'', hstep', hm''⟩ := h.step_ready hb hstart hp acts hlater.1 hlater.2
    cases hstep.symm.trans hstep'
    exact hm''
  -- if the token is heeded, there was no error since it was taken
  have hfirst (hheeds : Heeds t m.token.kind) (n : Note V) (hn : n ∈ sinceTake m.notes) :
      n.isError = false := by
    simpa using fun he => hlater ⟨hheeds, n, hn, he⟩
  cases step_turn hb hne hp hstep with
  | record => exact h.takes (by decide) rfl
  | cancel => exact h.takes (by decide) rfl
  | discard => exact h.takes (by decide) rfl
  | shift => exact h.takes (by decide) rfl
  | reduce hverb =>
    rcases hverb with rfl | rfl
    all_goals
      refine ⟨h.once.act (by decide) _ _, fun hheeds he => ?_⟩
      obtain ⟨n, hn, he⟩ := he
      rcases List.mem_cons.1 hn with rfl | hn
      · cases he
      · exact absurd (hfirst hheeds n hn) (by simp [he])
  | @resume _ _ _ _ sk _ hin _ hpush hskip hend =>
    refine ⟨.takes sk.taken (h.once.error hfirst _), fun hheeds he => ?_⟩
    by_cases hstay : sk.taken = 0
    · exact (ready_of_skip? hin hheeds hpush hskip hend hstay rfl rfl).2.2
    · obtain ⟨n, hn, -⟩ := he
      exact absurd hn (not_mem_sinceTake hstay _ n)

/-- The notes after a step, if it is the last one or not. -/
theorem Resumed.once_step (acts : Actions σ V) : ErrsOnce t (m.step t acts).machine.notes := by
  cases hstep : m.step t acts with
  | next m' => exact (h.next hb hne hstart hp hstep).once
  | broken m' => exact absurd hstep (step_ne_broken hb hne hp)
  | done value m' =>
    have hcloses := step_closes hb hne hp hstep
    show ErrsOnce t m'.notes
    generalize m'.notes = notes at hcloses
    cases hcloses with
    | quiet => exact h.once
    | accept => exact h.once.act (by decide) _ _
    | error k =>
      refine .takes k (h.once.error (fun hheeds n hn => ?_) _)
      -- after an error this step would not be the last one
      by_contra he
      obtain ⟨m'', hstep', -⟩ := h.step_ready hb hstart hp acts hheeds ⟨n, hn, by simpa using he⟩
      rw [hstep] at hstep'
      cases hstep'

end

theorem after_resumed (hb : t.Backed g has) (hne : g.body 0 ≠ [])
    (hstart : ∀ q, t.goto? q g.start = none) {memory : σ} {input : Input} {n : Nat}
    (hm : (start t memory input).after t acts n = some m) :
    t.Path m.stack.frames ∧ m.Resumed t := by
  refine after_induction (P := fun m => t.Path m.stack.frames ∧ m.Resumed t) ?_ n _ m
    ⟨start_path t memory input, start_resumed t memory input⟩ hm
  rintro m₁ m₂ ⟨hp, h⟩ hstep
  exact ⟨after_path hb hne hp (n := 1) (by rw [after, hstep]; rfl), h.next hb hne hstart hp hstep⟩

/-- An error at the depth of the error before it takes the token, if nothing was shifted since. -/
theorem Turn.drops (h : Turn t acts m m')
    (herror : m.notes.countP Note.isError < m'.notes.countP Note.isError)
    (hdepth : m'.recoveredAt = m.recoveredAt) (hkind : m.token.kind ≠ .eof) : m.taken < m'.taken := by
  cases h with
  | resume _ _ _ hskip =>
    have hmust := hdepth.symm
    dsimp only at hmust
    rcases skip?_cases hskip with ⟨hstop, -⟩ | ⟨-, hpos⟩
    · simp [stopsAt?, hkind, hmust] at hstop
    · exact Nat.lt_add_of_pos_right hpos
  | record => exact Nat.lt_succ_self _
  | cancel => exact Nat.lt_succ_self _
  | discard => exact Nat.lt_succ_self _
  | shift => exact Nat.lt_succ_self _
  | reduce hverb => rcases hverb with rfl | rfl <;> simp [act, note, Note.isError] at herror

end Machine

/-- **Between two tokens there is at most one error**, if it is at a token that the parser takes
    where looking ahead says so: any token but the end of a level where there is a transition on
    it, and the end of a line where it may be put off.  And whatever the token is, the end apart, an
    error at the depth of the error before takes it, if nothing was shifted in between. -/
theorem errors_between_tokens {code : List CodeNode} {g : Grammar} (hread : Grammar.read code = .ok g)
    (strength : Strength) (acts : Actions σ V) (memory : σ) (input : Input) {n : Nat}
    {m : Machine σ V} (hm : (Machine.start (Automaton.build g strength).table memory input).after
      (Automaton.build g strength).table acts n = some m) :
    (∀ past, past <:+ (m.step (Automaton.build g strength).table acts).machine.notes →
      (∀ s u, .act .error s u ∈ sinceTake past →
        Machine.Heeds (Automaton.build g strength).table u.kind) →
      (sinceTake past).countP Note.isError ≤ 1) ∧
    ∀ m', m.step (Automaton.build g strength).table acts = .next m' →
      m.notes.countP Note.isError < m'.notes.countP Note.isError →
      m'.recoveredAt = m.recoveredAt → m.token.kind ≠ .eof → m.taken < m'.taken := by
  have hsound := Automaton.build_sound (Grammar.read_wellFormed hread).indexed strength
  have hwf := Grammar.read_wellFormed hread
  have hb := hsound.backed
  have hne := hwf.body_ne_nil
  have hstart := hsound.goto?_eq_none hwf.start
  obtain ⟨hp, hresumed⟩ := Machine.after_resumed hb hne hstart hm
  refine ⟨fun past hpast hheeds => ?_, fun m' hstep => ?_⟩
  · exact (hresumed.once_step hb hne hstart hp acts).countP_le hpast hheeds
  · exact (Machine.step_turn hb hne hp hstep).drops

/-- Two numbers around something else and the end of a level that was not opened. -/
def strayEnd : Input :=
  .ofList [(.number, ['1']), (.string, ['x']), (.outdent, []), (.number, ['2'])]

set_option maxRecDepth 100000 in
/-- At the end of the level the second error is met, at the depth of the first one: it is the
    only one there, and the token is dropped. -/
theorem errors_between_tokens_strayEnd : ∃ g m m' past, Grammar.readText numberList = .ok g ∧
    (Machine.start (Automaton.build g .lalr).table {} strayEnd).after
      (Automaton.build g .lalr).table treeActions 4 = some m ∧
    m.step (Automaton.build g .lalr).table treeActions = .next m' ∧ m.token.kind = .outdent ∧
    m.notes.countP Note.isError = 1 ∧ m'.notes.countP Note.isError = 2 ∧
    m'.recoveredAt = m.recoveredAt ∧ m.taken < m'.taken ∧
    past <:+ m'.notes ∧ (sinceTake past).any Note.isError = true ∧
    (sinceTake past).countP Note.isError ≤ 1 := by
  obtain ⟨g, m, hg, hm, htest⟩ := Machine.exists_after numberList strayEnd 4 (fun t m =>
    decide (Machine.BreaksFirst t) &&
    match m.step t treeActions with
    | .next m' => decide (m.token.kind = .outdent ∧ m.notes.countP Note.isError = 1 ∧
        m'.notes.countP Note.isError = 2 ∧ m'.recoveredAt = m.recoveredAt ∧
        (sinceTake m'.notes.tail).any Note.isError = true)
    | _ => false) (by decide +kernel)
  obtain ⟨g', hg', hout⟩ := Grammar.exists_readText numberList (fun g => !g.uses .outdent)
    (by decide +kernel)
  obtain rfl := Except.ok.inj (hg.symm.trans hg')
  obtain ⟨hbreak, htest⟩ := Bool.and_eq_true_iff.1 htest
  have hheeds (k : Kind) : Machine.Heeds (Automaton.build g .lalr).table k := by
    refine ⟨fun _ => ?_, fun _ => of_decide_eq_true hbreak⟩
    exact (Automaton.build_sound (Grammar.read_wellFormed hg).indexed .lalr).goto?_eq_none
      (Grammar.not_mem_body_of_uses (by simpa using hout))
  obtain ⟨honce, hdrops⟩ := errors_between_tokens hg .lalr treeActions {} strayEnd hm
  split at htest
  · rename_i m' hstep
    obtain ⟨hkind, herror, herror', hdepth, hany⟩ := of_decide_eq_true htest
    rw [hstep] at honce
    have hlate : m'.notes.tail <:+ m'.notes := List.tail_suffix _
    exact ⟨g, m, m', m'.notes.tail, hg, hm, hstep, hkind, herror, herror', hdepth,
      hdrops m' hstep (by omega) hdepth (by simp [hkind]), hlate, hany,
      honce _ hlate fun _ u _ => hheeds u.kind⟩
  · cases htest

/-! ## Errors on errors -/

/-- On a text of a grammar and an input, the first error is met after some steps, and after some
    more steps without taking a token there were more errors than frames and states at the
    first one. -/
def ReportsOften (text : String) (input : Input) (first more : Nat) : Prop :=
  ∃ g m m', Grammar.readText text = .ok g ∧
    (Machine.start (Automaton.build g .lalr).table {} input).after (Automaton.build g .lalr).table
      treeActions first = some m ∧
    m.notes.countP Note.isError = 0 ∧
    (m.step (Automaton.build g .lalr).table treeActions).machine.notes.countP Note.isError = 1 ∧
    m.after (Automaton.build g .lalr).table treeActions more = some m' ∧ m'.taken = m.taken ∧
    m.stack.size + (Automaton.build g .lalr).table.rows.size + 1 < m'.notes.countP Note.isError

theorem reportsOften_of_test {text : String} {input : Input} {first more : Nat}
    (h : ((Grammar.readText text).toOption.any fun g =>
      ((Machine.start (Automaton.build g .lalr).table {} input).after (Automaton.build g .lalr).table
        treeActions first).any fun m =>
          decide (m.notes.countP Note.isError = 0 ∧
            (m.step (Automaton.build g .lalr).table treeActions).machine.notes.countP Note.isError = 1) &&
          (m.after (Automaton.build g .lalr).table treeActions more).any fun m' =>
            decide (m'.taken = m.taken ∧ m.stack.size + (Automaton.build g .lalr).table.rows.size + 1 <
              m'.notes.countP Note.isError)) = true) : ReportsOften text input first more := by
  obtain ⟨g, m, hg, hm, htest⟩ := Machine.exists_after text input first (fun t m =>
    decide (m.notes.countP Note.isError = 0 ∧
      (m.step t treeActions).machine.notes.countP Note.isError = 1) &&
    (m.after t treeActions more).any fun m' =>
      decide (m'.taken = m.taken ∧ m.stack.size + t.rows.size + 1 < m'.notes.countP Note.isError)) h
  obtain ⟨hfirst, htest⟩ := Bool.and_eq_true_iff.1 htest
  obtain ⟨hnone, hone⟩ := of_decide_eq_true hfirst
  obtain ⟨m', hm', htest⟩ := (Option.any_eq_true _ _).1 htest
  obtain ⟨htaken, hmany⟩ := of_decide_eq_true htest
  exact ⟨g, m, m', hg, hm, hnone, hone, hm', htaken, hmany⟩

set_option maxRecDepth 100000 in
/-- **Between two tokens there may be more errors than frames and states**: at the end of a level
    that is waited for behind an error, and at a line break that is put off there. -/
theorem errors_outnumber_frames :
    ReportsOften "R -> ERROR R\n   | ERROR OUT\n" (.ofList [(.outdent, [])]) 0 12 ∧
    ReportsOften "S -> STRING R\nR -> E R\n   | NUMBER\nE -> ERROR\n   | ERROR NEWLINE\n"
      (.ofList [(.string, ['x']), (.newline, [])]) 1 40 :=
  ⟨reportsOften_of_test (by decide +kernel), reportsOften_of_test (by decide +kernel)⟩

end LayoutLR
