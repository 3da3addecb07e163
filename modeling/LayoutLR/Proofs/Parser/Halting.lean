/-
  Layout-aware LR toolkit — parsing comes to an end.

  A step takes a token, reduces, or goes on after an error.  There are finitely many
  tokens, and where reductions come to an end, a parser that does not stop would
  have to go on after an error for ever without taking a token.  But then it goes on
  at a token that it takes after some reductions.

  * `Table.Settles`: a table on which parsing comes to an end;
  * `Machine.Turn.brings`: what a step brings;
  * `Machine.halts`: a parser stops after some steps;
  * `Grammar.Tame`: a grammar with such tables;
  * `parse_halts`: parsing comes to an end at every strength.
-/
import LayoutLR.Proofs.Automaton.Reductions
import LayoutLR.Proofs.Parser.Recovery
import LayoutLR.Proofs.Parser.Renaming

namespace LayoutLR

variable {σ V : Type}

/-! ## Symbols on a stack -/

/-- The symbols on a stack from the top down, the bottom frame apart. -/
def Stack.syms (s : Stack V) : List Nat :=
  (s.frames.map Frame.sym).dropLast

theorem Stack.syms_eq_view (s : Stack V) : s.syms = (s.view.map fun x => x.2.1).dropLast := by
  rw [syms, view, List.map_map]
  rfl

namespace Table

variable {g : Grammar} {t : Table} {has : Nat → Item → Prop}

/-- The symbols on a stack lead to the state on top. -/
theorem Path.walk? {f : Frame V} {fs : List (Frame V)} (h : t.Path (f :: fs)) :
    t.walk? (((f :: fs).map Frame.sym).dropLast) = some f.state := by
  induction fs generalizing f with
  | nil => exact congrArg some h.1.symm
  | cons f' fs ih => exact walk?_cons.2 ⟨f'.state, ih h.tail, h.2.1⟩

/-- A reduction of a parser is one of the symbols on its stack. -/
theorem Path.falls (hb : t.Backed g has) {s rest stack : Stack V} (hp : t.Path s.frames)
    {r : Reduction} (hr : t.reduce? s.top.state = some r) (hne : r.prod ≠ 0)
    {popped : List (Frame V)} (hpop : s.pop? r.size = some (popped, rest)) {next : Nat} {v : V}
    (hview : stack.view = (next, r.sym, some v) :: rest.view) : t.Falls g s.syms stack.syms := by
  obtain ⟨popped', rest', hpop', hframes, -, hbody, -, -, -⟩ := hp.reduce hb hr
  obtain ⟨rfl, rfl⟩ := Prod.mk.inj (Option.some.inj (hpop.symm.trans hpop'))
  have hby := (hb.reduce _ r hr).1
  refine ⟨s.top.state, r.prod, rest.syms, hp.walk?, by rw [hr, ← hby], hne, ?_, ?_⟩
  · have hrest : rest.frames.map Frame.sym ≠ [] := by simp [Stack.frames]
    rw [Stack.syms, hframes, List.map_append, List.dropLast_append_of_ne_nil hrest, ← hbody,
      List.reverse_reverse]
    rfl
  · have hrest : rest.view.map (fun x => x.2.1) ≠ [] := by simp [Stack.view, Stack.frames]
    have hsym : r.sym = g.head r.prod := congrArg Reduction.sym hby
    rw [Stack.syms_eq_view, hview, List.map_cons, List.dropLast_cons_of_ne_nil hrest,
      ← Stack.syms_eq_view, hsym]

/-- A table on which parsing comes to an end. -/
structure Settles (g : Grammar) (t : Table) : Prop where
  falls : WellFounded fun γ' γ => t.Falls g γ γ'
  /-- After the end there is nothing to do but to accept. -/
  last : ∀ q q', t.goto? q Kind.eof.num = some q' →
    t.goto? q' Kind.eof.num = none ∧ t.reduce? q' = some (g.reductionBy 0)
  /-- There is no way to go on after an error, or it is at a token that is taken. -/
  recovers : (∀ q, t.goto? q Kind.error.num = none) ∨
    (∀ q, t.goto? q Kind.outdent.num = none) ∧ Machine.BreaksFirst t

end Table

namespace Machine

variable {g : Grammar} {t : Table} {has : Nat → Item → Prop} {acts : Actions σ V}
  {m m' : Machine σ V} {n : Nat}

/-! ## What is left to do -/

/-- How much there is to read: twice the tokens of the input, and one more if the next token is
    not the end. -/
def workLeft (m : Machine σ V) : Nat :=
  2 * m.input.tokens.length + if m.token.kind = .eof then 0 else 1

theorem workLeft_of_next (h : m.input.next = (m'.token, m'.input)) :
    m'.workLeft < m.workLeft ∨ m.token.kind = .eof ∧ m'.token.kind = .eof := by
  unfold Input.next at h
  split at h
  · rename_i hnil
    obtain ⟨htoken, hinput⟩ := Prod.mk.inj h
    have heof : m'.token.kind = .eof := by
      rw [← htoken]
      rfl
    by_cases hkind : m.token.kind = .eof
    · exact Or.inr ⟨hkind, heof⟩
    · left
      simp [workLeft, ← hinput, hnil, heof, hkind]
  · rename_i token tokens hcons
    obtain ⟨-, hinput⟩ := Prod.mk.inj h
    left
    have hlen : m'.input.tokens.length = tokens.length := by rw [← hinput]
    simp only [workLeft, hcons, hlen, List.length_cons]
    split <;> omega

/-- Skipping stops at once, or takes the token. -/
theorem skip?_cases {s : Stack V} {eof token : Token} {must : Bool} {indents taken : Nat}
    {tokens : List Token} {sk : Skipped}
    (h : skip? t s eof must token indents taken tokens = some sk) :
    stopsAt? t s must token = some true ∧ sk.taken = taken ∨
      stopsAt? t s must token = some false ∧ taken < sk.taken := by
  cases tokens with
  | nil =>
    rw [skip?] at h
    obtain ⟨stop, hstop, rfl⟩ := Option.map_eq_some_iff.1 h
    cases stop with
    | true => exact Or.inl ⟨hstop, rfl⟩
    | false => exact Or.inr ⟨hstop, Nat.lt_succ_self taken⟩
  | cons next rest =>
    rw [skip?] at h
    split at h
    · cases h
    · rename_i hstop
      obtain rfl := Option.some.inj h
      exact Or.inl ⟨hstop, rfl⟩
    · rename_i hstop
      refine Or.inr ⟨hstop, ?_⟩
      split at h
      · obtain rfl := Option.some.inj h
        exact Nat.lt_succ_self taken
      · obtain ⟨k, hk, -⟩ := skip?_spec rest h
        omega

/-- What a step brings: less to read, the end, a reduction, or a token that can be shifted. -/
inductive Brings (g : Grammar) (t : Table) (m m' : Machine σ V) : Prop
  | takes (hwork : m'.workLeft < m.workLeft)
  | ends (hend : m'.token.kind = .eof)
      (hgo : t.goto? m.stack.top.state Kind.eof.num = some m'.stack.top.state)
  | reduces (hwork : m'.workLeft = m.workLeft) (hfalls : t.Falls g m.stack.syms m'.stack.syms)
  | resumes (hwork : m'.workLeft = m.workLeft)
      (hkind : m'.token.kind.isLayout = false ∨ m'.token.kind = .newline ∧ BreaksFirst t)
      (hready : ∃ n, m'.Ready t n)

/-- A token that is taken is one less to read, unless it is the end. -/
theorem brings_of_next (hnext : m.input.next = (m'.token, m'.input))
    (hend : m.token.kind = .eof →
      t.goto? m.stack.top.state Kind.eof.num = some m'.stack.top.state) : Brings g t m m' := by
  rcases workLeft_of_next hnext with hwork | ⟨hkind, heof⟩
  · exact .takes hwork
  · exact .ends heof (hend hkind)

/-- The kinds of tokens that a parser takes where looking ahead says so. -/
structure Heeds (t : Table) (k : Kind) : Prop where
  outdent : k = .outdent → ∀ q, t.goto? q Kind.outdent.num = none
  newline : k = .newline → BreaksFirst t

/-- A parser that goes on after an error without taking tokens can shift its token. -/
theorem ready_of_skip? (hin : m.token.kind ≠ .indent) {below stack : Stack V} {next : Nat} {v : V}
    {sk : Skipped} {must : Bool} {indents : Nat} (hheeds : Heeds t sk.token.kind)
    (hpush : below.push? t next Kind.error.num 0 false v = some stack)
    (hskip : skip? t stack m.input.eof must m.token indents 0 m.input.tokens = some sk)
    (hend : sk.token.kind = .eof → inLookahead? t stack sk.token = some true)
    (hstay : sk.taken = 0) (htoken : m'.token = sk.token)
    (hstack : m'.stack = addIndents stack sk.indents) :
    m'.token = m.token ∧ sk.tokens = m.input.tokens ∧
      (m'.token.kind.isLayout = false ∨ m'.token.kind = .newline ∧ BreaksFirst t) ∧
      ∃ n, m'.Ready t n := by
  obtain ⟨k, hk, hdrop, hget⟩ := skip?_spec m.input.tokens hskip
  obtain rfl : k = 0 := by omega
  have hsame : sk.token = m.token := hget
  rw [hsame] at hheeds
  have hplain : m.token.kind ≠ .outdent := by
    -- the end of a level cannot be shifted, so skipping does not stop there
    intro hkind
    have hlook : inLookahead? t stack m.token = some true := by
      rcases skip?_cases hskip with ⟨hstop, -⟩ | ⟨-, hpos⟩
      · unfold stopsAt? at hstop
        rw [if_neg (by simp [hkind])] at hstop
        split at hstop
        · cases hstop
        · exact hstop
      · omega
    obtain ⟨q, q', hgo⟩ := exists_goto_of_canShift? hlook
    rw [hkind, hheeds.outdent hkind] at hgo
    cases hgo
  refine ⟨htoken.trans hsame, hdrop, ?_,
    _, ready_addIndents hpush hskip hend (hsame ▸ hplain) htoken hstack⟩
  rw [htoken, hsame]
  have hbreaks := hheeds.newline
  cases hkind : m.token.kind <;> simp_all [Kind.isLayout]

/-- A parser that goes on after an error takes tokens, or stops at one that can be shifted. -/
theorem brings_of_skip? (hout : ∀ q, t.goto? q Kind.outdent.num = none) (hbreak : BreaksFirst t)
    (hin : m.token.kind ≠ .indent) {below stack : Stack V} {next : Nat} {v : V} {sk : Skipped}
    {must : Bool} {indents : Nat}
    (hpush : below.push? t next Kind.error.num 0 false v = some stack)
    (hskip : skip? t stack m.input.eof must m.token indents 0 m.input.tokens = some sk)
    (hend : sk.token.kind = .eof → inLookahead? t stack sk.token = some true)
    (htoken : m'.token = sk.token) (htokens : m'.input.tokens = sk.tokens)
    (hstack : m'.stack = addIndents stack sk.indents) : Brings g t m m' := by
  rcases skip?_cases hskip with ⟨-, hzero⟩ | ⟨hstop, hpos⟩
  · obtain ⟨hsame, hrest, hkind, hready⟩ := ready_of_skip? hin ⟨fun _ => hout, fun _ => hbreak⟩ hpush
      hskip hend hzero htoken hstack
    refine .resumes ?_ hkind hready
    rw [workLeft, workLeft, hsame, htokens, hrest]
  · obtain ⟨k, hk, hdrop, hget⟩ := skip?_spec m.input.tokens hskip
    refine .takes ?_
    have hkind : m.token.kind ≠ .eof := by
      intro hkind
      simp [stopsAt?, hkind] at hstop
    cases htokens' : m.input.tokens with
    | nil =>
      have heof : sk.token.kind = .eof := by
        rw [hget, htokens', List.getElem?_eq_none (by simp; omega)]
        rfl
      simp [workLeft, htoken, htokens, hdrop, htokens', heof, hkind]
    | cons token tokens =>
      simp only [workLeft, htoken, htokens, hdrop, htokens', hkind, if_false, List.length_drop,
        List.length_cons]
      split <;> omega

/-- **What a step brings.** -/
theorem Turn.brings (hb : t.Backed g has) (hset : t.Settles g) (hp : t.Path m.stack.frames)
    (h : Turn t acts m m') : Brings g t m m' := by
  cases h with
  | record _ hkind => exact brings_of_next rfl (by simp [hkind])
  | cancel hkind _ => exact brings_of_next rfl (by simp [hkind])
  | discard hkind => exact brings_of_next rfl (by simp [hkind])
  | shift _ _ hgo hpush =>
    obtain ⟨row, -, rfl⟩ := Option.map_eq_some_iff.1 hpush
    refine brings_of_next rfl ?_
    intro hkind
    rw [← hkind]
    exact hgo
  | reduce _ hr hne hpop _ hpush =>
    exact .reduces rfl (hp.falls hb hr hne hpop (Stack.view_push? hpush))
  | resume hin hfind hpush hskip hend =>
    rcases hset.recovers with hnone | ⟨hout, hbreak⟩
    · obtain ⟨_, -, -, hgo⟩ := findError_spec hfind
      rw [hnone] at hgo
      cases hgo
    · exact brings_of_skip? hout hbreak hin hpush hskip hend rfl rfl rfl

/-! ## Stopping -/

/-- A parser stops after some steps. -/
inductive Halts (t : Table) (acts : Actions σ V) : Machine σ V → Prop
  | done {m last : Machine σ V} {value : Option V} (hstep : m.step t acts = .done value last) :
      Halts t acts m
  | next {m m' : Machine σ V} (hstep : m.step t acts = .next m') (h : Halts t acts m') :
      Halts t acts m

/-- Behind the end a parser accepts. -/
theorem halts_behind_end (acts : Actions σ V) (hb : t.Backed g has) (hne : g.body 0 ≠ [])
    (hp : t.Path m.stack.frames) (hkind : m.token.kind = .eof)
    (hgo : t.goto? m.stack.top.state Kind.eof.num = none)
    (hr : t.reduce? m.stack.top.state = some (g.reductionBy 0)) : m.Halts t acts := by
  obtain ⟨row, hrow, hstep⟩ := step_unshifted acts (by rw [hkind]; rfl) (by rw [hkind]; exact hgo) hr
  obtain ⟨popped, rest, value, others, -, -, hby⟩ := reduceBy_accepted acts hb hne hp hr rfl
  have hmay : mayReduce (g.reductionBy 0) m.token (atLineStart m.stack) = true := by
    simp [mayReduce, endsLine, hkind]
  have hzero : (g.reductionBy 0).prod = 0 := rfl
  obtain ⟨last, hdone⟩ : ∃ last, m.step t acts = .done (some value) last := by
    rw [hstep]
    simp [reduceOrFail, hrow, hmay, size_lt_of_reduce hb hp hr, hzero, hby]
  exact .done hdone

section

variable (hb : t.Backed g has) (hne : g.body 0 ≠ []) (hstart : ∀ q, t.goto? q g.start = none)
  (hset : t.Settles g)

include hb hne hstart hset

/-- A parser that can shift its token stops, if it stops once there is less to read. -/
theorem Ready.halts {work : Nat}
    (hless : ∀ m : Machine σ V, t.Path m.stack.frames → m.workLeft < work → m.Halts t acts)
    (hp : t.Path m.stack.frames) (hwork : m.workLeft = work)
    (hkind : m.token.kind.isLayout = false ∨ m.token.kind = .newline ∧ BreaksFirst t)
    (h : m.Ready t n) : m.Halts t acts := by
  induction n generalizing m with
  | zero =>
    obtain ⟨lineStart, hcan, -⟩ := h
    cases hcan
  | succ n ih =>
    obtain ⟨m', verb, hstep, hstep'⟩ := h.step acts hb hstart hp hkind
    have hp' := step_path hb hne hp hstep
    refine .next hstep ?_
    rcases hstep' with htakes | ⟨hreduces, hready⟩
    · rcases workLeft_of_next htakes.next with hlt | ⟨heof, hend⟩
      · exact hless m' hp' (hwork ▸ hlt)
      · rcases htakes.verb_eq with ⟨-, hgo⟩ | ⟨-, hline⟩
        · rw [heof] at hgo
          obtain ⟨hnone, haccept⟩ := hset.last _ _ hgo
          exact halts_behind_end acts hb hne hp' hend hnone haccept
        · rw [heof] at hline
          cases hline
    · refine ih hp' ?_ ?_ hready
      · rw [← hwork, workLeft, workLeft, hreduces.token, hreduces.input]
      · rw [hreduces.token]
        exact hkind

/-- **A parser stops**, from every stack. -/
theorem halts (hp : t.Path m.stack.frames) : m.Halts t acts := by
  -- by what there is to read, and then by the reductions that are possible
  generalize hwork : m.workLeft = work
  induction work using Nat.strong_induction_on generalizing m with
  | _ work hless =>
    replace hless (m : Machine σ V) (hp : t.Path m.stack.frames) (hlt : m.workLeft < work) :
        m.Halts t acts := hless m.workLeft hlt hp rfl
    generalize hsyms : m.stack.syms = γ
    induction γ using hset.falls.induction generalizing m with
    | _ γ hfewer =>
      cases hstep : m.step t acts with
      | done value last => exact .done hstep
      | broken m' => exact absurd hstep (step_ne_broken hb hne hp)
      | next m' =>
        have hp' := step_path hb hne hp hstep
        refine .next hstep ?_
        cases (step_turn hb hne hp hstep).brings hb hset hp with
        | takes hlt => exact hless m' hp' (hwork ▸ hlt)
        | ends hend hgo =>
          obtain ⟨hnone, haccept⟩ := hset.last _ _ hgo
          exact halts_behind_end acts hb hne hp' hend hnone haccept
        | reduces hsame hfalls =>
          exact hfewer _ (hsyms ▸ hfalls) hp' (hsame.trans hwork) rfl
        | resumes hsame hkind hready =>
          obtain ⟨n, hready⟩ := hready
          exact hready.halts hb hne hstart hset hless hp' (hsame.trans hwork) hkind

end

/-- A parser that stops is done after some steps, and a run of it ends so if it may go on for long
    enough. -/
theorem Halts.finishes (h : m.Halts t acts) : ∃ n mid value last,
    m.after t acts n = some mid ∧ mid.step t acts = .done value last ∧
    ∃ bound, ∀ budget steps, bound ≤ budget → n < steps →
      m.runFor t acts budget steps = ⟨.finished value, last⟩ := by
  induction h with
  | @done m last value hstep =>
    refine ⟨0, m, value, last, rfl, hstep, last.calls, ?_⟩
    intro budget steps hbudget hsteps
    obtain ⟨steps, rfl⟩ := Nat.exists_eq_succ_of_ne_zero (Nat.ne_of_gt hsteps)
    rw [runFor, hstep]
    simp [Run.within, Nat.not_lt.2 hbudget]
  | @next m m' hstep _ ih =>
    obtain ⟨n, mid, value, last, hafter, hdone, bound, hrun⟩ := ih
    refine ⟨n + 1, mid, value, last, by rw [after, hstep]; exact hafter, hdone,
      max bound m'.calls, ?_⟩
    intro budget steps hbudget hsteps
    obtain ⟨steps, rfl⟩ := Nat.exists_eq_succ_of_ne_zero (Nat.ne_of_gt (Nat.zero_lt_of_lt hsteps))
    rw [runFor, hstep]
    have hcalls : ¬ budget < m'.calls := by omega
    simp only [hcalls, if_false]
    exact hrun budget steps (by omega) (by omega)

end Machine

/-! ## Grammars -/

namespace Table.Renames

variable {g : Grammar} {t t' : Table} {f : Nat → Nat} (h : t.Renames f t')

include h

theorem goto? (q sym : Nat) : t'.goto? (f q) sym = (t.goto? q sym).map f :=
  h.goto q sym

theorem reduce? (q : Nat) : t'.reduce? (f q) = t.reduce? q := by
  have hrow := h.row q
  unfold Table.reduce?
  generalize t.row? q = row at hrow
  generalize t'.row? (f q) = row' at hrow
  cases hrow with
  | none => rfl
  | some hrow => exact hrow.reduce

theorem walk? (γ : List Nat) : t'.walk? γ = (t.walk? γ).map f := by
  induction γ with
  | nil => exact congrArg some h.start.symm
  | cons sym γ ih =>
    rw [Table.walk?, Table.walk?, ih]
    cases t.walk? γ with
    | none => rfl
    | some q => exact h.goto? q sym

/-- Reductions do not hang on the names of the states. -/
theorem falls_iff {γ γ' : List Nat} : t'.Falls g γ γ' ↔ t.Falls g γ γ' := by
  constructor
  · rintro ⟨q', p, before, hq', hr, hrest⟩
    rw [h.walk?] at hq'
    obtain ⟨q, hq, rfl⟩ := Option.map_eq_some_iff.1 hq'
    exact ⟨q, p, before, hq, by rw [← h.reduce?, hr], hrest⟩
  · rintro ⟨q, p, before, hq, hr, hrest⟩
    exact ⟨f q, p, before, by rw [h.walk?, hq]; rfl, by rw [h.reduce?, hr], hrest⟩

theorem breaksFirst (hbreak : Machine.BreaksFirst t') : Machine.BreaksFirst t := by
  intro q q' hgo
  rw [← h.reduce?]
  exact hbreak (f q) (f q') (by rw [h.goto?, hgo]; rfl)

end Table.Renames

namespace Grammar

open Automaton

variable {g : Grammar} {strength : Strength} {i : Item} {q q' : Nat}

/-- The end is the last symbol of the start production, and nowhere else. -/
def EndsOnce (g : Grammar) : Prop :=
  ∀ p < g.productions.size, ∀ d < (g.body p).length, (g.body p)[d]? = some Kind.eof.num →
    p = 0 ∧ d = 1

/-- A grammar with tables on which parsing comes to an end. -/
@[mk_iff]
structure Tame (g : Grammar) : Prop where
  /-- Some token asks for each reduction without tokens. -/
  prompt : g.Prompt
  unranked : g.Unranked
  ends : g.EndsOnce
  /-- There are no productions for errors, or the end of a level is not waited for and line breaks
      are not put off. -/
  recovers : g.uses .error = false ∨
    g.uses .outdent = false ∧ Machine.BreaksFirst (build g .lalr).table

instance (g : Grammar) : Decidable g.EndsOnce :=
  inferInstanceAs (Decidable (∀ p < g.productions.size, ∀ d < (g.body p).length,
    (g.body p)[d]? = some Kind.eof.num → p = 0 ∧ d = 1))

instance (g : Grammar) : Decidable g.Tame :=
  decidable_of_iff _ (tame_iff g).symm

theorem not_mem_body_of_uses {k : Kind} (h : g.uses k = false) (p : Nat) : k.num ∉ g.body p := by
  intro hmem
  have hp : p < g.productions.size := by
    by_contra hp
    simp [Grammar.body, Nat.not_lt.1 hp] at hmem
  obtain ⟨prod, hprod, -, hbody⟩ := exists_production hp
  have hnot := Array.any_eq_false'.1 h prod hprod
  rw [hbody, List.contains_iff_mem] at hnot
  exact hnot hmem

/-- Behind the end there is the start production, met as a whole. -/
theorem EndsOnce.eq_of_has (hg : g.WellFormed) (hends : g.EndsOnce)
    (hgo : (build g strength).table.goto? q Kind.eof.num = some q')
    (hi : (build g strength).Has q' i) : i = ⟨0, 2⟩ := by
  have hsound := build_sound hg.indexed strength
  obtain ⟨s, s', hs, hs', hkeys, -⟩ := hsound.edge hgo
  obtain ⟨s₁, hs₁, hi⟩ := hi
  obtain rfl := Option.some.inj (hs'.symm.trans hs₁)
  rw [hsound.keys_closure (build_processed hg.indexed hs'),
    mem_bareClosure hg.indexed s'.kernel.keys_nodup] at hi
  induction hi with
  | @kernel i hi =>
    rw [hkeys] at hi
    obtain ⟨j, -, hnext, rfl⟩ := mem_keys_target.1 hi
    have hp : j.prod < g.productions.size :=
      (Valid.of_next hnext).prod.elim id fun hzero => hzero ▸ hg.indexed.productions_pos
    obtain ⟨hd, -⟩ := List.getElem?_eq_some_iff.1 hnext
    obtain ⟨hprod, hdot⟩ := hends j.prod hp j.dot hd hnext
    rw [Item.advance, hprod, hdot]
  | predicted _ _ hnext _ ih =>
    -- a complete item waits for nothing
    obtain ⟨start, hbody⟩ := hg.start_body
    rw [ih] at hnext
    simp [Item.next?, hbody] at hnext

theorem EndsOnce.last (hg : g.WellFormed) (hends : g.EndsOnce)
    (hgo : (build g strength).table.goto? q Kind.eof.num = some q') :
    (build g strength).table.goto? q' Kind.eof.num = none ∧
      (build g strength).table.reduce? q' = some (g.reductionBy 0) := by
  have hsound := build_sound hg.indexed strength
  obtain ⟨start, hbody⟩ := hg.start_body
  obtain ⟨s, s', -, hs', hkeys, k, hk, hdot⟩ := hsound.edge hgo
  have hp := build_processed hg.indexed hs'
  have honly (i : Item) (hi : i ∈ s'.closure.keys) : i = ⟨0, 2⟩ :=
    hends.eq_of_has hg hgo ⟨s', hs', hi⟩
  have hmem : k ∈ s'.closure.keys := by
    obtain ⟨x, hx⟩ := SortedMap.exists_find?_of_mem_keys hk
    obtain ⟨y, hy, -⟩ := hp.find?_kernel (build_complete hg.indexed hs') hx
    exact SortedMap.mem_keys_of_find? hy
  constructor
  · by_contra hne
    obtain ⟨q'', hgo'⟩ := Option.ne_none_iff_exists'.1 hne
    obtain ⟨s₁, hs₁, hfind⟩ := goto?_table.1 hgo'
    obtain rfl := Option.some.inj (hs'.symm.trans hs₁)
    obtain ⟨hnext, -⟩ := (hp.symbols _).1 (SortedMap.mem_keys_of_find? hfind)
    obtain ⟨j, hj, hnext⟩ := mem_nextSymbols.1 hnext
    rw [honly j hj, hsound.grammar_eq] at hnext
    simp [Item.next?, hbody] at hnext
  · have hnone : k.next? g = none := by
      rw [honly k hmem]
      simp [Item.next?, hbody]
    obtain ⟨p, hred⟩ := exists_reduction hmem hnone
    obtain ⟨j, hj, -, rfl⟩ := reduction_mem hred
    refine reduce?_table.2 ⟨s', j.prod, hs', ?_, ?_⟩
    · rw [hp.reduce, hsound.grammar_eq, hred]
    · rw [honly j hj, hsound.grammar_eq]

/-- **On the tables of a tame grammar parsing comes to an end**, without conflicts. -/
theorem Tame.settles (hg : g.WellFormed) (hc : (build g .lalr).conflicts = []) (h : g.Tame)
    (strength : Strength) : (build g strength).table.Settles g := by
  have hsound := build_sound hg.indexed strength
  obtain ⟨f, hf⟩ := exists_renames_build hg.indexed strength
  obtain ⟨f', hf'⟩ := exists_renames_build hg.indexed .lr1
  constructor
  · -- reductions are the same at full strength
    refine Subrelation.wf ?_ (wellFounded_falls hg hc h.unranked h.prompt)
    intro γ' γ hfalls
    exact hf'.falls_iff.1 (hf.falls_iff.2 hfalls)
  · intro q q' hgo
    exact h.ends.last hg hgo
  · refine h.recovers.imp ?_ ?_
    · intro herror
      exact hsound.goto?_eq_none (not_mem_body_of_uses herror)
    · rintro ⟨hout, hbreak⟩
      exact ⟨hsound.goto?_eq_none (not_mem_body_of_uses hout), hf.breaksFirst hbreak⟩

end Grammar

open Automaton in
/-- **Parsing comes to an end.**  On the tables of a tame grammar without conflicts, a parser is
    done after finitely many steps, whatever the tokens are; so `parse` gives the result for every
    budget that is large enough. -/
theorem parse_halts {code : List CodeNode} {g : Grammar} (hread : Grammar.read code = .ok g)
    (hc : (build g .lalr).conflicts = []) (htame : g.Tame) (strength : Strength)
    (acts : Actions σ V) (memory : σ) (input : Input) : ∃ n m value last,
      (Machine.start (build g strength).table memory input).after (build g strength).table acts n =
        some m ∧
      m.step (build g strength).table acts = .done value last ∧
      ∃ bound, ∀ budget, bound ≤ budget →
        parse (build g strength).table acts memory input budget = ⟨.finished value, last⟩ := by
  have hg := Grammar.read_wellFormed hread
  have hsound := build_sound (Grammar.read_wellFormed hread).indexed strength
  have hhalts : (Machine.start (build g strength).table memory input).Halts
      (build g strength).table acts :=
    Machine.halts hsound.backed hg.body_ne_nil (hsound.goto?_eq_none hg.start)
      (htame.settles hg hc strength) (Machine.start_path _ memory input)
  obtain ⟨n, m, value, last, hafter, hdone, bound, hrun⟩ := hhalts.finishes
  refine ⟨n, m, value, last, hafter, hdone, max bound n, ?_⟩
  intro budget hbudget
  exact hrun budget _ (by omega) (by omega)

/-- Lines with a number each, or with an error. -/
def lineByLine : String :=
  "S -> L\n   | S L\nL -> A NEWLINE\n   | ERROR NEWLINE\nA -> W\nW -> NUMBER\n"

/-- Two lines, the first with a word behind the number. -/
def strayWord : Input :=
  .ofList [(.number, ['1']), (.word, ['x']), (.newline, []), (.number, ['2']), (.newline, [])]

open Automaton in
set_option maxRecDepth 100000 in
/-- The end of a line asks for a reduction without tokens, and parsing goes on after an error. -/
theorem parse_halts_lineByLine : ∃ g, Grammar.readText lineByLine = .ok g ∧
    (build g .lalr).conflicts = [] ∧ g.Tame ∧ ∃ n m value last,
      (Machine.start (build g .lalr).table {} strayWord).after (build g .lalr).table treeActions n =
        some m ∧
      m.step (build g .lalr).table treeActions = .done value last ∧
      ∃ bound, ∀ budget, bound ≤ budget →
        parse (build g .lalr).table treeActions {} strayWord budget = ⟨.finished value, last⟩ := by
  obtain ⟨g, hg, htest⟩ := Grammar.exists_readText lineByLine
    (fun g => decide ((build g .lalr).conflicts = [] ∧ g.Tame)) (by decide +kernel)
  obtain ⟨hc, htame⟩ := of_decide_eq_true htest
  exact ⟨g, hg, hc, htame, parse_halts hg hc htame .lalr treeActions {} strayWord⟩

end LayoutLR
