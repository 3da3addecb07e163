/-
  Layout-aware LR toolkit — the levels on the stack.

  A level that is opened is recorded on the frame on top, moves down with the
  frames that are reduced, and goes when it is closed.  After an error the levels
  of the frames that are dropped stay open, and those of the tokens that are
  skipped are followed.  So the stack has the levels that the tokens have opened
  and not closed, but for the ends of levels at which an error was met: these are
  dropped and nothing is closed.

  * `openings`, `closings`: the levels that tokens open and close;
  * `Stack.levels`: the levels on a stack;
  * `Machine.skip?_levels`: skipping follows the levels;
  * `levels_counted`: the levels at every step of a run.
-/
import LayoutLR.Proofs.Parser.Recovery

namespace LayoutLR

variable {σ V : Type}

/-! ## Counting levels -/

/-- The levels that tokens open. -/
def openings (tokens : List Token) : Nat :=
  tokens.countP fun u => u.kind == .indent

/-- The levels that tokens close. -/
def closings (tokens : List Token) : Nat :=
  tokens.countP fun u => u.kind == .outdent

@[simp]
theorem openings_nil : openings [] = 0 :=
  rfl

@[simp]
theorem closings_nil : closings [] = 0 :=
  rfl

@[simp]
theorem openings_cons (u : Token) (tokens : List Token) :
    openings (u :: tokens) = openings tokens + if u.kind = .indent then 1 else 0 := by
  simp [openings, List.countP_cons]

@[simp]
theorem closings_cons (u : Token) (tokens : List Token) :
    closings (u :: tokens) = closings tokens + if u.kind = .outdent then 1 else 0 := by
  simp [closings, List.countP_cons]

@[simp]
theorem openings_append (tokens tokens' : List Token) :
    openings (tokens ++ tokens') = openings tokens + openings tokens' := by
  simp [openings]

@[simp]
theorem closings_append (tokens tokens' : List Token) :
    closings (tokens ++ tokens') = closings tokens + closings tokens' := by
  simp [closings]

/-- Whether an error was met at the end of a level. -/
def Note.losesEnd : Note V → Bool
  | .act verb _ token => verb == .error && token.kind == .outdent
  | .take | .tooShort _ | .noTransition _ _ => false

namespace Stack

/-- The levels that are open on a stack. -/
def levels (s : Stack V) : Nat :=
  total (s.frames.map Frame.indents)

theorem levels_push? {t : Table} {s s' : Stack V} {state sym indents : Nat} {startsLine : Bool}
    {value : V} (h : s.push? t state sym indents startsLine value = some s') :
    s'.levels = indents + s.levels := by
  obtain ⟨row, -, rfl⟩ := Option.map_eq_some_iff.1 h
  rfl

theorem levels_append {s rest : Stack V} {popped : List (Frame V)}
    (h : s.frames = popped ++ rest.frames) :
    s.levels = total (popped.map Frame.indents) + rest.levels := by
  rw [levels, h, List.map_append, total_append]
  rfl

@[simp]
theorem levels_recordIndent (s : Stack V) (startsLine : Bool) :
    (s.recordIndent startsLine).levels = s.levels + 1 := by
  simp only [levels, recordIndent, updateTop, frames, List.map_cons, total_cons]
  omega

theorem levels_addIndents (s : Stack V) (indents : Nat) :
    (Machine.addIndents s indents).levels = s.levels + indents := by
  simp only [levels, Machine.addIndents, updateTop, frames, List.map_cons, total_cons]
  omega

theorem indents_refreshAll (t : Table) (upper below : List (Frame V)) :
    (refreshAll t upper below).map Frame.indents = (upper ++ below).map Frame.indents :=
  map_refreshAll (fun _ _ _ => rfl) t upper below

theorem levels_ofFrames (s : Stack V) {fs : List (Frame V)} (h : fs ≠ []) :
    (s.ofFrames fs).levels = total (fs.map Frame.indents) := by
  cases fs with
  | nil => exact absurd rfl h
  | cons f fs => rfl

/-- A level that can be cancelled is one less. -/
theorem levels_cancelIndent (t : Table) {s : Stack V} (h : s.canCancelIndent = true) :
    (s.cancelIndent t).levels + 1 = s.levels := by
  unfold canCancelIndent at h
  split at h
  · rename_i f hf
    have hpos : 0 < f.indents := by simpa using h
    obtain ⟨below, hdrop⟩ : ∃ below, s.frames.drop s.top.sinceIndent = f :: below := by
      obtain ⟨hlt, rfl⟩ := List.getElem?_eq_some_iff.1 hf
      exact ⟨_, List.drop_eq_getElem_cons hlt⟩
    have hlevels : s.levels = total ((s.frames.take s.top.sinceIndent).map Frame.indents) +
        (f.indents + total (below.map Frame.indents)) := by
      rw [levels, ← total_cons, ← List.map_cons, ← hdrop, ← total_append, ← List.map_append,
        List.take_append_drop]
    unfold cancelIndent
    dsimp only
    rw [hdrop]
    dsimp only
    rw [if_neg (Nat.ne_of_gt hpos), hlevels]
    split
    · rw [levels_ofFrames _ (by simp), List.map_append, total_append, List.map_cons, total_cons]
      dsimp only
      omega
    · have hne : refreshAll t (s.frames.take s.top.sinceIndent ++ [{ f with indents := f.indents - 1 }])
          below ≠ [] := by
        intro hnil
        have := congrArg (List.map Frame.indents) hnil
        simp [indents_refreshAll] at this
      rw [levels_ofFrames _ hne, indents_refreshAll]
      simp only [List.map_append, List.map_cons, List.map_nil, total_append, total_cons, total_nil]
      omega
  · cases h

end Stack

/-! ## Steps -/

namespace Machine

variable {g : Grammar} {t : Table} {has : Nat → Item → Prop} {acts : Actions σ V} {input : Input}
  {m m' : Machine σ V}

/-- The levels that are open after a token, if the end of a level finds one. -/
theorem openLevels_add {indents : Nat} {u : Token} (h : ¬ (u.kind = .outdent ∧ indents = 0)) :
    openLevels indents u.kind + (if u.kind = .outdent then 1 else 0) =
      indents + if u.kind = .indent then 1 else 0 := by
  unfold openLevels
  split <;> simp_all
  omega

/-- **Skipping follows the levels** of the tokens after the first one, up to the one where it
    stops, if it does not stop at layout because that can be shifted. -/
theorem skip?_levels {s : Stack V} {eof : Token} {sk : Skipped}
    (hplain : ∀ u : Token, inLookahead? t s u = some true →
      u.kind ≠ .indent ∧ u.kind ≠ .outdent) (tokens : List Token) :
    ∀ {must : Bool} {token : Token} {indents taken : Nat},
      skip? t s eof must token indents taken tokens = some sk →
      ∃ k, sk.taken = taken + k ∧ k ≤ tokens.length + 1 ∧
        (k = 0 → token.kind ≠ .indent ∧ token.kind ≠ .outdent) ∧
        sk.indents + closings (tokens.take (k - 1)) = indents + openings (tokens.take (k - 1)) := by
  have hstops {must : Bool} {token : Token} (h : stopsAt? t s must token = some true) :
      token.kind ≠ .indent ∧ token.kind ≠ .outdent := by
    unfold stopsAt? at h
    split at h
    · rename_i hkind
      simp [hkind]
    split at h
    · cases h
    · exact hplain token h
  induction tokens with
  | nil =>
    intro must token indents taken h
    rw [skip?] at h
    obtain ⟨stop, hstop, rfl⟩ := Option.map_eq_some_iff.1 h
    cases stop with
    | true => exact ⟨0, rfl, by simp, fun _ => hstops hstop, rfl⟩
    | false => exact ⟨1, rfl, by simp, by simp, rfl⟩
  | cons next rest ih =>
    intro must token indents taken h
    rw [skip?] at h
    split at h
    · cases h
    · rename_i hstop
      obtain rfl := Option.some.inj h
      exact ⟨0, rfl, by simp, fun _ => hstops hstop, rfl⟩
    · split at h
      · obtain rfl := Option.some.inj h
        exact ⟨1, rfl, by simp, by simp, rfl⟩
      · rename_i hout
        obtain ⟨k, htaken, hk, hzero, hlevels⟩ := ih h
        have hadd := openLevels_add hout
        refine ⟨k + 1, by omega, by simpa using hk, by simp, ?_⟩
        cases k with
        | zero =>
          obtain ⟨hin', hout'⟩ := hzero rfl
          simp [hin', hout'] at hlevels hadd ⊢
          omega
        | succ k =>
          simp at hlevels ⊢
          omega

/-- The levels on the stack are those that were opened and not closed before the token, with
    the ends of levels that were lost to errors. -/
def Levelled (input : Input) (m : Machine σ V) : Prop :=
  m.stack.levels + closings (input.take (m.taken - 1)) =
    openings (input.take (m.taken - 1)) + m.notes.countP Note.losesEnd

/-- A token was used up that changes the levels as it says. -/
theorem Levelled.advance (hread : m.Reads input) (hm : m.Levelled input)
    (hlevels : m'.stack.levels + (if m.token.kind = .outdent then 1 else 0) =
      m.stack.levels + if m.token.kind = .indent then 1 else 0)
    (htaken : m'.taken = m.taken + 1)
    (hnotes : m'.notes.countP Note.losesEnd = m.notes.countP Note.losesEnd) :
    m'.Levelled input := by
  obtain ⟨k, hk, htoken, -⟩ := hread.place
  unfold Levelled at hm ⊢
  rw [hk, Nat.add_sub_cancel] at hm
  rw [htaken, hk, Nat.add_sub_cancel, Input.take_succ, ← htoken, hnotes]
  simp only [closings_append, openings_append, closings_cons, openings_cons, closings_nil,
    openings_nil]
  omega

/-- The tokens before the one where skipping stops. -/
theorem take_skipped (hread : m.Reads input) {k : Nat} (hk : k ≤ m.input.tokens.length) :
    input.take (m.taken + k) = input.take (m.taken - 1) ++ m.token :: m.input.tokens.take k := by
  obtain ⟨j, hj, htoken, hinput, -⟩ := hread.place
  rw [hj, Nat.add_sub_cancel, htoken, hinput]
  induction k with
  | zero => simp [Input.take_succ]
  | succ k ih =>
    have hlt : k < m.input.tokens.length := hk
    rw [hinput] at hlt
    have hget : input.get (j + 1 + k) = (input.drop (j + 1)).tokens[k] := by
      have hlt' : j + 1 + k < input.tokens.length := by simp [Input.drop] at hlt; omega
      simp [Input.get, Input.drop, hlt']
    rw [← Nat.add_assoc, Input.take_succ, ih (by omega), hget, List.take_add_one,
      List.getElem?_eq_getElem hlt, List.append_assoc]
    rfl

/-- Where no body has layout in it, layout is never among the tokens that can follow. -/
theorem not_layout_of_inLookahead? {stack : Stack V} {u : Token}
    (hplain : ∀ q, t.goto? q Kind.indent.num = none ∧ t.goto? q Kind.outdent.num = none)
    (hu : inLookahead? t stack u = some true) : u.kind ≠ .indent ∧ u.kind ≠ .outdent := by
  obtain ⟨q, q', hgo⟩ := exists_goto_of_canShift? hu
  constructor
  · intro hkind
    rw [hkind, (hplain q).1] at hgo
    cases hgo
  · intro hkind
    rw [hkind, (hplain q).2] at hgo
    cases hgo

/-- **A step keeps the levels**, if no body has layout in it or there was no error. -/
theorem Turn.levelled (h : Turn t acts m m') (hread : m.Reads input) (hm : m.Levelled input)
    (hplain : (∀ q, t.goto? q Kind.indent.num = none ∧ t.goto? q Kind.outdent.num = none) ∨
      ∀ n ∈ m'.notes, n.isError = false) : m'.Levelled input := by
  cases h with
  | record startsLine hkind =>
    refine hm.advance hread ?_ rfl rfl
    simp [Machine.advance, note, hkind]
  | cancel hkind hopen =>
    refine hm.advance hread ?_ rfl rfl
    simpa [Machine.advance, note, hkind] using Stack.levels_cancelIndent t hopen
  | discard hkind =>
    refine hm.advance hread ?_ rfl rfl
    simp [Machine.advance, act, note, hkind]
  | shift hin hout _ hpush =>
    refine hm.advance hread ?_ rfl rfl
    simp [Machine.advance, act, note, hin, hout, Stack.levels_push? hpush]
  | @reduce r verb popped rest stack next hverb _ _ hpop _ hpush =>
    have hnotes : (m.act verb).notes.countP Note.losesEnd = m.notes.countP Note.losesEnd := by
      rcases hverb with rfl | rfl <;> rfl
    unfold Levelled at hm ⊢
    rw [hnotes]
    show stack.levels + _ = _
    rw [Stack.levels_push? hpush, ← Stack.levels_append (Stack.frames_pop? hpop)]
    exact hm
  | @resume dropped below stack next sk _ hin hfind hpush hskip _ =>
    rcases hplain with hplain | hquiet
    · obtain ⟨k, htaken, hk, hzero, hlevels⟩ :=
        skip?_levels (fun _ => not_layout_of_inLookahead? hplain) m.input.tokens hskip
      obtain ⟨top, rfl, hframes, -⟩ := findError_spec hfind
      have hbefore := Stack.levels_append hframes
      have hafter : (addIndents stack sk.indents).levels = below.levels + sk.indents := by
        rw [Stack.levels_addIndents, Stack.levels_push? hpush, Nat.zero_add]
      have hnotes : (List.replicate sk.taken Note.take ++ (m.act .error).notes).countP Note.losesEnd =
          m.notes.countP Note.losesEnd + if m.token.kind = .outdent then 1 else 0 := by
        simp [act, note, Note.losesEnd, List.countP_append, List.countP_replicate, List.countP_cons]
      unfold Levelled at hm ⊢
      dsimp only
      rw [hnotes, hafter, htaken, Nat.zero_add]
      cases k with
      | zero =>
        simp only [Nat.zero_sub, List.take_zero, closings_nil, openings_nil] at hlevels
        simp only [(hzero rfl).2, if_false, Nat.add_zero]
        omega
      | succ k =>
        simp only [Nat.add_sub_cancel] at hlevels
        rw [← Nat.add_assoc, Nat.add_sub_cancel, take_skipped hread (by omega)]
        simp only [closings_append, openings_append, closings_cons, openings_cons, hin, if_false]
        omega
    · have := hquiet (.act .error m.stack m.token)
        (List.mem_append_right _ (List.mem_cons_self ..))
      cases this

theorem start_levelled (t : Table) (memory : σ) (input : Input) :
    (start t memory input : Machine σ V).Levelled input :=
  rfl

/-- The levels at every step of a run. -/
theorem after_levelled (hb : t.Backed g has) (hne : g.body 0 ≠ []) {memory : σ} {n : Nat}
    (hm : (start t memory input).after t acts n = some m)
    (hplain : (∀ q, t.goto? q Kind.indent.num = none ∧ t.goto? q Kind.outdent.num = none) ∨
      ∀ note ∈ m.notes, note.isError = false) : m.Levelled input := by
  -- what was without an error at the end was so before, so the condition is part of the invariant
  refine (after_induction (P := fun m => t.Path m.stack.frames ∧ m.Reads input ∧
    (((∀ q, t.goto? q Kind.indent.num = none ∧ t.goto? q Kind.outdent.num = none) ∨
      ∀ note ∈ m.notes, note.isError = false) → m.Levelled input)) ?_ n _ m
    ⟨start_path t memory input, start_reads t memory input, fun _ => start_levelled t memory input⟩
    hm).2.2 hplain
  rintro m₁ m₂ ⟨hp, hr, hl⟩ hstep
  have hturn := step_turn hb hne hp hstep
  refine ⟨step_path hb hne hp hstep, hturn.move.reads hr, fun hplain => hturn.levelled hr (hl ?_) hplain⟩
  exact hplain.imp_right fun hquiet note hnote => hquiet note (hturn.notes_suffix.subset hnote)

end Machine

/-- **The levels on the stack are those that are open.**  They are the levels that the tokens
    before the current one have opened and not closed, and one more for every error at the end
    of a level, which closes nothing.  No body has layout in it, or there was no error. -/
theorem levels_counted {code : List CodeNode} {g : Grammar} (hread : Grammar.read code = .ok g)
    (strength : Strength) (acts : Actions σ V) (memory : σ) (input : Input) {n : Nat}
    {m : Machine σ V} (hm : (Machine.start (Automaton.build g strength).table memory input).after
      (Automaton.build g strength).table acts n = some m)
    (hplain : (∀ p, Kind.indent.num ∉ g.body p ∧ Kind.outdent.num ∉ g.body p) ∨
      ∀ note ∈ m.notes, note.isError = false) :
    m.stack.levels + closings (input.take (m.taken - 1)) =
      openings (input.take (m.taken - 1)) + m.notes.countP Note.losesEnd := by
  have hsound := Automaton.build_sound (Grammar.read_wellFormed hread).indexed strength
  refine Machine.after_levelled hsound.backed (Grammar.read_wellFormed hread).body_ne_nil hm ?_
  refine hplain.imp_left fun h q => ⟨?_, ?_⟩
  · exact hsound.goto?_eq_none (fun p => (h p).1) q
  · exact hsound.goto?_eq_none (fun p => (h p).2) q

/-- A number with a string behind it, which may be an error. -/
def brokenLine : String :=
  "S -> NUMBER T\nT -> STRING U\n   | ERROR\nU -> IDENTIFIER NUMBER\n"

/-- A level that ends too early. -/
def earlyEnd : Input :=
  .ofList [(.number, ['1']), (.indent, []), (.string, ['x']), (.word, ['y']), (.outdent, [])]

/-- Whether no body has the start or the end of a level in it. -/
def withoutLevels (g : Grammar) : Bool :=
  g.productions.all fun p => !p.body.contains Kind.indent.num && !p.body.contains Kind.outdent.num

theorem withoutLevels_spec {g : Grammar} (h : withoutLevels g = true) (p : Nat) :
    Kind.indent.num ∉ g.body p ∧ Kind.outdent.num ∉ g.body p := by
  unfold Grammar.body
  cases hp : g.productions[p]? with
  | none => simp
  | some prod =>
    have := Array.all_eq_true_iff_forall_mem.1 h prod (Array.mem_of_getElem? hp)
    simpa using this

set_option maxRecDepth 100000 in
/-- The fifth step meets an error at the end of the level, and one level stays open. -/
theorem levels_counted_earlyEnd : ∃ g m, Grammar.readText brokenLine = .ok g ∧
    (∀ p, Kind.indent.num ∉ g.body p ∧ Kind.outdent.num ∉ g.body p) ∧
    (Machine.start (Automaton.build g .lalr).table {} earlyEnd).after
      (Automaton.build g .lalr).table treeActions 5 = some m ∧
    m.notes.countP Note.losesEnd = 1 ∧
    m.stack.levels + closings (earlyEnd.take (m.taken - 1)) =
      openings (earlyEnd.take (m.taken - 1)) + 1 := by
  obtain ⟨g, hg, htest⟩ := Grammar.exists_readText brokenLine (fun g => withoutLevels g &&
    ((Machine.start (Automaton.build g .lalr).table {} earlyEnd).after
        (Automaton.build g .lalr).table treeActions 5).any
      fun (m : Machine TreeMemory Tree) => decide (m.notes.countP Note.losesEnd = 1))
    (by decide +kernel)
  obtain ⟨hwithout, htest⟩ := Bool.and_eq_true_iff.1 htest
  have hplain := withoutLevels_spec hwithout
  obtain ⟨m, hm, htest⟩ := (Option.any_eq_true _ _).1 htest
  have hlost : m.notes.countP Note.losesEnd = 1 := of_decide_eq_true htest
  have hlevels := levels_counted hg .lalr treeActions {} earlyEnd hm (Or.inl hplain)
  rw [hlost] at hlevels
  exact ⟨g, m, hg, hplain, hm, hlost, hlevels⟩

set_option maxRecDepth 100000 in
/-- **An error at the end of a level leaves it open**: all levels of the input are closed, and
    the stack still has one when the end is looked at. -/
theorem lost_end_stays_open : ∃ g m, Grammar.readText brokenLine = .ok g ∧
    (∀ k ≤ earlyEnd.tokens.length,
      closings (earlyEnd.tokens.take k) ≤ openings (earlyEnd.tokens.take k)) ∧
    (Machine.start (Automaton.build g .lalr).table {} earlyEnd).after
      (Automaton.build g .lalr).table treeActions 5 = some m ∧ m.token.kind = .eof ∧
    m.stack.levels = 1 ∧ openings (earlyEnd.take (m.taken - 1)) = 1 ∧
    closings (earlyEnd.take (m.taken - 1)) = 1 := by
  obtain ⟨g, hg, htest⟩ := Grammar.exists_readText brokenLine (fun g =>
    ((Machine.start (Automaton.build g .lalr).table {} earlyEnd).after
        (Automaton.build g .lalr).table treeActions 5).any
      fun (m : Machine TreeMemory Tree) => decide (m.token.kind = .eof ∧ m.stack.levels = 1 ∧
        openings (earlyEnd.take (m.taken - 1)) = 1 ∧ closings (earlyEnd.take (m.taken - 1)) = 1))
    (by decide +kernel)
  obtain ⟨m, hm, htest⟩ := (Option.any_eq_true _ _).1 htest
  exact ⟨g, m, hg, by decide, hm, of_decide_eq_true htest⟩

end LayoutLR
