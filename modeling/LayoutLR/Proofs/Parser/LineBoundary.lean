/-
  Layout-aware LR toolkit — where reductions that end a line happen.

  A production may be marked to end at a line boundary only.  Before a token that
  ends a line its reduction always may happen; before another one the frame on top
  has to be at the start of a line, and no level may be open there.  A frame is at
  the start of a line if it is the bottom, if it stands for a line break, if a
  level was recorded on it, or if it stands for a body with such a frame in it.
  The last case does not ask what came behind that frame: a symbol that goes over
  several lines passes for the start of one.

  * `lineStarted`: whether what came last starts a line;
  * `LineInside`, `GoesOn`: lines that start inside the symbol on top, and go on in it;
  * `Machine.KeepsLines`: what the frames tell about line starts;
  * `boundary_reduction_at_line_start`: where marked reductions happen;
  * `line_start_without_break`: line starts without a line break.
-/
import LayoutLR.Proofs.Parser.Errors

namespace LayoutLR

variable {σ V : Type}

/-! ## Line starts -/

/-- Whether a line starts behind what happens; `none` if it does not matter for that. -/
def Note.startsLine? : Note V → Option Bool
  | .act verb _ token =>
    if verb = .shift then some (token.kind == .newline) else if verb = .record then some true else none
  | .take | .tooShort _ | .noTransition _ _ => none

/-- Whether the last token that was shifted is a line break, or a level was recorded behind it;
    so it is before the first token. -/
def lineStarted : List (Note V) → Bool
  | [] => true
  | n :: notes => n.startsLine?.getD (lineStarted notes)

/-- A line starts in a frame with at least `d` frames below it. -/
inductive Note.StartsLine (d : Nat) : Note V → Prop
  | newline {stack : Stack V} {token : Token} (hkind : token.kind = .newline)
      (hd : d ≤ stack.size) : StartsLine d (.act .shift stack token)
  | record {stack : Stack V} {token : Token} (hd : d < stack.size) :
      StartsLine d (.act .record stack token)

/-- Something happens on a stack of more than `d` frames, if to a token. -/
def Note.Above (d : Nat) : Note V → Prop
  | .act _ stack _ => d < stack.size
  | .take | .tooShort _ | .noTransition _ _ => True

/-- A line started in a frame with at least `d` frames below it, and there were more than `d`
    frames ever since. -/
inductive LineInside (d : Nat) : List (Note V) → Prop
  | start {n : Note V} {notes : List (Note V)} (hn : n.StartsLine d) : LineInside d (n :: notes)
  | later {n : Note V} {notes : List (Note V)} (hn : n.Above d) (h : LineInside d notes) :
      LineInside d (n :: notes)

/-- A token was shifted behind such a line start, and there were more than `d` frames ever
    since. -/
inductive GoesOn (d : Nat) : List (Note V) → Prop
  | shift {stack : Stack V} {token : Token} {notes : List (Note V)} (hd : d < stack.size)
      (h : LineInside d notes) : GoesOn d (.act .shift stack token :: notes)
  | later {n : Note V} {notes : List (Note V)} (hn : n.Above d) (h : GoesOn d notes) :
      GoesOn d (n :: notes)

theorem Note.StartsLine.mono {d e : Nat} {n : Note V} (h : n.StartsLine e) (hle : d ≤ e) :
    n.StartsLine d := by
  cases h with
  | newline hkind hd => exact .newline hkind (Nat.le_trans hle hd)
  | record hd => exact .record (Nat.lt_of_le_of_lt hle hd)

theorem Note.Above.mono {d e : Nat} {n : Note V} (h : n.Above e) (hle : d ≤ e) : n.Above d := by
  cases n with
  | act verb stack token => exact Nat.lt_of_le_of_lt hle h
  | take | tooShort | noTransition => trivial

theorem Note.StartsLine.startsLine? {d : Nat} {n : Note V} (h : n.StartsLine d) :
    n.startsLine? = some true := by
  cases h with
  | newline hkind => simp [Note.startsLine?, hkind]
  | record => rfl

namespace LineInside

variable {d e : Nat} {notes : List (Note V)}

theorem mono (h : LineInside e notes) (hle : d ≤ e) : LineInside d notes := by
  induction h with
  | start hn => exact .start (hn.mono hle)
  | later hn _ ih => exact .later (hn.mono hle) ih

theorem extend (h : LineInside d notes) {new : List (Note V)} (hnew : ∀ n ∈ new, n.Above d) :
    LineInside d (new ++ notes) := by
  induction new with
  | nil => exact h
  | cons n new ih =>
    exact .later (hnew n (by simp)) (ih fun n' hn' => hnew n' (by simp [hn']))

/-- Behind a line start inside there is nothing yet, or the line goes on. -/
theorem started_or_goesOn (h : LineInside d notes) : lineStarted notes = true ∨ GoesOn d notes := by
  induction h with
  | start hn => exact Or.inl (by rw [lineStarted, hn.startsLine?]; rfl)
  | @later n notes hn h ih =>
    by_cases hshift : ∃ stack token, n = .act .shift stack token
    · obtain ⟨stack, token, rfl⟩ := hshift
      exact Or.inr (.shift hn h)
    · refine ih.imp (fun hstarted => ?_) (.later hn)
      -- only a shift could undo it
      rw [lineStarted, hstarted]
      cases n with
      | act verb stack token =>
        have hverb : verb ≠ .shift := by
          rintro rfl
          exact hshift ⟨stack, token, rfl⟩
        simp only [Note.startsLine?, if_neg hverb]
        split <;> rfl
      | take | tooShort | noTransition => rfl

end LineInside

/-- Whether a reduction is noted that is not the last one. -/
def Note.isReduction : Note V → Bool
  | .act verb _ _ => verb == .reduce || verb == .force
  | .take | .tooShort _ | .noTransition _ _ => false

/-! ## Frames since the start of a line -/

namespace Stack

variable {t : Table} {s s' rest : Stack V}

/-- What the frames tell about line starts, from the top down. -/
def lines (s : Stack V) : List Nat :=
  s.frames.map Frame.sinceNewline

theorem length_lines (s : Stack V) : s.lines.length = s.size := by
  simp [lines, size_eq]

theorem lines_push? {state sym indents : Nat} {startsLine : Bool} {value : V}
    (h : s.push? t state sym indents startsLine value = some s') :
    s'.lines = (if startsLine then 0 else s.top.sinceNewline + 1) :: s.lines := by
  obtain ⟨row, -, rfl⟩ := Option.map_eq_some_iff.1 h
  rfl

theorem lines_append {popped : List (Frame V)} (h : s.frames = popped ++ rest.frames) :
    s.lines = popped.map Frame.sinceNewline ++ rest.lines := by
  rw [lines, h, List.map_append]
  rfl

theorem lines_cancelIndent (t : Table) (s : Stack V) : (s.cancelIndent t).lines = s.lines :=
  map_cancelIndent (fun _ _ _ => rfl) (fun _ _ => rfl) t s

theorem lines_addIndents (s : Stack V) (indents : Nat) :
    (Machine.addIndents s indents).lines = s.lines :=
  rfl

theorem below_ne_nil_of_push? {state sym indents : Nat} {startsLine : Bool} {value : V}
    (h : s.push? t state sym indents startsLine value = some s') : s'.below ≠ [] := by
  obtain ⟨row, -, rfl⟩ := Option.map_eq_some_iff.1 h
  simp [frames]

theorem below_cancelIndent (h : (s.cancelIndent t).below = []) : s.below = [] := by
  have hlen := congrArg List.length (lines_cancelIndent t s)
  simpa [lines, frames, h] using hlen

end Stack

namespace Machine

variable {g : Grammar} {t : Table} {has : Nat → Item → Prop} {acts : Actions σ V}
  {m m' : Machine σ V} {stack : Stack V}

/-- Where the frames tell of a line start there was one, inside the symbol of the frame; and if
    there is only the bottom, nothing was shifted. -/
structure KeepsLines (stack : Stack V) (notes : List (Note V)) : Prop where
  inside : ∀ rest, 0 :: rest <:+ stack.lines → rest ≠ [] → LineInside rest.length notes
  bottom : stack.below = [] → lineStarted notes = true

/-- Frames that were there tell the same after something happened to the token. -/
theorem KeepsLines.still (h : KeepsLines m.stack m.notes) (new : List (Note V))
    (hnew : ∀ n ∈ new, n = .take ∨ ∃ verb, n = .act verb m.stack m.token) {rest : List Nat}
    (hsuffix : 0 :: rest <:+ m.stack.lines) (hne : rest ≠ []) :
    LineInside rest.length (new ++ m.notes) := by
  refine (h.inside rest hsuffix hne).extend fun n hn => ?_
  rcases hnew n hn with rfl | ⟨verb, rfl⟩
  · trivial
  · have hlen := hsuffix.length_le
    rw [Stack.length_lines, List.length_cons] at hlen
    exact hlen

/-- A frame on top of old ones. -/
theorem KeepsLines.push (h : KeepsLines m.stack m.notes) (new : List (Note V)) {x : Nat}
    {lower : List Nat} (hnew : ∀ n ∈ new, n = .take ∨ ∃ verb, n = .act verb m.stack m.token)
    (hlower : lower <:+ m.stack.lines) (hlines : stack.lines = x :: lower) (hne : stack.below ≠ [])
    (htop : x = 0 → LineInside lower.length (new ++ m.notes)) :
    KeepsLines stack (new ++ m.notes) := by
  refine ⟨fun rest hsuffix hrest => ?_, fun hnil => absurd hnil hne⟩
  rw [hlines] at hsuffix
  rcases List.suffix_cons_iff.1 hsuffix with heq | hsuffix
  · obtain ⟨hx, rfl⟩ := List.cons.inj heq
    exact htop hx.symm
  · exact h.still new hnew (hsuffix.trans hlower) hrest

theorem Turn.keepsLines (h : Turn t acts m m') (hm : KeepsLines m.stack m.notes) :
    KeepsLines m'.stack m'.notes := by
  cases h with
  | record startsLine hkind =>
    refine ⟨fun rest hsuffix hne => ?_, fun _ => rfl⟩
    have hsuffix : 0 :: rest <:+ 0 :: m.stack.below.map Frame.sinceNewline := hsuffix
    rcases List.suffix_cons_iff.1 hsuffix with heq | hsuffix
    · have hlen : rest.length = m.stack.below.length := by simp [(List.cons.inj heq).2]
      rw [hlen]
      exact .later trivial (.start (.record (Nat.lt_succ_self _)))
    · exact hm.still [.take, .act .record m.stack m.token] (by simp)
        (hsuffix.trans (List.suffix_cons _ _)) hne
  | cancel hkind hopen =>
    refine ⟨fun rest hsuffix hne => ?_, fun hnil => hm.bottom (Stack.below_cancelIndent hnil)⟩
    have hsuffix : 0 :: rest <:+ (m.stack.cancelIndent t).lines := hsuffix
    rw [Stack.lines_cancelIndent] at hsuffix
    exact hm.still [.take, .act .cancel m.stack m.token] (by simp) hsuffix hne
  | discard hkind =>
    refine ⟨fun rest hsuffix hne => ?_, hm.bottom⟩
    exact hm.still [.take, .act .discard m.stack m.token] (by simp) hsuffix hne
  | shift hin hout hgo hpush =>
    refine hm.push [.take, .act .shift m.stack m.token] (by simp) (List.suffix_refl _)
      (Stack.lines_push? hpush) (Stack.below_ne_nil_of_push? hpush) fun hx => ?_
    rw [Stack.length_lines]
    refine .later trivial (.start (.newline ?_ (Nat.le_refl _)))
    by_contra hkind
    simp [hkind] at hx
  | @reduce r verb popped rest stack next hverb hr hne hpop hgo hpush =>
    have hlines := Stack.lines_append (Stack.frames_pop? hpop)
    refine hm.push [.act verb m.stack m.token] (by simp) (hlines ▸ List.suffix_append _ _)
      (Stack.lines_push? hpush) (Stack.below_ne_nil_of_push? hpush) fun hx => ?_
    -- the body has a frame that is at the start of a line
    have hany : popped.any (fun f => f.sinceNewline == 0) = true := by
      by_contra hany
      simp [hany] at hx
    obtain ⟨f, hf, hzero⟩ := List.any_eq_true.1 hany
    obtain ⟨upper, lower, hsplit⟩ := List.append_of_mem hf
    rw [hsplit, List.map_append, List.map_cons, beq_iff_eq.1 hzero, List.append_assoc,
      List.cons_append] at hlines
    have hsuffix : 0 :: (lower.map Frame.sinceNewline ++ rest.lines) <:+ m.stack.lines :=
      hlines ▸ List.suffix_append _ _
    refine (hm.still [.act verb m.stack m.token] (by simp) hsuffix ?_).mono ?_
    · simp [Stack.lines, Stack.frames]
    · simp
  | @resume dropped below stack next sk eofError hin hfind hpush hskip hend =>
    obtain ⟨top, -, hframes, -⟩ := findError_spec hfind
    have hlines := Stack.lines_append hframes
    have hsteps : List.replicate sk.taken .take ++ (m.act .error).notes =
        (List.replicate sk.taken .take ++ [.act .error m.stack m.token]) ++ m.notes := by
      rw [List.append_assoc]
      rfl
    show KeepsLines (addIndents stack sk.indents) (List.replicate sk.taken .take ++ (m.act .error).notes)
    rw [hsteps]
    have hbelow : stack.below ≠ [] := Stack.below_ne_nil_of_push? hpush
    refine hm.push _ (fun n hn => ?_) (hlines ▸ List.suffix_append _ _)
      ((Stack.lines_addIndents _ _).trans (Stack.lines_push? hpush)) hbelow fun hx => by simp at hx
    rcases List.mem_append.1 hn with hn | hn
    · exact Or.inl (List.eq_of_mem_replicate hn)
    · exact Or.inr ⟨.error, List.mem_singleton.1 hn⟩

theorem start_keepsLines (t : Table) (memory : σ) (input : Input) :
    KeepsLines (start t memory input : Machine σ V).stack (start t memory input : Machine σ V).notes := by
  refine ⟨fun rest hsuffix hrest => ?_, fun _ => rfl⟩
  rcases List.suffix_cons_iff.1 hsuffix with heq | hsuffix
  · exact absurd (List.cons.inj heq).2 hrest
  · cases List.suffix_nil.1 hsuffix

/-! ## Reductions -/

/-- The reductions that were noted were allowed, on stacks that tell about line starts. -/
def AllowedReductions (t : Table) (notes : List (Note V)) : Prop :=
  ∀ verb s u past, .act verb s u :: past <:+ notes →
    (Note.act verb s u : Note V).isReduction = true → KeepsLines s past ∧
      ∀ r, t.reduce? s.top.state = some r → mayReduce r u (atLineStart s) = true

theorem AllowedReductions.append {notes : List (Note V)} (h : AllowedReductions t notes) :
    ∀ new, (∀ n ∈ new, n.isReduction = false) → AllowedReductions t (new ++ notes)
  | [], _ => h
  | n :: new, hnew => by
    intro verb s u past hpast hred
    rcases List.suffix_cons_iff.1 hpast with heq | hpast
    · rw [(List.cons.inj heq).1, hnew n List.mem_cons_self] at hred
      cases hred
    · exact h.append new (fun n' hn' => hnew n' (List.mem_cons_of_mem _ hn')) verb s u past hpast hred

theorem Turn.allowedReductions (h : Turn t acts m m') (hm : KeepsLines m.stack m.notes)
    (ha : AllowedReductions t m.notes) : AllowedReductions t m'.notes := by
  cases h with
  | record => exact ha.append [.take, .act .record m.stack m.token] (by simp [Note.isReduction])
  | cancel => exact ha.append [.take, .act .cancel m.stack m.token] (by simp [Note.isReduction])
  | discard => exact ha.append [.take, .act .discard m.stack m.token] (by simp [Note.isReduction])
  | shift => exact ha.append [.take, .act .shift m.stack m.token] (by simp [Note.isReduction])
  | @resume _ _ _ _ sk =>
    exact (ha.append [.act .error m.stack m.token] (by simp [Note.isReduction])).append
      (List.replicate sk.taken .take) (by simp [Note.isReduction])
  | reduce _ hr _ _ _ _ hmay =>
    intro verb s u past hpast hred
    rcases List.suffix_cons_iff.1 hpast with heq | hpast
    · obtain ⟨hact, rfl⟩ := List.cons.inj heq
      cases hact
      refine ⟨hm, fun r' hr' => ?_⟩
      obtain rfl := Option.some.inj (hr'.symm.trans hr)
      exact hmay
    · exact ha verb s u past hpast hred

theorem Closes.allowedReductions {notes : List (Note V)} (h : m.Closes notes)
    (ha : AllowedReductions t m.notes) : AllowedReductions t notes := by
  cases h with
  | quiet => exact ha
  | accept => exact ha.append [.act .accept m.stack m.token] (by simp [Note.isReduction])
  | error k =>
    exact (ha.append [.act .error m.stack m.token] (by simp [Note.isReduction])).append
      (List.replicate k .take) (by simp [Note.isReduction])

theorem after_allowedReductions (hb : t.Backed g has) (hne : g.body 0 ≠ []) {memory : σ}
    {input : Input} {n : Nat} (h : (start t memory input).after t acts n = some m) :
    t.Path m.stack.frames ∧ KeepsLines m.stack m.notes ∧ AllowedReductions t m.notes := by
  refine after_induction (P := fun m => t.Path m.stack.frames ∧ KeepsLines m.stack m.notes ∧
    AllowedReductions t m.notes) (fun m₁ m₂ hm hstep => ?_) n _ m
    ⟨start_path t memory input, start_keepsLines t memory input, fun verb s u past hpast => ?_⟩ h
  · obtain ⟨hp, hlines, ha⟩ := hm
    have hturn := step_turn hb hne hp hstep
    exact ⟨hturn.move.path hb hp, hturn.keepsLines hlines, hturn.allowedReductions hlines ha⟩
  · rcases List.suffix_cons_iff.1 hpast with heq | hpast
    · cases (List.cons.inj heq).1
    · cases List.suffix_nil.1 hpast

/-- All reductions of a run are allowed. -/
theorem parse_allowedReductions (hb : t.Backed g has) (hne : g.body 0 ≠ []) (acts : Actions σ V)
    (memory : σ) (input : Input) (budget : Nat) :
    AllowedReductions t (parse t acts memory input budget).machine.notes := by
  obtain ⟨n, m, hm, hend⟩ := runFor_cases t acts budget (input.tokens.length + budget + 2)
    (start t memory input)
  obtain ⟨hp, hlines, ha⟩ := after_allowedReductions hb hne hm
  rcases hend with hrun | ⟨v, m', hstep, hrun⟩ | ⟨m', hstep, -⟩
  · rw [parse, hrun]
    exact ha
  · rw [parse, hrun]
    exact (step_closes hb hne hp hstep).allowedReductions ha
  · exact absurd hstep (step_ne_broken hb hne hp)

end Machine

theorem Grammar.reductionBy_newlineOnly_of_marked {g : Grammar} {n : Nat} {p : Production}
    (hp : g.productions[n]? = some p) (hmarked : p.boundary ≠ .anywhere) :
    (g.reductionBy n).newlineOnly = true := by
  simp [reductionBy, hp, hmarked]

open Machine in
/-- **Reductions at line boundaries.**  A production that is marked to end at a line boundary is
    reduced before the end of a line, a level or the input; or no level is open on the frame on
    top and a line starts there: no token was shifted yet, the last one is a line break, or a
    level was recorded behind it.  This leaves out symbols on top in which a line started and went
    on. -/
theorem boundary_reduction_at_line_start {code : List CodeNode} {g : Grammar}
    (hread : Grammar.read code = .ok g) (strength : Strength) (acts : Actions σ V) (memory : σ)
    (input : Input) (budget : Nat) {verb : Verb} {s : Stack V} {u : Token} {past : List (Note V)}
    (hpast : .act verb s u :: past <:+
      (parse (Automaton.build g strength).table acts memory input budget).machine.notes)
    (hverb : verb = .reduce ∨ verb = .force) {r : Reduction} {p : Production}
    (hr : (Automaton.build g strength).table.reduce? s.top.state = some r)
    (hp : g.productions[r.prod]? = some p) (hmarked : p.boundary ≠ .anywhere) :
    endsLine u = true ∨ s.top.indents = 0 ∧
      (lineStarted past = true ∨ GoesOn s.below.length past) := by
  have hb := (Automaton.build_sound (Grammar.read_wellFormed hread).indexed strength).backed
  have hne := (Grammar.read_wellFormed hread).body_ne_nil
  have hred : (Note.act verb s u : Note V).isReduction = true := by
    rcases hverb with rfl | rfl <;> rfl
  obtain ⟨hlines, hmay⟩ := parse_allowedReductions hb hne acts memory input budget verb s u past
    hpast hred
  have hmay := hmay r hr
  have hnewline : r.newlineOnly = true := by
    rw [(hb.reduce _ _ hr).1]
    exact Grammar.reductionBy_newlineOnly_of_marked hp hmarked
  rw [mayReduce, hnewline, Bool.not_true, Bool.false_or, Bool.or_eq_true, atLineStart,
    Bool.and_eq_true, beq_iff_eq, beq_iff_eq] at hmay
  refine hmay.imp_right fun hstart => ⟨hstart.1, ?_⟩
  by_cases hbelow : s.below = []
  · exact Or.inl (hlines.bottom hbelow)
  · have hinside := hlines.inside (s.below.map Frame.sinceNewline)
      (by rw [← hstart.2]; exact List.suffix_refl _) (by simpa using hbelow)
    rw [List.length_map] at hinside
    exact hinside.started_or_goesOn

/-! ## Lines of some runs -/

/-- On a text of a grammar and an input, a marked production is reduced behind `past`, before a
    token that does not end a line. -/
structure ReducesMarked (text : String) (input : Input) (g : Grammar) (s : Stack Tree) (u : Token)
    (past : List (Note Tree)) : Prop where
  read : Grammar.readText text = .ok g
  noted : .act .reduce s u :: past <:+
    (parse (Automaton.build g .lalr).table treeActions {} input 20).machine.notes
  marked : ∃ r p, (Automaton.build g .lalr).table.reduce? s.top.state = some r ∧
    g.productions[r.prod]? = some p ∧ p.boundary ≠ .anywhere
  inLine : Machine.endsLine u = false

/-- Whether a state reduces a marked production. -/
def Grammar.marks (g : Grammar) (t : Table) (state : Nat) : Bool :=
  (t.reduce? state).any fun r => (g.productions[r.prod]?).any fun p => p.boundary != .anywhere

theorem exists_reducesMarked (text : String) (input : Input) (test : List (Note Tree) → Bool)
    (h : ((Grammar.readText text).toOption.any fun g =>
      (parse (Automaton.build g .lalr).table treeActions {} input 20).machine.notes.tails.any fun
        | .act .reduce s u :: past => g.marks (Automaton.build g .lalr).table s.top.state &&
            !Machine.endsLine u && test past
        | _ => false) = true) :
    ∃ g s u past, ReducesMarked text input g s u past ∧ test past = true := by
  obtain ⟨g, hg, htest⟩ := Grammar.exists_readText text _ h
  obtain ⟨notes, hnotes, htest⟩ := List.any_eq_true.1 htest
  split at htest
  · rename_i s u past
    simp only [Bool.and_eq_true, Bool.not_eq_true', Grammar.marks, Option.any_eq_true,
      bne_iff_ne] at htest
    obtain ⟨⟨⟨r, hr, p, hp, hmarked⟩, hends⟩, htest⟩ := htest
    exact ⟨g, s, u, past, ⟨hg, (List.mem_tails _ _).1 hnotes, ⟨r, p, hr, hp, hmarked⟩, hends⟩, htest⟩
  · cases htest

/-- A line with a number behind it. -/
def numberedLine : String :=
  "S -> Y NUMBER\nY -> IDENTIFIER NEWLINE $$NEWLINE\n"

set_option maxRecDepth 100000 in
/-- The line is reduced before the number, and its line break is the last token. -/
theorem boundary_reduction_at_line_start_numberedLine : ∃ g s u past,
    ReducesMarked numberedLine (.ofList [(.word, ['a']), (.newline, []), (.number, ['1'])]) g s u past ∧
    (shifted past).map Token.kind = [.word, .newline] ∧ s.top.indents = 0 ∧
    (lineStarted past = true ∨ GoesOn s.below.length past) := by
  obtain ⟨g, s, u, past, h, htest⟩ := exists_reducesMarked numberedLine
    (.ofList [(.word, ['a']), (.newline, []), (.number, ['1'])])
    (fun past => decide ((shifted past).map Token.kind = [.word, .newline])) (by decide +kernel)
  obtain ⟨r, p, hr, hp, hmarked⟩ := h.marked
  refine ⟨g, s, u, past, h, of_decide_eq_true htest, ?_⟩
  exact (boundary_reduction_at_line_start h.read .lalr treeActions {} _ 20 h.noted (Or.inl rfl) hr hp
    hmarked).resolve_left (by simp [h.inLine])

set_option maxRecDepth 100000 in
/-- **Line starts without a line break.**  The start of the input is the start of a line, and so
    is a level; marked productions are reduced there, behind no token or one that is no line
    break. -/
theorem line_start_without_break :
    (∃ g s u past, ReducesMarked "S -> A NUMBER\nA -> $$NEWLINE\n" (.ofList [(.number, ['1'])])
      g s u past ∧ shifted past = []) ∧
    ∃ g s u past, ReducesMarked "S -> Y NUMBER\nY -> IDENTIFIER $$OUT\n"
      (.ofList [(.word, ['a']), (.indent, []), (.outdent, []), (.number, ['1'])]) g s u past ∧
      (shifted past).map Token.kind = [.word] := by
  refine ⟨?_, ?_⟩
  · obtain ⟨g, s, u, past, h, htest⟩ := exists_reducesMarked "S -> A NUMBER\nA -> $$NEWLINE\n"
      (.ofList [(.number, ['1'])]) (fun past => (shifted past).isEmpty) (by decide +kernel)
    exact ⟨g, s, u, past, h, List.isEmpty_iff.1 htest⟩
  · obtain ⟨g, s, u, past, h, htest⟩ := exists_reducesMarked "S -> Y NUMBER\nY -> IDENTIFIER $$OUT\n"
      (.ofList [(.word, ['a']), (.indent, []), (.outdent, []), (.number, ['1'])])
      (fun past => decide ((shifted past).map Token.kind = [.word])) (by decide +kernel)
    exact ⟨g, s, u, past, h, of_decide_eq_true htest⟩

end LayoutLR
