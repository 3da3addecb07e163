/-
  Layout-aware LR toolkit — a grammar is read in order, line by line.

  Each part of the reader looks ahead, puts tokens back and fails at places of its own.  But a
  token is only put back right after it was read, and raw text is only taken behind the mark that
  opens action code; so the slot of the source is empty whenever it matters.  A statement ends in
  front of the end of its line, and after an error the rest of the line is skipped, so that each
  line has one statement at most.  A source keeps its calls; what a part of the reader calls is
  what it adds to them.

  * `Source.Leads`: calls that lead from one source to another, and what they consume;
  * `Source.Reads`: calls inside a line; all parts of the reader make such calls only;
  * `Visit.leads`: a statement up to the end of its line;
  * `LogicalLine.Read`, `Source.Lined`: the lines of a grammar, one after the other;
  * `readStatements_lined`, `reading_keeps_order`: reading as a whole.
-/
import LayoutLR.Proofs.Grammar.StatementLines

namespace LayoutLR

/-! ## Inside a line -/

namespace Source

variable {s s' s'' : Source} {cs cs' : List ReaderCall} {got got' : List Piece}

/-- Calls that lead from one source to another, which has kept them, and what they consume. -/
structure Leads (s : Source) (cs : List ReaderCall) (got : List Piece) (s' : Source) : Prop where
  calls : s'.calls = cs.reverse ++ s.calls
  run : s.tape.Run cs got s'.tape

theorem Leads.refl (s : Source) : s.Leads [] [] s :=
  ⟨rfl, .refl⟩

theorem Leads.trans (h : s.Leads cs got s') (h' : s'.Leads cs' got' s'') :
    s.Leads (cs ++ cs') (got ++ got') s'' :=
  ⟨by rw [h'.calls, h.calls, List.reverse_append, List.append_assoc], h.run.trans h'.run⟩

theorem calls_next (s : Source) : s.next.2.calls = .next :: s.calls := by
  unfold next
  split <;> rfl

theorem leads_next (s : Source) : s.Leads [.next] [.token s.next.1] s.next.2 := by
  have hrun : s.tape.Run _ _ _ := Tape.Run.refl.next
  rw [s.after_next, s.nextToken_tape] at hrun
  exact ⟨s.calls_next, hrun⟩

/-- A token is put back that was just taken. -/
theorem leads_look (s : Source) :
    s.Leads [.next, .unread s.next.1] [] (s.next.2.unread s.next.1) := by
  have hnext : s.tape.Run [.next] ([] ++ [.token s.next.1]) s.next.2.tape := s.leads_next.run
  exact ⟨congrArg (List.cons _) s.calls_next, hnext.unread s.next_pending⟩

/-- Raw text is taken, or there is none up to the marker. -/
theorem leads_raw (hp : s.pending = none) (marker : List Char) :
    s.Leads [.raw marker] ((s.takeUntil marker).1.toList.map .raw) (s.takeUntil marker).2 := by
  have hrun : s.tape.Run _ _ _ := Tape.Run.refl.raw hp marker
  rw [(s.after_raw marker).1, (s.after_raw marker).2] at hrun
  refine ⟨?_, hrun⟩
  unfold takeUntil
  dsimp only
  split <;> rfl

/-- Some calls lead from one source to another, and they do not consume the end of a line. -/
def Reads (s s' : Source) : Prop :=
  ∃ cs got, s.Leads cs got s' ∧ ∀ piece ∈ got, ¬ piece.Ends

theorem Reads.refl (s : Source) : s.Reads s :=
  ⟨[], [], .refl s, List.forall_mem_nil _⟩

theorem Reads.trans (h : s.Reads s') (h' : s'.Reads s'') : s.Reads s'' := by
  obtain ⟨cs, got, hleads, hinside⟩ := h
  obtain ⟨cs', got', hleads', hinside'⟩ := h'
  exact ⟨_, _, hleads.trans hleads', List.forall_mem_append.2 ⟨hinside, hinside'⟩⟩

/-- A token is taken that does not end the line. -/
theorem reads_next (hk : ¬ s.next.1.kind.Ends) : s.Reads s.next.2 :=
  ⟨_, _, s.leads_next, List.forall_mem_singleton.2 hk⟩

theorem reads_look (s : Source) : s.Reads (s.next.2.unread s.next.1) :=
  ⟨_, _, s.leads_look, List.forall_mem_nil _⟩

theorem reads_raw (hp : s.pending = none) (marker : List Char) :
    s.Reads (s.takeUntil marker).2 := by
  refine ⟨_, _, s.leads_raw hp marker, fun piece hpiece => ?_⟩
  obtain ⟨text, -, rfl⟩ := List.mem_map.1 hpiece
  exact id

/-- Warnings are no calls. -/
theorem reads_warn (s : Source) (w : GrammarWarning) : s.Reads (s.warn w) :=
  ⟨[], [], ⟨rfl, .refl⟩, List.forall_mem_nil _⟩

end Source

/-! ## Bodies -/

section

variable {s : Source} {b : Alternative}

theorem readEnd_reads (d : Draft) (s : Source) (b : Alternative) :
    s.Reads (readEnd d s b).source := by
  unfold readEnd
  dsimp only
  split_ifs with hk
  · exact s.reads_look
  · exact Source.reads_next hk
  · exact s.reads_look

/-- The source behind one more token of an alternative. -/
def BodyStep.source : BodyStep → Source
  | .done o => o.source
  | .more _ s _ => s

theorem mark_reads (b : Alternative) (d : Draft) (s : Source) (name : String) (line : Nat) :
    s.Reads (b.mark d s name line).2 := by
  unfold Alternative.mark
  split_ifs
  · exact .refl s
  · exact .refl s
  · dsimp only
    split_ifs
    · exact .refl s
    · exact s.reads_warn _

theorem readMark_reads (d : Draft) (s : Source) (b : Alternative) :
    s.Reads (readMark d s b).source := by
  unfold readMark
  dsimp only
  split_ifs with hname
  · have hk : ¬ s.next.1.kind.Ends := by
      rcases hname with h | h | h <;> simp [Kind.Ends, h]
    exact (Source.reads_next hk).trans (mark_reads ..)
  · exact s.reads_look

theorem readAction_reads (hp : s.pending = none) (d : Draft) (b : Alternative) (line : Nat) :
    s.Reads (readAction d s b line).source := by
  have hraw := Source.reads_raw hp ['\x7d', '$']
  unfold readAction
  split <;> rename_i h <;> rw [h] at hraw
  · exact hraw
  · exact hraw.trans (readEnd_reads ..)

theorem ofEffect_source (s : Source) (b : Alternative) (e : Draft.Effect Nat) :
    (BodyStep.ofEffect s b e).source = s := by
  obtain ⟨result, d⟩ := e
  cases result <;> rfl

theorem bodyStep_reads (d : Draft) (s : Source) (b : Alternative) :
    s.Reads (bodyStep d s b).source := by
  have htaken : ¬ s.next.1.kind.Ends → s.Reads s.next.2 := Source.reads_next
  unfold bodyStep
  dsimp only
  split <;> rename_i hk
  · exact s.reads_look
  · exact s.reads_look
  · exact htaken (by simp [Kind.Ends, hk])
  · rw [ofEffect_source]
    exact htaken (by simp [Kind.Ends, hk])
  · rw [ofEffect_source]
    exact htaken (by simp [Kind.Ends, hk])
  · rw [ofEffect_source]
    exact htaken (by simp [Kind.Ends, hk])
  · exact (htaken (by simp [Kind.Ends, hk])).trans (readMark_reads ..)
  · exact (htaken (by simp [Kind.Ends, hk])).trans (readAction_reads s.next_pending ..)
  · exact s.reads_look

theorem readBody_reads (d : Draft) (s : Source) (b : Alternative) :
    s.Reads (readBody d s b).source := by
  fun_induction readBody d s b with
  | case1 d s b o h =>
    have hstep := bodyStep_reads d s b
    rwa [h] at hstep
  | case2 d s b d' s' b' h ih =>
    have hstep := bodyStep_reads d s b
    rw [h] at hstep
    exact hstep.trans ih

/-! ## Statements -/

theorem readAlternatives_reads (d : Draft) (s : Source) (head : Nat) :
    s.Reads (readAlternatives d s head).source := by
  have hfirst (d : Draft) (s : Source) : s.Reads (readBody d s.peekLine.2 {}).source :=
    s.reads_look.trans (readBody_reads d _ {})
  fun_induction readAlternatives d s head with
  | case1 d s o e h => exact hfirst d s
  | case2 d s line o b d' h ih => exact (hfirst d s).trans ih
  | case3 d s line o b more h d' m => exact hfirst d s

theorem readProduction_reads (d : Draft) (s : Source) (t : Token) :
    s.Reads (readProduction d s t).source := by
  unfold readProduction
  obtain ⟨result, d'⟩ := d.defineHead (String.ofList t.text) t.line
  cases result with
  | error e => exact .refl s
  | ok head =>
    dsimp only
    split_ifs with harrow
    · have hk : ¬ s.next.1.kind.Ends := by
        rw [harrow]
        rintro (h | h) <;> cases h
      exact (Source.reads_next hk).trans (readAlternatives_reads ..)
    · exact s.reads_look

theorem readWords_reads (s : Source) (words : List Token) : s.Reads (readWords s words).2 := by
  fun_induction readWords s words with
  | case1 s words r hk => exact s.reads_look
  | case2 s words r hk hd ih => exact (Source.reads_next hk).trans ih
  | case3 s words r hk hd => exact s.reads_look

theorem readDirective_reads (d : Draft) (s : Source) (plain : Bool) :
    s.Reads (readDirective d s plain).source := by
  have hwords := readWords_reads s []
  unfold readDirective
  split <;> rename_i s₁ h <;> rw [h] at hwords
  · exact hwords
  · exact hwords.trans s₁.reads_look
  · exact hwords

theorem readStatement_reads {t : Token} (hk : t.kind.Opens) (d : Draft) (s : Source) :
    s.Reads (readStatement d s t).source := by
  rcases readStatement_cases hk d s with ⟨_, h⟩ | ⟨_, h⟩ | h | ⟨-, h⟩ <;> rw [h]
  · exact readDirective_reads ..
  · exact readAlternatives_reads ..
  · exact .refl s
  · exact readProduction_reads ..

/-! ## Up to the next line -/

/-- Where reading stands after a statement: behind the end of the line, if the statement failed
    and there is one, and in front of the token that ends the statement otherwise.  `consumed`
    is what is consumed of the end. -/
def Source.AtEnd (s : Source) (failed : Bool) (stop : Token) (consumed : List Piece) : Prop :=
  failed = true ∧ stop.kind = .newline ∧ s.pending = none ∧ consumed = [.token stop] ∨
    (failed = true → stop.kind = .eof) ∧ stop.kind.Ends ∧ s.next.1 = stop ∧ consumed = []

theorem Source.skipLine_leads (s : Source) : ∃ cs pieces stop consumed,
    s.Leads cs (pieces ++ consumed) s.skipLine ∧ (∀ piece ∈ pieces, ¬ piece.Ends) ∧
      s.skipLine.AtEnd true stop consumed := by
  fun_induction skipLine s with
  | case1 s r hbreak =>
    exact ⟨_, [], r.1, [.token r.1], s.leads_next, List.forall_mem_nil _,
      Or.inl ⟨rfl, hbreak, s.next_pending, rfl⟩⟩
  | case2 s r hbreak hk =>
    exact ⟨_, [], r.1, [], s.leads_look, List.forall_mem_nil _,
      Or.inr ⟨fun _ => hk, Or.inr hk, rfl, rfl⟩⟩
  | case3 s r hbreak hk ih =>
    obtain ⟨cs, pieces, stop, consumed, hleads, hinside, hend⟩ := ih
    have hends : ¬ r.1.kind.Ends := fun h => h.elim hbreak hk
    exact ⟨_, .token r.1 :: pieces, stop, consumed, s.leads_next.trans hleads,
      List.forall_mem_cons.2 ⟨hends, hinside⟩, hend⟩

/-- A statement is read from its first token up to the end of its line. -/
theorem Visit.leads {v : Visit} (hfirst : s.next = (v.first, v.source))
    (hk : ¬ v.first.kind.Ends) : ∃ cs pieces stop consumed,
      s.Leads (.next :: cs) (.token v.first :: pieces ++ consumed) v.outcome.resume ∧
      (∀ piece ∈ pieces, ¬ piece.Ends) ∧
      v.outcome.resume.AtEnd v.error?.isSome stop consumed := by
  have hnext := s.leads_next
  rw [hfirst] at hnext
  by_cases hopens : v.first.kind.Opens
  · obtain ⟨cs, got, hgot, hinside⟩ := readStatement_reads hopens v.draft v.source
    have hgot := hnext.trans hgot
    unfold Visit.error? Outcome.error? Outcome.resume
    cases hresult : v.outcome.result with
    | ok _ =>
      obtain ⟨_, _, hyields⟩ := readStatement_follows hopens v.draft v.source
      exact ⟨cs, got, _, [], (List.append_nil _).symm ▸ hgot, hinside,
        Or.inr ⟨by simp, hyields.ends hresult, rfl, rfl⟩⟩
    | error e =>
      obtain ⟨cs', pieces, stop, consumed, hskip, hskipped, hend⟩ :=
        v.outcome.source.skipLine_leads
      have hall := hgot.trans hskip
      rw [← List.append_assoc] at hall
      exact ⟨cs ++ cs', got ++ pieces, stop, consumed, hall,
        List.forall_mem_append.2 ⟨hinside, hskipped⟩, hend⟩
  · -- the first token is put back, and skipped with the rest of the line
    have houtcome := readStatement_of_not_opens hopens v.draft v.source
    have hresume : v.outcome.resume = (v.source.unread v.first).next.2.skipLine := by
      rw [← Source.skipLine_inside (s := v.source.unread v.first) hk, outcome, houtcome]
      rfl
    have hfailed : v.error?.isSome = true := by
      rw [error?, outcome, houtcome]
      rfl
    have hlook := s.leads_look
    rw [hfirst] at hlook
    obtain ⟨cs, pieces, stop, consumed, hskip, hskipped, hend⟩ :=
      (v.source.unread v.first).next.2.skipLine_leads
    rw [hresume, hfailed]
    exact ⟨_, pieces, stop, consumed,
      (hlook.trans (v.source.unread v.first).leads_next).trans hskip, hskipped, hend⟩

/-! ## Lines -/

/-- A line of a grammar, up to the end of a line that the reader comes to. -/
structure LogicalLine where
  /-- The statement on the line, if there is one. -/
  statement? : Option Visit
  /-- The calls that read the line. -/
  calls : List ReaderCall
  /-- What is consumed in front of the end of the line. -/
  pieces : List Piece
  /-- The token at the end. -/
  stop : Token

namespace LogicalLine

variable {l : LogicalLine} {ls : List LogicalLine} {p q r : Tape}

/-- The line with its end. -/
def all (l : LogicalLine) : List Piece :=
  l.pieces ++ [.token l.stop]

/-- The error on the line. -/
def error? (l : LogicalLine) : Option GrammarError :=
  l.statement?.bind Visit.error?

/-- Reading a line from one tape to another.  A line with a statement starts with its first
    token. -/
structure Read (l : LogicalLine) (p q : Tape) : Prop where
  run : p.Run l.calls l.all q
  inside : ∀ piece ∈ l.pieces, ¬ piece.Ends
  stops : l.stop.kind.Ends
  empty : q.slot = none
  first : l.pieces.head? = l.statement?.map fun v => .token v.first
  /-- The statement is read from behind its first token on. -/
  source : ∀ v, l.statement? = some v →
    l.calls = .next :: l.calls.tail ∧ p.after .next = v.source.tape
  /-- If it fails, then reading goes on behind the end of the line. -/
  resume : ∀ v, l.statement? = some v → if v.error?.isSome ∧ l.stop.kind = .newline
    then q = v.outcome.resume.tape
    else v.outcome.resume.next.1 = l.stop ∧ q = v.outcome.resume.next.2.tape

/-- Reading lines one after the other. -/
inductive ReadAll : Tape → List LogicalLine → Tape → Prop
  | nil (p : Tape) : ReadAll p [] p
  | cons {l : LogicalLine} {ls : List LogicalLine} {p q r : Tape} (h : l.Read p q)
      (hs : ReadAll q ls r) : ReadAll p (l :: ls) r

theorem ReadAll.run (h : ReadAll p ls q) : p.Run (ls.flatMap calls) (ls.flatMap all) q := by
  induction h with
  | nil => exact .refl
  | cons h _ ih => exact h.run.trans ih

/-- Behind a line, no token is put back. -/
theorem ReadAll.empty (h : ReadAll p ls q) (hp : p.slot = none) : q.slot = none := by
  induction h with
  | nil => exact hp
  | cons h _ ih => exact ih h.empty

/-- The ends of some lines: all but the last are ends of lines, and the last one is the end of
    the code. -/
def Stops (ls : List LogicalLine) : Prop :=
  ∃ n, ls.map (·.stop.kind) = List.replicate n .newline ++ [.eof]

theorem Stops.cons (h : Stops ls) (hl : l.stop.kind = .newline) : Stops (l :: ls) := by
  obtain ⟨n, h⟩ := h
  exact ⟨n + 1, by rw [List.map_cons, h, hl]; rfl⟩

/-- A line without a statement. -/
def blank (t : Token) : LogicalLine :=
  ⟨none, [.next], [], t⟩

theorem blank_read (hk : s.next.1.kind.Ends) : (blank s.next.1).Read s.tape s.next.2.tape where
  run := s.leads_next.run
  inside := List.forall_mem_nil _
  stops := hk
  empty := s.next_pending
  first := rfl
  source := by simp [blank]
  resume := by simp [blank]

end LogicalLine

/-- What the reader comes to from a source on, as lines; `log` are the calls in the end. -/
structure Source.Lined (s : Source) (log : List ReaderCall) (vs : List Visit)
    (ls : List LogicalLine) (q : Tape) : Prop where
  read : LogicalLine.ReadAll s.tape ls q
  calls : log = (ls.flatMap LogicalLine.calls).reverse ++ s.calls
  statements : ls.filterMap LogicalLine.statement? = vs
  stops : LogicalLine.Stops ls
  /-- A source in front of an end stands at a line without a statement. -/
  blank : s.next.1.kind.Ends → ∃ ls', ls = LogicalLine.blank s.next.1 :: ls'

namespace Source.Lined

variable {log : List ReaderCall} {vs : List Visit} {ls : List LogicalLine} {q : Tape}

/-- At the end of the code, there is one more line. -/
theorem last (hk : s.next.1.kind = .eof) :
    s.Lined s.next.2.calls [] [.blank s.next.1] s.next.2.tape where
  read := .cons (LogicalLine.blank_read (Or.inr hk)) (.nil _)
  calls := s.calls_next
  statements := rfl
  stops := ⟨0, congrArg (fun k => [k]) hk⟩
  blank _ := ⟨[], rfl⟩

theorem cons_blank (hk : s.next.1.kind = .newline) (h : s.next.2.Lined log vs ls q) :
    s.Lined log vs (.blank s.next.1 :: ls) q where
  read := .cons (LogicalLine.blank_read (Or.inl hk)) h.read
  calls := by
    rw [h.calls, s.calls_next, List.flatMap_cons, List.reverse_append, List.append_assoc]
    rfl
  statements := h.statements
  stops := h.stops.cons hk
  blank _ := ⟨ls, rfl⟩

/-- A statement is on a line of its own. -/
theorem cons_statement {v : Visit} (hfirst : s.next = (v.first, v.source))
    (hk : ¬ v.first.kind.Ends) (h : v.outcome.resume.Lined log vs ls q) :
    ∃ ls', s.Lined log (v :: vs) ls' q := by
  obtain ⟨cs, pieces, stop, consumed, hleads, hpieces, hend⟩ := v.leads hfirst hk
  have hinside : ∀ piece ∈ Piece.token v.first :: pieces, ¬ piece.Ends :=
    List.forall_mem_cons.2 ⟨hk, hpieces⟩
  have hsource : s.tape.after .next = v.source.tape := by rw [s.after_next, hfirst]
  have hopen : ¬ s.next.1.kind.Ends := by rwa [hfirst]
  have hlog := h.calls
  rw [hleads.calls, ← List.append_assoc, ← List.reverse_append] at hlog
  rcases hend with ⟨hfailed, hstop, hempty, rfl⟩ | ⟨hfailed, hstop, rfl, rfl⟩
  · -- the statement is skipped with the end of its line
    let l : LogicalLine := ⟨some v, .next :: cs, .token v.first :: pieces, stop⟩
    have hl : l.Read s.tape v.outcome.resume.tape := by
      refine ⟨hleads.run, hinside, Or.inl hstop, hempty, rfl, ?_, ?_⟩
      · rintro v' ⟨⟩
        exact ⟨rfl, hsource⟩
      · rintro v' ⟨⟩
        rw [if_pos ⟨hfailed, hstop⟩]
    exact ⟨l :: ls, .cons hl h.read, hlog, congrArg (List.cons v) h.statements,
      h.stops.cons hstop, fun hends => absurd hends hopen⟩
  · -- the lines that follow start with the end of its line
    obtain ⟨ls', rfl⟩ := h.blank hstop
    rcases h.read with _ | ⟨hblank, hread⟩
    have hq : v.outcome.resume.tape.after .next = _ := hblank.run.afterAll_eq
    rw [Source.after_next] at hq
    subst hq
    let l : LogicalLine := ⟨some v, .next :: cs ++ [.next], .token v.first :: pieces,
      v.outcome.resume.next.1⟩
    have hl : l.Read s.tape v.outcome.resume.next.2.tape := by
      refine ⟨?_, hinside, hstop, hblank.empty, rfl, ?_, ?_⟩
      · have hrun := hleads.run
        rw [List.append_nil] at hrun
        exact hrun.trans hblank.run
      · rintro v' ⟨⟩
        exact ⟨rfl, hsource⟩
      · rintro v' ⟨⟩
        rw [if_neg fun hskipped => by rw [hfailed hskipped.1] at hskipped; cases hskipped.2]
        exact ⟨rfl, rfl⟩
    have hcalls : (l :: ls').flatMap LogicalLine.calls = ReaderCall.next :: cs ++
        (LogicalLine.blank v.outcome.resume.next.1 :: ls').flatMap LogicalLine.calls :=
      List.append_assoc _ [ReaderCall.next] _
    exact ⟨l :: ls', .cons hl hread, hcalls ▸ hlog, congrArg (List.cons v) h.statements, h.stops,
      fun hends => absurd hends hopen⟩

end Source.Lined

/-! ## Grammars -/

/-- **Reading goes line by line.** -/
theorem readStatements_lined (d : Draft) (errors : List GrammarError) (s : Source) :
    ∃ ls q, s.Lined (readStatements d errors s).calls (visits d s) ls q := by
  fun_induction readStatements d errors s with
  | case1 d errors s r hk =>
    rw [visits, dif_pos hk]
    exact ⟨_, _, .last hk⟩
  | case2 d errors s r hk hbreak ih =>
    obtain ⟨ls, q, hls⟩ := ih
    rw [visits, dif_neg hk, if_pos hbreak]
    exact ⟨_, q, hls.cons_blank hbreak⟩
  | case3 d errors s r hk hbreak o ih =>
    obtain ⟨ls, q, hls⟩ := ih
    let v : Visit := ⟨d, r.1, r.2⟩
    have hends : ¬ v.first.kind.Ends := fun h => h.elim hbreak hk
    obtain ⟨ls', hls'⟩ := Source.Lined.cons_statement (v := v) (s := s) rfl hends hls
    rw [visits, dif_neg hk, if_neg hbreak]
    exact ⟨ls', q, hls'⟩

end

/-- **Reading keeps the order.**  A token is only put back, and raw text only taken, while the
    slot is empty, and it is the token that was consumed last; so what is consumed is what the
    scanner hands out, piece by piece.  The grammar is read line by line up to the end of the
    code.  Each line has one statement at most, and after an error reading goes on behind the end
    of the line; so the errors are those of the lines, with one for each at most. -/
theorem reading_keeps_order (code : List CodeNode) :
    let tape : Tape := { scanner := .ofCode grammarConfig code }
    let calls := codeCalls code
    (∀ before c rest, calls = before ++ c :: rest →
      (c ≠ .next → (tape.afterAll before).slot = none) ∧
      ∀ t, c = .unread t → (tape.consumed before).getLast? = some (.token t)) ∧
    tape.consumed calls = tape.scanner.answers (tape.demands calls) ∧
    ∃ ls, LogicalLine.ReadAll tape ls (tape.afterAll calls) ∧
      ls.flatMap LogicalLine.calls = calls ∧
      ls.flatMap LogicalLine.all = tape.consumed calls ∧
      ls.filterMap LogicalLine.statement? = codeVisits code ∧
      ls.filterMap LogicalLine.error? = (readCode code).errors.reverse ∧
      ∃ n, ls.map (·.stop.kind) = List.replicate n .newline ++ [.eof] := by
  intro tape calls
  obtain ⟨ls, q, hls⟩ := readStatements_lined .new [] { scanner := .ofCode grammarConfig code }
  have hcalls : ls.flatMap LogicalLine.calls = calls := by
    have hlog := congrArg List.reverse hls.calls
    rw [List.append_nil, List.reverse_reverse] at hlog
    exact hlog.symm
  have hrun := hls.read.run
  rw [hcalls] at hrun
  have hafter : tape.afterAll calls = q := hrun.afterAll_eq
  have herrors : (readCode code).errors.reverse = (codeVisits code).filterMap Visit.error? :=
    (readStatements_visits .new [] _).2
  refine ⟨fun before c rest => hrun.proper, hrun.consumed_eq rfl (hls.read.empty rfl), ls, ?_,
    hcalls, hrun.consumed_eq_got.symm, hls.statements, ?_, hls.stops⟩
  · rw [hafter]
    exact hls.read
  · rw [herrors, codeVisits, ← hls.statements, List.filterMap_filterMap]
    rfl

end LayoutLR
