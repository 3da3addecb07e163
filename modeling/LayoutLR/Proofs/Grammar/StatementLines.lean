/-
  Layout-aware LR toolkit — the lines of a grammar point into its statements.

  The tokens of a statement come one below the other, from its first token on.  So
  whatever is placed at one of them lies between the first and the last line of the
  statement.  The token that ends it is no part of it: it is placed where the next
  visible line starts, and with it an alternative that is left empty, and an error
  about the end of the line.

  * `Visit`, `visits`: the statements of a grammar in order;
  * `Source.Takes.between`: tokens of a statement come one below the other;
  * `Visit.Spans`, `Visit.Lines`: what a statement spans, and the lines that it gives;
  * `lines_in_statements`: the lines of a grammar.
-/
import LayoutLR.Proofs.Grammar.Numbering
import LayoutLR.Proofs.Grammar.StatementTokens

namespace LayoutLR

variable {d : Draft} {s s' : Source} {ts ts' : List Token} {line : Nat} {e : GrammarError}

/-! ## Statements of a grammar -/

/-- The error of an outcome that failed. -/
def Outcome.error? (o : Outcome Unit) : Option GrammarError :=
  match o.result with
  | .ok _ => none
  | .error e => some e

theorem Outcome.error?_eq_some {o : Outcome Unit} (h : o.error? = some e) :
    o.result = .error e := by
  unfold error? at h
  split at h
  · cases h
  · rename_i hresult
    cases h
    exact hresult

theorem Outcome.addError_reverse (o : Outcome Unit) (errors : List GrammarError) :
    (o.addError errors).reverse = errors.reverse ++ o.error?.toList := by
  unfold addError error?
  cases o.result <;> simp

/-- A statement as reading comes to it. -/
structure Visit where
  /-- What the statements before say. -/
  draft : Draft
  /-- The token that the statement starts with. -/
  first : Token
  /-- The source behind the first token. -/
  source : Source

namespace Visit

/-- What reading the statement gives. -/
def outcome (v : Visit) : Outcome Unit :=
  readStatement v.draft v.source v.first

/-- The productions of the statement. -/
def productions (v : Visit) : List Production :=
  v.outcome.draft.productions.toList.drop v.draft.productions.size

/-- The error of the statement, if it fails. -/
def error? (v : Visit) : Option GrammarError :=
  v.outcome.error?

end Visit

/-- All statements that are read from a source on. -/
def visits (d : Draft) (s : Source) : List Visit :=
  let r := s.next
  if _e : r.1.kind = .eof then []
  else if r.1.kind = .newline then visits d r.2
  else
    let v : Visit := ⟨d, r.1, r.2⟩
    v :: visits v.outcome.draft v.outcome.resume
termination_by s.weight
decreasing_by
  · exact Source.next_weight_lt _e
  · exact readStatement_resume_lt d _e

/-- The statements written in some code. -/
def codeVisits (code : List CodeNode) : List Visit :=
  visits .new { scanner := .ofCode grammarConfig code }

/-- A statement adds its productions to those before. -/
theorem Visit.productions_eq (v : Visit) {new : List Production} (h :
    v.outcome.draft.productions.toList = v.draft.productions.toList ++ new) :
    v.productions = new := by
  rw [Visit.productions, h, ← Array.length_toList, List.drop_left]

theorem Visit.productions_append (v : Visit) :
    v.outcome.draft.productions.toList = v.draft.productions.toList ++ v.productions := by
  obtain ⟨new, hnew⟩ : ∃ new, v.outcome.draft.productions.toList =
      v.draft.productions.toList ++ new := by
    by_cases hk : v.first.kind.Opens
    · obtain ⟨ts, new, hyields⟩ := readStatement_follows hk v.draft v.source
      exact ⟨new, hyields.productions⟩
    · rw [outcome, readStatement_of_not_opens hk]
      exact ⟨[], (List.append_nil _).symm⟩
  rw [hnew, v.productions_eq hnew]

/-- **Reading gives the productions and the errors of the statements**, in order. -/
theorem readStatements_visits (d : Draft) (errors : List GrammarError) (s : Source) :
    (readStatements d errors s).draft.productions.toList =
        d.productions.toList ++ (visits d s).flatMap Visit.productions ∧
      (readStatements d errors s).errors.reverse =
        errors.reverse ++ (visits d s).filterMap Visit.error? := by
  fun_induction readStatements d errors s with
  | case1 d errors s r hk =>
    rw [visits, dif_pos hk]
    simp
  | case2 d errors s r hk hbreak ih =>
    rw [visits, dif_neg hk, if_pos hbreak]
    exact ih
  | case3 d errors s r hk hbreak o ih =>
    let v : Visit := ⟨d, r.1, r.2⟩
    have hproductions : o.draft.productions.toList = d.productions.toList ++ v.productions :=
      v.productions_append
    rw [visits, dif_neg hk, if_neg hbreak]
    dsimp only
    rw [ih.1, ih.2, Outcome.addError_reverse, List.append_assoc, hproductions,
      List.append_assoc, List.flatMap_cons, List.filterMap_eq_flatMap_toList,
      List.filterMap_eq_flatMap_toList, List.flatMap_cons]
    exact ⟨rfl, rfl⟩

/-! ## Up to the end of a statement -/

namespace Source

/-- No token that is taken inside a statement ends it. -/
theorem Takes.not_ends (h : s.Takes ts s') : ∀ t ∈ ts, ¬ t.kind.Ends := by
  induction h with
  | refl => simp
  | look _ ih => exact ih
  | next _ hk ih => exact List.forall_mem_append.2 ⟨ih, List.forall_mem_singleton.2 hk⟩
  | raw _ _ _ ih => exact ih
  | same _ _ ih => exact ih

theorem Faults.takes (h : s.Faults ts e) (ht : s.Takes ts' s') : s'.Faults (ts ++ ts') e := by
  rcases h with ⟨t, hmem, hline⟩ | ⟨expected, rfl⟩
  · exact Or.inl ⟨t, List.mem_append_left _ hmem, hline⟩
  rcases ht.first with ⟨-, hnext⟩ | hhead
  · exact Or.inr ⟨expected, by rw [hnext]⟩
  · exact Or.inl ⟨_, List.mem_append_right _ (List.mem_of_head? hhead), rfl⟩

theorem Places.takes {new : List Production} (h : s.Places ts new) (ht : s.Takes ts' s') :
    s'.Places (ts ++ ts') new := by
  intro p hp
  rcases h p hp with ⟨t, hmem, hline⟩ | ⟨hlast, hbare, hends, hline⟩
  · exact Or.inl ⟨t, List.mem_append_left _ hmem, hline⟩
  rcases ht.first with ⟨-, hnext⟩ | hhead
  · exact Or.inr ⟨hlast, hbare, hnext ▸ hends, hnext ▸ hline⟩
  · exact absurd hends (ht.not_ends _ (List.mem_of_head? hhead))

/-- Inside a line, the next token is skipped. -/
theorem skipLine_inside (hk : ¬ s.next.1.kind.Ends) : s.skipLine = s.next.2.skipLine := by
  rw [skipLine, if_neg fun h => hk (Or.inl h), dif_neg fun h => hk (Or.inr h)]

/-- Skipping takes tokens up to the end of the statement. -/
theorem skipLine_takes (s : Source) : ∃ ts stop, s.Takes ts stop ∧ stop.next.1.kind.Ends ∧
    (s.skipLine = stop.next.2 ∨ s.skipLine = stop.next.2.unread stop.next.1) := by
  fun_induction skipLine s with
  | case1 s r hk => exact ⟨[], s, .refl, Or.inl hk, Or.inl rfl⟩
  | case2 s r _ hk => exact ⟨[], s, .refl, Or.inr hk, Or.inr rfl⟩
  | case3 s r hbreak hend ih =>
    obtain ⟨ts, stop, htakes, hends, hskip⟩ := ih
    have hk : ¬ s.next.1.kind.Ends := fun h => h.elim hbreak hend
    exact ⟨_, stop, (takes_next hk).trans htakes, hends, hskip⟩

end Source

/-- What a statement spans: the tokens that are taken behind its first one, and the source at
    the token that ends it. -/
structure Visit.Spans (v : Visit) (ts : List Token) (stop : Source) : Prop where
  takes : v.source.Takes ts stop
  ends : stop.next.1.kind.Ends
  /-- Reading goes on at the token that ends the statement, or behind it. -/
  resume : v.outcome.resume = stop ∨ v.outcome.resume = stop.next.2 ∨
    v.outcome.resume = stop.next.2.unread stop.next.1

/-- A statement spans some tokens, and they tell where its productions and its error are. -/
theorem Visit.exists_span {v : Visit} (hp : v.source.pending = none) (hfirst : ¬ v.first.kind.Ends) :
    ∃ ts stop, v.Spans ts stop ∧ stop.Places (v.first :: ts) v.productions ∧
      ∀ e, v.error? = some e → stop.Faults (v.first :: ts) e := by
  by_cases hk : v.first.kind.Opens
  · obtain ⟨ts, new, hyields⟩ := readStatement_follows hk v.draft v.source
    have hplaces : v.outcome.source.Places (v.first :: ts) v.productions :=
      (v.productions_eq hyields.productions).symm ▸ hyields.places
    cases hresult : v.outcome.result with
    | ok _ =>
      refine ⟨ts, v.outcome.source, ⟨hyields.follows.takes, hyields.ends hresult, Or.inl ?_⟩,
        hplaces, fun e he => ?_⟩
      · rw [Outcome.resume, hresult]
      · rw [Outcome.error?_eq_some he] at hresult
        cases hresult
    | error e =>
      obtain ⟨ts', stop, htakes, hends, hskip⟩ := v.outcome.source.skipLine_takes
      refine ⟨ts ++ ts', stop, ⟨hyields.follows.takes.trans htakes, hends, Or.inr ?_⟩,
        hplaces.takes htakes, fun e he => ?_⟩
      · rw [Outcome.resume, hresult]
        exact hskip
      · exact (hyields.follows.faults e (Outcome.error?_eq_some he)).takes htakes
  · -- the first token is put back, and skipped with the rest of the line
    have houtcome := readStatement_of_not_opens hk v.draft v.source
    have hsource : v.source.Takes [] (v.source.unread v.first).next.2 :=
      Source.Takes.refl.same (Source.tape_next_unread hp _)
    obtain ⟨ts, stop, htakes, hends, hskip⟩ := (v.source.unread v.first).next.2.skipLine_takes
    refine ⟨ts, stop, ⟨hsource.trans htakes, hends, Or.inr ?_⟩, ?_, fun e he => ?_⟩
    · have hresume : v.outcome.resume = (v.source.unread v.first).skipLine := by
        rw [outcome, houtcome]
        rfl
      rwa [hresume, Source.skipLine_inside (s := v.source.unread v.first) hfirst]
    · have hnone : v.productions = [] :=
        v.productions_eq (by rw [outcome, houtcome]; exact (List.append_nil _).symm)
      rw [hnone]
      exact .nil _ _
    · have herror := Outcome.error?_eq_some he
      rw [outcome, houtcome] at herror
      cases herror
      exact Or.inl ⟨v.first, List.mem_cons_self, rfl⟩

/-! ## One below the other -/

theorem grammarConfig_dropsLevels : Scanner.DropsLevels grammarConfig :=
  ⟨rfl, rfl, rfl⟩

namespace Source

/-- A source inside a statement: what comes next is on the given line or below, or it ends the
    statement. -/
inductive Below (s : Source) (line : Nat) : Prop
  | fresh (hp : s.pending = none) (hs : s.scanner.InLine)
      (hl : line ≤ s.scanner.place.cursor.line)
  | looked {t : Token} (hp : s.pending = some t) (hs : s.scanner.InLine) (ht : line ≤ t.line)
      (hl : t.line ≤ s.scanner.place.cursor.line)
  | ended {t : Token} (hp : s.pending = some t) (ht : t.kind.Ends)

theorem next_config (s : Source) : s.next.2.scanner.config = s.scanner.config := by
  unfold next
  split
  · rfl
  · exact s.scanner.nextToken_config

theorem next_some {t : Token} (hp : s.pending = some t) :
    s.next.1 = t ∧ s.next.2.scanner = s.scanner := by
  simp only [next, hp, and_self]

theorem next_none (hp : s.pending = none) : s.next.1 = s.scanner.nextToken.1 ∧
    s.next.2.scanner = { s.scanner.nextToken.2 with tooDeep := [] } := by
  simp only [next, hp, and_self]

/-- Where a source stands behind a piece of the code. -/
theorem fresh_next {t : Token} {scanner : Scanner}
    (hnext : s.next.2.scanner = { scanner with tooDeep := [] }) (hs : scanner.InLine)
    (hl : t.line ≤ scanner.place.cursor.line) :
    s.next.2.scanner.InLine ∧ t.line ≤ s.next.2.scanner.place.cursor.line := by
  rw [hnext]
  exact ⟨⟨hs.pop, hs.started, hs.undone⟩, hl⟩

/-- The next token ends the statement, or it is on the line or below. -/
theorem Below.next (hc : s.scanner.config = grammarConfig) (h : s.Below line) :
    s.next.1.kind.Ends ∨ line ≤ s.next.1.line ∧ s.next.2.scanner.InLine ∧
      s.next.1.line ≤ s.next.2.scanner.place.cursor.line := by
  cases h with
  | fresh hp hs hl =>
    obtain ⟨htoken, hscanner⟩ := next_none hp
    rw [htoken]
    rcases hs.nextToken (hc ▸ grammarConfig_dropsLevels) with ⟨hline, hin, hbelow⟩ | hends
    · exact Or.inr ⟨Nat.le_trans hl hline, fresh_next hscanner hin hbelow⟩
    · exact Or.inl hends
  | looked hp hs ht hl =>
    obtain ⟨rfl, hscanner⟩ := next_some hp
    rw [hscanner]
    exact Or.inr ⟨ht, hs, hl⟩
  | ended hp ht =>
    obtain ⟨rfl, -⟩ := next_some hp
    exact Or.inl ht

theorem Below.look (hc : s.scanner.config = grammarConfig) (h : s.Below line) :
    (s.next.2.unread s.next.1).Below line := by
  rcases h.next hc with hends | ⟨hline, hin, hbelow⟩
  · exact .ended rfl hends
  · exact .looked rfl hin hline hbelow

theorem Below.congr (h : s.Below line) (htape : s'.tape = s.tape) : s'.Below line := by
  obtain ⟨hscanner, hpending⟩ : s'.scanner = s.scanner ∧ s'.pending = s.pending :=
    ⟨congrArg Tape.scanner htape, congrArg Tape.slot htape⟩
  cases h with
  | fresh hp hs hl => exact .fresh (hpending.trans hp) (hscanner ▸ hs) (hscanner ▸ hl)
  | looked hp hs ht hl => exact .looked (hpending.trans hp) (hscanner ▸ hs) ht (hscanner ▸ hl)
  | ended hp ht => exact .ended (hpending.trans hp) ht

/-- Raw text leads on, if there is any. -/
theorem takeUntil_below (marker : List Char) (hp : s.pending = none) (hs : s.scanner.InLine)
    (hl : line ≤ s.scanner.place.cursor.line) : (s.takeUntil marker).2.Below line := by
  unfold takeUntil
  dsimp only
  cases hscanner : s.scanner.takeUntil? marker with
  | none => exact .fresh hp hs hl
  | some r =>
    obtain ⟨hin, hline⟩ := hs.takeUntil? hscanner
    exact .fresh hp hin (Nat.le_trans hl hline)

/-- The last token of a statement so far. -/
def lastToken (first : Token) (ts : List Token) : Token :=
  ts.getLast?.getD first

/-- **The tokens of a statement come one below the other.** -/
theorem Takes.between {first : Token} (hc : s.scanner.config = grammarConfig)
    (h : s.Below first.line) (ht : s.Takes ts s') :
    (s'.scanner.config = grammarConfig ∧ s'.Below (lastToken first ts).line) ∧
      ∀ t ∈ first :: ts, first.line ≤ t.line ∧ t.line ≤ (lastToken first ts).line := by
  induction ht with
  | refl => exact ⟨⟨hc, h⟩, by simp [lastToken]⟩
  | @look ts s' _ ih =>
    obtain ⟨⟨hc', hbelow⟩, hbetween⟩ := ih
    exact ⟨⟨s'.next_config.trans hc', hbelow.look hc'⟩, hbetween⟩
  | @next ts s' _ hk ih =>
    obtain ⟨⟨hc', hbelow⟩, hbetween⟩ := ih
    obtain ⟨hline, hin, hnext⟩ := (hbelow.next hc').resolve_left hk
    have hlast : lastToken first (ts ++ [s'.next.1]) = s'.next.1 := by simp [lastToken]
    have hfirst := (hbetween first List.mem_cons_self).2
    rw [hlast, ← List.cons_append]
    refine ⟨⟨s'.next_config.trans hc', .fresh s'.next_pending hin hnext⟩,
      List.forall_mem_append.2 ⟨fun t ht => ?_, List.forall_mem_singleton.2 ?_⟩⟩
    · exact ⟨(hbetween t ht).1, Nat.le_trans (hbetween t ht).2 hline⟩
    · exact ⟨Nat.le_trans hfirst hline, Nat.le_refl _⟩
  | @raw ts t s' _ _ hp ih =>
    obtain ⟨⟨hc', hbelow⟩, hbetween⟩ := ih
    cases hbelow with
    | fresh _ hs hl =>
      exact ⟨⟨(s'.takeUntil_config _).trans hc', takeUntil_below _ hp hs hl⟩, hbetween⟩
    | looked hp' =>
      rw [hp] at hp'
      cases hp'
    | ended hp' =>
      rw [hp] at hp'
      cases hp'
  | same _ htape ih =>
    obtain ⟨⟨hc', hbelow⟩, hbetween⟩ := ih
    have hconfig := congrArg (fun p => p.scanner.config) htape
    exact ⟨⟨hconfig.trans hc', hbelow.congr htape⟩, hbetween⟩

/-- A source between two statements: what was put back can only be the end of the first. -/
structure Between (s : Source) : Prop where
  config : s.scanner.config = grammarConfig
  pending : ∀ t, s.pending = some t → t.kind.Ends

/-- Behind its first token, a source is inside a statement. -/
theorem Between.first (h : s.Between) (hk : ¬ s.next.1.kind.Ends) :
    s.next.2.scanner.config = grammarConfig ∧ s.next.2.Below s.next.1.line := by
  refine ⟨s.next_config.trans h.config, ?_⟩
  cases hp : s.pending with
  | some t => exact absurd ((next_some hp).1 ▸ h.pending t hp) hk
  | none =>
    obtain ⟨htoken, hscanner⟩ := next_none hp
    rw [htoken] at hk ⊢
    have htext := Scanner.nextToken_isText (h.config ▸ grammarConfig_dropsLevels) hk
    obtain ⟨hin, hline⟩ := Scanner.nextToken_inLine htext
    obtain ⟨hin, hline⟩ := fresh_next hscanner hin hline
    exact .fresh s.next_pending hin hline

end Source

/-- A statement that was started: its first token was read, and the source is inside it. -/
structure Visit.Started (v : Visit) : Prop where
  config : v.source.scanner.config = grammarConfig
  pending : v.source.pending = none
  first : ¬ v.first.kind.Ends
  below : v.source.Below v.first.line

/-- Behind a statement, a source is between two. -/
theorem Visit.Spans.between {v : Visit} {stop : Source} (h : v.Spans ts stop) (hv : v.Started) :
    v.outcome.resume.Between := by
  obtain ⟨⟨hconfig, -⟩, -⟩ := h.takes.between hv.config hv.below
  rcases h.resume with hresume | hresume | hresume <;> rw [hresume]
  · refine ⟨hconfig, fun t hp => ?_⟩
    rw [← (Source.next_some hp).1]
    exact h.ends
  · refine ⟨stop.next_config.trans hconfig, fun t hp => ?_⟩
    rw [stop.next_pending] at hp
    cases hp
  · refine ⟨stop.next_config.trans hconfig, fun t hp => ?_⟩
    cases hp
    exact h.ends

/-- Reading comes to each statement behind its first token. -/
theorem mem_visits (h : s.Between) : ∀ v ∈ visits d s, v.Started := by
  fun_induction visits d s with
  | case1 => simp
  | case2 d s r hk hbreak ih =>
    refine ih ⟨s.next_config.trans h.config, fun t hp => ?_⟩
    rw [show r.2.pending = none from s.next_pending] at hp
    cases hp
  | case3 d s r hk hbreak v ih =>
    have hfirst : ¬ v.first.kind.Ends := fun hends => hends.elim hbreak hk
    obtain ⟨hc, hbelow⟩ := h.first hfirst
    have hv : v.Started := ⟨hc, s.next_pending, hfirst, hbelow⟩
    obtain ⟨ts, stop, hspans, -⟩ := v.exists_span hv.pending hfirst
    exact List.forall_mem_cons.2 ⟨hv, ih (hspans.between hv)⟩

/-! ## Lines -/

/-- The errors about the wording of a statement. -/
def GrammarError.isSyntax : GrammarError → Bool
  | unexpected .. | strayBar _ | emptyDeclaration .. => true
  | _ => false

/-- A line between the first and the last line of a statement. -/
def Visit.Covers (v : Visit) (ts : List Token) (line : Nat) : Prop :=
  v.first.line ≤ line ∧ line ≤ (Source.lastToken v.first ts).line

/-- The lines that a statement gives. -/
structure Visit.Lines (v : Visit) (ts : List Token) (stop : Source) : Prop where
  productions : ∀ p ∈ v.productions, v.Covers ts p.line ∨
    v.productions.getLast? = some p ∧ p.IsBare ∧ p.line = stop.next.1.line
  error : ∀ e, v.error? = some e → v.Covers ts e.line ∨
    ∃ expected, e = .unexpected stop.next.1.line expected stop.next.1.describe

theorem Visit.Started.exists_lines {v : Visit} (h : v.Started) :
    ∃ ts stop, v.Spans ts stop ∧ v.Lines ts stop := by
  obtain ⟨ts, stop, hspans, hplaces, hfaults⟩ := v.exists_span h.pending h.first
  have hcovers := (hspans.takes.between h.config h.below).2
  refine ⟨ts, stop, hspans, fun p hp => ?_, fun e he => ?_⟩
  · rcases hplaces p hp with ⟨t, ht, hline⟩ | ⟨hlast, hbare, -, hline⟩
    · exact Or.inl (hline ▸ hcovers t ht)
    · exact Or.inr ⟨hlast, hbare, hline⟩
  · rcases hfaults e he with ⟨t, ht, hline⟩ | hend
    · exact Or.inl (hline ▸ hcovers t ht)
    · exact Or.inr hend

/-! ## Grammars that were read -/

/-- The productions of a grammar are those of its statements, with other numbers for the
    symbols. -/
theorem productions_of_visits {code : List CodeNode} {g : Grammar} (h : Grammar.read code = .ok g) :
    ∃ number : Nat → Nat, g.productions.toList.tail =
      ((codeVisits code).flatMap Visit.productions).map fun p =>
        { p with head := number p.head, body := p.body.map number } := by
  have hindexed := (Grammar.read_wellFormed h).indexed
  obtain ⟨first, -, -, hdef, rfl⟩ := Grammar.draft_of_read h
  have hrenumbers : ((readCode code).draft.toGrammar first).Renumbers (readCode code).draft
      (readCode code).draft.number := toGrammar_renumbers hindexed (Draft.readCode_good code) hdef
  refine ⟨_, hrenumbers.productions.trans (congrArg (List.map _) ?_)⟩
  exact (readStatements_visits .new [] _).1

/-- The errors about the wording of statements are those of the statements. -/
theorem errors_of_visits {code : List CodeNode} {errors : List GrammarError}
    (h : Grammar.read code = .error errors) : errors.filter GrammarError.isSyntax =
      ((codeVisits code).filterMap Visit.error?).filter GrammarError.isSyntax := by
  have hvisits : (readCode code).errors.reverse = (codeVisits code).filterMap Visit.error? :=
    (readStatements_visits .new [] _).2
  unfold Grammar.read Draft.finish at h
  dsimp only at h
  rw [hvisits] at h
  split at h
  · cases h
    simp [GrammarError.isSyntax]
  · split at h
    · cases h
    · cases h
      have hundefined : (readCode code).draft.undefinedErrors.filter GrammarError.isSyntax = [] := by
        refine List.filter_eq_nil_iff.2 fun e he => ?_
        obtain ⟨m, -, rfl⟩ := List.mem_map.1 he
        exact Bool.false_ne_true
      rw [List.filter_append, hundefined, List.append_nil]

/-- **The lines of a grammar point into its statements.**  The productions of a grammar and the
    errors about the wording of statements are those that the statements give, in order.  Each
    production and each error of a statement is on a line between the first and the last line of
    its tokens; only an empty alternative at the end, and an error about the end of the line,
    are on the line of the token that ends the statement. -/
theorem lines_in_statements (code : List CodeNode) :
    (∀ g, Grammar.read code = .ok g → ∃ number : Nat → Nat, g.productions.toList.tail =
      ((codeVisits code).flatMap Visit.productions).map fun p =>
        { p with head := number p.head, body := p.body.map number }) ∧
    (∀ errors, Grammar.read code = .error errors → errors.filter GrammarError.isSyntax =
      ((codeVisits code).filterMap Visit.error?).filter GrammarError.isSyntax) ∧
    ∀ v ∈ codeVisits code, ∃ ts stop, v.Spans ts stop ∧ v.Lines ts stop := by
  refine ⟨fun g h => productions_of_visits h, fun errors h => errors_of_visits h, fun v hv => ?_⟩
  have hstart : Source.Between { scanner := .ofCode grammarConfig code } := ⟨rfl, by rintro t ⟨⟩⟩
  exact (mem_visits hstart v hv).exists_lines

/-- An empty alternative with blank lines below it. -/
def emptyAlternative : String :=
  "S ->\n\n\n"

/-- A head without an arrow, with a blank line below it. -/
def missingArrow : String :=
  "S\n\nT -> 'x'\n"

theorem lines_in_statements_blankLines :
    (∃ g, Grammar.readText emptyAlternative = .ok g ∧
      ∃ number : Nat → Nat, g.productions.toList.tail =
        ((codeVisits [.ofText emptyAlternative.toList]).flatMap Visit.productions).map fun p =>
          { p with head := number p.head, body := p.body.map number }) ∧
    (∃ errors, Grammar.readText missingArrow = .error errors ∧
      errors.filter GrammarError.isSyntax = ((codeVisits [.ofText missingArrow.toList]).filterMap
        Visit.error?).filter GrammarError.isSyntax) ∧
    ∀ v ∈ codeVisits [.ofText emptyAlternative.toList], ∃ ts stop,
      v.Spans ts stop ∧ v.Lines ts stop := by
  obtain ⟨hproductions, -, hlines⟩ := lines_in_statements [.ofText emptyAlternative.toList]
  obtain ⟨-, herrors, -⟩ := lines_in_statements [.ofText missingArrow.toList]
  obtain ⟨g, hg, -⟩ := Grammar.exists_readText emptyAlternative (fun _ => true) (by decide +kernel)
  have hmissing : Grammar.readText missingArrow =
      .error [.unexpected 3 "`->`" "end of line"] := by decide +kernel
  exact ⟨⟨g, hg, hproductions g hg⟩, ⟨_, hmissing, herrors _ hmissing⟩, hlines⟩

/-- **What is placed at the end of a line is below its statement:** all tokens of the first text
    are on line 1, and the production is on line 4; the statement without an arrow is on line 1,
    and its error is on line 3. -/
theorem empty_alternative_below :
    (∀ t ∈ (Scanner.ofText grammarConfig emptyAlternative.toList).tokens,
      t.kind = .eof ∨ t.line = 1) ∧
    (∃ g, Grammar.readText emptyAlternative = .ok g ∧
      g.productions.toList.tail.map Production.line = [4]) ∧
    Grammar.readText missingArrow = .error [.unexpected 3 "`->`" "end of line"] := by
  refine ⟨by decide +kernel, ?_, by decide +kernel⟩
  obtain ⟨g, hg, htest⟩ := Grammar.exists_readText emptyAlternative
    (fun g => g.productions.toList.tail.map Production.line == [4]) (by decide +kernel)
  exact ⟨g, hg, beq_iff_eq.1 htest⟩

end LayoutLR
