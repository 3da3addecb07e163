/-
  Layout-aware LR toolkit — the tokens of a statement.

  Whatever reading a statement does, it takes tokens up to the end of the line, looks
  at the next one or takes raw text behind the mark that opens action code.  The
  tokens that it took say all that becomes of the draft; they, or the token that was
  looked at last, tell where productions and errors are.

  * `Source.Takes`: taking tokens inside a statement;
  * `Draft.Fed`: what tokens do to the symbols of a draft;
  * `Outcome.Follows`: an outcome that comes from the tokens that were taken;
  * `readBody_follows`, `readAlternatives_follows`, `readDirective_follows`: the parts;
  * `readStatement_follows`: a whole statement.
-/
import LayoutLR.Proofs.Grammar.Reading

namespace LayoutLR

variable {α : Type} {d d' d'' : Draft} {s s' s'' : Source} {t : Token} {ts ts' before : List Token}
  {b : Alternative} {e : GrammarError}

/-! ## Taking tokens -/

namespace Source

/-- Reading on inside a statement, with the tokens that are taken.  A token may be looked at,
    and raw text is asked for right behind a token that opens action code; what was noted on the
    way does not matter. -/
inductive Takes (s : Source) : List Token → Source → Prop
  | refl : Takes s [] s
  | look {ts : List Token} {s' : Source} (h : Takes s ts s') :
      Takes s ts (s'.next.2.unread s'.next.1)
  | next {ts : List Token} {s' : Source} (h : Takes s ts s') (hk : ¬ s'.next.1.kind.Ends) :
      Takes s (ts ++ [s'.next.1]) s'.next.2
  | raw {ts : List Token} {t : Token} {s' : Source} (h : Takes s (ts ++ [t]) s')
      (ht : t.kind = .openAction) (hp : s'.pending = none) :
      Takes s (ts ++ [t]) (s'.takeUntil ['\x7d', '$']).2
  | same {ts : List Token} {s' s'' : Source} (h : Takes s ts s') (htape : s''.tape = s'.tape) :
      Takes s ts s''

theorem Takes.trans (h : s.Takes ts s') (h' : s'.Takes ts' s'') : s.Takes (ts ++ ts') s'' := by
  induction h' with
  | refl => rwa [List.append_nil]
  | look _ ih => exact ih.look
  | next _ hk ih =>
    rw [← List.append_assoc]
    exact ih.next hk
  | raw _ ht hp ih =>
    rw [← List.append_assoc] at ih ⊢
    exact ih.raw ht hp
  | same _ htape ih => exact ih.same htape

/-- The token that is next is taken. -/
theorem takes_next (hk : ¬ s.next.1.kind.Ends) : s.Takes [s.next.1] s.next.2 :=
  Takes.refl.next hk

theorem takes_look (s : Source) : s.Takes [] (s.next.2.unread s.next.1) :=
  Takes.refl.look

/-- The first token that is taken was the next one; if none is taken, it still is. -/
theorem Takes.first (h : s.Takes ts s') :
    ts = [] ∧ s'.next.1 = s.next.1 ∨ ts.head? = some s.next.1 := by
  induction h with
  | refl => exact Or.inl ⟨rfl, rfl⟩
  | look _ ih => exact ih
  | @next ts s' _ hk ih =>
    right
    rcases ih with ⟨rfl, hnext⟩ | hhead
    · rw [List.nil_append, List.head?_cons, hnext]
    · rw [List.head?_append, hhead]
      rfl
  | raw _ _ _ ih =>
    rcases ih with ⟨hnil, -⟩ | hhead
    · simp at hnil
    · exact Or.inr hhead
  | same _ htape ih => rwa [(next_congr htape).1]

/-- An error is at one of some tokens, or it is about the token that comes next. -/
def Faults (s : Source) (ts : List Token) (e : GrammarError) : Prop :=
  (∃ t ∈ ts, e.line = t.line) ∨
    ∃ expected, e = .unexpected s.next.1.line expected s.next.1.describe

end Source

/-! ## What tokens do to a draft -/

namespace Draft

/-- What some tokens do to the symbols of a draft: words are heads, stand in bodies or are
    declared, and all else that is declared or stands in a body is a terminal. -/
inductive Fed (ts : List Token) : Draft → Draft → Prop
  | same {d d' : Draft} (h : d'.symbols = d.symbols) : Fed ts d d'
  | trans {d d' d'' : Draft} (h : Fed ts d d') (h' : Fed ts d' d'') : Fed ts d d''
  | head {t : Token} (d : Draft) (ht : t ∈ ts) (hk : t.kind = .word) :
      Fed ts d (d.defineHead (String.ofList t.text) t.line).2
  | word {t : Token} (d : Draft) (ht : t ∈ ts) (hk : t.kind = .word) :
      Fed ts d (d.bodySymbol t.symbolName t.line).2
  | literal {t : Token} (d : Draft) (ht : t ∈ ts) :
      Fed ts d (d.literal t.symbolName t.line).2
  | declare {t : Token} (d : Draft) (ht : t ∈ ts) (p : Precedence) :
      Fed ts d (d.declare p t.symbolName (if t.kind = .word then .virtual else .terminal) t.line).2

theorem Fed.refl (ts : List Token) (d : Draft) : d.Fed ts d :=
  .same rfl

theorem Fed.mono (h : d.Fed ts d') (hsub : ts ⊆ ts') : d.Fed ts' d' := by
  induction h with
  | same h => exact .same h
  | trans _ _ ih ih' => exact ih.trans ih'
  | head d ht hk => exact .head d (hsub ht) hk
  | word d ht hk => exact .word d (hsub ht) hk
  | literal d ht => exact .literal d (hsub ht)
  | declare d ht p => exact .declare d (hsub ht) p

/-! An effect fails at the line that it is given. -/

theorem defineHead_line {name : String} {line : Nat}
    (h : (d.defineHead name line).1 = .error e) : e.line = line := by
  unfold defineHead at h
  split at h
  · cases h
  · split at h <;> cases h <;> rfl

theorem bodySymbol_line {name : String} {line : Nat}
    (h : (d.bodySymbol name line).1 = .error e) : e.line = line := by
  unfold bodySymbol at h
  split at h
  · cases h
  · split at h <;> cases h
    rfl

theorem literal_line {name : String} {line : Nat}
    (h : (d.literal name line).1 = .error e) : e.line = line := by
  unfold literal at h
  split at h
  · cases h
  · split at h <;> cases h <;> rfl

theorem declare_line {p : Precedence} {name : String} {kind : SymbolKind} {line : Nat}
    (h : (d.declare p name kind line).1 = .error e) : e.line = line := by
  simp only [declare, apply_ite Prod.fst] at h
  split_ifs at h <;> cases h <;> rfl

end Draft

/-! ## Outcomes -/

/-- An outcome that comes from tokens: they were taken, they say what became of the draft, and
    an error is at one of them or at the token that comes next.  The tokens `before` are those
    of the same statement that were taken before. -/
structure Outcome.Follows (o : Outcome α) (d : Draft) (s : Source) (before ts : List Token) :
    Prop where
  takes : s.Takes ts o.source
  fed : d.Fed (before ++ ts) o.draft
  faults : ∀ e, o.result = .error e → o.source.Faults (before ++ ts) e

/-- What follows from more tokens follows from all. -/
theorem Outcome.Follows.after {o : Outcome α} (ho : o.Follows d' s' (before ++ ts) ts')
    (h : s.Takes ts s') (hd : d.Fed (before ++ ts) d') : o.Follows d s before (ts ++ ts') := by
  refine ⟨h.trans ho.takes, ?_, fun e he => ?_⟩
  · rw [← List.append_assoc]
    exact (hd.mono (List.subset_append_left _ _)).trans ho.fed
  · rw [← List.append_assoc]
    exact ho.faults e he

theorem unexpected_follows (d : Draft) (s : Source) (expected : String) (before : List Token) :
    (Outcome.unexpected d s.next.2 s.next.1 expected : Outcome α).Follows d s before [] := by
  refine ⟨s.takes_look, .refl _ d, ?_⟩
  rintro e ⟨⟩
  refine Or.inr ⟨expected, ?_⟩
  dsimp only [Outcome.unexpected]
  rw [Source.next_unread]

/-- How an alternative ends: another one follows behind a bar, or the statement ends; without
    any token, it is what it was. -/
def Outcome.Closes (o : Outcome (Alternative × Bool)) (b : Alternative) (ts : List Token) : Prop :=
  ∀ b' more, o.result = .ok (b', more) →
    if more then ts ≠ [] else o.source.next.1.kind.Ends ∧ (ts = [] → b' = b)

/-! ## Bodies -/

/-- An alternative that is complete or failed after some tokens, or goes on after some. -/
def BodyStep.Follows (r : BodyStep) (d : Draft) (s : Source) (b : Alternative)
    (before : List Token) : Prop :=
  match r with
  | .done o => ∃ ts, o.Follows d s before ts ∧ o.Closes b ts
  | .more d' s' _ => ∃ ts, ts ≠ [] ∧ s.Takes ts s' ∧ d.Fed (before ++ ts) d'

theorem readEnd_follows (d : Draft) (s : Source) (b : Alternative) (before : List Token) :
    ∃ ts, (readEnd d s b).Follows d s before ts ∧ (readEnd d s b).Closes b ts := by
  unfold readEnd
  dsimp only
  split
  · rename_i hk
    refine ⟨[], ⟨s.takes_look, .refl _ d, by rintro e ⟨⟩⟩, ?_⟩
    rintro b' more ⟨⟩
    refine ⟨?_, fun _ => rfl⟩
    dsimp only
    rw [Source.next_unread]
    exact hk
  · rename_i hk
    split
    · refine ⟨[s.next.1], ⟨Source.takes_next hk, .refl _ d, by rintro e ⟨⟩⟩, ?_⟩
      rintro b' more ⟨⟩
      simp
    · exact ⟨[], unexpected_follows d s _ before, by rintro b' more ⟨⟩⟩

theorem ofEffect_follows (hk : ¬ s.next.1.kind.Ends) (b : Alternative) {eff : Draft.Effect Nat}
    (hfed : d.Fed (before ++ [s.next.1]) eff.2)
    (hline : ∀ e, eff.1 = .error e → e.line = s.next.1.line) :
    (BodyStep.ofEffect s.next.2 b eff).Follows d s b before := by
  obtain ⟨result, d'⟩ := eff
  cases result with
  | error e =>
    refine ⟨[s.next.1], ⟨Source.takes_next hk, hfed, ?_⟩, by rintro b' more ⟨⟩⟩
    rintro e' ⟨⟩
    exact Or.inl ⟨s.next.1, by simp, hline e rfl⟩
  | ok i => exact ⟨[s.next.1], by simp, Source.takes_next hk, hfed⟩

theorem takes_mark (b : Alternative) (d : Draft) (s : Source) (name : String) (line : Nat) :
    s.Takes [] (b.mark d s name line).2 := by
  unfold Alternative.mark
  split
  · exact .refl
  split
  · exact .refl
  dsimp only
  split
  · exact .refl
  · exact Source.Takes.refl.same rfl

theorem readMark_follows (hk : ¬ s.next.1.kind.Ends) (d : Draft) (b : Alternative)
    (before : List Token) : (readMark d s.next.2 b).Follows d s b before := by
  have hfirst := Source.takes_next hk
  unfold readMark
  dsimp only
  split
  · rename_i hname
    have hname : ¬ s.next.2.next.1.kind.Ends := by
      rcases hname with h | h | h <;> simp [Kind.Ends, h]
    refine ⟨[s.next.1] ++ [s.next.2.next.1], by simp, ?_, .refl _ d⟩
    have := (hfirst.trans (Source.takes_next hname)).trans (takes_mark b d s.next.2.next.2
      s.next.2.next.1.symbolName s.next.2.next.1.line)
    rwa [List.append_nil] at this
  · exact ⟨_, (unexpected_follows d s.next.2 _ _).after hfirst (.refl _ d), by rintro b' more ⟨⟩⟩

theorem readAction_follows (hk : s.next.1.kind = .openAction) (d : Draft) (b : Alternative)
    (before : List Token) :
    (BodyStep.done (readAction d s.next.2 b s.next.1.line)).Follows d s b before := by
  have hfirst : s.Takes ([] ++ [s.next.1]) s.next.2 :=
    Source.takes_next (by rw [hk]; rintro (h | h) <;> cases h)
  have hraw := hfirst.raw hk s.next_pending
  unfold readAction
  split <;> rename_i htaken <;> rw [htaken] at hraw
  · refine ⟨[s.next.1], ⟨hraw, .refl _ d, ?_⟩, by rintro b' more ⟨⟩⟩
    rintro e ⟨⟩
    exact Or.inl ⟨s.next.1, by simp, rfl⟩
  · rename_i code s₁
    obtain ⟨ts, hfollows, hcloses⟩ := readEnd_follows d s₁
      { b with action := some code, actionLine := s.next.1.line } (before ++ ([] ++ [s.next.1]))
    refine ⟨_, hfollows.after hraw (.refl _ d), fun b' more hok => ?_⟩
    have := hcloses b' more hok
    cases more with
    | true => simp
    | false => exact ⟨this.1, by simp⟩

theorem bodyStep_follows (d : Draft) (s : Source) (b : Alternative) (before : List Token) :
    (bodyStep d s b).Follows d s b before := by
  unfold bodyStep
  dsimp only
  have hends (hk : s.next.1.kind.Ends) :
      (BodyStep.done ⟨.ok (b, false), d, s.next.2.unread s.next.1⟩).Follows d s b before := by
    refine ⟨[], ⟨s.takes_look, .refl _ d, by rintro e ⟨⟩⟩, ?_⟩
    rintro b' more ⟨⟩
    refine ⟨?_, fun _ => rfl⟩
    dsimp only
    rw [Source.next_unread]
    exact hk
  split <;> rename_i hk
  · exact hends (Or.inl hk)
  · exact hends (Or.inr hk)
  · refine ⟨[s.next.1], ⟨Source.takes_next (by simp [Kind.Ends, hk]), .refl _ d, by rintro e ⟨⟩⟩, ?_⟩
    rintro b' more ⟨⟩
    simp
  · exact ofEffect_follows (by simp [Kind.Ends, hk]) b (.word d (by simp) hk) fun _ =>
      Draft.bodySymbol_line
  · exact ofEffect_follows (by simp [Kind.Ends, hk]) b (.literal d (by simp)) fun _ =>
      Draft.literal_line
  · exact ofEffect_follows (by simp [Kind.Ends, hk]) b (.literal d (by simp)) fun _ =>
      Draft.literal_line
  · exact readMark_follows (by simp [Kind.Ends, hk]) d b before
  · exact readAction_follows hk d b before
  · exact ⟨[], unexpected_follows d s _ before, by rintro b' more ⟨⟩⟩

/-- The rest of an alternative. -/
theorem readBody_follows (d : Draft) (s : Source) (b : Alternative) (before : List Token) :
    ∃ ts, (readBody d s b).Follows d s before ts ∧ (readBody d s b).Closes b ts := by
  fun_induction readBody d s b generalizing before with
  | case1 d s b o h =>
    have hstep := bodyStep_follows d s b before
    rwa [h] at hstep
  | case2 d s b d' s' b' h ih =>
    have hstep := bodyStep_follows d s b before
    rw [h] at hstep
    obtain ⟨ts, hne, htakes, hfed⟩ := hstep
    obtain ⟨ts', hfollows, hcloses⟩ := ih (before ++ ts)
    refine ⟨ts ++ ts', hfollows.after htakes hfed, fun b'' more hok => ?_⟩
    have := hcloses b'' more hok
    cases more with
    | true => simp [hne]
    | false => exact ⟨this.1, by simp [hne]⟩

/-! ## Alternatives -/

/-- A production that says nothing but its head. -/
def Production.IsBare (p : Production) : Prop :=
  p = { head := p.head, body := [], line := p.line }

/-- Productions are at one of some tokens; but the last one, if it is bare, may be at the token
    that ends the statement. -/
def Source.Places (s : Source) (ts : List Token) (new : List Production) : Prop :=
  ∀ p ∈ new, (∃ t ∈ ts, p.line = t.line) ∨
    new.getLast? = some p ∧ p.IsBare ∧ s.next.1.kind.Ends ∧ p.line = s.next.1.line

theorem Source.Places.nil (s : Source) (ts : List Token) : s.Places ts [] := by
  intro p hp
  cases hp

theorem Source.Places.cons {new : List Production} {p : Production} (h : s.Places ts new)
    (hp : ∃ t ∈ ts, p.line = t.line) : s.Places ts (p :: new) := by
  intro q hq
  rcases List.mem_cons.1 hq with rfl | hq
  · exact Or.inl hp
  rcases h q hq with hline | ⟨hlast, hq⟩
  · exact Or.inl hline
  · exact Or.inr ⟨by rw [List.getLast?_cons, hlast]; rfl, hq⟩

/-- A statement that comes from tokens, with its productions. -/
structure Outcome.Yields (o : Outcome Unit) (d : Draft) (s : Source) (before ts : List Token)
    (new : List Production) : Prop where
  follows : o.Follows d s before ts
  productions : o.draft.productions.toList = d.productions.toList ++ new
  places : o.source.Places (before ++ ts) new
  ends : o.result = .ok () → o.source.next.1.kind.Ends

/-- An alternative is at its first token, or at the end of the statement if it has none. -/
theorem alternative_line {o : Outcome (Alternative × Bool)} {b : Alternative} {more : Bool}
    (hfollows : o.Follows d s.peekLine.2 before ts) (hcloses : o.Closes {} ts)
    (hok : o.result = .ok (b, more)) :
    (∃ t ∈ ts, s.peekLine.1 = t.line) ∨
      more = false ∧ b = {} ∧ o.source.next.1.kind.Ends ∧ s.peekLine.1 = o.source.next.1.line := by
  have hpeek : s.peekLine.2.next.1 = s.next.1 := rfl
  have hclosed := hcloses b more hok
  rcases hfollows.takes.first with ⟨hnil, hnext⟩ | hhead
  · cases more with
    | true => exact absurd hnil hclosed
    | false => exact Or.inr ⟨rfl, hclosed.2 hnil, hclosed.1, by rw [hnext, hpeek]; rfl⟩
  · rw [hpeek] at hhead
    exact Or.inl ⟨_, List.mem_of_head? hhead, rfl⟩

theorem readAlternatives_follows (d : Draft) (s : Source) (head : Nat) (before : List Token) :
    ∃ ts new, (readAlternatives d s head).Yields d s before ts new := by
  have hlater (d : Draft) (s : Source) : (readBody d s {}).draft.productions = d.productions :=
    (readBody_fits (b := {}) (by simp [Alternative.Fits])).1.productions
  have hbody (d : Draft) (s : Source) (before : List Token) : ∃ ts,
      (readBody d s.peekLine.2 {}).Follows d s.peekLine.2 before ts ∧
        (readBody d s.peekLine.2 {}).Follows d s before ts ∧
        (readBody d s.peekLine.2 {}).Closes {} ts := by
    obtain ⟨ts, hfollows, hcloses⟩ := readBody_follows d s.peekLine.2 {} before
    exact ⟨ts, hfollows, ⟨s.takes_look.trans hfollows.takes, hfollows.fed, hfollows.faults⟩, hcloses⟩
  fun_induction readAlternatives d s head generalizing before with
  | case1 d s o e h =>
    obtain ⟨ts, -, hfollows, -⟩ := hbody d s before
    refine ⟨ts, [], ⟨hfollows.takes, hfollows.fed, ?_⟩, ?_, .nil _ _, by rintro ⟨⟩⟩
    · rintro e' ⟨⟩
      exact hfollows.faults e h
    · rw [List.append_nil]
      exact congrArg Array.toList (hlater d s.peekLine.2)
  | case2 d s line o b d' h ih =>
    obtain ⟨ts, hpeek, hfollows, hcloses⟩ := hbody d s before
    obtain ⟨ts', new, hyields⟩ := ih (before ++ ts)
    refine ⟨ts ++ ts', b.production o.draft head line :: new,
      hyields.follows.after hfollows.takes (hfollows.fed.trans (.same rfl)), ?_, ?_, hyields.ends⟩
    · rw [hyields.productions, Array.toList_push, List.append_assoc]
      exact congrArg (fun ps => Array.toList ps ++ _) (hlater d s.peekLine.2)
    · refine .cons (List.append_assoc before ts ts' ▸ hyields.places) ?_
      rcases alternative_line hpeek hcloses h with ⟨t, ht, hline⟩ | ⟨hmore, -⟩
      · exact ⟨t, by simp [ht], hline⟩
      · cases hmore
  | case3 d s line o b more h d' hmore =>
    obtain ⟨ts, hpeek, hfollows, hcloses⟩ := hbody d s before
    have hmore : more = false := by simpa using hmore
    refine ⟨ts, [b.production o.draft head line],
      ⟨hfollows.takes, hfollows.fed.trans (.same rfl), by rintro e ⟨⟩⟩, ?_, ?_, fun _ => ?_⟩
    · rw [Array.toList_push]
      exact congrArg (fun ps => Array.toList ps ++ _) (hlater d s.peekLine.2)
    · intro p hp
      obtain rfl := List.mem_singleton.1 hp
      rcases alternative_line hpeek hcloses h with ⟨t, ht, hline⟩ | ⟨-, rfl, hends, hline⟩
      · exact Or.inl ⟨t, by simp [ht], hline⟩
      · exact Or.inr ⟨rfl, rfl, hends, hline⟩
    · have := hcloses b more h
      rw [hmore] at this
      exact this.1

/-! ## Productions and declarations -/

theorem readProduction_follows (d : Draft) (s : Source) (t : Token) (hk : t.kind = .word) :
    ∃ ts new, (readProduction d s t).Yields d s [t] ts new := by
  have hfed : d.Fed [t] (d.defineHead (String.ofList t.text) t.line).2 :=
    .head d List.mem_cons_self hk
  have hproductions := (d.defineHead_spec (String.ofList t.text) t.line).1.productions
  unfold readProduction
  split
  · rename_i e d' heff
    rw [heff] at hfed hproductions
    refine ⟨[], [], ⟨⟨.refl, hfed, ?_⟩, ?_, .nil _ _, by rintro ⟨⟩⟩⟩
    · rintro e' ⟨⟩
      have hline : e.line = t.line := Draft.defineHead_line (congrArg Prod.fst heff)
      exact Or.inl ⟨t, by simp, hline⟩
    · rw [List.append_nil]
      exact congrArg Array.toList hproductions
  · rename_i head d' heff
    rw [heff] at hfed hproductions
    dsimp only
    split
    · rename_i harrow
      have hfirst : s.Takes [s.next.1] s.next.2 :=
        Source.takes_next (by rw [harrow]; rintro (h | h) <;> cases h)
      obtain ⟨ts, new, hyields⟩ := readAlternatives_follows
        { d' with head := some head, firstHead := d'.firstHead.or (some head) } s.next.2 head
        ([t] ++ [s.next.1])
      refine ⟨_, new, hyields.follows.after hfirst ?_, ?_, ?_, hyields.ends⟩
      · exact (hfed.mono (List.subset_append_left _ _)).trans (.same rfl)
      · rw [hyields.productions]
        exact congrArg (fun ps => Array.toList ps ++ new) hproductions
      · rw [← List.append_assoc]
        exact hyields.places
    · refine ⟨[], [], ⟨⟨s.takes_look, hfed, ?_⟩, ?_, .nil _ _, by rintro ⟨⟩⟩⟩
      · exact (unexpected_follows (α := Unit) d' s "`->`" [t]).faults
      · rw [List.append_nil]
        exact congrArg Array.toList hproductions

/-- The words of a declaration are the tokens up to the end of the statement. -/
theorem readWords_follows (s : Source) (words : List Token) : ∃ ts, s.Takes ts (readWords s words).2 ∧
    (∀ out, (readWords s words).1 = .ok out →
      out = words.reverse ++ ts ∧ (readWords s words).2.next.1.kind.Ends) ∧
    ∀ e, (readWords s words).1 = .error e → (readWords s words).2.Faults ts e := by
  fun_induction readWords s words with
  | case1 s words r hk =>
    refine ⟨[], s.takes_look, ?_, by rintro e ⟨⟩⟩
    rintro out ⟨⟩
    exact ⟨by simp, by rw [Source.next_unread]; exact hk⟩
  | case2 s words r hk hd ih =>
    obtain ⟨ts, htakes, hok, herr⟩ := ih
    refine ⟨[s.next.1] ++ ts, (Source.takes_next hk).trans htakes, fun out hout => ?_,
      fun e he => ?_⟩
    · obtain ⟨rfl, hends⟩ := hok out hout
      exact ⟨by simp [r], hends⟩
    · rcases herr e he with ⟨t, ht, hline⟩ | hnext
      · exact Or.inl ⟨t, by simp [ht], hline⟩
      · exact Or.inr hnext
  | case3 s words r hk hd =>
    refine ⟨[], s.takes_look, by rintro out ⟨⟩, ?_⟩
    rintro e ⟨⟩
    exact Or.inr ⟨_, by rw [Source.next_unread]⟩

theorem declareAll_fed (p : Precedence) : ∀ (d : Draft) (words : List Token),
    d.Fed words (declareAll d p words).2 ∧
      ∀ e, (declareAll d p words).1 = .error e → ∃ t ∈ words, e.line = t.line
  | d, [] => ⟨.refl _ d, by rintro e ⟨⟩⟩
  | d, t :: rest => by
    have hfed : d.Fed (t :: rest) _ := .declare d List.mem_cons_self p
    unfold declareAll
    dsimp only
    split
    · rename_i e d' heff
      have hline : e.line = t.line := Draft.declare_line (congrArg Prod.fst heff)
      rw [heff] at hfed
      refine ⟨hfed, ?_⟩
      rintro e' ⟨⟩
      exact ⟨t, List.mem_cons_self, hline⟩
    · rename_i d' heff
      rw [heff] at hfed
      obtain ⟨hrest, herr⟩ := declareAll_fed p d' rest
      refine ⟨hfed.trans (hrest.mono (List.subset_cons_self _ _)), fun e he => ?_⟩
      obtain ⟨u, hu, hline⟩ := herr e he
      exact ⟨u, List.mem_cons_of_mem _ hu, hline⟩

theorem declareWords_fed (d : Draft) (plain : Bool) (first : Token) (rest : List Token) :
    d.Fed (first :: rest) (declareWords d plain first rest).2 ∧
      ∀ e, (declareWords d plain first rest).1 = .error e →
        ∃ t ∈ first :: rest, e.line = t.line := by
  rcases declareWords_cases d plain first rest with ⟨type, hd⟩ | ⟨assoc, hd⟩ | ⟨assoc, hd⟩
  · rw [hd]
    exact ⟨.same rfl, by rintro e ⟨⟩⟩
  · rw [hd]
    refine ⟨.refl _ d, ?_⟩
    rintro e ⟨⟩
    exact ⟨first, List.mem_cons_self, rfl⟩
  · rw [hd]
    obtain ⟨hfed, herr⟩ := declareAll_fed ⟨d.level + 1, assoc⟩ { d with level := d.level + 1 } rest
    have hlevel : d.Fed (first :: rest) { d with level := d.level + 1 } := .same rfl
    refine ⟨hlevel.trans (hfed.mono (List.subset_cons_self _ _)), fun e he => ?_⟩
    obtain ⟨t, ht, hline⟩ := herr e he
    exact ⟨t, List.mem_cons_of_mem _ ht, hline⟩

theorem readDirective_follows (d : Draft) (s : Source) (plain : Bool) (before : List Token) :
    ∃ ts, (readDirective d s plain).Yields d s before ts [] := by
  have hproductions : (readDirective d s plain).draft.productions.toList =
      d.productions.toList ++ [] := by
    rw [List.append_nil]
    exact congrArg Array.toList (readDirective_later d s plain).productions
  obtain ⟨ts, htakes, hok, herr⟩ := readWords_follows s []
  suffices ∃ ts, (readDirective d s plain).Follows d s before ts ∧
      ((readDirective d s plain).result = .ok () →
        (readDirective d s plain).source.next.1.kind.Ends) by
    obtain ⟨ts, hfollows, hends⟩ := this
    exact ⟨ts, hfollows, hproductions, .nil _ _, hends⟩
  unfold readDirective
  split
  · rename_i e s₁ hwords
    rw [hwords] at htakes herr
    refine ⟨ts, ⟨htakes, .refl _ d, ?_⟩, by rintro ⟨⟩⟩
    rintro e' ⟨⟩
    rcases herr e rfl with ⟨t, ht, hline⟩ | hnext
    · exact Or.inl ⟨t, by simp [ht], hline⟩
    · exact Or.inr hnext
  · rename_i s₁ hwords
    rw [hwords] at htakes
    exact ⟨_, (unexpected_follows d s₁ _ _).after htakes (.refl _ d), by rintro ⟨⟩⟩
  · rename_i first rest s₁ hwords
    rw [hwords] at htakes hok
    obtain ⟨hout, hends⟩ := hok _ rfl
    obtain rfl : first :: rest = ts := by simpa using hout
    obtain ⟨hfed, hline⟩ := declareWords_fed d plain first rest
    refine ⟨first :: rest, ⟨htakes, hfed.mono (List.subset_append_right _ _), fun e he => ?_⟩,
      fun _ => hends⟩
    obtain ⟨t, ht, hline⟩ := hline e he
    exact Or.inl ⟨t, List.mem_append_right _ ht, hline⟩

/-! ## Statements -/

/-- **A statement comes from its tokens**, the first one being of a kind that opens a statement. -/
theorem readStatement_follows {t : Token} (hk : t.kind.Opens) (d : Draft) (s : Source) :
    ∃ ts new, (readStatement d s t).Yields d s [t] ts new := by
  rcases readStatement_cases hk d s with ⟨plain, h⟩ | ⟨head, h⟩ | h | ⟨hword, h⟩ <;> rw [h]
  · obtain ⟨ts, hyields⟩ := readDirective_follows d s plain [t]
    exact ⟨ts, [], hyields⟩
  · exact readAlternatives_follows d s head [t]
  · refine ⟨[], [], ⟨.refl, .refl _ d, ?_⟩, by simp, .nil _ _, by rintro ⟨⟩⟩
    rintro e ⟨⟩
    exact Or.inl ⟨t, by simp, rfl⟩
  · exact readProduction_follows d s t hword

end LayoutLR
