/-
  Layout-aware LR toolkit — reading statements whose tokens are known.

  Where the tokens in front of a source are known, so is what a statement does to
  the draft, but for the lines at which symbols and productions are placed.

  * `Source.Hands`: the tokens that a source is going to hand out;
  * `Draft.outline`, `Draft.Shows`: a draft without its lines;
  * `readWords_hands`, `readBody_hands`: the parts of statements;
  * `Reads`, `ReadsAll`: what statements do to a draft;
  * `readStatements_hands`: a source whose statements can all be read.
-/
import LayoutLR.Proofs.Grammar.Statements
import LayoutLR.Proofs.Grammar.Tape

namespace LayoutLR

open Scanner (breakToken)

variable {d d' : Draft} {s s' : Source} {toks more : List (Kind × List Char)} {x : Kind × List Char}

/-! ## Sources -/

namespace Source

/-- The next tokens of a source are these. -/
def Hands (s : Source) : List (Kind × List Char) → Prop
  | [] => True
  | x :: toks => (s.next.1.kind = x.1 ∧ s.next.1.text = x.2) ∧ s.next.2.Hands toks

theorem hands_of_scanner (hp : s.pending = none) (h : s.scanner.Hands toks) : s.Hands toks := by
  induction toks generalizing s with
  | nil => trivial
  | cons x toks ih =>
    obtain ⟨t, scanner, hnext, rfl, hrest⟩ := h
    have hs : s.next = (t, ⟨{ scanner with tooDeep := [] }, none,
        scanner.tooDeep.map .tooDeep ++ s.warnings, .next :: s.calls⟩) := by
      simp only [next, hp, hnext]
    rw [Hands, hs]
    exact ⟨⟨rfl, rfl⟩, ih rfl hrest⟩

theorem Hands.congr (h : s.Hands toks) (htape : s'.tape = s.tape) : s'.Hands toks := by
  induction toks generalizing s s' with
  | nil => trivial
  | cons x toks ih =>
    obtain ⟨htoken, hrest⟩ := next_congr htape
    rw [Hands, htoken]
    exact ⟨h.1, ih h.2 hrest⟩

/-- A token that was put back is the next one again. -/
theorem Hands.unread (h : s.Hands toks) : (s.next.2.unread s.next.1).Hands toks := by
  cases toks with
  | nil => trivial
  | cons x toks => exact ⟨h.1, h.2.congr (tape_next_unread s.next_pending _)⟩

end Source

/-- The words of a declaration are taken up to the end of the statement. -/
theorem readWords_hands (hd : ∀ w ∈ toks, w.1.isDeclared = true) (hx : x.1.Ends)
    (h : s.Hands (toks ++ x :: more)) (words : List Token) :
    ∃ ts s', readWords s words = (.ok (words.reverse ++ ts), s') ∧
      ts.map (fun t => (t.kind, t.text)) = toks ∧ s'.Hands (x :: more) := by
  induction toks generalizing s words with
  | nil =>
    refine ⟨[], s.next.2.unread s.next.1, ?_, rfl, h.unread⟩
    have hk : s.next.1.kind = .newline ∨ s.next.1.kind = .eof := h.1.1 ▸ hx
    rw [readWords, if_pos hk, List.append_nil]
  | cons w toks ih =>
    obtain ⟨⟨hkind, htext⟩, hrest⟩ := h
    have hw : s.next.1.kind.isDeclared = true := hkind ▸ hd w List.mem_cons_self
    have hk : ¬ (s.next.1.kind = .newline ∨ s.next.1.kind = .eof) := by
      rintro (hk | hk) <;> simp [hk, Kind.isDeclared] at hw
    obtain ⟨ts, s', hread, hts, hs'⟩ :=
      ih (fun w hw => hd w (List.mem_cons_of_mem _ hw)) hrest (s.next.1 :: words)
    refine ⟨s.next.1 :: ts, s', ?_, by simp [hts, hkind, htext], hs'⟩
    rw [readWords, if_neg hk, dif_pos hw, hread]
    simp

/-! ## Drafts without their lines -/

namespace Draft

/-- The symbols of a draft but for the lines of their mentions. -/
def outline (d : Draft) : List Mention :=
  d.symbols.toList.map fun s => { s.toMention with line := 0 }

/-- The productions of a draft but for their lines. -/
def rules (d : Draft) : List Production :=
  d.productions.toList.map fun p => { p with line := 0 }

/-- What a draft says, but for lines. -/
structure Shows (d : Draft) (outline : List Mention) (rules : List Production) (level : Nat)
    (firstHead : Option Nat) : Prop where
  symbols : d.outline = outline
  productions : d.rules = rules
  level : d.level = level
  firstHead : d.firstHead = firstHead
  valueType : d.valueType = none

variable {o : List Mention} {rs : List Production} {level i : Nat} {f : Option Nat} {m : Mention}

theorem Shows.names (h : d.Shows o rs level f) : d.names = o.map Mention.name := by
  rw [← h.symbols, outline, Draft.names, List.map_map]
  rfl

theorem Shows.size (h : d.Shows o rs level f) : d.symbols.size = o.length := by
  rw [← h.symbols, outline, List.length_map, Array.length_toList]

/-- A symbol is found by its name, and is what the outline says. -/
theorem Shows.find? (h : d.Shows o rs level f) (hn : (o.map Mention.name).Nodup)
    (hi : o[i]? = some m) : d.find? m.name = some i ∧ (d.mention i).kind = m.kind ∧
      (d.mention i).precedence = m.precedence := by
  rw [← h.symbols, outline, List.getElem?_map, Option.map_eq_some_iff] at hi
  obtain ⟨e, he, rfl⟩ := hi
  rw [Array.getElem?_toList] at he
  have hlt := (Array.getElem?_eq_some_iff.1 he).1
  have hmention : d.mention i = e.toMention := by rw [Draft.mention, he]; rfl
  refine ⟨?_, by rw [hmention], by rw [hmention]⟩
  rw [← h.names] at hn
  obtain ⟨j, hj⟩ : ∃ j, d.find? e.name = some j := by
    rw [← Option.ne_none_iff_exists', ne_eq, find?_eq_none_iff, not_not]
    exact List.mem_map.2 ⟨e, Array.mem_toList_iff.2 (Array.mem_of_getElem? he), rfl⟩
  rw [hj, name_inj hn (find?_lt hj) hlt ((find?_name hj).trans (by rw [hmention]))]

/-- A new name is added at the end. -/
theorem Shows.add (h : d.Shows o rs level f) (m : Mention) :
    (d.add m).2.Shows (o ++ [{ m with line := 0 }]) rs level f := by
  refine ⟨?_, h.productions, h.level, h.firstHead, h.valueType⟩
  rw [← h.symbols]
  simp [outline, Draft.add]

theorem modify_push {α : Type} (xs : Array α) (x : α) (f : α → α) :
    (xs.push x).modify xs.size f = xs.push (f x) := by
  refine Array.ext (by simp) fun i h h' => ?_
  rw [Array.getElem_modify, Array.getElem_push, Array.getElem_push]
  simp only [Array.size_modify, Array.size_push] at h
  by_cases hi : i < xs.size
  · simp [hi, Nat.ne_of_gt hi]
  · simp [show i = xs.size by omega]

/-- A new terminal can be declared. -/
theorem Shows.declare (h : d.Shows o rs level f) {name : String} (hname : name ∉ o.map Mention.name)
    (p : Precedence) (line : Nat) : ∃ d', d.declare p name .terminal line = (.ok (), d') ∧
      d'.Shows (o ++ [⟨name, some .terminal, some p, none, 0⟩]) rs level f := by
  have hfind : d.find? name = none := by
    rw [find?_eq_none_iff, h.names]
    exact hname
  have hadd := h.add ⟨name, some .terminal, none, none, line⟩
  have hmention : (d.add ⟨name, some .terminal, none, none, line⟩).2.mention d.symbols.size =
      ⟨name, some .terminal, none, none, line⟩ := by
    simp [mention, Draft.add]
  refine ⟨(d.add ⟨name, some .terminal, none, none, line⟩).2.update d.symbols.size
    fun m => { m with precedence := some p }, ?_, ?_⟩
  · unfold Draft.declare
    rw [hfind]
    dsimp only [Draft.add] at hmention ⊢
    rw [hmention]
    simp
  · refine ⟨?_, hadd.productions, hadd.level, hadd.firstHead, hadd.valueType⟩
    rw [← h.symbols]
    simp [outline, Draft.add, update, modify_push]

end Draft

/-- New terminals can be declared all at once. -/
theorem declareAll_shows {o : List Mention} {rs : List Production} {level : Nat} {f : Option Nat}
    {ts : List Token} (h : d.Shows o rs level f) (hk : ∀ t ∈ ts, t.kind = .string)
    (hn : (o.map Mention.name ++ ts.map Token.symbolName).Nodup) (p : Precedence) :
    ∃ d', declareAll d p ts = (.ok (), d') ∧
      d'.Shows (o ++ ts.map fun t => ⟨t.symbolName, some .terminal, some p, none, 0⟩) rs level f := by
  induction ts generalizing d o with
  | nil => exact ⟨d, rfl, by rwa [List.map_nil, List.append_nil]⟩
  | cons t ts ih =>
    have hname : t.symbolName ∉ o.map Mention.name := fun hmem =>
      (List.nodup_append.1 hn).2.2 _ hmem _ (by simp) rfl
    obtain ⟨d₁, hdeclare, h₁⟩ := h.declare hname p t.line
    obtain ⟨d₂, hall, h₂⟩ := ih h₁ (fun t ht => hk t (List.mem_cons_of_mem _ ht))
      (by simpa using hn)
    refine ⟨d₂, ?_, by simpa using h₂⟩
    have hstring : t.kind ≠ .word := by simp [hk t List.mem_cons_self]
    rw [declareAll, if_neg hstring, hdeclare]
    exact hall

/-! ## Statements -/

/-- Reading a statement with these tokens leads from drafts of one kind to drafts of another. -/
structure Reads (toks : List (Kind × List Char)) (P Q : Draft → Prop) : Prop where
  begins : ∃ x rest, toks = x :: rest ∧ ¬ x.1.Ends
  reads : ∀ (d : Draft) (s : Source) (x : Kind × List Char) (more : List (Kind × List Char)), P d →
    x.1.Ends → s.Hands (toks ++ x :: more) →
      ∃ d' s', readStatement d s.next.2 s.next.1 = ⟨.ok (), d', s'⟩ ∧ Q d' ∧ s'.Hands (x :: more)

variable {P Q R : Draft → Prop} {stmts : List (List (Kind × List Char))}

/-- Statements that are read one after the other. -/
inductive ReadsAll : List (List (Kind × List Char)) → (Draft → Prop) → (Draft → Prop) → Prop
  | nil (P : Draft → Prop) : ReadsAll [] P P
  | cons {P Q R : Draft → Prop} {toks : List (Kind × List Char)}
      {stmts : List (List (Kind × List Char))} (h : Reads toks P Q) (hs : ReadsAll stmts Q R) :
      ReadsAll (toks :: stmts) P R

theorem ReadsAll.append {others : List (List (Kind × List Char))} (h : ReadsAll stmts P Q)
    (h' : ReadsAll others Q R) : ReadsAll (stmts ++ others) P R := by
  induction h with
  | nil => exact h'
  | cons hone _ ih => exact .cons hone (ih h')

/-- One statement is read, without an error. -/
theorem Reads.readStatements (h : Reads toks P Q) (hd : P d) (hx : x.1.Ends)
    (hs : s.Hands (toks ++ x :: more)) (errors : List GrammarError) :
    ∃ d' s', readStatements d errors s = readStatements d' errors s' ∧ Q d' ∧
      s'.Hands (x :: more) := by
  obtain ⟨y, rest, rfl, hy⟩ := h.begins
  obtain ⟨d', s', hread, hd', hs'⟩ := h.reads d s x more hd hx hs
  have hk : s.next.1.kind = y.1 := hs.1.1
  refine ⟨d', s', ?_, hd', hs'⟩
  rw [LayoutLR.readStatements, dif_neg (fun he => hy (Or.inr (hk ▸ he))),
    if_neg (fun he => hy (Or.inl (hk ▸ he))), hread]
  rfl

/-- What comes behind a statement ends it. -/
theorem exists_ends (stmts : List (List (Kind × List Char))) : ∃ x more, Kind.Ends x.1 ∧
    (stmts.flatMap fun toks => breakToken :: toks) ++ [(.eof, [])] = x :: more := by
  cases stmts with
  | nil => exact ⟨_, _, Or.inr rfl, rfl⟩
  | cons toks stmts => exact ⟨breakToken, _, Or.inl rfl, rfl⟩

/-- Statements with line breaks in front of them are read up to the end. -/
theorem ReadsAll.readStatements (h : ReadsAll stmts P Q) (hd : P d) (errors : List GrammarError)
    (hs : s.Hands ((stmts.flatMap fun toks => breakToken :: toks) ++ [(.eof, [])])) :
    (readStatements d errors s).errors = errors ∧ Q (readStatements d errors s).draft := by
  induction h generalizing d s with
  | nil =>
    obtain ⟨⟨hk, -⟩, -⟩ := hs
    rw [LayoutLR.readStatements, dif_pos hk]
    exact ⟨rfl, hd⟩
  | @cons P Q R toks stmts hone _ ih =>
    rw [List.flatMap_cons, List.cons_append, List.cons_append, List.append_assoc] at hs
    obtain ⟨⟨hk, -⟩, hs⟩ := hs
    have hbreak : s.next.1.kind = .newline := hk
    rw [LayoutLR.readStatements, dif_neg (by simp [hbreak]), if_pos hbreak]
    obtain ⟨y, more, hy, hrest⟩ := exists_ends stmts
    rw [hrest] at hs
    obtain ⟨d', s', hread, hd', hs'⟩ := hone.readStatements hd hy hs errors
    rw [hread]
    exact ih hd' (hrest ▸ hs')

/-- Statements are read up to the end. -/
theorem readStatements_hands (h : Reads toks P Q) (hs : ReadsAll stmts Q R) (hd : P d)
    (errors : List GrammarError)
    (hhands : s.Hands (toks ++ (stmts.flatMap fun toks => breakToken :: toks) ++ [(.eof, [])])) :
    (readStatements d errors s).errors = errors ∧ R (readStatements d errors s).draft := by
  obtain ⟨y, more, hy, hrest⟩ := exists_ends stmts
  rw [List.append_assoc, hrest] at hhands
  obtain ⟨d', s', hread, hd', hs'⟩ := h.readStatements hd hy hhands errors
  rw [hread]
  exact hs.readStatements hd' errors (hrest ▸ hs')

/-! ## Declarations -/

theorem ofKeyword?_keyword (assoc : Assoc) : Assoc.ofKeyword? assoc.keyword = some assoc := by
  cases assoc <;> rfl

/-- The tokens of literals name the symbols that are spelled between their quotes. -/
theorem symbolNames_of_literals {ts : List Token} {words : List (List Char)}
    (h : ts.map (fun t => (t.kind, t.text)) = words.map fun w => (Kind.string, w)) :
    (∀ t ∈ ts, t.kind = .string) ∧
      ts.map Token.symbolName = words.map fun w => String.ofList (unquote w) := by
  have hstrings : ∀ t ∈ ts, t.kind = .string := by
    intro t ht
    have hmem : (t.kind, t.text) ∈ words.map fun w => (Kind.string, w) := by
      rw [← h]
      exact List.mem_map_of_mem ht
    obtain ⟨w, -, hw⟩ := List.mem_map.1 hmem
    exact (Prod.mk.inj hw).1.symm
  have htexts : ts.map Token.text = words := by
    have := congrArg (List.map Prod.snd) h
    simpa [List.map_map, Function.comp_def] using this
  refine ⟨hstrings, ?_⟩
  rw [← htexts, List.map_map]
  refine List.map_congr_left fun t ht => ?_
  simp [Token.symbolName, hstrings t ht]

section

variable {o : List Mention} {rs : List Production} {level : Nat} {f : Option Nat}

/-- A declaration of new literals gives them the next level. -/
theorem declaration_reads {text : List Char} (assoc : Assoc) {words : List (List Char)}
    (hne : words ≠ [])
    (hn : (o.map Mention.name ++ words.map fun w => String.ofList (unquote w)).Nodup) :
    Reads ((.dollar, text) :: (.word, assoc.keyword.toList) :: words.map fun w => (.string, w))
      (fun d => d.Shows o rs level f)
      (fun d => d.Shows (o ++ words.map fun w => ⟨String.ofList (unquote w), some .terminal,
        some ⟨level + 1, assoc⟩, none, 0⟩) rs (level + 1) f) := by
  refine ⟨⟨_, _, rfl, by rintro (h | h) <;> cases h⟩, fun d s x more hd hx hs => ?_⟩
  obtain ⟨⟨hk, -⟩, hs⟩ := hs
  obtain rfl := hd.level
  have hdeclared : ∀ w ∈ (Kind.word, assoc.keyword.toList) :: words.map fun w => (Kind.string, w),
      w.1.isDeclared = true := by
    intro w hw
    rcases List.mem_cons.1 hw with rfl | hw
    · rfl
    · obtain ⟨_, -, rfl⟩ := List.mem_map.1 hw
      rfl
  obtain ⟨ts, s', hread, hts, hs'⟩ := readWords_hands hdeclared hx hs []
  obtain ⟨first, rest, rfl, hfirst, hrest⟩ := List.map_eq_cons_iff.1 hts
  obtain ⟨hkind, htext⟩ := Prod.mk.inj hfirst
  obtain ⟨hstrings, hnames⟩ := symbolNames_of_literals hrest
  have hlevel : ({ d with level := d.level + 1 } : Draft).Shows o rs (d.level + 1) f :=
    ⟨hd.symbols, hd.productions, rfl, hd.firstHead, hd.valueType⟩
  obtain ⟨d', hdeclare, hd'⟩ := declareAll_shows hlevel hstrings (by rwa [hnames])
    ⟨d.level + 1, assoc⟩
  refine ⟨d', s', ?_, ?_, hs'⟩
  · have hempty : rest.isEmpty = false := by
      rw [List.isEmpty_eq_false_iff]
      rintro rfl
      exact hne (List.map_eq_nil_iff.1 hrest.symm)
    have hword : Assoc.ofKeyword? (String.ofList first.text) = some assoc := by
      rw [htext, String.ofList_toList, ofKeyword?_keyword]
    have hstatement : readStatement d s.next.2 s.next.1 = readDirective d s.next.2 false := by
      rw [readStatement, hk]
      rfl
    rw [hstatement, readDirective, hread]
    simp [declareWords, hkind, hword, declarePrecedence, hempty, hdeclare]
  · have hmap : (rest.map fun t => (⟨t.symbolName, some .terminal, some ⟨d.level + 1, assoc⟩, none,
        0⟩ : Mention)) = (rest.map Token.symbolName).map fun name =>
          ⟨name, some .terminal, some ⟨d.level + 1, assoc⟩, none, 0⟩ := by
      rw [List.map_map]
      rfl
    rw [hmap, hnames, List.map_map] at hd'
    exact hd'

/-! ## Productions -/

/-- The end of a statement ends an alternative. -/
theorem bodyStep_ends (hx : x.1.Ends) (hs : s.Hands (x :: more)) (b : Alternative) :
    bodyStep d s b = .done ⟨.ok (b, false), d, s.next.2.unread s.next.1⟩ := by
  have hk : s.next.1.kind = x.1 := hs.1.1
  rw [bodyStep]
  rcases hx with hx | hx
  · simp only [hk, hx]
  · simp only [hk, hx]

theorem readBody_done {b : Alternative} {out : Outcome (Alternative × Bool)}
    (h : bodyStep d s b = .done out) : readBody d s b = out := by
  rw [readBody]
  split
  · rename_i e
    rw [h] at e
    cases e
    rfl
  · rename_i e
    rw [h] at e
    cases e

theorem readBody_more {s' : Source} {b b' : Alternative} (h : bodyStep d s b = .more d' s' b') :
    readBody d s b = readBody d' s' b' := by
  rw [readBody]
  split
  · rename_i e
    rw [h] at e
    cases e
  · rename_i e
    rw [h] at e
    cases e
    rfl

/-- A single alternative is a production of its head. -/
theorem readAlternatives_one {s' : Source} {b : Alternative}
    (h : readBody d s.peekLine.2 {} = ⟨.ok (b, false), d', s'⟩) (head : Nat) :
    readAlternatives d s head = ⟨.ok (), { d' with
      productions := d'.productions.push (b.production d' head s.peekLine.1) }, s'⟩ := by
  rw [readAlternatives]
  split
  · rename_i e
    rw [h] at e
    cases e
  · rename_i e
    rw [h] at e ⊢
    cases e
    rfl

/-- A head and an arrow start the alternatives of the head. -/
theorem readStatement_production {text : List Char} {head : Nat} (hk : s.next.1.kind = .word)
    (htext : s.next.1.text = text) (harrow : s.next.2.next.1.kind = .arrow)
    (hhead : d.defineHead (String.ofList text) s.next.1.line = (.ok head, d')) :
    readStatement d s.next.2 s.next.1 = readAlternatives
      { d' with head := some head, firstHead := d'.firstHead.or (some head) } s.next.2.next.2 head := by
  have hstatement : readStatement d s.next.2 s.next.1 = readProduction d s.next.2 s.next.1 := by
    rw [readStatement, hk]
  rw [hstatement, readProduction, htext, hhead]
  dsimp only
  rw [if_pos harrow]

/-- What a token of a body stands for: a word for a symbol, a string for a literal. -/
inductive Mentions (o : List Mention) : Kind × List Char → Nat → Prop
  | word {text : List Char} {i : Nat} {m : Mention} (hi : o[i]? = some m)
      (hname : m.name = String.ofList text) (hk : m.kind ≠ some .virtual) : Mentions o (.word, text) i
  | literal {text : List Char} {i : Nat} {m : Mention} (hi : o[i]? = some m)
      (hname : m.name = String.ofList (unquote text)) (hk : m.kind = some .terminal) :
      Mentions o (.string, text) i

/-- A symbol that is known is added to the body. -/
theorem Mentions.bodyStep {tok : Kind × List Char} {i : Nat} (h : Mentions o tok i)
    (hd : d.Shows o rs level f) (hn : (o.map Mention.name).Nodup) (hs : s.Hands (tok :: more))
    (b : Alternative) :
    bodyStep d s b = .more d s.next.2 { b with symbols := i :: b.symbols } := by
  obtain ⟨⟨hk, htext⟩, -⟩ := hs
  cases h with
  | @word text i m hi hname hkind =>
    obtain ⟨hfind, hkindOf, -⟩ := hd.find? hn hi
    have hsymbol : d.bodySymbol s.next.1.symbolName s.next.1.line = (.ok i, d) := by
      have : s.next.1.symbolName = m.name := by simp [Token.symbolName, hk, htext, hname]
      rw [this, Draft.bodySymbol, hfind]
      simp [hkindOf, hkind]
    rw [LayoutLR.bodyStep]
    simp only [hk, hsymbol]
    rfl
  | @literal text i m hi hname hkind =>
    obtain ⟨hfind, hkindOf, -⟩ := hd.find? hn hi
    have hsymbol : d.literal s.next.1.symbolName s.next.1.line = (.ok i, d) := by
      have : s.next.1.symbolName = m.name := by simp [Token.symbolName, hk, htext, hname]
      rw [this, Draft.literal, hfind]
      simp [hkindOf, hkind]
    rw [LayoutLR.bodyStep]
    simp only [hk, hsymbol]
    rfl

/-- A body of symbols that are known is read up to the end of the statement. -/
theorem readBody_hands {is : List Nat} (h : List.Forall₂ (Mentions o) toks is)
    (hd : d.Shows o rs level f) (hn : (o.map Mention.name).Nodup) (hx : x.1.Ends)
    (hs : s.Hands (toks ++ x :: more)) (b : Alternative) :
    ∃ s', readBody d s b = ⟨.ok ({ b with symbols := is.reverse ++ b.symbols }, false), d, s'⟩ ∧
      s'.Hands (x :: more) := by
  induction h generalizing s b with
  | nil => exact ⟨s.next.2.unread s.next.1, readBody_done (bodyStep_ends hx hs b), hs.unread⟩
  | @cons tok i toks is hone _ ih =>
    obtain ⟨s', hread, hs'⟩ := ih hs.2 { b with symbols := i :: b.symbols }
    refine ⟨s', ?_, hs'⟩
    rw [readBody_more (hone.bodyStep hd hn hs b), hread, List.reverse_cons, List.append_assoc,
      List.singleton_append]

/-- The precedence of a body. -/
def bodyPrecedence (o : List Mention) (body : List Nat) : Option Precedence :=
  body.reverse.findSome? fun i => o[i]?.bind Mention.precedence

theorem Draft.Shows.bodyPrecedence (hd : d.Shows o rs level f) (body : List Nat) :
    d.bodyPrecedence body = LayoutLR.bodyPrecedence o body := by
  rw [Draft.bodyPrecedence, LayoutLR.bodyPrecedence, ← hd.symbols]
  refine congrArg (fun g => List.findSome? g body.reverse) (funext fun i => ?_)
  rw [Draft.mention, Draft.outline, List.getElem?_map, Array.getElem?_toList]
  cases d.symbols[i]? <;> rfl

/-- The production of a head and a body that are known, but for its line. -/
def plainRule (o : List Mention) (head : Nat) (body : List Nat) : Production :=
  ⟨head, body, bodyPrecedence o body, none, 0, .anywhere, 0⟩

/-- An alternative of symbols that are known is a production of its head. -/
theorem readAlternatives_hands {is : List Nat} (h : List.Forall₂ (Mentions o) toks is)
    (hd : d.Shows o rs level f) (hn : (o.map Mention.name).Nodup) (hx : x.1.Ends)
    (hs : s.Hands (toks ++ x :: more)) (head : Nat) :
    ∃ d' s', readAlternatives d s head = ⟨.ok (), d', s'⟩ ∧
      d'.Shows o (rs ++ [plainRule o head is]) level f ∧ s'.Hands (x :: more) := by
  obtain ⟨s', hread, hs'⟩ := readBody_hands h hd hn hx hs.unread {}
  let b : Alternative := { symbols := is.reverse ++ [] }
  have hread : readBody d s.peekLine.2 {} = ⟨.ok (b, false), d, s'⟩ := hread
  refine ⟨{ d with productions := d.productions.push (b.production d head s.peekLine.1) }, s',
    readAlternatives_one hread head,
    ⟨hd.symbols, ?_, hd.level, hd.firstHead, hd.valueType⟩, hs'⟩
  rw [← hd.productions]
  simp [Draft.rules, Alternative.production, b, plainRule, hd.bodyPrecedence]

/-- A production is read if its head can be defined. -/
theorem production_reads {text arrow : List Char} {is : List Nat} {head : Nat} {P : Draft → Prop}
    (hdefine : ∀ d line, P d → ∃ d', d.defineHead (String.ofList text) line = (.ok head, d') ∧
      d'.Shows o rs level f)
    (hn : (o.map Mention.name).Nodup) (h : List.Forall₂ (Mentions o) toks is) :
    Reads ((.word, text) :: (.arrow, arrow) :: toks) P
      (fun d => d.Shows o (rs ++ [plainRule o head is]) level (f.or (some head))) := by
  refine ⟨⟨_, _, rfl, by rintro (h | h) <;> cases h⟩, fun d s x more hd hx hs => ?_⟩
  obtain ⟨⟨hk, htext⟩, ⟨harrow, -⟩, hs⟩ := hs
  obtain ⟨d₁, hhead, h₁⟩ := hdefine d s.next.1.line hd
  have h₁ : ({ d₁ with head := some head, firstHead := d₁.firstHead.or (some head) } : Draft).Shows
      o rs level (f.or (some head)) :=
    ⟨h₁.symbols, h₁.productions, h₁.level, by rw [h₁.firstHead], h₁.valueType⟩
  obtain ⟨d', s', hread, hd', hs'⟩ := readAlternatives_hands h h₁ hn hx hs head
  exact ⟨d', s', (readStatement_production hk htext harrow hhead).trans hread, hd', hs'⟩

/-- The first production of a new head. -/
theorem newHead_reads {text arrow : List Char} {is : List Nat}
    (hn : (o.map Mention.name ++ [String.ofList text]).Nodup)
    (h : List.Forall₂ (Mentions (o ++ [⟨String.ofList text, some .nonterminal, none, none, 0⟩]))
      toks is) :
    Reads ((.word, text) :: (.arrow, arrow) :: toks) (fun d => d.Shows o rs level f)
      (fun d => d.Shows (o ++ [⟨String.ofList text, some .nonterminal, none, none, 0⟩])
        (rs ++ [plainRule (o ++ [⟨String.ofList text, some .nonterminal, none, none, 0⟩])
          o.length is]) level (f.or (some o.length))) := by
  refine production_reads (fun d line hd => ?_) (by simpa using hn) h
  have hfind : d.find? (String.ofList text) = none := by
    rw [Draft.find?_eq_none_iff, hd.names]
    exact fun hmem => (List.nodup_append.1 hn).2.2 _ hmem _ (by simp) rfl
  refine ⟨_, ?_, hd.add ⟨String.ofList text, some .nonterminal, none, none, line⟩⟩
  rw [Draft.defineHead, hfind, hd.valueType, ← hd.size]
  rfl

/-- A further production of a head. -/
theorem oldHead_reads {text arrow : List Char} {is : List Nat} {head : Nat} {m : Mention}
    (hn : (o.map Mention.name).Nodup) (hhead : o[head]? = some m)
    (hname : m.name = String.ofList text) (hk : m.kind = some .nonterminal)
    (h : List.Forall₂ (Mentions o) toks is) :
    Reads ((.word, text) :: (.arrow, arrow) :: toks) (fun d => d.Shows o rs level f)
      (fun d => d.Shows o (rs ++ [plainRule o head is]) level (f.or (some head))) := by
  refine production_reads (fun d line hd => ⟨d, ?_, hd⟩) hn h
  obtain ⟨hfind, hkind, -⟩ := hd.find? hn hhead
  rw [← hname, Draft.defineHead, hfind]
  simp [hkind, hk]

end

end LayoutLR
