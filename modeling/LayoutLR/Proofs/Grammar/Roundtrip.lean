/-
  Layout-aware LR toolkit — plain grammars are read back as they were written.

  A plain grammar has one production on each line, with names and literals in its
  bodies, and nothing else.  A name may be used before the line that makes it a head,
  so what a symbol is turns out late; but its name tells from the start: symbols with
  the names of heads never become terminals, and all others always are terminals.
  Reading a line adds the production of its names, and later lines only add names
  behind those that are there.

  * `Rule`, `Writable`: what is written, and what can be;
  * `Production.Spells`: a production that has been written like this;
  * `Draft.Sorted`: the symbols are what their names tell;
  * `readBody_finds`, `rule_reads`: a line is read;
  * `rules_read_back`: a grammar has the productions that were written.
-/
import LayoutLR.Proofs.Grammar.Numbering
import LayoutLR.Proofs.Grammar.Reading
import LayoutLR.Proofs.Grammar.Words

namespace LayoutLR

open Scanner (breakToken CutsLine Lexes)

/-! ## What is written -/

/-- A symbol as it is written: a name, or the text of a literal. -/
inductive RuleSymbol where
  | name (text : List Char)
  | literal (text : List Char)

namespace RuleSymbol

def symbolName : RuleSymbol → String
  | name text | literal text => String.ofList text

/-- The symbol in a line. -/
def text : RuleSymbol → List Char
  | name text => text
  | literal text => quoted text

def token : RuleSymbol → Kind × List Char
  | name text => (.word, text)
  | literal text => (.string, quoted text)

end RuleSymbol

/-- A production as it is written. -/
structure Rule where
  head : List Char
  body : List RuleSymbol

namespace Rule

/-- The line of a rule. -/
def line (r : Rule) : List Char :=
  r.head ++ ' ' :: '-' :: '>' :: r.body.flatMap fun x => ' ' :: x.text

/-- The tokens of this line. -/
def tokens (r : Rule) : List (Kind × List Char) :=
  (.word, r.head) :: (.arrow, ['-', '>']) :: r.body.map RuleSymbol.token

/-- The names of the head and of the symbols of the body. -/
def names (r : Rule) : String × List String :=
  (String.ofList r.head, r.body.map RuleSymbol.symbolName)

end Rule

/-- Rules as a text, one on each line. -/
def rulesText (rules : List Rule) : String :=
  String.ofList (rules.flatMap fun r => r.line ++ ['\n'])

/-- The names of the predefined terminals. -/
def predefinedNames : List String :=
  Kind.predefined.filterMap Kind.name?

/-- The names of the heads. -/
def headNames (rules : List Rule) : List String :=
  rules.map fun r => String.ofList r.head

/-- A symbol that can be written in a body, where these are the heads: a name stands for a head or
    for a predefined terminal; in a literal there is no quote, no backslash and no line break, and
    it is not a head. -/
def RuleSymbol.Fits (heads : List String) : RuleSymbol → Prop
  | name text => isName text = true ∧
    (String.ofList text ∈ heads ∨ String.ofList text ∈ predefinedNames)
  | literal text => ('\x27' ∉ text ∧ '\\' ∉ text ∧ '\n' ∉ text) ∧ String.ofList text ∉ heads

instance (heads : List String) : DecidablePred (RuleSymbol.Fits heads)
  | .name text => inferInstanceAs (Decidable (isName text = true ∧
    (String.ofList text ∈ heads ∨ String.ofList text ∈ predefinedNames)))
  | .literal text => inferInstanceAs (Decidable (('\x27' ∉ text ∧ '\\' ∉ text ∧ '\n' ∉ text) ∧
    String.ofList text ∉ heads))

/-- Rules that can be written so that they are read back. -/
structure Writable (rules : List Rule) : Prop where
  heads : ∀ r ∈ rules, isName r.head = true ∧ String.ofList r.head ∉ predefinedNames
  bodies : ∀ r ∈ rules, ∀ y ∈ r.body, y.Fits (headNames rules)

/-- A production of symbols with these names, without a precedence, an action or a mark. -/
structure Production.Spells (nameOf : Nat → Option String) (p : Production)
    (names : String × List String) : Prop where
  head : nameOf p.head = some names.1
  body : p.body.map nameOf = names.2.map some
  precedence : p.precedence = none
  action : p.action = none
  boundary : p.boundary = .anywhere

/-- Names that are kept, with other numbers for the symbols. -/
theorem Production.Spells.renumber {nameOf nameOf' : Nat → Option String} {p : Production}
    {names : String × List String} (h : p.Spells nameOf names) (f : Nat → Nat)
    (hf : ∀ i name, nameOf i = some name → nameOf' (f i) = some name) :
    ({ p with head := f p.head, body := p.body.map f } : Production).Spells nameOf' names := by
  refine ⟨hf _ _ h.head, ?_, h.precedence, h.action, h.boundary⟩
  have hbody := h.body
  generalize names.2 = body at hbody
  show (p.body.map f).map nameOf' = _
  generalize p.body = is at hbody
  induction is generalizing body with
  | nil =>
    cases body with
    | nil => rfl
    | cons => cases hbody
  | cons i is ih =>
    cases body with
    | nil => cases hbody
    | cons name body =>
      obtain ⟨hi, his⟩ := List.cons.inj hbody
      rw [List.map_cons, List.map_cons, List.map_cons, hf i name hi, ih body his]

/-! ## Lines -/

section

variable {cs : List Char} {c : Char} {r : Rule} {body : List RuleSymbol}

/-- What comes behind a symbol or an arrow neither continues a word nor a run of marks. -/
theorem exists_behind (body : List RuleSymbol) (cs : List Char) : ∃ d ds,
    (body.flatMap fun x => ' ' :: x.text) ++ '\n' :: cs = d :: ds ∧
      grammarConfig.continuesWord d = false ∧ grammarConfig.isMark d = false := by
  cases body with
  | nil => exact ⟨_, _, rfl, by decide, by decide⟩
  | cons x body => exact ⟨_, _, rfl, by decide, by decide⟩

theorem lexes_body {heads : List String} (hbody : ∀ y ∈ body, y.Fits heads) (cs : List Char) :
    Lexes grammarConfig false ((body.flatMap fun x => ' ' :: x.text) ++ '\n' :: cs)
      (body.map RuleSymbol.token) ('\n' :: cs) := by
  induction body with
  | nil => exact .done _ _
  | cons x body ih =>
    have ih := ih fun y hy => hbody y (List.mem_cons_of_mem _ hy)
    have hfits := hbody x List.mem_cons_self
    rw [List.flatMap_cons, List.append_assoc, List.cons_append, List.map_cons]
    cases x with
    | name text =>
      have hname := hfits.1
      obtain ⟨d, ds, hbehind, hd, -⟩ := exists_behind body cs
      rw [hbehind] at ih ⊢
      cases text with
      | nil => cases hname
      | cons c w =>
        refine ih.spaced w ?_ (lexeme_identifier hname hd) rfl
        rw [isName, Bool.and_eq_true] at hname
        exact isBlank_name hname.1
    | literal text =>
      obtain ⟨hquote, hslash, hbreak⟩ := hfits.1
      exact lexes_string hquote hslash hbreak ih

theorem cutsLine_rule {heads : List String} (hhead : isName r.head = true)
    (hbody : ∀ y ∈ r.body, y.Fits heads) : CutsLine grammarConfig r.line r.tokens := by
  obtain ⟨head, body⟩ := r
  cases head with
  | nil => cases hhead
  | cons c w =>
    have hinitial := hhead
    rw [isName, Bool.and_eq_true] at hinitial
    obtain ⟨hslash, hhash⟩ := not_comment_name hinitial.1
    refine ⟨⟨c, _, rfl, isBlank_name hinitial.1, fun rest => by simp [comment?, hslash, hhash]⟩,
      fun rest => ?_, List.cons_ne_nil _ _⟩
    have hbody := lexes_body hbody rest
    obtain ⟨d, ds, hbehind, -, hd⟩ := exists_behind body rest
    rw [hbehind] at hbody
    have harrow := lexes_arrow hd hbody
    have hline : Rule.line ⟨c :: w, body⟩ ++ '\n' :: rest =
        c :: (w ++ ' ' :: '-' :: '>' :: d :: ds) := by
      rw [← hbehind]
      simp [Rule.line]
    rw [hline]
    exact harrow.adjacent w (isBlank_name hinitial.1) (lexeme_identifier hhead (by decide)) rfl

end

/-! ## Symbols of a draft -/

namespace Draft

variable {heads : List String} {d d' : Draft} {name : String} {i : Nat} {m : Mention}

/-- Symbols with the names of heads are nonterminals, or it is not known yet what they are; all
    others are terminals.  None has a precedence. -/
structure Sorted (heads : List String) (d : Draft) : Prop where
  named : d.Named
  precedence : ∀ i < d.symbols.size, (d.mention i).precedence = none
  head : ∀ i < d.symbols.size, (d.mention i).name ∈ heads →
    d.kindOf i = none ∨ d.kindOf i = some .nonterminal
  other : ∀ i < d.symbols.size, (d.mention i).name ∉ heads → d.kindOf i = some .terminal

/-- A name is found or added, other names staying where they are. -/
def Finds (heads : List String) (d : Draft) (name : String) (e : Effect Nat) : Prop :=
  ∃ i d', e = (.ok i, d') ∧ d'.Sorted heads ∧ d'.names[i]? = some name ∧
    d.names <+: d'.names ∧ d'.productions = d.productions

theorem new_sorted (h : ∀ name ∈ heads, name ∉ predefinedNames) : Draft.new.Sorted heads := by
  have hall : ∀ i < Draft.new.symbols.size, (Draft.new.mention i).precedence = none ∧
      (Draft.new.mention i).name ∈ predefinedNames ∧ Draft.new.kindOf i = some .terminal := by decide
  exact ⟨⟨List.prefix_refl _, by decide⟩, fun i hi => (hall i hi).1,
    fun i hi hhead => absurd (hall i hi).2.1 (h _ hhead), fun i hi _ => (hall i hi).2.2⟩

theorem getElem?_grown {names names' : List String} (h : names <+: names')
    (hi : names[i]? = some name) : names'[i]? = some name := by
  obtain ⟨hlt, rfl⟩ := List.getElem?_eq_some_iff.1 hi
  exact List.prefix_iff_getElem?.1 h i hlt

theorem Sorted.precedence_mention (h : d.Sorted heads) (i : Nat) :
    (d.mention i).precedence = none := by
  by_cases hi : i < d.symbols.size
  · exact h.precedence i hi
  · rw [mention, Array.getElem?_eq_none (Nat.le_of_not_lt hi)]
    rfl

theorem getElem?_names (h : d.find? name = some i) : d.names[i]? = some name := by
  obtain ⟨hlt, hname, -⟩ := Array.findIdx?_eq_some_iff_getElem.1 h
  rw [names, List.getElem?_map, Array.getElem?_toList, Array.getElem?_eq_getElem hlt]
  simpa using hname

theorem Named.keeps (h : d.Named) (hk : d.KeepsNames d') : d'.Named :=
  ⟨h.predefined.trans hk.isPrefix, hk.nodup h.nodup⟩

/-- A name stands for one symbol. -/
theorem Sorted.eq_of_names {j : Nat} (h : d.Sorted heads) (hi : d.names[i]? = some name)
    (hj : d.names[j]? = some name) : i = j := by
  obtain ⟨hlt, hname⟩ := List.getElem?_eq_some_iff.1 hi
  obtain ⟨hlt', hname'⟩ := List.getElem?_eq_some_iff.1 hj
  exact (h.named.nodup.getElem_inj_iff).1 (hname.trans hname'.symm)

/-- A new name is added. -/
theorem Sorted.finds_add (h : d.Sorted heads) (hnew : d.find? m.name = none)
    (hprecedence : m.precedence = none)
    (hhead : m.name ∈ heads → m.kind = none ∨ m.kind = some .nonterminal)
    (hother : m.name ∉ heads → m.kind = some .terminal) :
    Finds heads d m.name (.ok (d.add m).1, (d.add m).2) := by
  have hold : ∀ i < (d.add m).2.symbols.size, i ≠ d.symbols.size → i < d.symbols.size := by
    intro i hi hne
    simp only [Draft.add, Array.size_push] at hi
    omega
  refine ⟨_, _, rfl, ⟨h.named.keeps (add_keepsNames hnew), fun i hi => ?_, fun i hi => ?_,
    fun i hi => ?_⟩, ?_, (add_keepsNames hnew).isPrefix, rfl⟩
  · rw [mention_add]
    split
    · exact hprecedence
    · exact h.precedence i (hold i hi ‹_›)
  · rw [mention_add, kindOf_add]
    split
    · exact hhead
    · exact h.head i (hold i hi ‹_›)
  · rw [mention_add, kindOf_add]
    split
    · exact hother
    · exact h.other i (hold i hi ‹_›)
  · have hlen : d.names.length = d.symbols.size := by simp [names]
    show (d.add m).2.names[d.symbols.size]? = some m.name
    rw [names_add, ← hlen]
    exact List.getElem?_concat_length

/-- A name that is there is found. -/
theorem Sorted.finds_old (h : d.Sorted heads) (hfind : d.find? name = some i) :
    Finds heads d name (.ok i, d) :=
  ⟨i, d, rfl, h, getElem?_names hfind, List.prefix_refl _, rfl⟩

/-- A name in a body. -/
theorem Sorted.bodySymbol (h : d.Sorted heads) (hname : name ∈ heads ∨ name ∈ predefinedNames)
    (line : Nat) : Finds heads d name (d.bodySymbol name line) := by
  cases hfind : d.find? name with
  | none =>
    have hhead : name ∈ heads := hname.resolve_right fun hpredefined =>
      find?_eq_none_iff.1 hfind (h.named.predefined.subset hpredefined)
    rw [Draft.bodySymbol, hfind]
    exact h.finds_add (m := ⟨name, none, none, none, line⟩) hfind rfl (fun _ => Or.inl rfl)
      (absurd hhead)
  | some i =>
    have hkind : (d.mention i).kind ≠ some .virtual := by
      rw [← kindOf]
      have hlt := find?_lt hfind
      by_cases hhead : (d.mention i).name ∈ heads
      · rcases h.head i hlt hhead with hk | hk <;> simp [hk]
      · simp [h.other i hlt hhead]
    rw [Draft.bodySymbol, hfind]
    dsimp only
    rw [if_neg hkind]
    exact h.finds_old hfind

/-- A literal in a body. -/
theorem Sorted.literal (h : d.Sorted heads) (hname : name ∉ heads) (line : Nat) :
    Finds heads d name (d.literal name line) := by
  cases hfind : d.find? name with
  | none =>
    rw [Draft.literal, hfind]
    exact h.finds_add (m := ⟨name, some .terminal, none, none, line⟩) hfind rfl
      (fun hhead => absurd hhead hname) fun _ => rfl
  | some i =>
    have hkind : (d.mention i).kind = some .terminal :=
      h.other i (find?_lt hfind) (by rwa [find?_name hfind])
    rw [Draft.literal, hfind]
    dsimp only
    rw [hkind]
    exact h.finds_old hfind

/-- A head. -/
theorem Sorted.defineHead (h : d.Sorted heads) (hname : name ∈ heads) (line : Nat) :
    Finds heads d name (d.defineHead name line) := by
  cases hfind : d.find? name with
  | none =>
    rw [Draft.defineHead, hfind]
    exact h.finds_add (m := ⟨name, some .nonterminal, none, d.valueType, line⟩) hfind rfl
      (fun _ => Or.inr rfl) (absurd hname)
  | some i =>
    have hlt := find?_lt hfind
    have hmention := find?_name hfind
    rcases h.head i hlt (by rwa [hmention]) with hk | hk <;> rw [kindOf] at hk
    · rw [Draft.defineHead, hfind]
      dsimp only
      rw [hk]
      -- only what the symbol is changes
      let f := fun m : Mention =>
        { m with kind := some SymbolKind.nonterminal, valueType := d.valueType }
      have hkeeps : d.KeepsNames (d.update i f) := update_keepsNames d i fun _ => rfl
      have hsize : (d.update i f).symbols.size = d.symbols.size := by simp [Draft.update]
      refine ⟨i, _, rfl, ⟨h.named.keeps hkeeps, fun j hj => ?_, fun j hj => ?_, fun j hj => ?_⟩,
        getElem?_grown hkeeps.isPrefix (getElem?_names hfind), hkeeps.isPrefix, rfl⟩ <;>
        rw [hsize] at hj <;> rw [mention_update hlt]
      · split
        · exact h.precedence i hlt
        · exact h.precedence j hj
      · rw [kindOf_update hlt]
        split
        · exact fun _ => Or.inr rfl
        · exact h.head j hj
      · rw [kindOf_update hlt]
        split
        · exact fun hother => absurd (hmention ▸ hname) hother
        · exact h.other j hj
    · rw [Draft.defineHead, hfind]
      dsimp only
      rw [hk]
      exact h.finds_old hfind

end Draft

/-! ## Statements -/

section

variable {heads : List String} {d d' : Draft} {s : Source} {x : Kind × List Char}
  {more : List (Kind × List Char)} {rules : List (String × List String)}

theorem bodyStep_finds {y : RuleSymbol} (h : d.Sorted heads) (hy : y.Fits heads)
    (hs : s.Hands (y.token :: more)) (b : Alternative) : ∃ e, Draft.Finds heads d y.symbolName e ∧
      bodyStep d s b = .ofEffect s.next.2 b e := by
  obtain ⟨⟨hk, htext⟩, -⟩ := hs
  cases y with
  | name text =>
    have hname : s.next.1.symbolName = String.ofList text := by
      rw [Token.symbolName, hk, htext]
      rfl
    refine ⟨_, h.bodySymbol hy.2 s.next.1.line, ?_⟩
    rw [bodyStep]
    simp only [hk, RuleSymbol.token, hname]
  | literal text =>
    have hname : s.next.1.symbolName = String.ofList text := by
      rw [Token.symbolName, hk, htext]
      exact congrArg String.ofList (unquote_quoted text)
    refine ⟨_, h.literal hy.2 s.next.1.line, ?_⟩
    rw [bodyStep]
    simp only [hk, RuleSymbol.token, hname]

/-- A body is read up to the end of the statement. -/
theorem readBody_finds {body : List RuleSymbol} (hbody : ∀ y ∈ body, y.Fits heads)
    (h : d.Sorted heads) (hx : x.1.Ends) (hs : s.Hands (body.map RuleSymbol.token ++ x :: more))
    (b : Alternative) : ∃ (is : List Nat) (d' : Draft) (s' : Source),
      readBody d s b = ⟨.ok ({ b with symbols := is.reverse ++ b.symbols }, false), d', s'⟩ ∧
      d'.Sorted heads ∧ is.map (d'.names[·]?) = (body.map RuleSymbol.symbolName).map some ∧
      d.names <+: d'.names ∧ d'.productions = d.productions ∧ s'.Hands (x :: more) := by
  induction body generalizing d s b with
  | nil =>
    exact ⟨[], d, _, readBody_done (bodyStep_ends hx hs b), h, rfl, List.prefix_refl _, rfl,
      hs.unread⟩
  | cons y body ih =>
    obtain ⟨e, ⟨i, d₁, rfl, h₁, hi, hgrows, hproductions⟩, hstep⟩ :=
      bodyStep_finds h (hbody y List.mem_cons_self) hs b
    obtain ⟨is, d₂, s', hread, h₂, his, hmore, hproductions', hs'⟩ :=
      ih (fun z hz => hbody z (List.mem_cons_of_mem _ hz)) h₁ hs.2
        { b with symbols := i :: b.symbols }
    refine ⟨i :: is, d₂, s', ?_, h₂, ?_, hgrows.trans hmore, hproductions'.trans hproductions,
      hs'⟩
    · rw [readBody_more hstep, hread, List.reverse_cons, List.append_assoc, List.singleton_append]
    · rw [List.map_cons, his, Draft.getElem?_grown hmore hi]
      rfl

/-- A draft whose productions spell these rules. -/
structure Draft.Spells (heads : List String) (rules : List (String × List String)) (d : Draft) :
    Prop where
  sorted : d.Sorted heads
  productions : List.Forall₂ (Production.Spells (d.names[·]?)) d.productions.toList rules

/-- A rule adds its production. -/
theorem rule_reads {r : Rule} (rules : List (String × List String))
    (hhead : String.ofList r.head ∈ heads)
    (hbody : ∀ y ∈ r.body, y.Fits heads) :
    Reads r.tokens (Draft.Spells heads rules) (Draft.Spells heads (rules ++ [r.names])) := by
  refine ⟨⟨_, _, rfl, by rintro (h | h) <;> cases h⟩, fun d s x more hd hx hs => ?_⟩
  obtain ⟨⟨hk, htext⟩, ⟨harrow, -⟩, hs⟩ := hs
  obtain ⟨head, d₁, hdefine, h₁, hname, hgrows, hproductions⟩ :=
    hd.sorted.defineHead hhead s.next.1.line
  let d₂ : Draft := { d₁ with head := some head, firstHead := d₁.firstHead.or (some head) }
  have h₂ : d₂.Sorted heads :=
    ⟨⟨h₁.named.predefined, h₁.named.nodup⟩, h₁.precedence, h₁.head, h₁.other⟩
  obtain ⟨is, d₃, s', hread, h₃, his, hmore, hproductions', hs'⟩ :=
    readBody_finds hbody h₂ hx hs.unread {}
  have hone := readAlternatives_one hread head
  refine ⟨_, s', (readStatement_production hk htext harrow hdefine).trans hone, ?_, hs'⟩
  have hgrown : d.names <+: d₃.names := hgrows.trans hmore
  refine ⟨⟨⟨h₃.named.predefined, h₃.named.nodup⟩, h₃.precedence, h₃.head, h₃.other⟩, ?_⟩
  rw [Array.toList_push, hproductions', show d₂.productions = d.productions from hproductions]
  refine List.rel_append (hd.productions.imp fun {p names} hp => ?_)
    (.cons ⟨?_, ?_, ?_, rfl, rfl⟩ .nil)
  · have hsame := hp.renumber id fun i name => Draft.getElem?_grown hgrown
    rwa [List.map_id] at hsame
  · exact Draft.getElem?_grown hmore hname
  · show (is.reverse ++ []).reverse.map _ = _
    rw [List.append_nil, List.reverse_reverse]
    exact his
  · show (none : Option Precedence).or (d₃.bodyPrecedence _) = none
    rw [Option.none_or, Draft.bodyPrecedence, List.findSome?_eq_none_iff]
    exact fun i _ => h₃.precedence_mention i

/-- Rules add their productions in order. -/
theorem rules_readAll {written : List Rule} (rules : List (String × List String))
    (hheads : ∀ r ∈ written, String.ofList r.head ∈ heads)
    (hbodies : ∀ r ∈ written, ∀ y ∈ r.body, y.Fits heads) :
    ReadsAll (written.map Rule.tokens) (Draft.Spells heads rules)
      (Draft.Spells heads (rules ++ written.map Rule.names)) := by
  induction written generalizing rules with
  | nil =>
    rw [List.map_nil, List.map_nil, List.append_nil]
    exact .nil _
  | cons r written ih =>
    have hone := rule_reads rules (hheads r List.mem_cons_self)
      (hbodies r List.mem_cons_self)
    have hrest := ih (rules ++ [r.names]) (fun r hr => hheads r (List.mem_cons_of_mem _ hr))
      fun r hr => hbodies r (List.mem_cons_of_mem _ hr)
    rw [List.append_assoc, List.singleton_append] at hrest
    exact .cons hone hrest

end

/-! ## Grammars -/

section

variable {g : Grammar} {heads : List String} {d : Draft} {rules : List (String × List String)}

/-- Each rule has a production. -/
theorem exists_spelling {nameOf : Nat → Option String} {ps : List Production}
    {r : String × List String} (h : List.Forall₂ (Production.Spells nameOf) ps rules)
    (hr : r ∈ rules) :
    ∃ p ∈ ps, p.Spells nameOf r := by
  induction h with
  | nil => cases hr
  | @cons p _ ps _ hp _ ih =>
    rcases List.mem_cons.1 hr with rfl | hr
    · exact ⟨p, List.mem_cons_self, hp⟩
    · obtain ⟨q, hq, hspells⟩ := ih hr
      exact ⟨q, List.mem_cons_of_mem _ hq, hspells⟩

/-- A symbol keeps its name. -/
theorem Grammar.Renumbers.name? {number : Nat → Nat} (h : g.Renumbers d number) {i : Nat}
    {name : String} (hi : d.names[i]? = some name) : g.name? (number i) = some name := by
  rw [Draft.names, List.getElem?_map, Option.map_eq_some_iff] at hi
  obtain ⟨m, hm, rfl⟩ := hi
  rw [Array.getElem?_toList] at hm
  have hlt := (Array.getElem?_eq_some_iff.1 hm).1
  rw [Grammar.name?, h.symbols i hlt, Draft.mention, hm]
  rfl

/-- If each head has a rule, no symbol is left open. -/
theorem Draft.Spells.undefinedErrors (h : d.Spells heads rules) (hd : d.Good)
    (hheads : ∀ name ∈ heads, ∃ r ∈ rules, r.1 = name) : d.undefinedErrors = [] := by
  rw [Draft.undefinedErrors, List.map_eq_nil_iff, List.filter_eq_nil_iff]
  intro m hm hnone
  obtain ⟨j, hj⟩ := Array.getElem?_of_mem (Array.mem_toList_iff.1 hm)
  have hlt := (Array.getElem?_eq_some_iff.1 hj).1
  have hmention : d.mention j = m.toMention := by
    rw [Draft.mention, hj]
    rfl
  have hnone : d.kindOf j = none := by
    rw [Draft.kindOf, hmention]
    simpa using hnone
  -- its name is that of a head, which is a nonterminal
  have hname : m.name ∈ heads := by
    by_contra hother
    rw [h.sorted.other j hlt (by rwa [hmention])] at hnone
    cases hnone
  obtain ⟨r, hr, hrname⟩ := hheads m.name hname
  obtain ⟨p, hp, hspells⟩ := exists_spelling h.productions hr
  have hhead := (hd.productions p (Array.mem_toList_iff.1 hp)).1
  have hnamed : d.names[j]? = some m.name := by
    rw [Draft.names, List.getElem?_map, Array.getElem?_toList, hj]
    rfl
  have hsame : j = p.head := h.sorted.eq_of_names hnamed (hspells.head.trans (congrArg some hrname))
  have hkind := hhead.kind
  rw [← hsame, hnone] at hkind
  cases hkind

end

namespace Writable

variable {r : Rule} {rs : List Rule}

theorem cutsLine {written : List Rule} (h : Writable written) (hr : r ∈ written) :
    CutsLine grammarConfig r.line r.tokens :=
  cutsLine_rule (h.heads r hr).1 (h.bodies r hr)

/-- The tokens of rules. -/
theorem hands (h : Writable (r :: rs)) :
    (Scanner.ofText grammarConfig (rulesText (r :: rs)).toList).Hands (r.tokens ++
      ((rs.map Rule.tokens).flatMap fun toks => breakToken :: toks) ++ [(.eof, [])]) := by
  have hlines : ∀ x ∈ rs.map fun r => (r.line, r.tokens), CutsLine grammarConfig x.1 x.2 := by
    intro x hx
    obtain ⟨r', hr', rfl⟩ := List.mem_map.1 hx
    exact h.cutsLine (List.mem_cons_of_mem _ hr')
  have hflat := Scanner.ofText_flat (h.cutsLine List.mem_cons_self) hlines rfl
  simpa [rulesText, String.toList_ofList, List.flatMap_map] using hflat

/-- All lines are read, and leave their productions. -/
theorem draft_spells (h : Writable (r :: rs)) :
    (readCode [.ofText (rulesText (r :: rs)).toList]).errors = [] ∧
      (readCode [.ofText (rulesText (r :: rs)).toList]).draft.Spells (headNames (r :: rs))
        ((r :: rs).map Rule.names) := by
  have hstart : Draft.new.Spells (headNames (r :: rs)) [] := by
    refine ⟨Draft.new_sorted fun name hname => ?_, .nil⟩
    obtain ⟨r', hr', rfl⟩ := List.mem_map.1 hname
    exact (h.heads r' hr').2
  have hheads : ∀ r' ∈ r :: rs, String.ofList r'.head ∈ headNames (r :: rs) := fun r' hr' =>
    List.mem_map_of_mem hr'
  have hall := rules_readAll [] hheads h.bodies
  have hhands : ({ scanner := .ofCode grammarConfig [.ofText (rulesText (r :: rs)).toList] } :
      Source).Hands _ := Source.hands_of_scanner rfl h.hands
  rw [List.map_cons] at hall
  cases hall with
  | cons hone hrest => exact readStatements_hands hone hrest hstart [] hhands

end Writable

/-- **Rules are read back as they were written.** -/
theorem rules_read_back {r : Rule} {rs : List Rule} (h : Writable (r :: rs)) :
    ∃ g, Grammar.readText (rulesText (r :: rs)) = .ok g ∧
      List.Forall₂ (Production.Spells g.name?) g.productions.toList
        (("$start", [String.ofList r.head, "$eof"]) :: (r :: rs).map Rule.names) := by
  obtain ⟨herrors, hd⟩ := h.draft_spells
  have hgood : (readCode [.ofText (rulesText (r :: rs)).toList]).draft.Good :=
    readStatements_good Draft.new_good []
  have hsupplied := readCode_supplied herrors
  have hread : Grammar.readText (rulesText (r :: rs)) =
      (readCode [.ofText (rulesText (r :: rs)).toList]).draft.finish [] := by
    rw [Grammar.readText, Grammar.read, herrors]
    rfl
  rw [hread]
  generalize (readCode [.ofText (rulesText (r :: rs)).toList]).draft = d at *
  have hdef : d.undefinedErrors = [] := by
    refine hd.undefinedErrors hgood fun name hname => ?_
    obtain ⟨r', hr', rfl⟩ := List.mem_map.1 hname
    exact ⟨r'.names, List.mem_map_of_mem hr', rfl⟩
  obtain ⟨p, ps, hps, hp⟩ : ∃ p ps, d.productions.toList = p :: ps ∧
      p.Spells (d.names[·]?) r.names := by
    have hproductions := hd.productions
    generalize d.productions.toList = productions at hproductions
    cases hproductions with
    | cons hp _ => exact ⟨_, _, rfl, hp⟩
  have hfirst : d.firstHead = some p.head := by
    rw [← hsupplied.firstHead, ← Array.getElem?_toList, hps]
    rfl
  have hindexed : (d.toGrammar p.head).Indexed :=
    (Grammar.toGrammar_wellFormed hgood (hgood.firstHead _ hfirst) hdef).indexed
  have hnumbered : (d.toGrammar p.head).Numbered :=
    toGrammar_numbered hindexed hd.sorted.named hgood hdef
  have hrenumbers : (d.toGrammar p.head).Renumbers d d.number :=
    toGrammar_renumbers hindexed hgood hdef
  refine ⟨d.toGrammar p.head, ?_, ?_⟩
  · rw [Draft.finish, hfirst]
    dsimp only
    rw [hdef]
    rfl
  have hlist : (d.toGrammar p.head).productions.toList = (d.allProductions p.head).map fun q =>
      { q with head := d.number q.head, body := q.body.map d.number } := by
    rw [Draft.toGrammar_eq, Grammar.productions_assemble]
  rw [hlist, Draft.allProductions, List.map_cons]
  refine .cons ⟨?_, ?_, rfl, rfl, rfl⟩ ?_
  · exact (congrArg _ (Grammar.start_toGrammar d p.head)).symm.trans hnumbered.name?_start
  · have heof : d.number Kind.eof.num = Kind.eof.num := d.number_predefined (by decide)
    simp only [List.map_cons, List.map_nil, heof, hnumbered.name?_eof, hrenumbers.name? hp.head]
    rfl
  · rw [List.forall₂_map_left_iff]
    exact hd.productions.imp fun {q names} hq =>
      hq.renumber d.number fun i name => hrenumbers.name?

/-- A head that is used before its line, an empty body, a literal that looks like a comment, and a
    predefined terminal. -/
def forwardRules : List Rule :=
  [⟨['S'], [.name ['A'], .literal ['i', 'f']]⟩, ⟨['A'], []⟩,
    ⟨['A'], [.name ['N', 'U', 'M', 'B', 'E', 'R'], .literal ['/', '/'], .name ['S']]⟩]

theorem rules_read_back_forward :
    Writable forwardRules ∧
    rulesText forwardRules = "S -> A 'if'\nA ->\nA -> NUMBER '//' S\n" ∧
    ∃ g, Grammar.readText (rulesText forwardRules) = .ok g ∧
      List.Forall₂ (Production.Spells g.name?) g.productions.toList
        [("$start", ["S", "$eof"]), ("S", ["A", "if"]), ("A", []), ("A", ["NUMBER", "//", "S"])] := by
  have hwritable : Writable forwardRules := ⟨by decide +kernel, by decide +kernel⟩
  exact ⟨hwritable, by decide +kernel, rules_read_back hwritable⟩

end LayoutLR
