/-
  Layout-aware LR toolkit — finding symbols by their names.

  The names in a draft are different.  The start symbol comes last and nobody looks
  whether its name is there already, which it is if a text in quotes is `$start`; no
  word can begin with `$`.  So a lookup leads to the symbol that has the name, except
  that from such a literal it leads to the start symbol.

  * `Draft.Quoted`: a name that only terminals have;
  * `readStatements_quoted`: names that no word can be are quoted;
  * `Grammar.lookup_eq_some_iff`: the last symbol with a name;
  * `names_looked_up`: what lookups lead to.
-/
import LayoutLR.Proofs.Grammar.StatementLines

namespace LayoutLR

variable {d d' : Draft} {s s' : Source} {ts : List Token} {name : String} {i j : Nat}

/-! ## Words -/

/-- A token that begins like a word if it is one. -/
def Token.Sane (t : Token) : Prop :=
  t.kind = .word → ∃ c cs, t.text = c :: cs ∧ grammarConfig.startsWord c = true

namespace Source

/-- A source of a grammar whose words begin like words. -/
structure Sane (s : Source) : Prop where
  config : s.scanner.config = grammarConfig
  pending : ∀ t, s.pending = some t → t.Sane

theorem Sane.next (h : s.Sane) : s.next.1.Sane ∧ s.next.2.Sane := by
  have hrest : s.next.2.Sane := by
    refine ⟨s.next_config.trans h.config, fun t hp => ?_⟩
    rw [s.next_pending] at hp
    cases hp
  refine ⟨?_, hrest⟩
  cases hp : s.pending with
  | some t => exact (next_some hp).1 ▸ h.pending t hp
  | none =>
    rw [(next_none hp).1]
    intro hk
    obtain ⟨c, cs, htext, hc⟩ := Scanner.nextToken_word hk
    exact ⟨c, cs, htext, h.config ▸ hc⟩

theorem Sane.unread (h : s.Sane) : (s.next.2.unread s.next.1).Sane := by
  refine ⟨h.next.2.config, fun t hp => ?_⟩
  cases hp
  exact h.next.1

theorem Sane.congr (h : s.Sane) (htape : s'.tape = s.tape) : s'.Sane :=
  ⟨(congrArg (fun p => p.scanner.config) htape).trans h.config,
    fun t hp => h.pending t ((congrArg Tape.slot htape).symm.trans hp)⟩

/-- Tokens that are taken begin like words if they are words. -/
theorem Takes.sane (h : s.Takes ts s') (hs : s.Sane) : s'.Sane ∧ ∀ t ∈ ts, t.Sane := by
  induction h with
  | refl => exact ⟨hs, by simp⟩
  | look _ ih => exact ⟨ih.1.unread, ih.2⟩
  | next _ _ ih =>
    exact ⟨ih.1.next.2, List.forall_mem_append.2 ⟨ih.2, List.forall_mem_singleton.2 ih.1.next.1⟩⟩
  | @raw ts t s' _ _ hp ih =>
    refine ⟨⟨(takeUntil_config s' _).trans ih.1.config, fun t ht => ?_⟩, ih.2⟩
    rw [takeUntil_pending, hp] at ht
    cases ht
  | same _ htape ih => exact ⟨ih.1.congr htape, ih.2⟩

end Source

/-- Behind a statement, words still begin like words. -/
theorem Visit.Spans.sane {v : Visit} {stop : Source} (h : v.Spans ts stop) (hs : v.source.Sane) :
    v.outcome.resume.Sane := by
  have hstop := (h.takes.sane hs).1
  rcases h.resume with hresume | hresume | hresume <;> rw [hresume]
  · exact hstop
  · exact hstop.next.2
  · exact hstop.unread

/-! ## Names that only terminals have -/

namespace Draft

/-- Only a terminal can have the name. -/
def Quoted (d : Draft) (name : String) : Prop :=
  ∀ i < d.symbols.size, (d.mention i).name = name → (d.mention i).kind = some .terminal

theorem Quoted.congr (h : d.Quoted name) (hs : d'.symbols = d.symbols) : d'.Quoted name := by
  unfold Quoted mention at h ⊢
  rwa [hs]

theorem Quoted.add (h : d.Quoted name) {m : Mention}
    (hm : m.name = name → m.kind = some .terminal) : (d.add m).2.Quoted name := by
  intro i hi
  rw [mention_add]
  split
  · exact hm
  · refine h i ?_
    simp [Draft.add] at hi
    omega

theorem Quoted.update (h : d.Quoted name) {f : Mention → Mention} (hname : ∀ m, (f m).name = m.name)
    (hi : i < d.symbols.size)
    (hkind : (d.mention i).name = name → (f (d.mention i)).kind = some .terminal) :
    (d.update i f).Quoted name := by
  intro j hj
  have hj : j < d.symbols.size := by simpa [Draft.update] using hj
  rw [mention_update hi]
  split
  · rw [hname]
    exact hkind
  · exact h j hj

theorem Quoted.declare (h : d.Quoted name) (p : Precedence) {declared : String}
    {kind : SymbolKind} (line : Nat) (hkind : declared = name → kind = .terminal) :
    (d.declare p declared kind line).2.Quoted name := by
  obtain ⟨d₁, hfirst, hlast⟩ := d.declare_cases p declared kind line
  have h₁ : d₁.Quoted name := by
    rcases hfirst with rfl | ⟨-, rfl⟩
    · exact h
    · exact h.add fun he => congrArg some (hkind he)
  rcases hlast with he | ⟨i, hi, he⟩
  · rwa [he]
  · rw [he]
    exact h₁.update (fun _ => rfl) hi fun hname => h₁ i hi hname

/-- A name that no word is stays one of terminals. -/
theorem Fed.quoted (h : d.Fed ts d') (hd : d.Quoted name)
    (hwords : ∀ t ∈ ts, t.kind = .word → String.ofList t.text ≠ name) : d'.Quoted name := by
  have hsymbol {t : Token} (ht : t ∈ ts) (hk : t.kind = .word) : t.symbolName ≠ name := by
    rw [Token.symbolName, if_neg (by simp [hk])]
    exact hwords t ht hk
  induction h with
  | same hs => exact hd.congr hs
  | trans _ _ ih ih' => exact ih' (ih hd)
  | head d ht hk =>
    have hne := hwords _ ht hk
    unfold defineHead
    split
    · exact hd.add fun he => absurd he hne
    · rename_i i hfind
      split
      · exact hd.update (fun _ => rfl) (find?_lt hfind) fun he =>
          absurd ((find?_name hfind).symm.trans he) hne
      · exact hd
      · exact hd
      · exact hd
  | word d ht hk =>
    unfold bodySymbol
    split
    · exact hd.add fun he => absurd he (hsymbol ht hk)
    split
    · exact hd
    · exact hd
  | literal d ht =>
    unfold Draft.literal
    split
    · exact hd.add fun _ => rfl
    · rename_i i hfind
      split
      · exact hd
      · exact hd.update (fun _ => rfl) (find?_lt hfind) fun _ => rfl
      · exact hd
      · exact hd
  | declare d ht p =>
    exact hd.declare p _ fun he => if_neg fun hk => hsymbol ht hk he

end Draft

/-- **A name that no word can be is one of terminals**, whatever is read. -/
theorem readStatements_quoted (errors : List GrammarError) (hs : s.Sane) (hd : d.Quoted name)
    (hname : ∀ c ∈ name.toList.head?, grammarConfig.startsWord c = false) :
    (readStatements d errors s).draft.Quoted name := by
  have hsane {t : Token} (ht : t.Sane) (hk : t.kind = .word) : String.ofList t.text ≠ name := by
    rintro rfl
    obtain ⟨c, cs, htext, hc⟩ := ht hk
    rw [hname c (by rw [String.toList_ofList, htext]; rfl)] at hc
    cases hc
  fun_induction readStatements d errors s with
  | case1 => exact hd
  | case2 d errors s r _ _ ih => exact ih hs.next.2 hd
  | case3 d errors s r hk hbreak o ih =>
    let v : Visit := ⟨d, r.1, r.2⟩
    have hfirst : ¬ v.first.kind.Ends := fun hends => hends.elim hbreak hk
    obtain ⟨ts, stop, hspans, -⟩ := v.exists_span s.next_pending hfirst
    refine ih (hspans.sane hs.next.2) ?_
    by_cases hopens : r.1.kind.Opens
    · obtain ⟨ts', new, hyields⟩ := readStatement_follows hopens d r.2
      refine hyields.follows.fed.quoted hd fun t ht hword => ?_
      rcases List.mem_cons.1 ht with rfl | ht
      · exact hsane hs.next.1 hword
      · exact hsane ((hyields.follows.takes.sane hs.next.2).2 t ht) hword
    · rw [show o = _ from readStatement_of_not_opens hopens d r.2]
      exact hd

theorem readCode_quoted (code : List CodeNode) : (readCode code).draft.Quoted "$start" := by
  refine readStatements_quoted [] ⟨rfl, by rintro t ⟨⟩⟩ ?_ (by rintro c ⟨⟩; decide)
  intro i hi hname
  have hnames : ∀ i < Draft.new.symbols.size, (Draft.new.mention i).name ≠ "$start" := by decide
  exact absurd hname (hnames i hi)

/-! ## Names of a finished draft -/

section

variable {first : Nat}

/-- Every symbol of the grammar is one of the draft, or the start symbol. -/
theorem Draft.Good.exists_mention (hd : d.Good) (hdef : d.undefinedErrors = [])
    (hi : i < (d.toGrammar first).symbols.size) : ∃ k ≤ d.symbols.size, d.number k = i ∧
      (d.toGrammar first).name i = (d.started.mention k).name := by
  obtain ⟨k, hle, hk, rfl⟩ := hd.exists_number hdef hi
  refine ⟨k, hle, rfl, ?_⟩
  rw [Grammar.name, Grammar.symbols_toGrammar, Grammar.getElem?_order hk]
  rfl

theorem Draft.name_start (d : Draft) : (d.started.mention d.symbols.size).name = "$start" := by
  simp [mention, started, Draft.add]

/-- Symbols with one name are one symbol, unless they have the name of the start symbol. -/
theorem toGrammar_name_inj (hn : d.Named) (hd : d.Good) (hdef : d.undefinedErrors = [])
    (hi : i < (d.toGrammar first).symbols.size) (hj : j < (d.toGrammar first).symbols.size)
    (h : (d.toGrammar first).name i = (d.toGrammar first).name j) :
    i = j ∨ (d.toGrammar first).name i = "$start" := by
  obtain ⟨k, hk, rfl, hname⟩ := hd.exists_mention hdef hi
  obtain ⟨l, hl, rfl, hname'⟩ := hd.exists_mention hdef hj
  rcases Nat.lt_or_eq_of_le hk with hk | rfl
  · rcases Nat.lt_or_eq_of_le hl with hl | rfl
    · rw [hname, hname', Draft.mention_started hk, Draft.mention_started hl] at h
      exact Or.inl (congrArg d.number (Draft.name_inj hn.nodup hk hl h))
    · exact Or.inr (h.trans (hname'.trans d.name_start))
  · exact Or.inr (hname.trans d.name_start)

/-- A symbol with the name of the start symbol is this, or a literal in front of it. -/
theorem toGrammar_name_start (hindexed : (d.toGrammar first).Indexed) (hn : d.Named) (hd : d.Good)
    (hdef : d.undefinedErrors = []) (hq : d.Quoted "$start") (hi : i < (d.toGrammar first).symbols.size)
    (h : (d.toGrammar first).name i = "$start") : i = (d.toGrammar first).start ∨
      i < (d.toGrammar first).start ∧ "$start" ∈ (d.toGrammar first).known.toList := by
  obtain ⟨k, hk, rfl, hname⟩ := hd.exists_mention hdef hi
  rcases Nat.lt_or_eq_of_le hk with hk | rfl
  · rw [hname, Draft.mention_started hk] at h
    have hknown : (d.toGrammar first).known.toList =
        d.started.literals.map fun i => (d.mention i).name := Grammar.known_toGrammar hindexed hn hd
    have hbase : Kind.reservedBase ≤ k := by
      by_contra hlt
      have hmem : (d.mention k).name ∈ Kind.predefined.filterMap Kind.name? := by
        rw [← Draft.predefined_names hn hd]
        exact List.mem_map.2 ⟨k, List.mem_range.2 (Nat.not_le.1 hlt), rfl⟩
      rw [h] at hmem
      exact absurd hmem (by decide)
    have hlit : k ∈ d.started.literals :=
      (Draft.mem_literals_started hd.counted).2 ⟨hbase, hk, hq k hk h⟩
    obtain ⟨n, hlen, hget⟩ := List.mem_iff_getElem.1 hlit
    right
    rw [hknown, hd.number_literal hdef (hget ▸ List.getElem?_eq_getElem hlen),
      (toGrammar_numbered hindexed hn hd hdef).start, ← Array.length_toList, hknown, List.length_map]
    exact ⟨Nat.add_lt_add_left hlen _, List.mem_map.2 ⟨k, hlit, h⟩⟩
  · exact Or.inl (Grammar.start_toGrammar d first).symm

end

/-! ## Lookups -/

/-- The last number below `n` that passes a test. -/
theorem getLast?_filter_range {p : Nat → Bool} {n : Nat} :
    ((List.range n).filter p).getLast? = some i ↔
      i < n ∧ p i = true ∧ ∀ j < n, i < j → p j = false := by
  induction n with
  | zero => simp
  | succ n ih =>
    rw [List.range_succ, List.filter_append]
    by_cases hn : p n = true
    · rw [List.filter_cons_of_pos hn, List.filter_nil, List.getLast?_concat, Option.some.injEq]
      constructor
      · rintro rfl
        exact ⟨Nat.lt_succ_self n, hn, fun j hj hlt => by omega⟩
      · rintro ⟨hi, -, hlast⟩
        by_contra hne
        rw [hlast n (Nat.lt_succ_self n) (by omega)] at hn
        cases hn
    · rw [List.filter_cons_of_neg hn, List.filter_nil, List.append_nil, ih]
      have hne : p i = true → i ≠ n := fun hi he => hn (he ▸ hi)
      constructor
      · rintro ⟨hi, hpi, hlast⟩
        refine ⟨by omega, hpi, fun j hj hlt => ?_⟩
        rcases Nat.lt_succ_iff_lt_or_eq.1 hj with hj | rfl
        · exact hlast j hj hlt
        · exact Bool.eq_false_iff.2 hn
      · rintro ⟨hi, hpi, hlast⟩
        have := hne hpi
        exact ⟨by omega, hpi, fun j hj hlt => hlast j (by omega) hlt⟩

namespace Grammar

variable {g : Grammar}

/-- The numbers of the symbols that pass a test. -/
theorem Indexed.map_num_filter (hi : g.Indexed) (p : Symbol → Bool) :
    (g.symbols.toList.filter p).map Symbol.num =
      (List.range g.symbols.size).filter fun i => (g.symbols[i]?.map p).getD false := by
  rw [← hi.map_num, List.filter_map]
  refine congrArg _ (List.filter_congr fun s hs => ?_)
  obtain ⟨i, hget⟩ := Array.getElem?_of_mem (Array.mem_toList_iff.1 hs)
  rw [Function.comp_apply, hi.num i s hget, hget]
  rfl

/-- A lookup leads to the last symbol that has the name. -/
theorem lookup_eq_some_iff (hi : g.Indexed) : g.lookup name = some i ↔
    i < g.symbols.size ∧ g.name i = name ∧ ∀ j < g.symbols.size, i < j → g.name j ≠ name := by
  rw [lookup, hi.map_num_filter, getLast?_filter_range]
  have htest {j : Nat} (hj : j < g.symbols.size) :
      (g.symbols[j]?.map fun s => s.name == name).getD false = (g.name j == name) := by
    simp [Grammar.name, hj]
  refine and_congr_right fun hlt => ?_
  rw [htest hlt, beq_iff_eq]
  refine and_congr_right fun _ => forall₂_congr fun j hj => ?_
  rw [htest hj, beq_eq_false_iff_ne]

/-- Names that belong to one symbol each, but that the start symbol may share its name with a
    literal in front of it. -/
structure NamesApart (g : Grammar) : Prop where
  indexed : g.Indexed
  start_lt : g.start < g.symbols.size
  name_start : g.name g.start = "$start"
  inj : ∀ i < g.symbols.size, ∀ j < g.symbols.size, g.name i = g.name j →
    i = j ∨ g.name i = "$start"
  shared : ∀ i < g.symbols.size, g.name i = "$start" →
    i = g.start ∨ i < g.start ∧ "$start" ∈ g.known.toList
  known : "$start" ∈ g.known.toList → ∃ i < g.start, g.name i = "$start"

/-- A lookup leads back to the symbol, or to the start symbol if it has its name. -/
theorem NamesApart.lookup (h : g.NamesApart) (hi : i < g.symbols.size) :
    g.lookup (g.name i) = some (if g.name i = "$start" then g.start else i) := by
  by_cases hstart : g.name i = "$start"
  · rw [if_pos hstart, hstart, lookup_eq_some_iff h.indexed]
    refine ⟨h.start_lt, h.name_start, fun j hj hlt he => ?_⟩
    rcases h.shared j hj he with rfl | ⟨hj, -⟩
    · exact Nat.lt_irrefl _ hlt
    · exact Nat.lt_asymm hlt hj
  · rw [if_neg hstart, lookup_eq_some_iff h.indexed]
    refine ⟨hi, rfl, fun j hj hlt he => ?_⟩
    rcases h.inj i hi j hj he.symm with rfl | hname
    · exact Nat.lt_irrefl _ hlt
    · exact hstart hname

/-- If the start symbol shares its name, a literal is not found by its name. -/
theorem NamesApart.exists_hidden (h : g.NamesApart) (hk : "$start" ∈ g.known.toList) :
    ∃ i < g.symbols.size, g.name i = g.name g.start ∧ i ≠ g.start ∧
      g.lookup (g.name i) = some g.start := by
  obtain ⟨i, hi, hname⟩ := h.known hk
  have hlt := Nat.lt_trans hi h.start_lt
  refine ⟨i, hlt, hname.trans h.name_start.symm, Nat.ne_of_lt hi, ?_⟩
  rw [h.lookup hlt, if_pos hname]

theorem NamesApart.distinct_iff (h : g.NamesApart) :
    (∀ i < g.symbols.size, ∀ j < g.symbols.size, g.name i = g.name j → i = j) ↔
      "$start" ∉ g.known.toList := by
  refine ⟨fun hdistinct hk => ?_, fun hk i hi j hj he => ?_⟩
  · obtain ⟨i, hi, hname, hne, -⟩ := h.exists_hidden hk
    exact hne (hdistinct i hi _ h.start_lt hname)
  · rcases h.inj i hi j hj he with hij | hname
    · exact hij
    · have hi := (h.shared i hi hname).resolve_right fun hlt => hk hlt.2
      have hj := (h.shared j hj (he ▸ hname)).resolve_right fun hlt => hk hlt.2
      exact hi.trans hj.symm

theorem NamesApart.lookup_iff (h : g.NamesApart) :
    (∀ i < g.symbols.size, g.lookup (g.name i) = some i) ↔ "$start" ∉ g.known.toList := by
  refine ⟨fun hlookup hk => ?_, fun hk i hi => ?_⟩
  · obtain ⟨i, hi, -, hne, hhidden⟩ := h.exists_hidden hk
    rw [hlookup i hi] at hhidden
    exact hne (Option.some.inj hhidden)
  · rw [h.lookup hi]
    split
    · rename_i hname
      rw [(h.shared i hi hname).resolve_right fun hlt => hk hlt.2]
    · rfl

end Grammar

/-! ## Grammars that were read -/

theorem read_namesApart {code : List CodeNode} {g : Grammar} (h : Grammar.read code = .ok g) :
    g.NamesApart := by
  have hindexed := (Grammar.read_wellFormed h).indexed
  obtain ⟨first, -, -, hdef, rfl⟩ := Grammar.draft_of_read h
  have hn := Draft.readCode_named code
  have hd := Draft.readCode_good code
  have hq := readCode_quoted code
  have hnumbered : ((readCode code).draft.toGrammar first).Numbered :=
    toGrammar_numbered hindexed hn hd hdef
  have hstart := hnumbered.name?_start
  obtain ⟨symbol, hsymbol, hname⟩ := Option.map_eq_some_iff.1 hstart
  refine ⟨hindexed, (Array.getElem?_eq_some_iff.1 hsymbol).1, ?_,
    fun i hi j hj => toGrammar_name_inj hn hd hdef hi hj,
    fun i hi => toGrammar_name_start hindexed hn hd hdef hq hi, fun hk => ?_⟩
  · rw [Grammar.name, hsymbol]
    exact hname
  · obtain ⟨k, hlt, hget⟩ := List.mem_iff_getElem.1 hk
    refine ⟨(Kind.reserved k).num, ?_, ?_⟩
    · rw [hnumbered.start]
      exact Nat.add_lt_add_left hlt _
    · have := hnumbered.reserved k hlt
      rw [← Array.getElem?_toList, List.getElem?_eq_getElem hlt, hget] at this
      exact (Option.some.inj this).symm

/-- **What lookups lead to.**  The name of a symbol leads back to it, except that `$start` leads
    to the start symbol, and no other name belongs to two symbols.  So names are different, and
    each leads back to its symbol, if and only if `$start` is not a literal. -/
theorem names_looked_up {code : List CodeNode} {g : Grammar} (h : Grammar.read code = .ok g) :
    (∀ i < g.symbols.size,
      g.lookup (g.name i) = some (if g.name i = "$start" then g.start else i)) ∧
    (∀ i < g.symbols.size, ∀ j < g.symbols.size, g.name i = g.name j →
      i = j ∨ g.name i = "$start") ∧
    ((∀ i < g.symbols.size, ∀ j < g.symbols.size, g.name i = g.name j → i = j) ↔
      "$start" ∉ g.known.toList) ∧
    ((∀ i < g.symbols.size, g.lookup (g.name i) = some i) ↔ "$start" ∉ g.known.toList) := by
  have hnames := read_namesApart h
  exact ⟨fun i hi => hnames.lookup hi, hnames.inj, hnames.distinct_iff, hnames.lookup_iff⟩

theorem names_looked_up_mixedStatements : ∃ g, Grammar.readText mixedStatements = .ok g ∧
    g.known = #["high"] ∧
    (∀ i < g.symbols.size, ∀ j < g.symbols.size, g.name i = g.name j → i = j) ∧
    ∀ i < g.symbols.size, g.lookup (g.name i) = some i := by
  obtain ⟨g, hg, htest⟩ := Grammar.exists_readText mixedStatements (fun g => g.known == #["high"])
    (by decide +kernel)
  have hknown : g.known = #["high"] := beq_iff_eq.1 htest
  have hstart : "$start" ∉ g.known.toList := by
    rw [hknown]
    decide
  obtain ⟨-, -, hdistinct, hlookup⟩ := names_looked_up hg
  exact ⟨g, hg, hknown, hdistinct.2 hstart, hlookup.2 hstart⟩

/-- A text in quotes that is the name of the start symbol. -/
def quotedStart : String :=
  "S -> '$start' NUMBER\n"

/-- **Two symbols can have one name:** the literal is not found by its name, the start symbol
    is. -/
theorem quoted_start_hidden : ∃ g, Grammar.readText quotedStart = .ok g ∧
    g.name 12 = "$start" ∧ g.name 13 = "$start" ∧ g.lookup (g.name 12) = some 13 := by
  obtain ⟨g, hg, htest⟩ := Grammar.exists_readText quotedStart (fun g =>
    g.name 12 == "$start" && g.name 13 == "$start" && g.lookup (g.name 12) == some 13)
    (by decide +kernel)
  rw [Bool.and_eq_true, Bool.and_eq_true, beq_iff_eq, beq_iff_eq, beq_iff_eq] at htest
  exact ⟨g, hg, htest.1.1, htest.1.2, htest.2⟩

end LayoutLR
