/-
  Layout-aware LR toolkit — how a grammar that was read is numbered.

  The final numbering puts every symbol of the draft to one place, by its role and,
  for literals, by its name.  The tokenizer numbers its tokens by searching the
  literals alone; since these are sorted and come right after the predefined kinds,
  both numberings agree.

  * `Draft.order_perm`: the numbering leaves nothing out and has nothing twice;
  * `Draft.ascending_literals`: the literals strictly increase;
  * `Grammar.roles_toGrammar`: names and roles of the symbols in order;
  * `Grammar.productionsOf_perm`: the productions by their heads;
  * `read_numbered`: all of it, for every grammar that was read.
-/
import Mathlib.Data.List.Perm.Basic
import LayoutLR.Proofs.Grammar.Statements
import LayoutLR.Proofs.Text.Order

namespace LayoutLR

namespace Draft

variable {d : Draft} {i start : Nat}

/-! ## The order of the symbols -/

theorem Counted.nodup_ofKind (h : d.Counted) (least : Nat) (kind : SymbolKind) :
    (d.ofKind least kind).Nodup := by
  rw [h.ofKind_eq]
  exact (List.nodup_range' 1).filter _

theorem Counted.nodup_literals (h : d.Counted) : d.literals.Nodup := by
  rw [h.literals_eq]
  exact (List.mergeSort_perm _ _).nodup_iff.2 (h.nodup_ofKind _ _)

/-- Every symbol that has a role is in the order once, and nothing else is. -/
theorem order_perm (hc : d.Counted) (hbase : Kind.reservedBase ≤ d.symbols.size)
    (hpre : ∀ i < Kind.reservedBase, d.kindOf i = some .terminal)
    (hrole : ∀ i < d.symbols.size, d.kindOf i ≠ none) (hlt : start < d.symbols.size)
    (hstart : d.kindOf start = some .nonterminal) :
    (d.order start).Perm (List.range d.symbols.size) := by
  refine (List.perm_ext_iff_of_nodup ?_ List.nodup_range).2 fun i => ?_
  · simp only [order, List.nodup_append, List.nodup_range, hc.nodup_literals, List.nodup_singleton,
      (hc.nodup_ofKind 0 .nonterminal).filter, hc.nodup_ofKind, true_and, List.mem_append,
      List.mem_range, mem_literals hc, List.mem_singleton, List.mem_filter, mem_ofKind hc, bne_iff_ne]
    refine ⟨⟨⟨?_, ?_⟩, ?_⟩, ?_⟩
    · rintro a ha b ⟨hb, -⟩ rfl
      omega
    · rintro a (ha | ha) b rfl rfl
      · simp [hpre a ha] at hstart
      · simp [ha.2.2] at hstart
    · rintro a ((ha | ha) | ha) b ⟨⟨-, -, hb⟩, hne⟩ rfl
      · simp [hpre a ha] at hb
      · simp [ha.2.2] at hb
      · exact hne ha
    · rintro a (((ha | ha) | ha) | ha) b ⟨-, -, hb⟩ rfl
      · simp [hpre a ha] at hb
      · simp [ha.2.2] at hb
      · simp [ha, hstart] at hb
      · simp [ha.1.2.2] at hb
  · rw [List.mem_range]
    constructor
    · simp only [order, List.mem_append, List.mem_range, mem_literals hc, List.mem_singleton,
        List.mem_filter, mem_ofKind hc]
      rintro ((((h | h) | h) | h) | h)
      · omega
      · exact h.2.1
      · exact h ▸ hlt
      · exact h.1.2.1
      · exact h.2.1
    · intro hi
      obtain ⟨kind, hk⟩ := Option.ne_none_iff_exists'.1 (hrole i hi)
      exact mem_order hc hi kind hk

/-! ## Literals -/

/-- Literals with different names strictly increase. -/
theorem ascending_literals (hc : d.Counted) (hinj : ∀ i ∈ d.literals, ∀ j ∈ d.literals,
    (d.mention i).name = (d.mention j).name → i = j) :
    (d.literals.map fun i => (d.mention i).name.toList).Pairwise fun a b => Text.order a b = .lt := by
  have hsorted : d.literals.Pairwise fun a b =>
      (Text.order (d.mention a).name.toList (d.mention b).name.toList != .gt) = true := by
    rw [hc.literals_eq]
    refine List.pairwise_mergeSort (fun a b c hab hbc => ?_) (fun a b => ?_) _
    · have hab := Ordering.isLE_iff_ne_gt.2 (bne_iff_ne.1 hab)
      have hbc := Ordering.isLE_iff_ne_gt.2 (bne_iff_ne.1 hbc)
      exact bne_iff_ne.2 (Ordering.isLE_iff_ne_gt.1 (Std.TransCmp.isLE_trans hab hbc))
    · have hswap : Text.order (d.mention b).name.toList (d.mention a).name.toList =
          (Text.order (d.mention a).name.toList (d.mention b).name.toList).swap :=
        Std.OrientedCmp.eq_swap
      rw [hswap]
      cases Text.order (d.mention a).name.toList (d.mention b).name.toList <;> rfl
  refine List.pairwise_map.2
    ((hsorted.and hc.nodup_literals).imp_of_mem fun {a b} ha hb ⟨hle, hne⟩ => ?_)
  have hle := Ordering.isLE_iff_ne_gt.2 (bne_iff_ne.1 hle)
  refine (Ordering.isLE_iff_eq_lt_or_eq_eq.1 hle).resolve_right fun heq => hne (hinj a ha b hb ?_)
  exact String.toList_inj.1 (Std.LawfulEqCmp.eq_of_compare heq)

/-! ## With the start symbol -/

theorem mention_started (hi : i < d.symbols.size) : d.started.mention i = d.mention i := by
  simp [mention, started, add, Array.getElem?_push_lt hi, hi]

theorem size_started (d : Draft) : d.started.symbols.size = d.symbols.size + 1 := by
  simp [started, add]

theorem kindOf_started_start (d : Draft) :
    d.started.kindOf d.symbols.size = some .nonterminal := by
  rw [started, kindOf_add, if_pos rfl]

theorem mem_literals_started (hc : d.Counted) : i ∈ d.started.literals ↔
    Kind.reservedBase ≤ i ∧ i < d.symbols.size ∧ d.kindOf i = some .terminal := by
  rw [mem_literals hc.started, size_started]
  refine and_congr_right fun _ => ?_
  by_cases hi : i < d.symbols.size
  · simp [kindOf_started hi, hi, Nat.lt_succ_of_lt hi]
  · constructor
    · rintro ⟨hlt, hk⟩
      rw [show i = d.symbols.size by omega, kindOf_started_start] at hk
      cases hk
    · exact fun h => absurd h.1 hi

theorem Good.order_perm (hd : d.Good) (hdef : d.undefinedErrors = []) :
    (d.started.order d.symbols.size).Perm (List.range (d.symbols.size + 1)) := by
  have hsize := d.size_started
  rw [← hsize]
  refine Draft.order_perm hd.counted.started ?_ (fun i hi => ?_) (fun i hi => ?_) (by omega)
    d.kindOf_started_start
  · have := hd.size_le
    omega
  · rw [kindOf_started (Nat.lt_of_lt_of_le hi hd.size_le), hd.predefined i hi]
  · by_cases hlt : i < d.symbols.size
    · rw [kindOf_started hlt]
      exact kindOf_ne_none hdef hlt
    · rw [show i = d.symbols.size by omega, kindOf_started_start]
      simp

/-- The number of a symbol is its place in the order. -/
theorem Good.number_eq (hd : d.Good) (hdef : d.undefinedErrors = []) {k : Nat}
    (hk : (d.started.order d.symbols.size)[k]? = some i) : d.number i = k := by
  obtain ⟨hlt, rfl⟩ := List.getElem?_eq_some_iff.1 hk
  exact ((hd.order_perm hdef).nodup_iff.2 List.nodup_range).idxOf_getElem k hlt

/-- Each number of a grammar is that of a symbol of its draft, or of the start symbol. -/
theorem Good.exists_number (hd : d.Good) (hdef : d.undefinedErrors = []) {first s : Nat}
    (hs : s < (d.toGrammar first).symbols.size) :
    ∃ i ≤ d.symbols.size, d.Numbered i ∧ d.number i = s := by
  have hget := Array.getElem?_eq_getElem hs
  rw [Grammar.symbols_toGrammar] at hget
  obtain ⟨i, hi, -⟩ := Option.map_eq_some_iff.1 hget
  have hmem := List.mem_of_getElem? hi
  have hlt := List.mem_range.1 ((hd.order_perm hdef).mem_iff.1 hmem)
  exact ⟨i, Nat.le_of_lt_succ hlt, hmem, hd.number_eq hdef hi⟩

theorem Good.number_literal (hd : d.Good) (hdef : d.undefinedErrors = []) {k : Nat}
    (hk : d.started.literals[k]? = some i) : d.number i = Kind.reservedBase + k := by
  have hlt := (List.getElem?_eq_some_iff.1 hk).1
  refine hd.number_eq hdef ?_
  simp only [order, List.append_assoc]
  rw [List.getElem?_append_right (by simp), List.getElem?_append_left (by simpa using hlt)]
  simpa using hk

/-! ## Names and roles -/

/-- The name and the role that a symbol will have. -/
def role (d : Draft) (i : Nat) : String × SymbolKind :=
  ((d.mention i).name, (d.kindOf i).getD .virtual)

theorem role_started (hi : i < d.symbols.size) : d.started.role i = d.role i := by
  rw [role, role, mention_started hi, kindOf_started hi]

theorem map_role {is : List Nat} {kind : SymbolKind} (h : ∀ i ∈ is, d.kindOf i = some kind) :
    is.map d.role = (is.map fun i => (d.mention i).name).map fun name => (name, kind) := by
  rw [List.map_map]
  refine List.map_congr_left fun i hi => ?_
  rw [role, h i hi]
  rfl

theorem predefined_names (hn : d.Named) (hd : d.Good) :
    ((List.range Kind.reservedBase).map fun i => (d.mention i).name) =
      Kind.predefined.filterMap Kind.name? := by
  have hnew : Draft.new.names = Kind.predefined.filterMap Kind.name? := rfl
  have hlen : Draft.new.names.length = Kind.reservedBase := rfl
  rw [← hnew, ← List.prefix_iff_eq_take.1 hn.predefined |>.symm, hlen]
  refine List.ext_getElem (by simp [names, hd.size_le]) fun i hi hi' => ?_
  have : i < d.symbols.size := by
    have := hd.size_le
    simp at hi
    omega
  simp [names, mention, this]

/-- Names and roles in the final order. -/
theorem roles_order (hn : d.Named) (hd : d.Good) :
    (d.started.order d.symbols.size).map d.started.role =
      (Kind.predefined.filterMap Kind.name?).map (fun name => (name, SymbolKind.terminal)) ++
      (d.started.literals.map fun i => (d.mention i).name).map (fun name => (name, .terminal)) ++
      ("$start", .nonterminal) ::
        (((d.started.ofKind 0 .nonterminal).filter (· != d.symbols.size)).map
          fun i => (d.started.mention i).name).map (fun name => (name, .nonterminal)) ++
      ((d.started.ofKind 0 .virtual).map
        fun i => (d.started.mention i).name).map (fun name => (name, .virtual)) := by
  have hlt {i : Nat} (hi : i < Kind.reservedBase) : i < d.symbols.size :=
    Nat.lt_of_lt_of_le hi hd.size_le
  have hpre : (List.range Kind.reservedBase).map d.started.role =
      (Kind.predefined.filterMap Kind.name?).map fun name => (name, .terminal) := by
    rw [← predefined_names hn hd, ← map_role fun i hi => hd.predefined i (List.mem_range.1 hi)]
    exact List.map_congr_left fun i hi => role_started (hlt (List.mem_range.1 hi))
  have hlit : d.started.literals.map d.started.role =
      (d.started.literals.map fun i => (d.mention i).name).map fun name => (name, .terminal) := by
    rw [← map_role fun i hi => ((mem_literals_started hd.counted).1 hi).2.2]
    exact List.map_congr_left fun i hi => role_started ((mem_literals_started hd.counted).1 hi).2.1
  have hstart : d.started.role d.symbols.size = ("$start", .nonterminal) := by
    rw [role, kindOf_started_start]
    simp [mention, started, add]
  rw [order, List.map_append, List.map_append, List.map_append, List.map_append, hpre, hlit,
    map_role fun i hi => ((mem_ofKind hd.counted.started).1 (List.mem_filter.1 hi).1).2.2,
    map_role fun i hi => ((mem_ofKind hd.counted.started).1 hi).2.2]
  simp [hstart]

end Draft

namespace Grammar

variable {g : Grammar} {d : Draft} {first : Nat}

/-- The names and the roles of the symbols in order. -/
def roles (g : Grammar) : List (String × SymbolKind) :=
  g.symbols.toList.map fun s => (s.name, s.kind)

/-- The name of a symbol, if there is such a symbol. -/
def name? (g : Grammar) (s : Nat) : Option String :=
  g.symbols[s]?.map Symbol.name

theorem name?_eq_roles (g : Grammar) (s : Nat) : g.name? s = g.roles[s]?.map Prod.fst := by
  simp [name?, roles, Function.comp_def]

theorem name_eq_roles (g : Grammar) (s : Nat) : g.name s = (g.roles[s]?.map Prod.fst).getD "" := by
  simp [name, roles, Function.comp_def]

theorem Indexed.map_num (hi : g.Indexed) :
    g.symbols.toList.map Symbol.num = List.range g.symbols.size := by
  refine List.ext_getElem (by simp) fun j hj _ => ?_
  have hlt : j < g.symbols.size := by simpa using hj
  rw [List.getElem_map, List.getElem_range]
  exact hi.num j _ (by simp [hlt])

/-- The symbols with numbers from `n` on are those behind the first `n`. -/
theorem Indexed.filter_num (hi : g.Indexed) (n : Nat) :
    g.symbols.toList.filter (fun s => decide (n ≤ s.num)) = g.symbols.toList.drop n := by
  have hnum (j : Nat) (hj : j < g.symbols.toList.length) : g.symbols.toList[j].num = j :=
    hi.num j _ (by simp at hj; simp [hj])
  have hfront : (g.symbols.toList.take n).filter (fun s => decide (n ≤ s.num)) = [] := by
    refine List.filter_eq_nil_iff.2 fun s hs => ?_
    obtain ⟨j, hj, rfl⟩ := List.mem_iff_getElem.1 hs
    rw [List.length_take, Nat.lt_min] at hj
    rw [List.getElem_take, hnum j hj.2]
    simpa using hj.1
  have hback : (g.symbols.toList.drop n).filter (fun s => decide (n ≤ s.num)) =
      g.symbols.toList.drop n := by
    refine List.filter_eq_self.2 fun s hs => ?_
    obtain ⟨j, hj, rfl⟩ := List.mem_iff_getElem.1 hs
    rw [List.getElem_drop, hnum]
    simp
  conv_lhs => rw [← List.take_append_drop n g.symbols.toList]
  rw [List.filter_append, hfront, hback, List.nil_append]

theorem known_eq_roles (hi : g.Indexed) : g.known.toList =
    ((g.roles.drop Kind.reservedBase).filter fun r => r.2 == .terminal).map Prod.fst := by
  rw [known, ← List.filter_filter, hi.filter_num]
  simp [roles, List.filter_map, ← List.map_drop, Function.comp_def]

theorem roles_toGrammar (d : Draft) (first : Nat) :
    (d.toGrammar first).roles = (d.started.order d.symbols.size).map d.started.role := by
  refine List.ext_getElem? fun s => ?_
  rw [roles, List.getElem?_map, Array.getElem?_toList, symbols_toGrammar, Option.map_map,
    List.getElem?_map]
  rfl

theorem known_toGrammar (hi : (d.toGrammar first).Indexed) (hn : d.Named) (hd : d.Good) :
    (d.toGrammar first).known.toList = d.started.literals.map fun i => (d.mention i).name := by
  have hlen : (Kind.predefined.filterMap Kind.name?).length = Kind.reservedBase := rfl
  rw [known_eq_roles hi, roles_toGrammar, Draft.roles_order hn hd]
  simp only [List.append_assoc]
  rw [List.drop_append_of_le_length (by simp [hlen])]
  rw [List.drop_of_length_le (by simp [hlen])]
  simp [List.filter_map, Function.comp_def]

/-! ## Productions by their heads -/

theorem mem_nonterminals (hi : g.Indexed) {s : Nat} :
    s ∈ g.nonterminals.map Symbol.num ↔ g.isNonterminal s = true := by
  simp only [nonterminals, List.mem_map, List.mem_filter, Array.mem_toList_iff, beq_iff_eq,
    isNonterminal, kind?, Option.map_eq_some_iff]
  constructor
  · rintro ⟨symbol, ⟨hmem, hkind⟩, rfl⟩
    obtain ⟨j, hj⟩ := Array.getElem?_of_mem hmem
    exact ⟨symbol, hi.num j symbol hj ▸ hj, hkind⟩
  · rintro ⟨symbol, hs, hkind⟩
    exact ⟨symbol, ⟨Array.mem_of_getElem? hs, hkind⟩, hi.num s symbol hs⟩

/-- If all heads are nonterminals, each production is listed under one of them. -/
theorem productionsOf_perm (hi : g.Indexed)
    (h : ∀ p < g.productions.size, g.isNonterminal (g.head p) = true) :
    ((g.nonterminals.map Symbol.num).flatMap g.productionsOf).Perm
      (List.range g.productions.size) := by
  have hnodup : (g.nonterminals.map Symbol.num).Nodup := by
    have hsub : (g.nonterminals.map Symbol.num).Sublist (List.range g.symbols.size) := by
      rw [← hi.map_num]
      exact List.filter_sublist.map _
    exact hsub.nodup List.nodup_range
  refine (List.perm_ext_iff_of_nodup ?_ List.nodup_range).2 fun p => ?_
  · refine List.nodup_flatMap.2 ⟨fun s _ => (hi.increasing s).imp Nat.ne_of_lt, ?_⟩
    refine hnodup.imp fun {s t} hne => ?_
    exact fun p hs ht =>
      hne ((hi.mem_productionsOf.1 hs).2.symm.trans (hi.mem_productionsOf.1 ht).2)
  · simp only [List.mem_flatMap, mem_nonterminals hi, hi.mem_productionsOf, List.mem_range]
    exact ⟨fun ⟨_, _, hp, _⟩ => hp, fun hp => ⟨g.head p, h p hp, hp, rfl⟩⟩

end Grammar

/-! ## Grammars that were read -/

/-- How the symbols of a grammar are numbered, and how its tokens are. -/
structure Grammar.Numbered (g : Grammar) : Prop where
  /-- Each symbol has its place as its number. -/
  num : ∀ i (s : Symbol), g.symbols[i]? = some s → s.num = i
  /-- The predefined kinds, the literals, the start symbol, the other nonterminals, the virtual
      symbols. -/
  roles : ∃ others virtuals : List String, g.roles =
    (Kind.predefined.filterMap Kind.name?).map (fun name => (name, SymbolKind.terminal)) ++
    g.known.toList.map (fun name => (name, .terminal)) ++
    ("$start", .nonterminal) :: others.map (fun name => (name, .nonterminal)) ++
    virtuals.map (fun name => (name, .virtual))
  start : g.start = Kind.reservedBase + g.known.size
  /-- The literals strictly increase by their bytes. -/
  ascending : g.known.toList.Pairwise fun a b =>
    compare (Text.bytes a.toList) (Text.bytes b.toList) = .lt
  /-- A literal has the number of its kind of token. -/
  reserved : ∀ i < g.known.size, g.known[i]? = some (g.name (Kind.reserved i).num)
  /-- The search of a tokenizer that knows the literals finds each of them, and nothing else. -/
  lookup : ∀ cfg : Config, cfg.known = g.known.map String.toList → ∀ (text : List Char) (i : Nat),
    cfg.lookup text = some i ↔ g.known[i]? = some (String.ofList text)

theorem Grammar.Numbered.name?_eof {g : Grammar} (h : g.Numbered) :
    g.name? Kind.eof.num = some "$eof" := by
  obtain ⟨others, virtuals, hroles⟩ := h.roles
  rw [Grammar.name?_eq_roles, hroles]
  simp [Kind.predefined, Kind.name?, Kind.num]

theorem Grammar.Numbered.name?_start {g : Grammar} (h : g.Numbered) :
    g.name? g.start = some "$start" := by
  obtain ⟨others, virtuals, hroles⟩ := h.roles
  have hlen : (Kind.predefined.filterMap Kind.name?).length = Kind.reservedBase := rfl
  rw [Grammar.name?_eq_roles, hroles, h.start, List.append_assoc,
    List.getElem?_append_right (by simp [hlen])]
  simp [hlen]

/-- What the productions of a grammar are made of, and how they belong to its symbols. -/
structure Grammar.Productive (g : Grammar) : Prop where
  first : 1 < g.productions.size ∧ g.body 0 = [g.head 1, Kind.eof.num]
  heads : ∀ p < g.productions.size, g.isNonterminal (g.head p) = true
  bodies : ∀ p, ∀ s ∈ g.body p,
    (g.isTerminal s = true ∨ g.isNonterminal s = true) ∧ s ≠ g.start
  supplied : ∀ s, g.isNonterminal s = true → g.productionsOf s ≠ []
  mem_productionsOf : ∀ s p, p ∈ g.productionsOf s ↔ p < g.productions.size ∧ g.head p = s
  /-- The productions of a symbol are in order, and the first of them is kept with it. -/
  ordered : ∀ s, (g.productionsOf s).Pairwise (· < ·) ∧
    g.firstProduction? s = (g.productionsOf s).head?
  partition : ((g.nonterminals.map Symbol.num).flatMap g.productionsOf).Perm
    (List.range g.productions.size)

/-- A grammar that says what a draft says, with other numbers for its symbols. -/
structure Grammar.Renumbers (g : Grammar) (d : Draft) (number : Nat → Nat) : Prop where
  size : g.symbols.size = d.symbols.size + 1
  inj : ∀ i < d.symbols.size, ∀ j < d.symbols.size, number i = number j → i = j
  ne_start : ∀ i < d.symbols.size, number i ≠ g.start
  symbols : ∀ i < d.symbols.size, g.symbols[number i]? =
    some { Draft.symbol (number i) (d.mention i) with
      firstProduction := (g.productionsOf (number i)).head?
      nullable := g.isNullable (number i), lineLike := g.isLineLike (number i) }
  productions : g.productions.toList.tail = d.productions.toList.map fun p =>
    { p with head := number p.head, body := p.body.map number }

section

variable {d : Draft} {first : Nat}

theorem toGrammar_numbered (hi : (d.toGrammar first).Indexed) (hn : d.Named) (hd : d.Good)
    (hdef : d.undefinedErrors = []) : (d.toGrammar first).Numbered := by
  have hknown : (d.toGrammar first).known.toList =
      d.started.literals.map fun i => (d.mention i).name := Grammar.known_toGrammar hi hn hd
  have hroles := (Grammar.roles_toGrammar d first).trans (Draft.roles_order hn hd)
  have hsize : (d.toGrammar first).known.size = d.started.literals.length := by
    rw [← Array.length_toList, hknown, List.length_map]
  rw [← hknown] at hroles
  have hascending : (d.toGrammar first).known.toList.Pairwise fun a b =>
      Text.order a.toList b.toList = .lt := by
    have hname {i : Nat} (hi : i ∈ d.started.literals) : d.started.mention i = d.mention i :=
      Draft.mention_started ((Draft.mem_literals_started hd.counted).1 hi).2.1
    have := Draft.ascending_literals hd.counted.started fun i hi j hj h => by
      rw [hname hi, hname hj] at h
      exact Draft.name_inj hn.nodup ((Draft.mem_literals_started hd.counted).1 hi).2.1
        ((Draft.mem_literals_started hd.counted).1 hj).2.1 h
    rw [hknown, List.pairwise_map]
    refine (List.pairwise_map.1 this).imp_of_mem fun {i j} hi hj h => ?_
    rwa [hname hi, hname hj] at h
  refine ⟨hi.num, ⟨_, _, hroles⟩, ?_, ?_, fun i hi => ?_, fun cfg hcfg text i => ?_⟩
  · have hget : (d.started.order d.symbols.size)[Kind.reservedBase + d.started.literals.length]? =
        some d.symbols.size := by
      simp [Draft.order]
    rw [Grammar.start_toGrammar, hsize]
    exact hd.number_eq hdef hget
  · simpa only [Text.order_eq_bytes] using hascending
  · have hlen : (Kind.predefined.filterMap Kind.name?).length = Kind.reservedBase := rfl
    rw [Grammar.name_eq_roles, hroles]
    simp only [Kind.num, List.append_assoc]
    rw [List.getElem?_append_right (by simp [hlen]), List.getElem?_append_left (by simp [hlen, hi])]
    simp [hlen, hi]
  · have htable : Text.Ascending cfg.known := by
      rw [hcfg, Text.Ascending, Array.toList_map, List.pairwise_map]
      exact hascending
    rw [Config.lookup, Text.search_eq_some_iff htable, hcfg, Array.getElem?_map,
      Option.map_eq_some_iff]
    constructor
    · rintro ⟨name, hname, rfl⟩
      rw [hname, String.ofList_toList]
    · intro h
      exact ⟨_, h, String.toList_ofList⟩

theorem toGrammar_renumbers (hindexed : (d.toGrammar first).Indexed) (hd : d.Good)
    (hdef : d.undefinedErrors = []) : (d.toGrammar first).Renumbers d d.number := by
  have hnum {i : Nat} (hi : i < d.symbols.size) : d.Numbered i :=
    Draft.numbered_of_lt hd.counted hdef hi
  refine ⟨?_, fun i hi j _ h => Draft.number_inj (hnum hi) h, fun i hi h => ?_, fun i hi => ?_, ?_⟩
  · have := (hd.order_perm hdef).length_eq
    rw [List.length_range] at this
    have hlength := congrArg List.length (Grammar.roles_toGrammar d first)
    rw [List.length_map, this] at hlength
    simpa [Grammar.roles] using hlength
  · rw [Grammar.start_toGrammar] at h
    exact Nat.ne_of_lt hi (Draft.number_inj (hnum hi) h)
  · rw [Grammar.symbols_toGrammar, Grammar.getElem?_order (hnum hi), Option.map_some,
      Draft.mention_started hi, hindexed.first]
  · rw [Draft.toGrammar_eq, Grammar.productions_assemble]
    rfl

theorem toGrammar_productive (hd : d.Good) (hs : d.Supplied) (hfirst : d.firstHead = some first)
    (hdef : d.undefinedErrors = []) : (d.toGrammar first).Productive := by
  have hwf := Grammar.toGrammar_wellFormed hd (hd.firstHead first hfirst) hdef
  have hhead {j : Nat} {q : Production} (hq : d.productions[j]? = some q) :
      j + 1 < (d.toGrammar first).productions.size ∧
        (d.toGrammar first).head (j + 1) = d.number q.head := by
    have hall : (d.allProductions first)[j + 1]? = some q := by
      rwa [Draft.allProductions, List.getElem?_cons_succ, Array.getElem?_toList]
    have hget : (d.toGrammar first).productions[j + 1]? = _ := Grammar.getElem?_toGrammar (j + 1)
    rw [hall] at hget
    exact ⟨(Array.getElem?_eq_some_iff.1 hget).1, Grammar.head_toGrammar hall⟩
  refine ⟨?_, hwf.head, fun p s hs => ⟨hwf.body p s hs, fun h => hwf.start p (h ▸ hs)⟩,
    fun s hnt => ?_, hwf.indexed.mem_iff, fun s => ⟨hwf.indexed.increasing s, hwf.indexed.first s⟩,
    Grammar.productionsOf_perm hwf.indexed hwf.head⟩
  · obtain ⟨q, hq, rfl⟩ := Option.map_eq_some_iff.1 (hs.firstHead.trans hfirst)
    refine ⟨(hhead hq).1, ?_⟩
    have heof : d.number Kind.eof.num = Kind.eof.num := d.number_predefined (by decide)
    rw [(hhead hq).2, Grammar.body, Grammar.getElem?_toGrammar, ← heof]
    rfl
  · -- the symbol comes from a head of the draft, or it is the start symbol
    obtain ⟨i, hle, hi, rfl⟩ := hd.exists_number hdef (Grammar.isNonterminal_lt hnt)
    obtain ⟨p, hp⟩ : ∃ p, p ∈ (d.toGrammar first).productionsOf (d.number i) := by
      rcases Nat.lt_or_eq_of_le hle with hlt | rfl
      · have hk : d.kindOf i = some .nonterminal := by
          rw [Grammar.isNonterminal, Grammar.kind?_toGrammar first hi, Draft.kindOf_started hlt,
            beq_iff_eq, Option.some_inj] at hnt
          cases hkind : d.kindOf i with
          | none => simp [hkind] at hnt
          | some kind => simpa [hkind] using hnt
        obtain ⟨q, hq, rfl⟩ := hs.heads i ⟨hlt, hk⟩
        obtain ⟨j, hj⟩ := Array.getElem?_of_mem hq
        exact ⟨j + 1, hwf.indexed.mem_productionsOf.2 (hhead hj)⟩
      · exact ⟨0, hwf.indexed.mem_productionsOf.2
          ⟨hwf.indexed.productions_pos, Grammar.start_toGrammar d first⟩⟩
    exact List.ne_nil_of_mem hp

end

/-- The symbols of a grammar that was read are numbered as the tokenizer expects. -/
theorem Grammar.numbered_of_read {code : List CodeNode} {g : Grammar}
    (h : Grammar.read code = .ok g) : g.Numbered := by
  have hindexed := (Grammar.read_wellFormed h).indexed
  obtain ⟨first, -, -, hdef, rfl⟩ := Grammar.draft_of_read h
  exact toGrammar_numbered hindexed (Draft.readCode_named code) (Draft.readCode_good code) hdef

/-- **A grammar that was read is numbered as the tokenizer expects, its productions are in order,
    and it says what was read.** -/
theorem read_numbered {code : List CodeNode} {g : Grammar} (h : Grammar.read code = .ok g) :
    g.Numbered ∧ g.Productive ∧ ∃ number, g.Renumbers (readCode code).draft number := by
  have hnumbered := Grammar.numbered_of_read h
  have hindexed := (Grammar.read_wellFormed h).indexed
  have hgood := Draft.readCode_good code
  obtain ⟨first, hfirst, herr, hdef, rfl⟩ := Grammar.draft_of_read h
  exact ⟨hnumbered, toGrammar_productive hgood (readCode_supplied herr) hfirst hdef, _,
    toGrammar_renumbers hindexed hgood hdef⟩

/-- A word with a precedence that turns out to be a literal, and a head that is used before. -/
def mixedStatements : String :=
  "$ LEFT low high\nS -> T 'high'\nT -> $$low | S\n"

theorem read_numbered_mixedStatements : ∃ g, Grammar.readText mixedStatements = .ok g ∧
    g.Numbered ∧ g.Productive ∧ g.known = #["high"] ∧
    g.roles.drop Kind.reservedBase = [("high", .terminal), ("$start", .nonterminal),
      ("S", .nonterminal), ("T", .nonterminal), ("low", .virtual)] := by
  obtain ⟨g, hg, htest⟩ := Grammar.exists_readText mixedStatements (fun g =>
    g.known == #["high"] && g.roles.drop Kind.reservedBase == [("high", .terminal),
      ("$start", .nonterminal), ("S", .nonterminal), ("T", .nonterminal), ("low", .virtual)])
    (by decide +kernel)
  rw [Bool.and_eq_true, beq_iff_eq, beq_iff_eq] at htest
  obtain ⟨hnumbered, hproductive, -⟩ := read_numbered hg
  exact ⟨g, hg, hnumbered, hproductive, htest⟩

end LayoutLR
