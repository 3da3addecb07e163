/-
  Layout-aware LR toolkit — the grammars that can be read are well-formed.

  Statements fill a draft.  Whatever they say, a symbol that heads a production is
  a nonterminal, no virtual symbol gets into a body, and the predefined terminals
  stay what they are; a name that no statement explains is an error in the end.
  Numbering the symbols gives each its own number, so all this is true of the
  grammar as well.

  * `Draft.Later`: what a statement can do to the symbols of a draft;
  * `Draft.Good`: what every statement preserves;
  * `Grammar.WellFormed`, `Grammar.read_wellFormed`: what a grammar that was read is.
-/
import Mathlib.Data.List.Nodup
import LayoutLR.Grammar.Reader
import LayoutLR.Proofs.Grammar.Analysis

namespace LayoutLR

namespace Draft

variable {d d' d'' : Draft} {i : Nat}

/-! ## Symbols of a draft -/

/-- The role of a symbol. -/
def kindOf (d : Draft) (i : Nat) : Option SymbolKind :=
  (d.mention i).kind

/-- What can become of the role of a symbol: it is found out, or a virtual symbol turns out
    to be a terminal. -/
inductive Refines : Option SymbolKind → Option SymbolKind → Prop
  | same (k : Option SymbolKind) : Refines k k
  | head : Refines none (some .nonterminal)
  | literal : Refines (some .virtual) (some .terminal)

theorem Refines.of_virtual {k : Option SymbolKind} (h : Refines k (some .virtual)) :
    k = some .virtual := by
  cases h
  rfl

theorem Refines.known {k : SymbolKind} {k' : Option SymbolKind} (h : Refines (some k) k')
    (hk : k ≠ .virtual) : k' = some k := by
  cases h
  · rfl
  · exact absurd rfl hk

/-- The symbols of a draft have their places as numbers. -/
def Counted (d : Draft) : Prop :=
  ∀ i (s : Entry), d.symbols[i]? = some s → s.num = i

/-- A draft after more symbols were mentioned. -/
structure Later (d d' : Draft) : Prop where
  counted : d.Counted → d'.Counted
  size_le : d.symbols.size ≤ d'.symbols.size
  kind : ∀ i < d.symbols.size, Refines (d.kindOf i) (d'.kindOf i)
  productions : d'.productions = d.productions
  head : d'.head = d.head
  firstHead : d'.firstHead = d.firstHead

theorem Later.refl (d : Draft) : d.Later d :=
  ⟨id, Nat.le_refl _, fun _ _ => .same _, rfl, rfl, rfl⟩

theorem Later.trans (h : d.Later d') (h' : d'.Later d'') : d.Later d'' := by
  refine ⟨h'.counted ∘ h.counted, Nat.le_trans h.size_le h'.size_le, fun i hi => ?_,
    h'.productions.trans h.productions, h'.head.trans h.head, h'.firstHead.trans h.firstHead⟩
  have h₁ := h.kind i hi
  have h₂ := h'.kind i (Nat.lt_of_lt_of_le hi h.size_le)
  generalize d.kindOf i = a at h₁
  generalize d'.kindOf i = b at h₁ h₂
  generalize d''.kindOf i = c at h₂
  cases h₁ <;> cases h₂ <;> constructor

theorem mention_add (d : Draft) (m : Mention) (i : Nat) :
    (d.add m).2.mention i = if i = d.symbols.size then m else d.mention i := by
  simp only [mention, add, Array.getElem?_push]
  split <;> rfl

theorem mention_update (hi : i < d.symbols.size) (f : Mention → Mention) (j : Nat) :
    (d.update i f).mention j = if i = j then f (d.mention i) else d.mention j := by
  simp only [mention, update, Array.getElem?_modify]
  split
  · rename_i h
    subst h
    simp [hi]
  · rfl

theorem kindOf_add (d : Draft) (m : Mention) (i : Nat) :
    (d.add m).2.kindOf i = if i = d.symbols.size then m.kind else d.kindOf i := by
  rw [kindOf, mention_add, apply_ite Mention.kind]
  rfl

theorem Counted.add (h : d.Counted) (m : Mention) : (d.add m).2.Counted := by
  intro i s hs
  rw [Draft.add, Array.getElem?_push] at hs
  split at hs
  · rename_i hi
    obtain rfl := Option.some.inj hs
    exact hi.symm
  · exact h i s hs

theorem Counted.update (h : d.Counted) (j : Nat) (f : Mention → Mention) :
    (d.update j f).Counted := by
  intro i s hs
  rw [Draft.update, Array.getElem?_modify] at hs
  split at hs
  · obtain ⟨s', hs', rfl⟩ := Option.map_eq_some_iff.1 hs
    exact h i s' hs'
  · exact h i s hs

theorem add_later (d : Draft) (m : Mention) : d.Later (d.add m).2 := by
  refine ⟨fun h => h.add m, by simp [add], fun i hi => ?_, rfl, rfl, rfl⟩
  rw [kindOf_add, if_neg (Nat.ne_of_lt hi)]
  exact .same _

theorem kindOf_update (hi : i < d.symbols.size) (f : Mention → Mention) (j : Nat) :
    (d.update i f).kindOf j = if i = j then (f (d.mention i)).kind else d.kindOf j := by
  rw [kindOf, mention_update hi, apply_ite Mention.kind]
  rfl

theorem update_later (hi : i < d.symbols.size) {f : Mention → Mention}
    (hf : Refines (d.kindOf i) (f (d.mention i)).kind) : d.Later (d.update i f) := by
  refine ⟨fun h => h.update i f, by simp [update], fun j _ => ?_, rfl, rfl, rfl⟩
  rw [kindOf_update hi]
  split
  · rename_i h
    exact h ▸ hf
  · exact .same _

theorem find?_lt {name : String} (h : d.find? name = some i) : i < d.symbols.size :=
  (Array.findIdx?_eq_some_iff_getElem.1 h).1

/-! ## What statements say about a name -/

/-- A symbol that can stand in a body. -/
structure InBody (d : Draft) (i : Nat) : Prop where
  lt : i < d.symbols.size
  kind : d.kindOf i ≠ some .virtual

/-- A symbol that heads productions. -/
structure IsHead (d : Draft) (i : Nat) : Prop where
  lt : i < d.symbols.size
  kind : d.kindOf i = some .nonterminal

theorem InBody.later (h : d.InBody i) (hl : d.Later d') : d'.InBody i := by
  refine ⟨Nat.lt_of_lt_of_le h.lt hl.size_le, fun hv => h.kind ?_⟩
  have hr := hl.kind i h.lt
  rw [hv] at hr
  exact hr.of_virtual

theorem IsHead.later (h : d.IsHead i) (hl : d.Later d') : d'.IsHead i := by
  refine ⟨Nat.lt_of_lt_of_le h.lt hl.size_le, ?_⟩
  have hr := hl.kind i h.lt
  rw [h.kind] at hr
  exact hr.known (by simp)

theorem InBody.congr (h : d.InBody i) (hs : d'.symbols = d.symbols) : d'.InBody i :=
  ⟨hs ▸ h.lt, by rw [kindOf, mention, hs]; exact h.kind⟩

theorem IsHead.congr (h : d.IsHead i) (hs : d'.symbols = d.symbols) : d'.IsHead i :=
  ⟨hs ▸ h.lt, by rw [kindOf, mention, hs]; exact h.kind⟩

theorem defineHead_spec (d : Draft) (name : String) (line : Nat) :
    d.Later (d.defineHead name line).2 ∧
      ∀ i, (d.defineHead name line).1 = .ok i → (d.defineHead name line).2.IsHead i := by
  unfold defineHead
  split
  · refine ⟨add_later d _, ?_⟩
    rintro i ⟨⟩
    exact ⟨by simp [add], by rw [kindOf_add, if_pos rfl]⟩
  · rename_i i hi
    have hlt := find?_lt hi
    split
    · rename_i hk
      have hl : d.Later (d.update i fun m =>
          { m with kind := some .nonterminal, valueType := d.valueType }) :=
        update_later hlt (by rw [kindOf, hk]; exact .head)
      refine ⟨hl, ?_⟩
      rintro j ⟨⟩
      exact ⟨Nat.lt_of_lt_of_le hlt hl.size_le, by rw [kindOf_update hlt, if_pos rfl]⟩
    · rename_i hk
      refine ⟨.refl d, ?_⟩
      rintro j ⟨⟩
      exact ⟨hlt, hk⟩
    · exact ⟨.refl d, by simp⟩
    · exact ⟨.refl d, by simp⟩

theorem bodySymbol_spec (d : Draft) (name : String) (line : Nat) :
    d.Later (d.bodySymbol name line).2 ∧
      ∀ i, (d.bodySymbol name line).1 = .ok i → (d.bodySymbol name line).2.InBody i := by
  unfold bodySymbol
  split
  · refine ⟨add_later d _, ?_⟩
    rintro i ⟨⟩
    exact ⟨by simp [add], by rw [kindOf_add, if_pos rfl]; simp⟩
  · rename_i i hi
    split
    · exact ⟨.refl d, by simp⟩
    · rename_i hk
      refine ⟨.refl d, ?_⟩
      rintro j ⟨⟩
      exact ⟨find?_lt hi, hk⟩

theorem literal_spec (d : Draft) (name : String) (line : Nat) :
    d.Later (d.literal name line).2 ∧
      ∀ i, (d.literal name line).1 = .ok i → (d.literal name line).2.InBody i := by
  unfold literal
  split
  · refine ⟨add_later d _, ?_⟩
    rintro i ⟨⟩
    exact ⟨by simp [add], by rw [kindOf_add, if_pos rfl]; simp⟩
  · rename_i i hi
    have hlt := find?_lt hi
    split
    · rename_i hk
      refine ⟨.refl d, ?_⟩
      rintro j ⟨⟩
      exact ⟨hlt, by rw [kindOf, hk]; simp⟩
    · rename_i hk
      have hl : d.Later (d.update i fun m => { m with kind := some .terminal }) :=
        update_later hlt (by rw [kindOf, hk]; exact .literal)
      refine ⟨hl, ?_⟩
      rintro j ⟨⟩
      exact ⟨Nat.lt_of_lt_of_le hlt hl.size_le, by rw [kindOf_update hlt, if_pos rfl]; simp⟩
    · exact ⟨.refl d, by simp⟩
    · exact ⟨.refl d, by simp⟩

/-- A symbol that is declared is added if it is new, and then only its precedence changes. -/
theorem declare_cases (d : Draft) (p : Precedence) (name : String) (kind : SymbolKind)
    (line : Nat) : ∃ d₁,
    (d₁ = d ∨ d.find? name = none ∧ d₁ = (d.add ⟨name, some kind, none, none, line⟩).2) ∧
    ((d.declare p name kind line).2 = d₁ ∨ ∃ i < d₁.symbols.size,
      (d.declare p name kind line).2 = d₁.update i fun m => { m with precedence := some p }) := by
  unfold declare
  cases hfind : d.find? name with
  | some i =>
    refine ⟨d, Or.inl rfl, ?_⟩
    dsimp only
    split
    · exact Or.inl rfl
    split
    · exact Or.inl rfl
    · exact Or.inr ⟨i, find?_lt hfind, rfl⟩
  | none =>
    refine ⟨_, Or.inr ⟨rfl, rfl⟩, ?_⟩
    dsimp only
    split
    · exact Or.inl rfl
    split
    · exact Or.inl rfl
    · exact Or.inr ⟨_, by simp [add], rfl⟩

theorem declare_later (d : Draft) (p : Precedence) (name : String) (kind : SymbolKind)
    (line : Nat) : d.Later (d.declare p name kind line).2 := by
  obtain ⟨d₁, hfirst, hlast⟩ := d.declare_cases p name kind line
  have h₁ : d.Later d₁ := by
    rcases hfirst with rfl | ⟨-, rfl⟩
    · exact .refl _
    · exact add_later d _
  rcases hlast with h | ⟨i, hi, h⟩
  · rwa [h]
  · rw [h]
    exact h₁.trans (update_later hi (.same _))

/-! ## Statements -/

/-- What every statement preserves. -/
structure Good (d : Draft) : Prop where
  counted : d.Counted
  size_le : Kind.reservedBase ≤ d.symbols.size
  predefined : ∀ i < Kind.reservedBase, d.kindOf i = some .terminal
  productions : ∀ p ∈ d.productions, d.IsHead p.head ∧ ∀ s ∈ p.body, d.InBody s
  head : ∀ h, d.head = some h → d.IsHead h
  firstHead : ∀ h, d.firstHead = some h → d.IsHead h

theorem Good.later (h : d.Good) (hl : d.Later d') : d'.Good := by
  refine ⟨hl.counted h.counted, Nat.le_trans h.size_le hl.size_le, fun i hi => ?_, fun p hp => ?_,
    fun x hx => ?_, fun x hx => ?_⟩
  · have hr := hl.kind i (Nat.lt_of_lt_of_le hi h.size_le)
    rw [h.predefined i hi] at hr
    exact hr.known (by simp)
  · rw [hl.productions] at hp
    exact ⟨(h.productions p hp).1.later hl, fun s hs => ((h.productions p hp).2 s hs).later hl⟩
  · exact (h.head x (hl.head ▸ hx)).later hl
  · exact (h.firstHead x (hl.firstHead ▸ hx)).later hl

theorem new_counted : Draft.new.Counted := by
  intro i s hs
  have hall : ∀ i < Draft.new.symbols.size, Draft.new.symbols[i]?.map Entry.num = some i := by decide
  have hi := hall i (Array.getElem?_eq_some_iff.1 hs).1
  rw [hs] at hi
  exact Option.some.inj hi

theorem new_good : Draft.new.Good := by
  refine ⟨new_counted, by decide, by decide, by simp [new], by simp [new], by simp [new]⟩

/-- More productions, and other heads, that are in order. -/
theorem Good.congr (h : d.Good) (hs : d'.symbols = d.symbols)
    (hp : ∀ p ∈ d'.productions, p ∈ d.productions ∨ d.IsHead p.head ∧ ∀ s ∈ p.body, d.InBody s)
    (hh : ∀ x, d'.head = some x → d.IsHead x) (hf : ∀ x, d'.firstHead = some x → d.IsHead x) :
    d'.Good := by
  refine ⟨fun i s => hs ▸ h.counted i s, hs ▸ h.size_le, fun i hi => ?_, fun p hp' => ?_,
    fun x hx => (hh x hx).congr hs, fun x hx => (hf x hx).congr hs⟩
  · rw [kindOf, mention, hs]
    exact h.predefined i hi
  · have := (hp p hp').elim (h.productions p) id
    exact ⟨this.1.congr hs, fun s hs' => (this.2 s hs').congr hs⟩

theorem Good.push (h : d.Good) {p : Production} (hh : d.IsHead p.head)
    (hb : ∀ s ∈ p.body, d.InBody s) :
    ({ d with productions := d.productions.push p } : Draft).Good := by
  refine h.congr rfl (fun q hq => ?_) h.head h.firstHead
  rcases Array.mem_push.1 hq with hq | rfl
  · exact Or.inl hq
  · exact Or.inr ⟨hh, hb⟩

end Draft

/-! ## Alternatives -/

/-- An alternative all of whose symbols can stand in a body. -/
def Alternative.Fits (b : Alternative) (d : Draft) : Prop :=
  ∀ s ∈ b.symbols, d.InBody s

/-- A step of reading an alternative only adds symbols to the draft, and its symbols fit. -/
def BodyStep.Fits (d : Draft) : BodyStep → Prop
  | .done o => d.Later o.draft ∧ ∀ b more, o.result = .ok (b, more) → b.Fits o.draft
  | .more d' _ b => d.Later d' ∧ b.Fits d'

section

variable {d : Draft} {s : Source} {b : Alternative}

theorem readEnd_fits (hb : b.Fits d) : (BodyStep.done (readEnd d s b)).Fits d := by
  unfold readEnd
  dsimp only
  split
  · refine ⟨.refl d, ?_⟩
    rintro b' more ⟨⟩
    exact hb
  split
  · refine ⟨.refl d, ?_⟩
    rintro b' more ⟨⟩
    exact hb
  · exact ⟨.refl d, by simp [Outcome.unexpected]⟩

theorem readAction_fits (hb : b.Fits d) (line : Nat) :
    (BodyStep.done (readAction d s b line)).Fits d := by
  unfold readAction
  split
  · exact ⟨.refl d, by simp⟩
  · exact readEnd_fits (b := { b with action := some _, actionLine := line }) hb

theorem readMark_fits (hb : b.Fits d) : (readMark d s b).Fits d := by
  have hmark (s : Source) (name : String) (line : Nat) : (b.mark d s name line).1.Fits d := by
    unfold Alternative.mark
    split
    · exact hb
    split
    · exact hb
    · exact hb
  unfold readMark
  dsimp only
  split
  · exact ⟨.refl d, hmark _ _ _⟩
  · exact ⟨.refl d, by simp [Outcome.unexpected]⟩

theorem ofEffect_fits (hb : b.Fits d) {e : Draft.Effect Nat} (hl : d.Later e.2)
    (he : ∀ i, e.1 = .ok i → e.2.InBody i) : (BodyStep.ofEffect s b e).Fits d := by
  obtain ⟨result, d'⟩ := e
  cases result with
  | error err => exact ⟨hl, by simp⟩
  | ok i =>
    refine ⟨hl, fun x hx => ?_⟩
    rcases List.mem_cons.1 hx with rfl | hx
    · exact he x rfl
    · exact (hb x hx).later hl

theorem bodyStep_fits (hb : b.Fits d) : (bodyStep d s b).Fits d := by
  have hdone (more : Bool) (s : Source) : (BodyStep.done ⟨.ok (b, more), d, s⟩).Fits d := by
    refine ⟨.refl d, ?_⟩
    rintro b' more' ⟨⟩
    exact hb
  unfold bodyStep
  dsimp only
  split
  · exact hdone false _
  · exact hdone false _
  · exact hdone true _
  · exact ofEffect_fits hb (d.bodySymbol_spec _ _).1 (d.bodySymbol_spec _ _).2
  · exact ofEffect_fits hb (d.literal_spec _ _).1 (d.literal_spec _ _).2
  · exact ofEffect_fits hb (d.literal_spec _ _).1 (d.literal_spec _ _).2
  · exact readMark_fits hb
  · exact readAction_fits hb _
  · exact ⟨.refl d, by simp [Outcome.unexpected]⟩

theorem readBody_fits (hb : b.Fits d) : (BodyStep.done (readBody d s b)).Fits d := by
  fun_induction readBody d s b with
  | case1 d s b o h =>
    have := bodyStep_fits (s := s) hb
    rwa [h] at this
  | case2 d s b d' s' b' h ih =>
    obtain ⟨hl, hb'⟩ : d.Later d' ∧ b'.Fits d' := by
      have := bodyStep_fits (s := s) hb
      rwa [h] at this
    obtain ⟨hl', hres⟩ := ih hb'
    exact ⟨hl.trans hl', hres⟩

/-! ## Productions and declarations -/

theorem readAlternatives_good {head : Nat} (hd : d.Good) (hh : d.IsHead head) :
    (readAlternatives d s head).draft.Good := by
  have hbody (d : Draft) (s : Source) : (BodyStep.done (readBody d s {})).Fits d :=
    readBody_fits (by simp [Alternative.Fits])
  have hpush {d d' : Draft} {b : Alternative} (hd : d.Good) (hh : d.IsHead head) (hl : d.Later d')
      (hb : b.Fits d') (line : Nat) :
      ({ d' with productions := d'.productions.push (b.production d' head line) } : Draft).Good :=
    (hd.later hl).push (hh.later hl) fun x hx => hb x (List.mem_reverse.1 hx)
  fun_induction readAlternatives d s head with
  | case1 d s o e h => exact hd.later (hbody d s.peekLine.2).1
  | case2 d s line o b d' h ih =>
    obtain ⟨hl, hres⟩ := hbody d s.peekLine.2
    exact ih (hpush hd hh hl (hres b true h) line) ((hh.later hl).congr rfl)
  | case3 d s line o b more h d' m =>
    obtain ⟨hl, hres⟩ := hbody d s.peekLine.2
    exact hpush hd hh hl (hres b more h) line

theorem readProduction_good (hd : d.Good) (headToken : Token) :
    (readProduction d s headToken).draft.Good := by
  obtain ⟨hl, hok⟩ := d.defineHead_spec (String.ofList headToken.text) headToken.line
  unfold readProduction
  generalize d.defineHead (String.ofList headToken.text) headToken.line = e at hl hok
  obtain ⟨result, d'⟩ := e
  cases result with
  | error err => exact hd.later hl
  | ok head =>
    have hh : d'.IsHead head := hok head rfl
    dsimp only
    split
    · refine readAlternatives_good ((hd.later hl).congr rfl (fun p hp => Or.inl hp) ?_ ?_)
        (hh.congr rfl)
      · rintro x ⟨⟩
        exact hh
      · intro x hx
        rcases Option.or_eq_some_iff.1 hx with hx | ⟨-, hx⟩
        · exact (hd.later hl).firstHead x hx
        · rwa [← Option.some.inj hx]
    · exact hd.later hl

theorem declareAll_later (p : Precedence) : ∀ (d : Draft) (words : List Token),
    d.Later (declareAll d p words).2
  | d, [] => .refl d
  | d, t :: rest => by
    have hl := d.declare_later p t.symbolName (if t.kind = .word then .virtual else .terminal) t.line
    unfold declareAll
    dsimp only
    split
    · rename_i h
      rwa [h] at hl
    · rename_i h
      rw [h] at hl
      exact hl.trans (declareAll_later p _ rest)

theorem declareWords_good (hd : d.Good) (plain : Bool) (first : Token) (rest : List Token) :
    (declareWords d plain first rest).2.Good := by
  have hfields {d' : Draft} (hs : d'.symbols = d.symbols) (hp : d'.productions = d.productions)
      (hh : d'.head = d.head) (hf : d'.firstHead = d.firstHead) : d'.Good :=
    hd.congr hs (fun p hp' => Or.inl (hp ▸ hp')) (hh ▸ hd.head) (hf ▸ hd.firstHead)
  rcases declareWords_cases d plain first rest with ⟨type, he⟩ | ⟨assoc, he⟩ | ⟨assoc, he⟩
  · rw [he]
    exact hfields rfl rfl rfl rfl
  · rw [he]
    exact hd
  · rw [he]
    have hlevel : ({ d with level := d.level + 1 } : Draft).Good := hfields rfl rfl rfl rfl
    exact hlevel.later (declareAll_later _ _ rest)

theorem readDirective_good (hd : d.Good) (plain : Bool) : (readDirective d s plain).draft.Good := by
  unfold readDirective
  split
  · exact hd
  · exact hd
  · exact declareWords_good hd plain _ _

theorem readStatement_good (hd : d.Good) (t : Token) : (readStatement d s t).draft.Good := by
  unfold readStatement
  split
  · exact readDirective_good hd false
  · exact readDirective_good hd true
  · split
    · rename_i head hh
      exact readAlternatives_good hd (hd.head head hh)
    · exact hd
  · exact readProduction_good hd t
  · exact hd

theorem readStatements_good (hd : d.Good) (errors : List GrammarError) :
    (readStatements d errors s).draft.Good := by
  fun_induction readStatements d errors s with
  | case1 => exact hd
  | case2 _ _ _ _ _ _ ih => exact ih hd
  | case3 d errors s r _ _ o ih => exact ih (readStatement_good hd r.1)

theorem Draft.readCode_good (code : List CodeNode) : (readCode code).draft.Good :=
  readStatements_good Draft.new_good []

end

/-! ## Numbering -/

namespace Draft

variable {d : Draft} {i start : Nat}

/-- A symbol is the mention with its number. -/
theorem Counted.mention_num (h : d.Counted) {s : Entry} (hs : s ∈ d.symbols.toList) :
    d.mention s.num = s.toMention := by
  obtain ⟨j, hj⟩ := Array.getElem?_of_mem (Array.mem_toList_iff.1 hs)
  rw [mention, h j s hj, hj]
  rfl

theorem Counted.map_num (h : d.Counted) : d.symbols.toList.map Entry.num =
    List.range d.symbols.size := by
  refine List.ext_getElem (by simp) fun j hj _ => ?_
  have hlt : j < d.symbols.size := by simpa using hj
  rw [List.getElem_map, List.getElem_range]
  exact h j _ (by simp [hlt])

/-- The numbers of a role are found by looking at the numbers one after the other. -/
theorem Counted.ofKind_eq (h : d.Counted) (least : Nat) (kind : SymbolKind) :
    d.ofKind least kind = (List.range' least (d.symbols.size - least)).filter fun i =>
      d.kindOf i == some kind := by
  have hrange : (d.symbols.toList.drop least).map Entry.num =
      List.range' least (d.symbols.size - least) := by
    rw [List.map_drop, h.map_num, List.range_eq_range', List.drop_range']
    simp
  rw [← hrange, List.filter_map, ofKind, entriesOf]
  refine congrArg (List.map Entry.num) (List.filter_congr fun s hs => ?_)
  rw [Function.comp_apply, kindOf, h.mention_num (List.mem_of_mem_drop hs)]

theorem mem_ofKind (h : d.Counted) {least : Nat} {kind : SymbolKind} :
    i ∈ d.ofKind least kind ↔ least ≤ i ∧ i < d.symbols.size ∧ d.kindOf i = some kind := by
  simp only [h.ofKind_eq, List.mem_filter, List.mem_range'_1, beq_iff_eq, ← and_assoc]
  refine and_congr_left fun _ => ?_
  omega

/-- Sorting the literals sorts their numbers by their names. -/
theorem Counted.literals_eq (h : d.Counted) : d.literals =
    (d.ofKind Kind.reservedBase .terminal).mergeSort fun a b =>
      Text.order (d.mention a).name.toList (d.mention b).name.toList != .gt := by
  have hmention {s : Entry} (hs : s ∈ d.entriesOf Kind.reservedBase .terminal) :
      d.mention s.num = s.toMention :=
    h.mention_num (List.mem_of_mem_drop (List.mem_filter.1 hs).1)
  refine List.map_mergeSort fun a ha b hb => ?_
  rw [hmention ha, hmention hb]

theorem mem_literals (h : d.Counted) : i ∈ d.literals ↔
    Kind.reservedBase ≤ i ∧ i < d.symbols.size ∧ d.kindOf i = some .terminal := by
  rw [h.literals_eq, List.mem_mergeSort, mem_ofKind h]

/-- Every symbol with a role has a number. -/
theorem mem_order (h : d.Counted) (hi : i < d.symbols.size) (kind : SymbolKind)
    (hk : d.kindOf i = some kind) : i ∈ d.order start := by
  simp only [order, List.mem_append, List.mem_range, mem_literals h, mem_ofKind h,
    List.mem_singleton, List.mem_filter, bne_iff_ne, hk, Option.some.injEq]
  cases kind <;> simp only [hi, Nat.zero_le] <;> simp <;> omega

/-- The number of a predefined terminal is its own. -/
theorem idxOf_order (hi : i < Kind.reservedBase) : (d.order start).idxOf i = i := by
  simp only [order, List.append_assoc]
  rw [List.idxOf_append_of_mem (List.mem_range.2 hi)]
  have hn : (List.range Kind.reservedBase).Nodup := List.nodup_range
  have hlt : i < (List.range Kind.reservedBase).length := by simpa using hi
  have := hn.idxOf_getElem i hlt
  rwa [List.getElem_range] at this

theorem kindOf_ne_none (h : d.undefinedErrors = []) (hi : i < d.symbols.size) :
    d.kindOf i ≠ none := by
  intro hk
  have hmem : d.symbols[i] ∈ d.symbols.toList.filter fun s => s.kind == none := by
    refine List.mem_filter.2 ⟨by simp, ?_⟩
    simpa [kindOf, mention, hi] using hk
  rw [undefinedErrors, List.map_eq_nil_iff] at h
  rw [h] at hmem
  cases hmem

/-- The draft with the start symbol. -/
def started (d : Draft) : Draft :=
  (d.add ⟨"$start", some .nonterminal, none, none, 0⟩).2

/-- The number of a symbol in the grammar. -/
def number (d : Draft) (i : Nat) : Nat :=
  (d.started.order d.symbols.size).idxOf i

/-- The productions of the grammar, before the symbols are numbered. -/
def allProductions (d : Draft) (first : Nat) : List Production :=
  ⟨d.symbols.size, [first, Kind.eof.num], none, none, 0, .anywhere, 0⟩ :: d.productions.toList

theorem toGrammar_eq (d : Draft) (first : Nat) :
    d.toGrammar first = Grammar.assemble
      ((d.started.order d.symbols.size).mapIdx fun num i => symbol num (d.started.mention i)).toArray
      ((d.allProductions first).map fun p =>
        { p with head := d.number p.head, body := p.body.map d.number }).toArray :=
  rfl

/-- A symbol of a draft that the grammar knows. -/
def Numbered (d : Draft) (i : Nat) : Prop :=
  i ∈ d.started.order d.symbols.size

theorem number_inj {j : Nat} (hi : d.Numbered i) (h : d.number i = d.number j) : i = j :=
  (List.idxOf_inj hi).1 h

theorem Counted.started (h : d.Counted) : d.started.Counted :=
  h.add _

theorem numbered_start (h : d.Counted) : d.Numbered d.symbols.size :=
  mem_order h.started (by simp [started, add]) .nonterminal (by rw [started, kindOf_add, if_pos rfl])

theorem kindOf_started (hi : i < d.symbols.size) : d.started.kindOf i = d.kindOf i := by
  rw [started, kindOf_add, if_neg (Nat.ne_of_lt hi)]

theorem numbered_of_lt (h : d.Counted) (hdef : d.undefinedErrors = []) (hi : i < d.symbols.size) :
    d.Numbered i := by
  obtain ⟨kind, hk⟩ := Option.ne_none_iff_exists'.1 (kindOf_ne_none hdef hi)
  refine mem_order h.started ?_ kind (by rw [kindOf_started hi, hk])
  exact Nat.lt_of_lt_of_le hi (d.add_later _).size_le

theorem number_predefined (d : Draft) (hi : i < Kind.reservedBase) : d.number i = i :=
  idxOf_order hi

section

variable {first : Nat} {q : Production}

/-- The bodies of all productions are of symbols that bodies may have. -/
theorem Good.inBody (hd : d.Good) (hfirst : d.IsHead first) (hq : q ∈ d.allProductions first)
    (hi : i ∈ q.body) : d.InBody i := by
  have heof : Kind.eof.num < Kind.reservedBase := by decide
  rcases List.mem_cons.1 hq with rfl | hq
  · rcases List.mem_cons.1 hi with rfl | hi
    · exact ⟨hfirst.lt, by rw [hfirst.kind]; simp⟩
    · rw [List.mem_singleton.1 hi]
      exact ⟨Nat.lt_of_lt_of_le heof hd.size_le, by rw [hd.predefined _ heof]; simp⟩
  · exact (hd.productions q (by simpa using hq)).2 i hi

/-- The heads of all productions are nonterminals. -/
theorem Good.head_numbered (hd : d.Good) (hdef : d.undefinedErrors = [])
    (hq : q ∈ d.allProductions first) :
    d.Numbered q.head ∧ d.started.kindOf q.head = some .nonterminal := by
  rcases List.mem_cons.1 hq with rfl | hq
  · exact ⟨numbered_start hd.counted, by rw [started, kindOf_add, if_pos rfl]⟩
  · obtain ⟨hlt, hk⟩ := (hd.productions q (by simpa using hq)).1
    exact ⟨numbered_of_lt hd.counted hdef hlt, by rw [kindOf_started hlt, hk]⟩

end

end Draft

namespace Grammar

variable {g : Grammar}

theorem markSymbols_idem (g : Grammar) : g.markSymbols.markSymbols = g.markSymbols := by
  have hn : g.markSymbols.nullableSymbols = g.nullableSymbols := rfl
  have hl : g.markSymbols.lineLikeSymbols = g.lineLikeSymbols := rfl
  have hs : g.markSymbols.markSymbols.symbols = g.markSymbols.symbols := by
    refine Array.ext_getElem? fun i => ?_
    unfold markSymbols at hn hl ⊢
    simp only [Array.getElem?_mapIdx, Option.map_map, hn, hl]
    rfl
  exact congrArg (fun symbols => ({ g with symbols } : Grammar)) hs

/-- A grammar in which everything is what it has to be. -/
structure WellFormed (g : Grammar) : Prop where
  indexed : g.Indexed
  start_body : ∃ s, g.body 0 = [s, Kind.eof.num]
  head : ∀ p < g.productions.size, g.isNonterminal (g.head p) = true
  body : ∀ p, ∀ s ∈ g.body p, g.isTerminal s = true ∨ g.isNonterminal s = true
  start : ∀ p, g.start ∉ g.body p
  predefined : ∀ s < Kind.reservedBase, g.isTerminal s = true
  marked : g.markSymbols = g

theorem WellFormed.body_ne_nil (h : g.WellFormed) : g.body 0 ≠ [] := by
  obtain ⟨s, hs⟩ := h.start_body
  simp [hs]

section

variable {d : Draft} {first : Nat}

/-- The symbols of the grammar are those of the draft in their order, with their numbers and
    with what is found out about them. -/
theorem symbols_toGrammar (first s : Nat) : (d.toGrammar first).symbols[s]? =
    (d.started.order d.symbols.size)[s]?.map fun i =>
      { Draft.symbol s (d.started.mention i) with
        firstProduction := (d.toGrammar first).firstProduction? s
        nullable := (d.toGrammar first).isNullable s
        lineLike := (d.toGrammar first).isLineLike s } := by
  rw [Draft.toGrammar_eq, getElem?_assemble, List.getElem?_toArray, List.getElem?_mapIdx,
    Option.map_map]
  rfl

theorem getElem?_order {i : Nat} (hi : d.Numbered i) :
    (d.started.order d.symbols.size)[d.number i]? = some i := by
  rw [Draft.number, List.getElem?_eq_getElem (List.idxOf_lt_length_of_mem hi), List.getElem_idxOf]

/-- A symbol has the role in the grammar that it has in the draft. -/
theorem kind?_toGrammar (first : Nat) {i : Nat} (hi : d.Numbered i) :
    (d.toGrammar first).kind? (d.number i) = some ((d.started.kindOf i).getD .virtual) := by
  rw [kind?, symbols_toGrammar, getElem?_order hi]
  rfl

theorem getElem?_toGrammar (p : Nat) : (d.toGrammar first).productions[p]? =
    (d.allProductions first)[p]?.map fun q =>
      { q with head := d.number q.head, body := q.body.map d.number } := by
  rw [Draft.toGrammar_eq, productions_assemble, List.getElem?_toArray, List.getElem?_map]

theorem head_toGrammar {p : Nat} {q : Production} (hq : (d.allProductions first)[p]? = some q) :
    (d.toGrammar first).head p = d.number q.head := by
  rw [Grammar.head, getElem?_toGrammar, hq]
  rfl

/-- The start symbol is the head of the first production. -/
theorem start_toGrammar (d : Draft) (first : Nat) :
    (d.toGrammar first).start = d.number d.symbols.size :=
  head_toGrammar (show (d.allProductions first)[0]? = some _ from rfl)

/-- The grammar of a draft has its productions under their heads. -/
theorem toGrammar_indexed (hheads : ∀ q ∈ d.allProductions first, d.Numbered q.head) :
    (d.toGrammar first).Indexed := by
  rw [Draft.toGrammar_eq]
  refine assemble_indexed (fun i s hs => ?_) (fun s hs => ?_) (by simp [Draft.allProductions])
    fun p hp => ?_
  · rw [List.getElem?_toArray, List.getElem?_mapIdx, Option.map_eq_some_iff] at hs
    obtain ⟨j, -, rfl⟩ := hs
    rfl
  · obtain ⟨num, hnum, rfl⟩ := List.mem_mapIdx.1 (List.mem_toArray.1 hs)
    rfl
  · obtain ⟨q, hq, rfl⟩ := List.mem_map.1 (List.mem_toArray.1 hp)
    rw [List.size_toArray, List.length_mapIdx]
    exact List.idxOf_lt_length_of_mem (hheads q hq)

theorem mem_body_toGrammar {p s : Nat} (hs : s ∈ (d.toGrammar first).body p) :
    ∃ q ∈ d.allProductions first, ∃ i ∈ q.body, d.number i = s := by
  rw [Grammar.body, getElem?_toGrammar] at hs
  cases hq : (d.allProductions first)[p]? with
  | none => simp [hq] at hs
  | some q =>
    rw [hq] at hs
    obtain ⟨i, hi, rfl⟩ := List.mem_map.1 hs
    exact ⟨q, List.mem_of_getElem? hq, i, hi, rfl⟩

/-- A finished draft gives a well-formed grammar. -/
theorem toGrammar_wellFormed (hd : d.Good) (hfirst : d.IsHead first)
    (hdef : d.undefinedErrors = []) : (d.toGrammar first).WellFormed := by
  refine ⟨toGrammar_indexed fun q hq => (hd.head_numbered hdef hq).1, ⟨d.number first, ?_⟩,
    fun p hp => ?_, fun p s hs => ?_, fun p hs => ?_, fun s hs => ?_, ?_⟩
  · rw [Grammar.body, getElem?_toGrammar, ← d.number_predefined (i := Kind.eof.num) (by decide)]
    rfl
  · obtain ⟨q, hq⟩ : ∃ q, (d.allProductions first)[p]? = some q := by
      have hlt : p < (d.allProductions first).length := by
        rw [Draft.toGrammar_eq, productions_assemble] at hp
        simpa using hp
      exact ⟨_, List.getElem?_eq_getElem hlt⟩
    obtain ⟨hi, hk⟩ := hd.head_numbered hdef (List.mem_of_getElem? hq)
    rw [isNonterminal, head_toGrammar hq, kind?_toGrammar first hi, hk]
    rfl
  · obtain ⟨q, hq, i, hi, rfl⟩ := mem_body_toGrammar hs
    have hin := hd.inBody hfirst hq hi
    obtain ⟨kind, hk⟩ := Option.ne_none_iff_exists'.1 (Draft.kindOf_ne_none hdef hin.lt)
    have hkind := kind?_toGrammar first (Draft.numbered_of_lt hd.counted hdef hin.lt)
    rw [Draft.kindOf_started hin.lt, hk] at hkind
    rw [isTerminal, isNonterminal, hkind]
    cases kind with
    | virtual => exact absurd hk hin.kind
    | terminal => exact Or.inl rfl
    | nonterminal => exact Or.inr rfl
  · -- the start symbol is the last one, which no body can mention
    obtain ⟨q, hq, i, hi, heq⟩ := mem_body_toGrammar hs
    rw [start_toGrammar] at heq
    have hlt := (hd.inBody hfirst hq hi).lt
    have := Draft.number_inj (Draft.numbered_of_lt hd.counted hdef hlt) heq
    omega
  · have hlt := Nat.lt_of_lt_of_le hs hd.size_le
    have hkind := kind?_toGrammar first (Draft.numbered_of_lt hd.counted hdef hlt)
    rw [Draft.kindOf_started hlt, hd.predefined s hs, d.number_predefined hs] at hkind
    rw [isTerminal, hkind]
    rfl
  · exact markSymbols_idem _

/-- A grammar that was read is that of the draft, and nothing was wrong with this. -/
theorem draft_of_read {code : List CodeNode} {g : Grammar} (h : Grammar.read code = .ok g) :
    ∃ first, (readCode code).draft.firstHead = some first ∧ (readCode code).errors = [] ∧
      (readCode code).draft.undefinedErrors = [] ∧ g = (readCode code).draft.toGrammar first := by
  unfold Grammar.read Draft.finish at h
  dsimp only at h
  split at h
  · cases h
  · rename_i first hfirst
    split at h
    · rename_i hnil
      obtain ⟨herr, hdef⟩ := List.append_eq_nil_iff.1 hnil
      cases h
      exact ⟨first, hfirst, List.reverse_eq_nil_iff.1 herr, hdef, rfl⟩
    · cases h

/-- **A grammar that was read is well-formed.** -/
theorem read_wellFormed {code : List CodeNode} {g : Grammar} (h : Grammar.read code = .ok g) :
    g.WellFormed := by
  obtain ⟨first, hfirst, -, hdef, rfl⟩ := draft_of_read h
  have hgood := Draft.readCode_good code
  exact toGrammar_wellFormed hgood (hgood.firstHead first hfirst) hdef

end

/-- A text that a grammar can be read from, if the grammar passes a test. -/
theorem exists_readText (text : String) (test : Grammar → Bool)
    (h : (Grammar.readText text).toOption.any test = true) :
    ∃ g, Grammar.readText text = .ok g ∧ test g = true := by
  cases hr : Grammar.readText text with
  | ok g =>
    rw [hr] at h
    exact ⟨g, rfl, h⟩
  | error errors =>
    rw [hr] at h
    cases h

end Grammar

end LayoutLR
