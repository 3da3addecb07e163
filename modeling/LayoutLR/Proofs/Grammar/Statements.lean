/-
  Layout-aware LR toolkit — what statements leave in a draft.

  Reading a statement adds symbols to the draft, or finds out what they are; it
  never renames one, and it adds no name that is there.  Only heads become
  nonterminals, so that after statements without an error each nonterminal heads a
  production.

  * `Draft.AlongBodies`, `Draft.Along`: a relation that holds along whatever bodies, or bodies
    and declarations, do;
  * `Draft.KeepsNames`, `readCode_named`: the names in a draft are different, and the
    predefined ones come first;
  * `Draft.Supplied`, `readCode_supplied`: every head has a production, and the first
    head is that of the first one.
-/
import LayoutLR.Proofs.Grammar.WellFormed

namespace LayoutLR

namespace Draft

variable {d d' d'' : Draft} {i : Nat} {R : Draft → Draft → Prop}

/-- A relation that holds along whatever bodies do to a draft, if it only looks at the symbols
    and the level. -/
structure AlongBodies (R : Draft → Draft → Prop) : Prop where
  trans : ∀ {d d' d''}, R d d' → R d' d'' → R d d''
  fields : ∀ {d d' : Draft}, d'.symbols = d.symbols → d'.level = d.level → R d d'
  bodySymbol : ∀ d name line, R d (d.bodySymbol name line).2
  literal : ∀ d name line, R d (d.literal name line).2

theorem AlongBodies.refl (h : AlongBodies R) (d : Draft) : R d d :=
  h.fields rfl rfl

/-- A relation that holds along whatever bodies and declarations do to a draft, if it only
    looks at the symbols. -/
structure Along (R : Draft → Draft → Prop) : Prop where
  trans : ∀ {d d' d''}, R d d' → R d' d'' → R d d''
  fields : ∀ {d d' : Draft}, d'.symbols = d.symbols → R d d'
  bodySymbol : ∀ d name line, R d (d.bodySymbol name line).2
  literal : ∀ d name line, R d (d.literal name line).2
  declare : ∀ d p name kind line, kind ≠ .nonterminal → R d (d.declare p name kind line).2

theorem Along.refl (h : Along R) (d : Draft) : R d d :=
  h.fields rfl

theorem Along.bodies (h : Along R) : AlongBodies R :=
  ⟨h.trans, fun hs _ => h.fields hs, h.bodySymbol, h.literal⟩

end Draft

/-! ## Along a statement -/

namespace Draft.AlongBodies

variable {R : Draft → Draft → Prop} {d : Draft}

/-- Where reading an alternative stands, seen from the draft before. -/
def Step (R : Draft → Draft → Prop) (d : Draft) : BodyStep → Prop
  | .done o => R d o.draft
  | .more d' _ _ => R d d'

theorem ofEffect (s : Source) (b : Alternative) (e : Effect Nat) (he : R d e.2) :
    Step R d (.ofEffect s b e) := by
  obtain ⟨result, d'⟩ := e
  cases result <;> exact he

theorem readEnd (h : AlongBodies R) (d : Draft) (s : Source) (b : Alternative) :
    R d (LayoutLR.readEnd d s b).draft := by
  unfold LayoutLR.readEnd
  dsimp only
  split
  · exact h.refl d
  split
  · exact h.refl d
  · exact h.refl d

theorem bodyStep (h : AlongBodies R) (d : Draft) (s : Source) (b : Alternative) :
    Step R d (LayoutLR.bodyStep d s b) := by
  unfold LayoutLR.bodyStep
  dsimp only
  split
  · exact h.refl d
  · exact h.refl d
  · exact h.refl d
  · exact ofEffect _ _ _ (h.bodySymbol _ _ _)
  · exact ofEffect _ _ _ (h.literal _ _ _)
  · exact ofEffect _ _ _ (h.literal _ _ _)
  · unfold readMark
    dsimp only
    split
    · exact h.refl d
    · exact h.refl d
  · unfold readAction
    split
    · exact h.refl d
    · exact h.readEnd _ _ _
  · exact h.refl d

theorem readBody (h : AlongBodies R) (d : Draft) (s : Source) (b : Alternative) :
    R d (LayoutLR.readBody d s b).draft := by
  fun_induction LayoutLR.readBody d s b with
  | case1 d s b o e =>
    have := h.bodyStep d s b
    rwa [e] at this
  | case2 d s b d' s' b' e ih =>
    have := h.bodyStep d s b
    rw [e] at this
    exact h.trans this ih

theorem readAlternatives (h : AlongBodies R) (d : Draft) (s : Source) (head : Nat) :
    R d (LayoutLR.readAlternatives d s head).draft := by
  fun_induction LayoutLR.readAlternatives d s head with
  | case1 d s o e _ => exact h.readBody d s.peekLine.2 {}
  | case2 d s line o b d' _ ih =>
    have hpush : R o.draft d' := h.fields rfl rfl
    exact h.trans (h.trans (h.readBody d s.peekLine.2 {}) hpush) ih
  | case3 d s line o b more _ d' _ => exact h.trans (h.readBody d s.peekLine.2 {}) (h.fields rfl rfl)

/-- A relation that also holds when a head is defined holds along a production. -/
theorem readProduction (h : AlongBodies R) (hdef : ∀ d name line, R d (d.defineHead name line).2)
    (d : Draft) (s : Source) (t : Token) : R d (LayoutLR.readProduction d s t).draft := by
  unfold LayoutLR.readProduction
  have hhead := hdef d (String.ofList t.text) t.line
  split
  · rename_i e
    rwa [e] at hhead
  · rename_i head d' e
    rw [e] at hhead
    dsimp only
    split
    · have hfields : R d' { d' with head := some head, firstHead := d'.firstHead.or (some head) } :=
        h.fields rfl rfl
      exact h.trans (h.trans hhead hfields) (h.readAlternatives _ _ _)
    · exact hhead

end Draft.AlongBodies

namespace Draft.Along

variable {R : Draft → Draft → Prop}

theorem declareAll (h : Along R) (p : Precedence) :
    ∀ (d : Draft) (words : List Token), R d (LayoutLR.declareAll d p words).2
  | d, [] => h.refl d
  | d, t :: rest => by
    have hone := h.declare d p t.symbolName (if t.kind = .word then .virtual else .terminal) t.line
      (by split <;> simp)
    unfold LayoutLR.declareAll
    dsimp only
    split
    · rename_i e
      rwa [e] at hone
    · rename_i e
      rw [e] at hone
      exact h.trans hone (h.declareAll p _ rest)

theorem declareWords (h : Along R) (d : Draft) (plain : Bool) (first : Token) (rest : List Token) :
    R d (LayoutLR.declareWords d plain first rest).2 := by
  rcases declareWords_cases d plain first rest with ⟨type, he⟩ | ⟨assoc, he⟩ | ⟨assoc, he⟩
  · rw [he]
    exact h.fields rfl
  · rw [he]
    exact h.refl d
  · rw [he]
    have hlevel : R d { d with level := d.level + 1 } := h.fields rfl
    exact h.trans hlevel (h.declareAll _ _ rest)

theorem readDirective (h : Along R) (d : Draft) (s : Source) (plain : Bool) :
    R d (LayoutLR.readDirective d s plain).draft := by
  unfold LayoutLR.readDirective
  split
  · exact h.refl d
  · exact h.refl d
  · exact h.declareWords d plain _ _

/-- A relation that also holds when a head is defined holds along a statement. -/
theorem readStatement (h : Along R) (hdef : ∀ d name line, R d (d.defineHead name line).2)
    (d : Draft) (s : Source) (t : Token) : R d (LayoutLR.readStatement d s t).draft := by
  unfold LayoutLR.readStatement
  split
  · exact h.readDirective d s false
  · exact h.readDirective d s true
  · split
    · exact h.bodies.readAlternatives d s _
    · exact h.refl d
  · exact h.bodies.readProduction hdef d s t
  · exact h.refl d

theorem readStatements (h : Along R) (hdef : ∀ d name line, R d (d.defineHead name line).2)
    (d : Draft) (errors : List GrammarError) (s : Source) :
    R d (LayoutLR.readStatements d errors s).draft := by
  fun_induction LayoutLR.readStatements d errors s with
  | case1 => exact h.refl _
  | case2 _ _ _ _ _ _ ih => exact ih
  | case3 d errors s r _ _ o ih => exact h.trans (h.readStatement hdef d r.2 r.1) ih

end Draft.Along

/-! ## Names -/

namespace Draft

variable {d d' d'' : Draft} {i : Nat}

/-- The names of the symbols in order. -/
def names (d : Draft) : List String :=
  d.symbols.toList.map fun s => s.name

/-- Names stay where they are, and no name is added that is there. -/
structure KeepsNames (d d' : Draft) : Prop where
  isPrefix : d.names <+: d'.names
  nodup : d.names.Nodup → d'.names.Nodup

theorem KeepsNames.of_eq (h : d'.names = d.names) : d.KeepsNames d' :=
  ⟨h ▸ List.prefix_refl _, fun hn => by rwa [h]⟩

theorem KeepsNames.trans (h : d.KeepsNames d') (h' : d'.KeepsNames d'') : d.KeepsNames d'' :=
  ⟨h.isPrefix.trans h'.isPrefix, fun hn => h'.nodup (h.nodup hn)⟩

theorem find?_eq_none_iff {name : String} : d.find? name = none ↔ name ∉ d.names := by
  simp [find?, names, Array.findIdx?_eq_none_iff]

theorem find?_name {name : String} (h : d.find? name = some i) : (d.mention i).name = name := by
  obtain ⟨hlt, hname, -⟩ := Array.findIdx?_eq_some_iff_getElem.1 h
  simpa [mention, hlt] using hname

theorem name_inj {j : Nat} (hd : d.names.Nodup) (hi : i < d.symbols.size) (hj : j < d.symbols.size)
    (h : (d.mention i).name = (d.mention j).name) : i = j := by
  have hindex (k : Nat) (hk : k < d.symbols.size) : d.names.idxOf (d.mention k).name = k := by
    have hlt : k < d.names.length := by simpa [names] using hk
    have hget : d.names[k] = (d.mention k).name := by simp [names, mention, hk]
    rw [← hget, hd.idxOf_getElem k hlt]
  rw [← hindex i hi, h, hindex j hj]

theorem names_add (d : Draft) (m : Mention) : (d.add m).2.names = d.names ++ [m.name] := by
  simp [add, names]

theorem add_keepsNames {m : Mention} (h : d.find? m.name = none) : d.KeepsNames (d.add m).2 := by
  constructor
  · rw [names_add]
    exact List.prefix_append _ _
  · intro hn
    rw [names_add, List.nodup_append]
    refine ⟨hn, List.nodup_singleton _, ?_⟩
    rintro a ha b hb rfl
    rw [List.mem_singleton.1 hb] at ha
    exact find?_eq_none_iff.1 h ha

theorem update_keepsNames (d : Draft) (i : Nat) {f : Mention → Mention}
    (hf : ∀ m, (f m).name = m.name) : d.KeepsNames (d.update i f) := by
  refine .of_eq (List.ext_getElem? fun j => ?_)
  simp only [names, update, List.getElem?_map, Array.getElem?_toList, Array.getElem?_modify]
  split
  · rw [Option.map_map]
    exact congrArg (fun g => Option.map g d.symbols[j]?) (funext fun s => hf s.toMention)
  · rfl

theorem defineHead_keepsNames (d : Draft) (name : String) (line : Nat) :
    d.KeepsNames (d.defineHead name line).2 := by
  unfold defineHead
  split
  · rename_i h
    exact add_keepsNames (m := ⟨name, _, _, _, _⟩) h
  · split
    · dsimp only
      exact update_keepsNames d _ fun _ => rfl
    · exact .of_eq rfl
    · exact .of_eq rfl
    · exact .of_eq rfl

theorem along_keepsNames : Along KeepsNames where
  trans := KeepsNames.trans
  fields h := .of_eq (by rw [names, h]; rfl)
  bodySymbol d name line := by
    unfold bodySymbol
    split
    · rename_i h
      exact add_keepsNames (m := ⟨name, _, _, _, _⟩) h
    split
    · exact .of_eq rfl
    · exact .of_eq rfl
  literal d name line := by
    unfold literal
    split
    · rename_i h
      exact add_keepsNames (m := ⟨name, _, _, _, _⟩) h
    split
    · exact .of_eq rfl
    · dsimp only
      exact update_keepsNames d _ fun _ => rfl
    · exact .of_eq rfl
    · exact .of_eq rfl
  declare d p name kind line _ := by
    obtain ⟨d₁, hfirst, hlast⟩ := d.declare_cases p name kind line
    have h₁ : d.KeepsNames d₁ := by
      rcases hfirst with rfl | ⟨hnew, rfl⟩
      · exact .of_eq rfl
      · exact add_keepsNames (m := ⟨name, some kind, none, none, line⟩) hnew
    rcases hlast with h | ⟨i, -, h⟩
    · rwa [h]
    · rw [h]
      exact h₁.trans (update_keepsNames d₁ i fun _ => rfl)

/-- The predefined names come first, and no name is there twice. -/
structure Named (d : Draft) : Prop where
  predefined : Draft.new.names <+: d.names
  nodup : d.names.Nodup

theorem readCode_named (code : List CodeNode) : (readCode code).draft.Named := by
  have h : Draft.new.KeepsNames (readCode code).draft :=
    along_keepsNames.readStatements defineHead_keepsNames _ _ _
  exact ⟨h.isPrefix, h.nodup (by decide)⟩

/-! ## Heads -/

/-- Only the start of a production makes a nonterminal. -/
theorem along_heads : Along fun d d' => ∀ i, d'.IsHead i → d.IsHead i := by
  have hadd (d : Draft) (m : Mention) (hm : m.kind ≠ some .nonterminal) (i : Nat)
      (hi : (d.add m).2.IsHead i) : d.IsHead i := by
    have hk := hi.kind
    rw [kindOf_add] at hk
    split at hk
    · exact absurd hk hm
    · rename_i hne
      have hlt := hi.lt
      simp only [add, Array.size_push] at hlt
      exact ⟨by omega, hk⟩
  have hupdate (d : Draft) (j : Nat) (f : Mention → Mention)
      (hf : ∀ m : Mention, (f m).kind = some .nonterminal → m.kind = some .nonterminal) (i : Nat)
      (hi : (d.update j f).IsHead i) : d.IsHead i := by
    have hlt : i < d.symbols.size := by simpa [update] using hi.lt
    refine ⟨hlt, ?_⟩
    have hk := hi.kind
    simp only [kindOf, mention, update, Array.getElem?_modify] at hk ⊢
    split at hk
    · simp only [Array.getElem?_eq_getElem hlt, Option.map_some, Option.getD_some] at hk ⊢
      exact hf _ hk
    · exact hk
  refine ⟨fun h h' i hi => h i (h' i hi), fun hs i hi => hi.congr hs.symm, ?_, ?_, ?_⟩
  · intro d name line
    unfold bodySymbol
    split
    · exact hadd d _ (by simp)
    split
    · exact fun i hi => hi
    · exact fun i hi => hi
  · intro d name line
    unfold literal
    split
    · exact hadd d _ (by simp)
    split
    · exact fun i hi => hi
    · dsimp only
      exact hupdate d _ _ (by simp)
    · exact fun i hi => hi
    · exact fun i hi => hi
  · intro d p name kind line hkind
    obtain ⟨d₁, hfirst, hlast⟩ := d.declare_cases p name kind line
    have h₁ : ∀ i, d₁.IsHead i → d.IsHead i := by
      rcases hfirst with rfl | ⟨-, rfl⟩
      · exact fun i hi => hi
      · exact hadd d ⟨name, some kind, none, none, line⟩ (by simpa using hkind)
    rcases hlast with h | ⟨j, -, h⟩
    · rwa [h]
    · rw [h]
      exact fun i hi => h₁ i (hupdate d₁ j _ (by simp) i hi)

/-- Every head has a production, and the first head is that of the first production. -/
structure Supplied (d : Draft) : Prop where
  heads : ∀ i, d.IsHead i → ∃ p ∈ d.productions, p.head = i
  head : ∀ h, d.head = some h → ∃ p ∈ d.productions, p.head = h
  firstHead : d.productions[0]?.map Production.head = d.firstHead

theorem new_supplied : Draft.new.Supplied := by
  refine ⟨fun i hi => ?_, by simp [new], rfl⟩
  have hlt : i < 12 := hi.lt
  have := new_good.predefined i hlt
  rw [hi.kind] at this
  cases this

end Draft

/-! ## Productions of a statement -/

section

variable {d d' d'' : Draft} {s : Source} {head : Nat} {new : List Production}

/-- A draft with more productions, all of one head. -/
structure Draft.Adds (d : Draft) (head : Nat) (new : List Production) (d' : Draft) : Prop where
  productions : d'.productions.toList = d.productions.toList ++ new
  heads : ∀ p ∈ new, p.head = head
  head : d'.head = d.head
  firstHead : d'.firstHead = d.firstHead

theorem Draft.Later.adds (h : d.Later d') (head : Nat) : d.Adds head [] d' :=
  ⟨by simp [h.productions], by simp, h.head, h.firstHead⟩

theorem Draft.Adds.push (h : d.Adds head [] d') {p : Production} (hp : p.head = head) :
    d.Adds head [p] { d' with productions := d'.productions.push p } := by
  refine ⟨?_, by simpa using hp, h.head, h.firstHead⟩
  have := h.productions
  rw [List.append_nil] at this
  rw [Array.toList_push, this]

theorem Draft.Adds.trans {more : List Production} (h : d.Adds head new d')
    (h' : d'.Adds head more d'') : d.Adds head (new ++ more) d'' := by
  refine ⟨?_, ?_, h'.head.trans h.head, h'.firstHead.trans h.firstHead⟩
  · rw [h'.productions, h.productions, List.append_assoc]
  · intro p hp
    exact (List.mem_append.1 hp).elim (h.heads p) (h'.heads p)

/-- Alternatives are productions of their head; there is one at least, unless they fail. -/
theorem readAlternatives_adds (d : Draft) (s : Source) (head : Nat) :
    ∃ new, d.Adds head new (readAlternatives d s head).draft ∧
      ((readAlternatives d s head).result = .ok () → new ≠ []) := by
  have hbody (d : Draft) (s : Source) : d.Adds head [] (readBody d s {}).draft :=
    Draft.Later.adds (readBody_fits (b := {}) (by simp [Alternative.Fits])).1 head
  fun_induction readAlternatives d s head with
  | case1 d s o e _ => exact ⟨[], hbody d s.peekLine.2, by simp⟩
  | case2 d s line o b d' _ ih =>
    have hone : d.Adds head [b.production o.draft head line] d' := (hbody d s.peekLine.2).push rfl
    obtain ⟨new, hnew, -⟩ := ih
    exact ⟨_, hone.trans hnew, by simp⟩
  | case3 d s line o b more _ d' _ => exact ⟨_, (hbody d s.peekLine.2).push rfl, by simp⟩

/-! ## Statements without errors -/

theorem Draft.Supplied.later (h : d.Supplied) (hl : d.Later d')
    (hheads : ∀ i, d'.IsHead i → d.IsHead i) : d'.Supplied := by
  refine ⟨fun i hi => ?_, fun x hx => ?_, ?_⟩
  · rw [hl.productions]
    exact h.heads i (hheads i hi)
  · rw [hl.productions]
    exact h.head x (hl.head ▸ hx)
  · rw [hl.productions, hl.firstHead]
    exact h.firstHead

/-- Once a head has got productions of its own, all is as it was. -/
theorem Draft.Supplied.adds (h : d.Supplied) (hp : d'.productions = d.productions)
    (hhead : d'.head = some head) (hfirst : d'.firstHead = d.firstHead.or (some head))
    (hheads : ∀ i, d''.IsHead i → d.IsHead i ∨ i = head) (hadds : d'.Adds head new d'')
    (hnew : new ≠ []) : d''.Supplied := by
  obtain ⟨p, rest, rfl⟩ := List.exists_cons_of_ne_nil hnew
  have hmem (q : Production) : q ∈ d''.productions ↔ q ∈ d.productions ∨ q ∈ p :: rest := by
    rw [← Array.mem_toList_iff, hadds.productions, hp, List.mem_append, Array.mem_toList_iff]
  have hmine : ∃ q ∈ d''.productions, q.head = head :=
    ⟨p, (hmem p).2 (Or.inr List.mem_cons_self), hadds.heads p List.mem_cons_self⟩
  refine ⟨fun i hi => ?_, fun x hx => ?_, ?_⟩
  · rcases hheads i hi with hi | rfl
    · obtain ⟨q, hq, hqi⟩ := h.heads i hi
      exact ⟨q, (hmem q).2 (Or.inl hq), hqi⟩
    · exact hmine
  · rw [hadds.head, hhead] at hx
    cases hx
    exact hmine
  · -- the first production is an old one, or the first of the new ones
    rw [← Array.getElem?_toList, hadds.productions, hadds.firstHead, hfirst, hp, ← h.firstHead,
      ← Array.getElem?_toList]
    cases d.productions.toList with
    | nil => exact congrArg some (hadds.heads p List.mem_cons_self)
    | cons q qs => rfl

theorem defineHead_heads {name : String} {line : Nat} {i : Nat}
    (h : (d.defineHead name line).1 = .ok head) (hi : (d.defineHead name line).2.IsHead i) :
    d.IsHead i ∨ i = head := by
  revert h hi
  unfold Draft.defineHead
  split
  · rintro ⟨⟩ ⟨hlt, hk⟩
    rw [Draft.kindOf_add] at hk
    split at hk
    · rename_i e
      exact Or.inr e
    · rename_i e
      exact Or.inl ⟨by simp [Draft.add] at hlt; omega, hk⟩
  · rename_i j hj
    split
    · rintro ⟨⟩ ⟨hlt, hk⟩
      rw [Draft.kindOf_update (Draft.find?_lt hj)] at hk
      split at hk
      · rename_i e
        exact Or.inr e.symm
      · exact Or.inl ⟨by simpa [Draft.update] using hlt, hk⟩
    · rintro - hi
      exact Or.inl hi
    · rintro ⟨⟩
    · rintro ⟨⟩

theorem readDirective_later (d : Draft) (s : Source) (plain : Bool) :
    d.Later (readDirective d s plain).draft := by
  have hfields {d' : Draft} (hs : d'.symbols = d.symbols) (hp : d'.productions = d.productions)
      (hh : d'.head = d.head) (hf : d'.firstHead = d.firstHead) : d.Later d' := by
    refine ⟨fun h i s => hs ▸ h i s, by simp [hs], fun i _ => ?_, hp, hh, hf⟩
    rw [Draft.kindOf, Draft.kindOf, Draft.mention, Draft.mention, hs]
    exact .same _
  unfold readDirective
  split
  · exact .refl d
  · exact .refl d
  · rename_i first rest _ _
    rcases declareWords_cases d plain first rest with ⟨type, he⟩ | ⟨assoc, he⟩ | ⟨assoc, he⟩
    · rw [he]
      exact hfields rfl rfl rfl rfl
    · rw [he]
      exact .refl d
    · rw [he]
      have hlevel : d.Later { d with level := d.level + 1 } := hfields rfl rfl rfl rfl
      exact hlevel.trans (declareAll_later _ _ rest)

/-- A statement that can be read leaves every head with a production. -/
theorem readStatement_supplied (h : d.Supplied) (t : Token)
    (hok : (readStatement d s t).result = .ok ()) : (readStatement d s t).draft.Supplied := by
  have hlast {d d' : Draft} {s : Source} {head : Nat} (h : d.Supplied)
      (hp : d'.productions = d.productions) (hhead : d'.head = some head)
      (hfirst : d'.firstHead = d.firstHead.or (some head))
      (hheads : ∀ i, d'.IsHead i → d.IsHead i ∨ i = head)
      (hok : (readAlternatives d' s head).result = .ok ()) :
      (readAlternatives d' s head).draft.Supplied := by
    obtain ⟨new, hadds, hnew⟩ := readAlternatives_adds d' s head
    exact h.adds hp hhead hfirst
      (fun i hi => hheads i (Draft.along_heads.bodies.readAlternatives d' s head i hi)) hadds (hnew hok)
  revert hok
  unfold readStatement
  split
  · intro _
    exact h.later (readDirective_later d s false) (Draft.along_heads.readDirective d s false)
  · intro _
    exact h.later (readDirective_later d s true) (Draft.along_heads.readDirective d s true)
  · split
    · rename_i head hhead
      refine hlast h rfl hhead ?_ fun i hi => Or.inl hi
      -- a head to go on with has a production, so that there is a first one
      obtain ⟨p, hp, -⟩ := h.head head hhead
      have hpos : 0 < d.productions.size := Array.size_pos_of_mem hp
      rw [← h.firstHead, Array.getElem?_eq_getElem hpos]
      rfl
    · rintro ⟨⟩
  · unfold readProduction
    have hheads (head i : Nat)
        (h : (d.defineHead (String.ofList t.text) t.line).1 = .ok head)
        (hi : (d.defineHead (String.ofList t.text) t.line).2.IsHead i) := defineHead_heads h hi
    have hl := (d.defineHead_spec (String.ofList t.text) t.line).1
    generalize d.defineHead (String.ofList t.text) t.line = e at hheads hl
    obtain ⟨result, d'⟩ := e
    cases result with
    | error err => rintro ⟨⟩
    | ok head =>
      dsimp only
      split
      · refine hlast h hl.productions rfl ?_ fun i hi => hheads head i rfl (hi.congr rfl)
        exact congrArg (fun x : Option Nat => x.or (some head)) hl.firstHead
      · rintro ⟨⟩
  · rintro ⟨⟩

theorem readStatements_supplied (errors : List GrammarError) (h : d.Supplied)
    (herr : (readStatements d errors s).errors = []) :
    errors = [] ∧ (readStatements d errors s).draft.Supplied := by
  -- errors are never taken back, so that the draft is supplied as long as there is none
  suffices ∀ (errors : List GrammarError), (errors = [] → d.Supplied) →
      (readStatements d errors s).errors = [] →
      errors = [] ∧ (readStatements d errors s).draft.Supplied from this errors (fun _ => h) herr
  clear h herr errors
  intro errors h herr
  fun_induction readStatements d errors s with
  | case1 => exact ⟨herr, h herr⟩
  | case2 _ _ _ _ _ _ ih => exact ih h herr
  | case3 d errors s r _ _ o ih =>
    have hstep : o.addError errors = [] → errors = [] ∧ o.result = .ok () := by
      unfold Outcome.addError
      split
      · rename_i e
        exact fun h => ⟨h, e⟩
      · rintro ⟨⟩
    have := ih (fun he => readStatement_supplied (h (hstep he).1) r.1 (hstep he).2) herr
    exact ⟨(hstep this.1).1, this.2⟩

/-- Statements without an error leave every head with a production. -/
theorem readCode_supplied {code : List CodeNode} (h : (readCode code).errors = []) :
    (readCode code).draft.Supplied :=
  (readStatements_supplied [] Draft.new_supplied h).2

end

end LayoutLR
