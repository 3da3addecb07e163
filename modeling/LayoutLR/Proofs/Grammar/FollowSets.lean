/-
  Layout-aware LR toolkit — what follows a symbol is exact.

  A terminal is found to follow a symbol for one of two reasons: it begins what stands
  behind the symbol in a body, or it follows the head of a body that ends with the symbol,
  up to symbols that derive the empty text.  Either way some head derives a sequence in
  which the two stand next to each other.  Conversely, replacing a head by a body keeps
  what has been found right: in every sequence on the way, each symbol is followed by all
  that the rest of the sequence can begin with.

  * `Grammar.Follows`: the reasons, and `Grammar.Follows.derives` what they lead to;
  * `Grammar.follows_of_mem_followSets`: there is a reason for each member;
  * `Grammar.Followed`, `Grammar.Followed.derives`: what replacing heads preserves;
  * `Grammar.read_follow_exact`: the terminals that follow a symbol.
-/
import LayoutLR.Proofs.Grammar.FirstSets

namespace LayoutLR

namespace Grammar

variable {g : Grammar} {before after rest u v : List Nat} {p s t x : Nat}

/-! ## Neighbours are derived -/

/-- Symbols that are followed by a terminal: inside a body, or at the end of one whose head is. -/
inductive Follows (g : Grammar) : Nat → Nat → Prop
  | inside {p s t : Nat} {before rest : List Nat} (hp : p < g.productions.size)
      (hbody : g.body p = before ++ s :: rest)
      (hrest : t ∈ (g.firstOfSeq g.firstSets rest).1.keys) : Follows g s t
  | atEnd {p s t : Nat} {before rest : List Nat} (hp : p < g.productions.size)
      (hbody : g.body p = before ++ s :: rest)
      (hrest : ∀ x ∈ rest, g.isNullable x = true) (hhead : Follows g (g.head p) t) : Follows g s t

/-- Where a head is followed by a terminal, some nonterminal derives the two next to each
    other. -/
theorem Follows.derives (hg : g.WellFormed) (h : g.Follows s t) :
    ∃ x, g.isNonterminal x = true ∧ ∃ before after, g.Derives [x] (before ++ s :: t :: after) := by
  induction h with
  | @inside p s t before rest hp hbody hrest =>
    obtain ⟨after, hafter⟩ := derives_of_mem_firstOfSeq hg hrest
    refine ⟨g.head p, hg.head p hp, before, after, .of_body hp ?_⟩
    rw [hbody]
    have htail : g.Derives ([s] ++ rest) ([s] ++ t :: after) := Derives.append .refl hafter
    exact Derives.append .refl htail
  | @atEnd p s t before rest hp hbody hrest _ ih =>
    obtain ⟨x, hx, front, after, hderives⟩ := ih
    refine ⟨x, hx, front ++ before, after, Relation.ReflTransGen.trans hderives ?_⟩
    -- the head is replaced by its body, and what stands behind the symbol vanishes
    have hhead : g.Derives [g.head p] (before ++ [s]) := by
      refine .of_body hp ?_
      rw [hbody]
      have hnil : g.Derives rest [] :=
        .nil_of_forall fun y hy => derives_of_isNullable hg (hrest y hy)
      have htail : g.Derives ([s] ++ rest) ([s] ++ []) := Derives.append .refl hnil
      exact Derives.append .refl htail
    have hback : g.Derives ([g.head p] ++ t :: after) (before ++ [s] ++ t :: after) :=
      hhead.append .refl
    have hall : g.Derives (front ++ ([g.head p] ++ t :: after))
        (front ++ (before ++ [s] ++ t :: after)) := Derives.append .refl hback
    rw [show front ++ before ++ s :: t :: after = front ++ (before ++ [s] ++ t :: after) by simp]
    exact hall

/-- There is a reason for every member. -/
def Explains (g : Grammar) (follow : SymSets) : Prop :=
  ∀ s, ∀ t ∈ (follow.of s).keys, g.Follows s t

theorem Explains.grow {follow : SymSets} (h : g.Explains follow) {more : SymSet}
    (hmore : ∀ t ∈ more.keys, g.Follows s t) : g.Explains (follow.grow s more) := by
  intro s' t ht
  rw [SymSets.of_grow] at ht
  split at ht
  · rename_i hs
    obtain ⟨rfl, -⟩ := hs
    rcases (SortedMap.mem_keys_union _ _ _).1 ht with ht | ht
    · exact h _ t ht
    · exact hmore t ht
  · exact h s' t ht

/-- Going through a body adds what begins the rest. -/
theorem Explains.followInside (hp : p < g.productions.size) (hbody : g.body p = before ++ rest)
    {follow : SymSets} (h : g.Explains follow) :
    g.Explains (g.followInside g.firstSets rest follow) := by
  induction rest generalizing before follow with
  | nil => exact h
  | cons s rest ih =>
    have htail : g.body p = (before ++ [s]) ++ rest := by simp [hbody]
    exact ih htail (h.grow fun t ht => .inside hp hbody ht)

/-- Going through a body from its end adds what follows the head. -/
theorem Explains.followEnd (hp : p < g.productions.size) {symbols : List Nat}
    (hbody : g.body p = symbols.reverse ++ rest) (hrest : ∀ x ∈ rest, g.isNullable x = true)
    {follow : SymSets} (h : g.Explains follow) :
    g.Explains (g.followEnd (g.head p) symbols follow) := by
  induction symbols generalizing rest follow with
  | nil => exact h
  | cons s symbols ih =>
    have hsplit : g.body p = symbols.reverse ++ s :: rest := by simp [hbody]
    have hgrow : g.Explains (follow.growFrom s (g.head p)) := by
      unfold SymSets.growFrom
      split
      · exact h
      · exact h.grow fun t ht => .atEnd hp hsplit hrest (h _ t ht)
    rw [Grammar.followEnd]
    split
    · rename_i hs
      exact ih hsplit (List.forall_mem_cons.2 ⟨hs, hrest⟩) hgrow
    · exact hgrow

theorem explains_followsInside (g : Grammar) : g.Explains (g.followsInside g.firstSets) := by
  have hempty : g.Explains (Array.replicate g.symbols.size ∅) :=
    fun s t ht => absurd ht not_mem_empty
  rw [followsInside_eq]
  refine List.foldlRecOn _ _ hempty fun follow h q hq => ?_
  obtain ⟨p, hp, -, hbody⟩ := exists_number (Array.mem_toList_iff.1 hq)
  have hsplit : g.body p = [] ++ q.body := hbody
  exact h.followInside hp hsplit

theorem Explains.followRound {follow : SymSets} (h : g.Explains follow) :
    g.Explains (g.followRound follow) := by
  rw [followRound_eq]
  refine List.foldlRecOn _ _ h fun follow h q hq => ?_
  obtain ⟨p, hp, hhead, hbody⟩ := exists_number (Array.mem_toList_iff.1 hq)
  have hsplit : g.body p = q.body.reverse.reverse ++ [] := by simp [hbody]
  rw [← hhead]
  exact h.followEnd hp hsplit (List.forall_mem_nil _)

/-- **There is a reason why a terminal follows a symbol.** -/
theorem follows_of_mem_followSets (ht : t ∈ ((g.followSets g.firstSets).of s).keys) :
    g.Follows s t :=
  settle_induction (P := g.Explains) (fun _ h => h.followRound) _ _ (explains_followsInside g) s t ht

/-! ## What is derived is found -/

/-- What stands behind a symbol of a body follows the symbol, and so does what follows the head
    if nothing else is left behind the symbol. -/
theorem mem_followSets_body (hg : g.WellFormed) (hp : p < g.productions.size)
    (hbody : g.body p = before ++ s :: rest)
    (ht : t ∈ (g.firstOfSeq g.firstSets rest).1.keys ∨ (∀ x ∈ rest, g.isNullable x = true) ∧
      t ∈ ((g.followSets g.firstSets).of (g.head p)).keys) :
    t ∈ ((g.followSets g.firstSets).of s).keys := by
  obtain ⟨q, hq, hhead, hbodyq⟩ := exists_production hp
  have hs : s < g.symbols.size :=
    (hg.body p s (by simp [hbody])).elim isTerminal_lt isNonterminal_lt
  have hfirst := firstSets_within hg.indexed
  rcases ht with ht | ⟨hrest, ht⟩
  · exact followSets_inside hfirst hq (hbodyq.trans hbody) hs t ht
  · exact followSets_end hfirst hq (hbodyq.trans hbody) hs hrest t (hhead ▸ ht)

/-- Each symbol of a sequence is followed by all that the rest can begin with. -/
def Followed (g : Grammar) : List Nat → Prop
  | [] => True
  | s :: rest => (∀ t ∈ (g.firstOfSeq g.firstSets rest).1.keys,
      t ∈ ((g.followSets g.firstSets).of s).keys) ∧ g.Followed rest

theorem Followed.tail (h : g.Followed (before ++ rest)) : g.Followed rest := by
  induction before with
  | nil => exact h
  | cons s before ih => exact ih h.2

/-- A body may stand where its head does, and so may each end of it. -/
theorem Followed.body (hg : g.WellFormed) (hp : p < g.productions.size)
    (hbody : g.body p = before ++ rest) (h : g.Followed (g.head p :: after)) :
    g.Followed (rest ++ after) := by
  induction rest generalizing before with
  | nil => exact h.2
  | cons s rest ih =>
    have htail : g.body p = (before ++ [s]) ++ rest := by simp [hbody]
    refine ⟨fun t ht => mem_followSets_body hg hp hbody ?_, ih htail⟩
    exact (mem_firstOfSeq_append.1 ht).imp id fun ⟨hrest, ht⟩ => ⟨hrest, h.1 t ht⟩

/-- Replacing a head by a body keeps what follows each symbol right. -/
theorem Followed.replace (hg : g.WellFormed) (hp : p < g.productions.size)
    (h : g.Followed (before ++ g.head p :: after)) : g.Followed (before ++ g.body p ++ after) := by
  induction before with
  | nil => exact h.body hg hp (show g.body p = [] ++ g.body p from rfl)
  | cons s before ih =>
    exact ⟨fun t ht => h.1 t (mem_firstOfSeq_head hg hp ht), ih h.2⟩

/-- All that a symbol derives has each symbol followed by what the rest can begin with. -/
theorem Followed.derives (hg : g.WellFormed) (h : g.Derives [x] u) : g.Followed u := by
  induction h with
  | refl => exact ⟨by simp [firstOfSeq], trivial⟩
  | tail _ hstep ih =>
    obtain ⟨hp, before, after⟩ := hstep
    exact ih.replace hg hp

/-- **The terminals that follow a symbol** are those that come right behind it in a sequence that
    some nonterminal derives. -/
theorem mem_followSets_iff_derives (hg : g.WellFormed) :
    t ∈ ((g.followSets g.firstSets).of s).keys ↔ g.isTerminal t = true ∧
      ∃ x, g.isNonterminal x = true ∧
        ∃ before after, g.Derives [x] (before ++ s :: t :: after) := by
  refine ⟨fun h => ⟨followSets_only (firstSets_terminal hg.indexed) s t h,
    (follows_of_mem_followSets h).derives hg⟩, ?_⟩
  rintro ⟨ht, x, -, before, after, hderives⟩
  have htail : g.Followed (s :: t :: after) := (Followed.derives hg hderives).tail
  exact htail.1 t (mem_firstOfSeq_cons.2 (Or.inl (mem_firstSets_terminal hg.indexed ht)))

/-! ## Grammars that were read -/

/-- **Neighbours are exact:** the set of a symbol has the terminals that some nonterminal of the
    grammar derives right behind the symbol. -/
theorem read_follow_exact {code : List CodeNode} (h : Grammar.read code = .ok g) (s t : Nat) :
    t ∈ ((g.followSets g.firstSets).of s).keys ↔ g.isTerminal t = true ∧
      ∃ x, g.isNonterminal x = true ∧ ∃ before after, g.Derives [x] (before ++ s :: t :: after) :=
  mem_followSets_iff_derives (read_wellFormed h)

/-- Parts that may be missing, so that what follows the first part comes from further behind. -/
def missingParts : String :=
  "S -> A B NUMBER\nA -> IDENTIFIER C |\nB -> STRING A |\nC -> MARK | A\n"

theorem read_follow_exact_missingParts : ∃ g, Grammar.readText missingParts = .ok g ∧
    (g.lookup "C").map (fun s => ((g.followSets g.firstSets).of s).keys.map g.name) =
      some ["NUMBER", "STRING"] ∧
    ∀ s t, t ∈ ((g.followSets g.firstSets).of s).keys ↔ g.isTerminal t = true ∧
      ∃ x, g.isNonterminal x = true ∧
        ∃ before after, g.Derives [x] (before ++ s :: t :: after) := by
  obtain ⟨g, hg, htest⟩ := exists_readText missingParts (fun g =>
    (g.lookup "C").map (fun s => ((g.followSets g.firstSets).of s).keys.map g.name) ==
      some ["NUMBER", "STRING"]) (by decide +kernel)
  exact ⟨g, hg, beq_iff_eq.1 htest, read_follow_exact hg⟩

end Grammar

end LayoutLR
