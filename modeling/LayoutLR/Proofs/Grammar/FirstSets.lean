/-
  Layout-aware LR toolkit — what a sequence begins with is exact.

  The terminals that can begin a sequence are read off those of its symbols, up to
  the first that does not derive the empty text.  Each has a derivation, since those
  of the symbols have one.  And a derivation of a sequence that starts with a
  terminal can be followed back: in each sequence on the way, the terminal is found
  behind symbols that derive the empty text.

  * `Grammar.Starts.derives`: what there is a reason for is derived;
  * `Grammar.mem_firstOfSeq_iff_derives`: the terminals that begin a sequence;
  * `Grammar.firstOfSeq_empty_iff_derives`: the sequences that derive the empty text.
-/
import LayoutLR.Proofs.Grammar.Flags

namespace LayoutLR

namespace Grammar

variable {g : Grammar} {seq rest before after : List Nat} {s t : Nat}

/-! ## Beginnings are derived -/

/-- A sequence begins like one of its symbols where those in front derive the empty text. -/
theorem Derives.start (hbefore : ∀ x ∈ before, g.Derives [x] [])
    (h : g.Derives [s] (t :: rest)) : g.Derives (before ++ s :: after) (t :: (rest ++ after)) := by
  have hfront : g.Derives (before ++ s :: after) ([] ++ s :: after) :=
    (Derives.nil_of_forall hbefore).append .refl
  have hback : g.Derives ([s] ++ after) (t :: rest ++ after) := h.append .refl
  exact Relation.ReflTransGen.trans hfront hback

/-- What there is a reason for is derived. -/
theorem Starts.derives (hg : g.WellFormed) (h : g.Starts s t) :
    ∃ rest, g.Derives [s] (t :: rest) := by
  induction h with
  | self _ => exact ⟨[], .refl⟩
  | @head p s t before after hp hbody hbefore _ ih =>
    obtain ⟨rest, hrest⟩ := ih
    refine ⟨rest ++ after, .of_body hp ?_⟩
    rw [hbody]
    exact .start (fun x hx => derives_of_isNullable hg (hbefore x hx)) hrest

theorem Starts.isTerminal (h : g.Starts s t) : g.isTerminal t = true := by
  induction h with
  | self ht => exact ht
  | head _ _ _ _ ih => exact ih

theorem exists_starts (hg : g.WellFormed) (h : t ∈ (g.firstOfSeq g.firstSets seq).1.keys) :
    ∃ before s after, seq = before ++ s :: after ∧ (∀ x ∈ before, g.isNullable x = true) ∧
      g.Starts s t := by
  obtain ⟨before, s, after, hseq, hbefore, hs⟩ := exists_start h
  exact ⟨before, s, after, hseq, hbefore, starts_of_mem_firstSets hg hs⟩

theorem derives_of_mem_firstOfSeq (hg : g.WellFormed)
    (h : t ∈ (g.firstOfSeq g.firstSets seq).1.keys) : ∃ rest, g.Derives seq (t :: rest) := by
  obtain ⟨before, s, after, rfl, hbefore, hs⟩ := exists_starts hg h
  obtain ⟨rest, hrest⟩ := hs.derives hg
  exact ⟨rest ++ after, .start (fun x hx => derives_of_isNullable hg (hbefore x hx)) hrest⟩

/-! ## What is derived is found -/

/-- A sequence with a head in it begins with all that it begins with if the body stands there
    instead. -/
theorem mem_firstOfSeq_head (hg : g.WellFormed) {p : Nat} (hp : p < g.productions.size)
    (h : t ∈ (g.firstOfSeq g.firstSets (before ++ g.body p ++ after)).1.keys) :
    t ∈ (g.firstOfSeq g.firstSets (before ++ g.head p :: after)).1.keys := by
  rw [List.append_assoc, mem_firstOfSeq_append, mem_firstOfSeq_append] at h
  rw [mem_firstOfSeq_append, mem_firstOfSeq_cons]
  rcases h with h | ⟨hbefore, h | ⟨hbody, h⟩⟩
  · exact Or.inl h
  · exact Or.inr ⟨hbefore, Or.inl (mem_firstSets_head hg hp h)⟩
  · exact Or.inr ⟨hbefore, Or.inr ⟨isNullable_head hg hp hbody, h⟩⟩

theorem mem_firstOfSeq_of_derives (hg : g.WellFormed) (ht : g.isTerminal t = true)
    (h : g.Derives seq (t :: rest)) : t ∈ (g.firstOfSeq g.firstSets seq).1.keys := by
  refine h.backward (P := fun u => t ∈ (g.firstOfSeq g.firstSets u).1.keys)
    (fun p hp before after => mem_firstOfSeq_head hg hp) ?_
  exact mem_firstOfSeq_cons.2 (Or.inl (mem_firstSets_terminal hg.indexed ht))

/-- **The terminals that begin a sequence** are those that begin something that it derives. -/
theorem mem_firstOfSeq_iff_derives (hg : g.WellFormed) :
    t ∈ (g.firstOfSeq g.firstSets seq).1.keys ↔
      g.isTerminal t = true ∧ ∃ rest, g.Derives seq (t :: rest) := by
  refine ⟨fun h => ⟨?_, derives_of_mem_firstOfSeq hg h⟩, fun ⟨ht, rest, h⟩ =>
    mem_firstOfSeq_of_derives hg ht h⟩
  obtain ⟨_, _, _, -, -, hs⟩ := exists_starts hg h
  exact hs.isTerminal

/-- **The sequences that derive the empty text** are found as such. -/
theorem firstOfSeq_empty_iff_derives (hg : g.WellFormed) {first : SymSets} :
    (g.firstOfSeq first seq).2 = true ↔ g.Derives seq [] := by
  rw [firstOfSeq_empty_iff]
  exact ⟨fun h => .nil_of_forall fun s hs => derives_of_isNullable hg (h s hs),
    isNullable_of_derives hg⟩

/-- The set of a symbol is that of the sequence of this symbol alone. -/
theorem mem_firstOfSeq_singleton {first : SymSets} :
    t ∈ (g.firstOfSeq first [s]).1.keys ↔ t ∈ (first.of s).keys := by
  rw [mem_firstOfSeq_cons]
  simp [firstOfSeq]

/-! ## Grammars that were read -/

/-- **Beginnings are exact:** the set of a sequence has the terminals that begin something that
    the sequence derives, it is told rightly whether the sequence derives the empty text, and
    the set of a symbol has the terminals that begin something that the symbol derives. -/
theorem read_first_exact {code : List CodeNode} (h : Grammar.read code = .ok g) :
    (∀ seq t, t ∈ (g.firstOfSeq g.firstSets seq).1.keys ↔
      g.isTerminal t = true ∧ ∃ rest, g.Derives seq (t :: rest)) ∧
    (∀ seq, (g.firstOfSeq g.firstSets seq).2 = true ↔ g.Derives seq []) ∧
    ∀ s t, t ∈ (g.firstSets.of s).keys ↔
      g.isTerminal t = true ∧ ∃ rest, g.Derives [s] (t :: rest) := by
  have hg := read_wellFormed h
  refine ⟨fun seq t => mem_firstOfSeq_iff_derives hg,
    fun seq => firstOfSeq_empty_iff_derives hg, fun s t => ?_⟩
  rw [← mem_firstOfSeq_singleton, mem_firstOfSeq_iff_derives hg]

/-- A sum without a first part, where the head comes first once something empty is left out. -/
def hiddenRecursion : String :=
  "S -> A S '+' NUMBER | NUMBER\nA -> B B\nB -> STRING |\n"

theorem read_first_exact_hiddenRecursion : ∃ g, Grammar.readText hiddenRecursion = .ok g ∧
    (g.lookup "S").map (fun s => (g.firstSets.of s).keys.map g.name) =
      some ["NUMBER", "STRING"] ∧
    (∀ seq t, t ∈ (g.firstOfSeq g.firstSets seq).1.keys ↔
      g.isTerminal t = true ∧ ∃ rest, g.Derives seq (t :: rest)) ∧
    (∀ seq, (g.firstOfSeq g.firstSets seq).2 = true ↔ g.Derives seq []) ∧
    ∀ s t, t ∈ (g.firstSets.of s).keys ↔
      g.isTerminal t = true ∧ ∃ rest, g.Derives [s] (t :: rest) := by
  obtain ⟨g, hg, htest⟩ := exists_readText hiddenRecursion (fun g =>
    (g.lookup "S").map (fun s => (g.firstSets.of s).keys.map g.name) == some ["NUMBER", "STRING"])
    (by decide +kernel)
  exact ⟨g, hg, beq_iff_eq.1 htest, read_first_exact hg⟩

end Grammar

end LayoutLR
