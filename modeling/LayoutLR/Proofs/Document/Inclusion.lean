/-
  Layout-aware LR toolkit — what expansion collects.

  Expansion goes from the parts of one section into the sections that they refer
  to.  All of its results can be told by the list of the sections that were
  entered: the code is that of these sections, every visit to a section comes from
  a reference in one that was entered, and where no reference was refused, every
  reference makes a visit.

  * `Outline.mem_expand`: each run of code comes from a section that was entered;
  * `Outline.reached_induction`: what references hand on holds of all entered sections;
  * `Outline.count_reached`: visits are references;
  * `Outline.covered_expand`: the lines covered are those of the entered sections;
  * `Outline.owner_expand`: each run of code belongs to a section that was entered;
  * `Outline.ordered_expand`: where sections are entered once, the code of each is
    collected in order.
-/
import Mathlib.Data.List.Nodup
import LayoutLR.Proofs.Document.Parts

namespace LayoutLR

/-- A part that comes before another one in the document, if both are code. -/
def Part.Before : Part → Part → Prop
  | .code a, .code b => a.line < b.line
  | _, _ => True

namespace Outline

variable {o : Outline} {closed : List String} {indent : Nat} {ps : List Part} {node : CodeNode}
  {name : String}

theorem countP_pos_cons {q : Part → Bool} {p : Part} (h : 0 < ps.countP q) :
    0 < (p :: ps).countP q :=
  Nat.lt_of_lt_of_le h (List.sublist_cons_self p ps).countP_le

/-- Each run of code is one of the parts, or one of those of a section that was entered; only
    its indent has changed. -/
theorem mem_expand (h : node ∈ (o.expand closed indent ps).code) :
    ∃ source : CodeNode, (.code source ∈ ps ∨
      ∃ m ∈ (o.expand closed indent ps).reached, .code source ∈ o.parts m) ∧
      source.text = node.text ∧ source.line = node.line := by
  fun_induction expand o closed indent ps generalizing node with
  | case1 => cases h
  | case2 closed indent source rest ih =>
    rcases List.mem_cons.1 h with rfl | h
    · exact ⟨source, Or.inl List.mem_cons_self, rfl, rfl⟩
    · obtain ⟨origin, horigin, heq⟩ := ih h
      exact ⟨origin, horigin.imp_left (List.mem_cons_of_mem _), heq⟩
  | case3 closed indent name width line rest hin inner ihInner =>
    rename_i ihRest
    rcases List.mem_append.1 h with h | h
    · obtain ⟨origin, horigin, heq⟩ := ihInner h
      refine ⟨origin, Or.inr ?_, heq⟩
      rcases horigin with horigin | ⟨m, hm, horigin⟩
      · exact ⟨name, List.mem_append_left _ List.mem_cons_self, horigin⟩
      · exact ⟨m, List.mem_append_left _ (List.mem_cons_of_mem _ hm), horigin⟩
    · obtain ⟨origin, horigin, heq⟩ := ihRest h
      refine ⟨origin, horigin.imp (List.mem_cons_of_mem _) ?_, heq⟩
      rintro ⟨m, hm, horigin⟩
      exact ⟨m, List.mem_append_right _ hm, horigin⟩
  | case4 closed indent name width line rest hin ih =>
    obtain ⟨origin, horigin, heq⟩ := ih h
    exact ⟨origin, horigin.imp_left (List.mem_cons_of_mem _), heq⟩

/-- What the references of a section hand on to the sections they name holds of every section
    that is entered. -/
theorem reached_induction {P : String → Prop}
    (hstep : ∀ m, P m → ∀ n, 0 < (o.parts m).countP (Part.refersTo n) → P n)
    (hps : ∀ n, 0 < ps.countP (Part.refersTo n) → P n) :
    ∀ n ∈ (o.expand closed indent ps).reached, P n := by
  fun_induction expand o closed indent ps with
  | case1 => nofun
  | case2 closed indent source rest ih =>
    exact ih fun n hn => hps n (countP_pos_cons hn)
  | case3 closed indent name width line rest hin inner ihInner ihRest =>
    have hname : P name := hps name (by simp [Part.refersTo])
    have hrest : ∀ n, 0 < rest.countP (Part.refersTo n) → P n := fun n hn =>
      hps n (countP_pos_cons hn)
    intro n hn
    rcases List.mem_append.1 hn with hn | hn
    · rcases List.mem_cons.1 hn with rfl | hn
      · exact hname
      · exact ihInner (hstep name hname) n hn
    · exact ihRest hrest n hn
  | case4 closed indent name width line rest hin ih =>
    exact ih fun n hn => hps n (countP_pos_cons hn)

/-- Where no reference is refused, a section is entered as often as the entered sections refer
    to it. -/
theorem count_reached (h : (o.expand closed indent ps).cycles = []) (n : String) :
    (o.expand closed indent ps).reached.count n = ps.countP (Part.refersTo n) +
      ((o.expand closed indent ps).reached.flatMap o.parts).countP (Part.refersTo n) := by
  fun_induction expand o closed indent ps with
  | case1 => rfl
  | case2 closed indent source rest ih =>
    rw [List.countP_cons_of_neg (by simp [Part.refersTo])]
    exact ih h
  | case3 closed indent name width line rest hin inner ihInner ihRest =>
    obtain ⟨hinner, hrest⟩ := List.append_eq_nil_iff.1 h
    have h₁ := ihInner hinner
    have h₂ := ihRest hrest
    subst inner
    simp only [Expansion.append, List.cons_append, List.count_cons, List.count_append,
      List.flatMap_cons, List.flatMap_append, List.countP_append, List.countP_cons, Part.refersTo,
      beq_iff_eq]
    omega
  | case4 closed indent name width line rest hin ih => cases h

/-- The lines that the code covers are those of the entered sections. -/
theorem covered_expand (o : Outline) (closed : List String) (indent : Nat) (ps : List Part) :
    ((o.expand closed indent ps).code.flatMap CodeNode.covered).Perm
      (ps.flatMap Part.covered ++ (o.expand closed indent ps).reached.flatMap
        fun m => (o.parts m).flatMap Part.covered) := by
  fun_induction expand o closed indent ps with
  | case1 => exact .refl _
  | case2 closed indent source rest ih =>
    simp only [Expansion.append, List.cons_append, List.nil_append, List.flatMap_cons,
      List.append_assoc]
    exact ih.append_left source.covered
  | case3 closed indent name width line rest hin inner ihInner ihRest =>
    simp only [Expansion.append, List.cons_append, List.flatMap_cons, List.flatMap_append,
      Part.covered, List.nil_append]
    refine (ihInner.append ihRest).trans ?_
    rw [List.append_assoc]
    -- the lines of the later parts come in front of those of the inner sections
    refine .trans ?_ (List.perm_append_comm_assoc _ _ _)
    exact .append_left _ (List.perm_append_comm_assoc _ _ _)
  | case4 closed indent name width line rest hin ih => exact ih

/-- Each run of code belongs to the section that is expanded, or to one that was entered. -/
theorem owner_expand {owner : Nat → Option String}
    (howner : ∀ m source, .code source ∈ o.parts m → owner source.line = some m)
    (hps : ∀ source, .code source ∈ ps → owner source.line = some name)
    (h : node ∈ (o.expand closed indent ps).code) :
    ∃ m ∈ name :: (o.expand closed indent ps).reached, owner node.line = some m := by
  obtain ⟨source, hsource, -, hline⟩ := mem_expand h
  rw [← hline]
  rcases hsource with hsource | ⟨m, hm, hsource⟩
  · exact ⟨name, List.mem_cons_self, hps source hsource⟩
  · exact ⟨m, List.mem_cons_of_mem _ hm, howner m source hsource⟩

/-- Where sections are entered once, what belongs to one section is collected in its order. -/
theorem ordered_expand {owner : Nat → Option String}
    (howner : ∀ m source, .code source ∈ o.parts m → owner source.line = some m)
    (hbefore : ∀ m, (o.parts m).Pairwise Part.Before)
    (hps : ∀ source, .code source ∈ ps → owner source.line = some name)
    (hordered : ps.Pairwise Part.Before)
    (hnodup : (name :: (o.expand closed indent ps).reached).Nodup) :
    (o.expand closed indent ps).code.Pairwise
      fun a b => owner a.line = owner b.line → a.line < b.line := by
  fun_induction expand o closed indent ps generalizing name with
  | case1 => exact .nil
  | case2 closed indent source rest ih =>
    obtain ⟨hfirst, hordered⟩ := List.pairwise_cons.1 hordered
    refine List.pairwise_cons.2 ⟨fun b hb heq => ?_, ih
      (fun source hs => hps source (List.mem_cons_of_mem _ hs)) hordered hnodup⟩
    obtain ⟨origin, horigin, -, hline⟩ := mem_expand hb
    rw [← hline] at heq ⊢
    dsimp only at heq ⊢
    rcases horigin with horigin | ⟨m, hm, horigin⟩
    · exact hfirst _ horigin
    · -- another section has other code
      rw [hps source List.mem_cons_self, howner m origin horigin] at heq
      obtain rfl := Option.some.inj heq
      exact absurd hm (List.nodup_cons.1 hnodup).1
  | case3 closed indent n width line rest hin inner ihInner =>
    rename_i ihRest
    have hordered := (List.pairwise_cons.1 hordered).2
    have hps : ∀ source, .code source ∈ rest → owner source.line = some name := fun source hs =>
      hps source (List.mem_cons_of_mem _ hs)
    obtain ⟨hname, hnodup⟩ := List.nodup_cons.1 hnodup
    obtain ⟨hinner, hrest, hapart⟩ := List.nodup_append.1 hnodup
    refine List.pairwise_append.2 ⟨ihInner (howner n) (hbefore n) hinner, ihRest hps hordered
      (List.nodup_cons.2 ⟨fun h => hname (List.mem_append_right _ h), hrest⟩), ?_⟩
    intro a ha b hb heq
    -- the two come from different sections
    obtain ⟨m, hm, hleft⟩ := owner_expand howner (howner n) ha
    obtain ⟨m', hm', hright⟩ := owner_expand howner hps hb
    rw [hleft, hright] at heq
    obtain rfl := Option.some.inj heq
    rcases List.mem_cons.1 hm' with rfl | hm'
    · exact absurd (List.mem_append_left _ hm) hname
    · exact absurd rfl (hapart m hm m hm')
  | case4 closed indent n width line rest hin ih =>
    exact ih (fun source hs => hps source (List.mem_cons_of_mem _ hs))
      (List.pairwise_cons.1 hordered).2 hnodup

end Outline

/-- The code of a section stands in the document. -/
theorem sections_standIn {text : List Char} {s : Section} (hs : s ∈ (extract text).sections)
    {node : CodeNode} (hnode : node ∈ s.code) : node.StandsIn text := by
  rw [sections_eq] at hs
  obtain ⟨e, he, rfl⟩ := List.mem_map.1 hs
  have htells := outline_tells text
  obtain ⟨source, hsource, hcode, hline⟩ := Outline.mem_expand hnode
  have hstands : source.StandsIn text := by
    rcases hsource with hsource | ⟨m, -, hsource⟩
    · rw [(htells.entry e (List.mem_filter.1 he).1).1] at hsource
      exact (standsIn_partsOf hsource).1
    · rw [htells.parts_eq] at hsource
      exact (standsIn_partsOf hsource).1
  obtain ⟨run, hrun, htext, hfirst⟩ := hstands
  exact ⟨run, hrun, hcode ▸ htext, hline ▸ hfirst⟩

end LayoutLR
