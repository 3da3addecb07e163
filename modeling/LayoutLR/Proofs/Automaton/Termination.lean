/-
  Layout-aware LR toolkit — building an automaton comes to an end.

  Processing an incomplete state makes it complete.  That may make others
  incomplete again, but only at `LALR` and only if their lookahead sets grew, so
  the symbols of these sets count as well.  The kernels are distinct, which bounds
  the number of states.

  * `Automaton.level`: what processing a state increases;
  * `Automaton.states_size_le`: the number of states;
  * `Automaton.build_complete`: in the end all states are complete.
-/
import Mathlib.Data.Finset.Powerset
import Mathlib.Data.Fintype.Card
import LayoutLR.Proofs.Automaton.Building

namespace LayoutLR

namespace Automaton

variable {a b : Automaton} {g : Grammar} {strength : Strength} {i : Nat} {s s' : State}
  {m m' : ItemMap Handle}

/-! ## The level of an automaton -/

/-- What counts of a state: whether it is complete and, where kernels grow, the symbols of its
    lookahead sets. -/
def potential (a : Automaton) (s : State) : Nat :=
  s.complete.toNat + if a.strength = .lalr then a.weight s.kernel else 0

/-- What counts of all states. -/
def level (a : Automaton) : Nat :=
  total (a.states.toList.map a.potential)

theorem potential_congr (hb : b.basis = a.basis) (hp : b.pool = a.pool)
    (hk : s'.kernel = s.kernel) (hc : s'.complete = s.complete) :
    b.potential s' = a.potential s := by
  have hsize : b.setSize s.kernel = a.setSize s.kernel := by
    funext k
    simp only [setSize, set, hp]
  have hw : b.weight s.kernel = a.weight s.kernel := by
    rw [weight, weight, hsize]
  simp only [potential, Automaton.strength, hb, hk, hc, hw]

theorem getElem?_potentials (a : Automaton) (i : Nat) :
    (a.states.toList.map a.potential)[i]? = a.states[i]?.map a.potential := by
  rw [List.getElem?_map, Array.getElem?_toList]

theorem total_le_of_getElem? {xs ys : List Nat}
    (h : ∀ (i n : Nat), xs[i]? = some n → ∃ n', ys[i]? = some n' ∧ n ≤ n') :
    total xs ≤ total ys := by
  induction xs generalizing ys with
  | nil => exact Nat.zero_le _
  | cons x xs ih =>
    cases ys with
    | nil =>
      obtain ⟨n', hn', -⟩ := h 0 x rfl
      cases hn'
    | cons y ys =>
      have htail : total xs ≤ total ys := ih fun i n hn => h (i + 1) n (by simpa using hn)
      obtain ⟨n', hn', hle⟩ := h 0 x rfl
      obtain rfl : y = n' := by simpa using hn'
      simp only [total_cons]
      omega

theorem total_lt_of_getElem? {xs ys : List Nat}
    (h : ∀ (i n : Nat), xs[i]? = some n → ∃ n', ys[i]? = some n' ∧ n ≤ n') {i n n' : Nat}
    (hx : xs[i]? = some n) (hy : ys[i]? = some n') (hlt : n < n') : total xs < total ys := by
  -- `xs` with `n + 1` in place of `n` is below `ys` still
  have hset : total (xs.set i (n + 1)) = total xs + 1 := by
    obtain ⟨hi, hn⟩ := List.getElem?_eq_some_iff.1 hx
    have hsplit : xs = xs.take i ++ n :: xs.drop (i + 1) := by
      rw [← hn, List.cons_getElem_drop_succ, List.take_append_drop]
    rw [List.set_eq_take_append_cons_drop, if_pos hi]
    conv_rhs => rw [hsplit]
    simp only [total_append, total_cons]
    omega
  have hle : total (xs.set i (n + 1)) ≤ total ys := by
    refine total_le_of_getElem? fun j x hj => ?_
    rw [List.getElem?_set] at hj
    by_cases hij : i = j
    · subst hij
      rw [if_pos rfl, if_pos (List.getElem?_eq_some_iff.1 hx).1] at hj
      obtain rfl := Option.some.inj hj
      exact ⟨n', hy, hlt⟩
    · rw [if_neg hij] at hj
      exact h j x hj
  omega

theorem Waits.potential_le (hb : b.basis = a.basis) (h : Waits a b s s') :
    a.potential s ≤ b.potential s' := by
  have hst : b.strength = a.strength := by rw [Automaton.strength, hb]
  unfold potential
  rw [hst]
  by_cases hl : a.strength = .lalr
  · simp only [hl, if_true]
    have hw := h.grows.weight_le
    cases hc : s.complete with
    | false =>
      have := Nat.zero_le s'.complete.toNat
      simp only [Bool.toNat_false]
      omega
    | true =>
      cases hc' : s'.complete with
      | false =>
        have := h.pays hc hc'
        simp only [Bool.toNat_true, Bool.toNat_false]
        omega
      | true => omega
  · simp only [hl, if_false]
    rw [h.still hl]

/-- The states from before, marked as complete if they are the processed one, count as much or
    more afterwards. -/
theorem process_potential (h : a.Sound g strength) (hs : a.states[i]? = some s) {j : Nat} {t : State}
    (ht : a.states[j]? = some t) : ∃ t', (a.process i).states[j]? = some t' ∧
      a.potential (if i = j then { t with complete := true } else t) ≤
        (a.process i).potential t' := by
  obtain ⟨hx, -, -⟩ := h.closureOf hs
  have hl := h.linked hs
  have hmarked : (a.marked i s).states[j]? =
      some (if i = j then { t with complete := true } else t) := by
    rw [marked, states_update]
    split
    · show a.states[j]?.map _ = _
      rw [ht, Option.map_some]
    · exact ht
  have hw : a.weight t.kernel ≤ (a.marked i s).weight t.kernel := by
    have hgrows : KernelGrows a (a.marked i s) t.kernel t.kernel := .of_pool (h.covered j t ht) hx
    exact hgrows.weight_le
  have hmark (u : State) (hu : u.kernel = t.kernel) :
      a.potential u ≤ (a.marked i s).potential u := by
    have hst : (a.marked i s).strength = a.strength := rfl
    unfold potential
    rw [hst, hu]
    split <;> omega
  obtain ⟨u, hu, hwaits⟩ := hl.continues.states j _ hmarked
  have hle := hwaits.potential_le hl.continues.basis
  have hget : ∃ t', (a.process i).states[j]? = some t' ∧
      (a.process i).potential t' = (a.linked i s).1.potential u := by
    rw [process_eq hs, states_update, hu]
    split
    · exact ⟨_, rfl, potential_congr (basis_update ..) (pool_update ..) rfl rfl⟩
    · exact ⟨_, rfl, potential_congr (basis_update ..) (pool_update ..) rfl rfl⟩
  obtain ⟨t', ht', hp⟩ := hget
  refine ⟨t', ht', ?_⟩
  rw [hp]
  refine Nat.le_trans (hmark _ ?_) hle
  split <;> rfl

/-- Processing a state raises the level. -/
theorem process_level (h : a.Sound g strength) (hs : a.states[i]? = some s)
    (hi : s.complete = false) : a.level < (a.process i).level := by
  have hcomplete (t : State) : a.potential t ≤ a.potential { t with complete := true } := by
    unfold potential
    cases t.complete <;> simp
  obtain ⟨s', hs', hle⟩ := process_potential h hs hs
  have hlt : a.potential s < (a.process i).potential s' := by
    refine Nat.lt_of_lt_of_le ?_ hle
    rw [if_pos rfl]
    unfold potential
    rw [hi]
    simp
  refine total_lt_of_getElem? (i := i) (fun j n hn => ?_) (by rw [getElem?_potentials, hs]; rfl)
    (by rw [getElem?_potentials, hs']; rfl) hlt
  rw [getElem?_potentials] at hn
  obtain ⟨t, ht, rfl⟩ := Option.map_eq_some_iff.1 hn
  obtain ⟨t', ht', hle⟩ := process_potential h hs ht
  refine ⟨_, by rw [getElem?_potentials, ht']; rfl, Nat.le_trans ?_ hle⟩
  split
  · exact hcomplete t
  · exact Nat.le_refl _

/-! ## The number of states -/

/-- The items of a grammar. -/
def allItems (g : Grammar) : List Item :=
  (List.range g.productions.size).flatMap fun p =>
    (List.range ((g.body p).length + 1)).map (Item.mk p)

theorem Valid.mem_allItems {k : Item} (h : Valid g k) (hpos : 0 < g.productions.size) :
    k ∈ allItems g := by
  have hprod : k.prod < g.productions.size := h.prod.elim id fun e => by omega
  have hdot : k.dot < (g.body k.prod).length + 1 := Nat.lt_succ_of_le h.dot
  exact List.mem_flatMap.2 ⟨k.prod, List.mem_range.2 hprod,
    List.mem_map.2 ⟨k.dot, List.mem_range.2 hdot, rfl⟩⟩

theorem length_flatMap_total {α β : Type} (f : α → List β) (l : List α) :
    (l.flatMap f).length = total (l.map fun x => (f x).length) := by
  induction l with
  | nil => rfl
  | cons x l ih => simp [ih]

theorem length_allItems (g : Grammar) : (allItems g).length = itemCount g := by
  rw [allItems, length_flatMap_total, itemCount]
  congr 1
  refine List.ext_getElem (by simp) fun p hp hp' => ?_
  have hlt : p < g.productions.size := by simpa using hp
  simp [Grammar.body, hlt]

/-- A kernel with its sets, as one list: an item by itself stands for the item, and an item with
    a number for a symbol of its set. -/
def code (a : Automaton) (m : ItemMap Handle) : List (Item × Nat) :=
  m.entries.flatMap fun e => (e.1, 0) :: (a.set e.2).keys.map fun t => (e.1, t + 1)

theorem mem_code {k : Item} {n : Nat} :
    (k, n) ∈ a.code m ↔
      ∃ h, m.find? k = some h ∧ (n = 0 ∨ ∃ t ∈ (a.set h).keys, n = t + 1) := by
  simp only [code, List.mem_flatMap, List.mem_cons, List.mem_map, Prod.mk.injEq,
    SortedMap.find?_eq_some_iff]
  constructor
  · rintro ⟨⟨k', h⟩, he, ⟨rfl, rfl⟩ | ⟨t, ht, rfl, rfl⟩⟩
    · exact ⟨h, he, Or.inl rfl⟩
    · exact ⟨h, he, Or.inr ⟨t, ht, rfl⟩⟩
  · rintro ⟨h, he, rfl | ⟨t, ht, rfl⟩⟩
    · exact ⟨(k, h), he, Or.inl ⟨rfl, rfl⟩⟩
    · exact ⟨(k, h), he, Or.inr ⟨t, ht, rfl, rfl⟩⟩

theorem find?_of_code_sub (hm : a.Covers m) (hm' : a.Covers m')
    (hcode : ∀ x, x ∈ a.code m ↔ x ∈ a.code m') {k : Item} {h : Handle}
    (hk : m.find? k = some h) : m'.find? k = some h := by
  obtain ⟨h', hk', -⟩ := mem_code.1 ((hcode (k, 0)).1 (mem_code.2 ⟨h, hk, Or.inl rfl⟩))
  have hset : a.set h = a.set h' := by
    refine SymSet.ext fun t => ⟨fun ht => ?_, fun ht => ?_⟩
    · have hmem := (hcode (k, t + 1)).1 (mem_code.2 ⟨h, hk, Or.inr ⟨t, ht, rfl⟩⟩)
      obtain ⟨x, hx, hn | ⟨t', ht', hn⟩⟩ := mem_code.1 hmem
      · cases hn
      · obtain rfl := Option.some.inj (hk'.symm.trans hx)
        rwa [Nat.succ.inj hn]
    · have hmem := (hcode (k, t + 1)).2 (mem_code.2 ⟨h', hk', Or.inr ⟨t, ht, rfl⟩⟩)
      obtain ⟨x, hx, hn | ⟨t', ht', hn⟩⟩ := mem_code.1 hmem
      · cases hn
      · obtain rfl := Option.some.inj (hk.symm.trans hx)
        rwa [Nat.succ.inj hn]
  rw [Pool.get_inj (hm.lt k h hk) (hm'.lt k h' hk') hset]
  exact hk'

theorem entries_eq_of_code (hm : a.Covers m) (hm' : a.Covers m')
    (hcode : ∀ x, x ∈ a.code m ↔ x ∈ a.code m') : m.entries = m'.entries :=
  SortedMap.entries_ext fun _ _ =>
    ⟨find?_of_code_sub hm hm' hcode, find?_of_code_sub hm' hm fun x => (hcode x).symm⟩

/-- States that are told apart by the members of a list are no more than the lists. -/
theorem size_le_two_pow {α : Type} [DecidableEq α] (view : State → List α) {all : List α}
    (hall : ∀ (i : Nat) (s : State), a.states[i]? = some s → ∀ x ∈ view s, x ∈ all)
    (hinj : ∀ (i j : Nat) (s s' : State), a.states[i]? = some s → a.states[j]? = some s' →
      (∀ x, x ∈ view s ↔ x ∈ view s') → i = j) :
    a.states.size ≤ 2 ^ all.length := by
  let f (i : Fin a.states.size) : Finset α := (view a.states[i]).toFinset
  have hmaps : Set.MapsTo f (Finset.univ : Finset (Fin a.states.size)) all.toFinset.powerset := by
    intro i _
    rw [Finset.mem_coe, Finset.mem_powerset]
    intro x hx
    exact List.mem_toFinset.2
      (hall i _ (Array.getElem?_eq_getElem i.isLt) x (List.mem_toFinset.1 hx))
  have hf : Set.InjOn f (Finset.univ : Finset (Fin a.states.size)) := by
    intro i _ j _ hij
    refine Fin.ext (hinj i j _ _ (Array.getElem?_eq_getElem i.isLt)
      (Array.getElem?_eq_getElem j.isLt) fun x => ?_)
    have hx := Finset.ext_iff.1 hij x
    simp only [f, List.mem_toFinset] at hx
    exact hx
  calc a.states.size = (Finset.univ : Finset (Fin a.states.size)).card := by simp
    _ ≤ all.toFinset.powerset.card := Finset.card_le_card_of_injOn f hmaps hf
    _ = 2 ^ all.toFinset.card := Finset.card_powerset _
    _ ≤ 2 ^ all.length := Nat.pow_le_pow_right (by decide) (List.toFinset_card_le all)

/-- Without sets to tell them apart, there is at most one state for each set of items. -/
theorem states_size_le (h : a.Shaped g strength) (hst : strength ≠ .lr1) :
    a.states.size ≤ 2 ^ itemCount g := by
  rw [← length_allItems]
  refine size_le_two_pow (fun s => s.kernel.keys) (fun i s hs k hk => ?_)
    fun i j s s' hs hs' hkeys => ?_
  · exact (h.valid i s hs k hk).mem_allItems h.indexed.productions_pos
  · refine h.distinct i j s s' hs hs' ?_
    simp [sameState, hst, SortedMap.keys_ext hkeys]

/-- With them, there is at most one for each way to give sets to some items. -/
theorem states_size_le_lr1 (h : a.Shaped g .lr1) :
    a.states.size ≤ 2 ^ (itemCount g * (g.symbols.size + 1)) := by
  have hg : a.grammar = g := h.grammar_eq
  have hlen : (allItems g ×ˢ List.range (g.symbols.size + 1)).length =
      itemCount g * (g.symbols.size + 1) := by
    rw [List.length_product, length_allItems, List.length_range]
  rw [← hlen]
  refine size_le_two_pow (fun s => a.code s.kernel) ?_ fun i j s s' hs hs' hcode => ?_
  · rintro i s hs ⟨k, n⟩ hk
    obtain ⟨x, hx, hn⟩ := mem_code.1 hk
    refine List.mem_product.2 ⟨?_, List.mem_range.2 ?_⟩
    · exact (h.valid i s hs k (SortedMap.mem_keys_of_find? hx)).mem_allItems h.indexed.productions_pos
    · rcases hn with rfl | ⟨t, ht, rfl⟩
      · exact Nat.succ_pos _
      · have := (h.covered i s hs).within k x hx t ht
        rw [hg] at this
        omega
  · refine h.distinct i j s s' hs hs' ?_
    simp [sameState, entries_eq_of_code (h.covered i s hs) (h.covered j s' hs') hcode]

/-! ## The end -/

theorem weight_le (h : a.Shaped g strength) (hs : a.states[i]? = some s) :
    a.weight s.kernel ≤ itemCount g * g.symbols.size := by
  have hg : a.grammar = g := h.grammar_eq
  have hlen : s.kernel.keys.length ≤ itemCount g := by
    rw [← length_allItems]
    refine (s.kernel.keys_nodup.subperm fun k hk => ?_).length_le
    exact (h.valid i s hs k hk).mem_allItems h.indexed.productions_pos
  refine Nat.le_trans (total_map_le_mul (n := g.symbols.size) fun k hk => ?_)
    (Nat.mul_le_mul_right _ hlen)
  obtain ⟨x, hx⟩ := SortedMap.exists_find?_of_mem_keys hk
  rw [setSize, hx, ← hg]
  exact SymSet.size_le_of_forall_lt ((h.covered i s hs).within k x hx)

/-- The level stays below the steps that are allowed. -/
theorem level_le (h : a.Shaped g strength) : a.level ≤ buildSteps g := by
  have hst : a.strength = strength := h.strength_eq
  have hbound (n : Nat) (hn : ∀ (i : Nat) (s : State), a.states[i]? = some s → a.potential s ≤ n) :
      a.level ≤ a.states.size * n := by
    rw [← Array.length_toList]
    refine total_map_le_mul fun s hs => ?_
    obtain ⟨i, hi⟩ := List.getElem?_of_mem hs
    exact hn i s (by rwa [Array.getElem?_toList] at hi)
  have hone (b : Bool) : b.toNat ≤ 1 := by cases b <;> simp
  unfold buildSteps
  by_cases hl : strength = .lalr
  · have hsize := states_size_le h (by simp [hl])
    have hlevel := hbound (1 + itemCount g * g.symbols.size) fun i s hs => by
      simp only [potential, hst, hl, if_true]
      exact Nat.add_le_add (hone _) (weight_le h hs)
    have hpow : itemCount g * g.symbols.size + 1 ≤ 2 ^ (itemCount g * g.symbols.size) :=
      Nat.lt_two_pow_self
    calc a.level ≤ a.states.size * (1 + itemCount g * g.symbols.size) := hlevel
      _ ≤ 2 ^ itemCount g * 2 ^ (itemCount g * g.symbols.size) :=
        Nat.mul_le_mul hsize (by omega)
      _ = 2 ^ (itemCount g * (g.symbols.size + 1)) := by
        rw [← Nat.pow_add, Nat.mul_succ, Nat.add_comm]
      _ ≤ 2 ^ (itemCount g * (g.symbols.size + 2)) :=
        Nat.pow_le_pow_right (by decide) (Nat.mul_le_mul_left _ (by omega))
  · have hlevel := hbound 1 fun i s hs => by
      simp only [potential, hst, hl, if_false, Nat.add_zero]
      exact hone _
    rw [Nat.mul_one] at hlevel
    refine Nat.le_trans hlevel ?_
    by_cases hlr : strength = .lr1
    · subst hlr
      exact Nat.le_trans (states_size_le_lr1 h)
        (Nat.pow_le_pow_right (by decide) (Nat.mul_le_mul_left _ (by omega)))
    · exact Nat.le_trans (states_size_le h hlr)
        (Nat.pow_le_pow_right (by decide) (Nat.le_mul_of_pos_right _ (by omega)))

theorem process_incomplete (h : a.Sound g strength) (hi : a.incomplete? = some i) :
    (a.process i).Sound g strength ∧ a.level < (a.process i).level := by
  obtain ⟨hlt, hc, -⟩ := Array.findIdx?_eq_some_iff_getElem.1 hi
  have hs := Array.getElem?_eq_getElem hlt
  exact ⟨process_sound h hs, process_level h hs (by simpa using hc)⟩

/-- Once the steps make up for the level, no state is left to be processed. -/
theorem completeAll_complete (n : Nat) (a : Automaton) (h : a.Sound g strength)
    (hn : buildSteps g ≤ a.level + n) :
    (completeAll n a).incomplete? = none := by
  induction n generalizing a with
  | zero =>
    cases hi : a.incomplete? with
    | none => exact hi
    | some i =>
      obtain ⟨hsound, hlevel⟩ := process_incomplete h hi
      have := level_le hsound.toShaped
      omega
  | succ n ih =>
    rw [completeAll]
    cases hi : a.incomplete? with
    | none => exact hi
    | some i =>
      obtain ⟨hsound, hlevel⟩ := process_incomplete h hi
      exact ih _ hsound (by omega)

/-- **In the end every state is complete.** -/
theorem build_complete (hindexed : g.Indexed)
    (hs : (build g strength).states[i]? = some s) : s.complete = true := by
  have hnone := completeAll_complete (buildSteps g) _ (initial_sound hindexed strength) (by omega)
  have := Array.findIdx?_eq_none_iff.1 hnone s (Array.mem_of_getElem? hs)
  simpa using this

end Automaton

end LayoutLR
