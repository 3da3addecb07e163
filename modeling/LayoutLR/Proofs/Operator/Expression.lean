/-
  Layout-aware LR toolkit — expressions with binary operators.

  Operators have a precedence: a level, and a side that operators of this level
  group to.  Among all trees over the same tokens there is exactly one in which
  operators of a higher level stand below those of a lower one, and those of the
  same level on the side of their level.

  * `Expression`, `Expression.tokens`: trees over numbers and operators;
  * `Expression.Grouped`: what precedence asks of a tree;
  * `Expression.extend`: one more operator and number at the right end;
  * `Expression.Grouped.operators_below`: all operators of an operand bind as its root does;
  * `Expression.exists_grouped`, `Expression.Grouped.unique`: there is one such tree over given
    tokens.
-/
import Mathlib.Data.List.Induction
import LayoutLR.Parser.Tree

namespace LayoutLR

/-- A tree of operators over numbers. -/
inductive Expression where
  | number (token : Token)
  | binary (operator : Token) (left right : Expression)

/-- Precedences by token; operators of the same level group to the same side. -/
structure Precedences where
  of : Token → Precedence
  same : ∀ t u, (of t).level = (of u).level → (of t).assoc = (of u).assoc
  sided : ∀ t, (of t).assoc = .left ∨ (of t).assoc = .right

namespace Expression

variable {p : Precedences} {e e' l r : Expression} {t u : Token}

/-- The tokens of an expression from left to right. -/
def tokens : Expression → List Token
  | number t => [t]
  | binary o l r => l.tokens ++ o :: r.tokens

/-- The operator at the root. -/
def operator? : Expression → Option Token
  | number _ => none
  | binary o _ _ => some o

/-- The operators from left to right. -/
def operators : Expression → List Token
  | number _ => []
  | binary o l r => l.operators ++ o :: r.operators

/-- Whether an operator may stand below another one, on the given side. -/
def Below (p : Precedences) (side : Assoc) (o below : Token) : Prop :=
  (p.of o).level < (p.of below).level ∨
    (p.of below).level = (p.of o).level ∧ (p.of o).assoc = side

/-- Below each operator the operators have a higher level, or the same level if they stand on
    the side to which the level groups. -/
inductive Grouped (p : Precedences) : Expression → Prop
  | number (t : Token) : Grouped p (number t)
  | binary {o : Token} {l r : Expression} (hl : Grouped p l) (hr : Grouped p r)
      (left : ∀ below, l.operator? = some below → Below p .left o below)
      (right : ∀ below, r.operator? = some below → Below p .right o below) :
      Grouped p (binary o l r)

/-! ## Precedence -/

/-- What stands two levels below stands below. -/
theorem Below.trans {side side' : Assoc} {o below : Token} (h : Below p side t o)
    (h' : Below p side' o below) : Below p side t below := by
  rcases h with h | ⟨h, hside⟩
  · rcases h' with h' | ⟨h', -⟩
    · exact Or.inl (Nat.lt_trans h h')
    · exact Or.inl (h'.symm ▸ h)
  · rcases h' with h' | ⟨h', -⟩
    · exact Or.inl (h ▸ h')
    · exact Or.inr ⟨h'.trans h, hside⟩

/-- The operators of an operand bind as its root does. -/
theorem Grouped.operators_below {side : Assoc} (h : e.Grouped p)
    (hroot : ∀ o, e.operator? = some o → Below p side t o) :
    ∀ o ∈ e.operators, Below p side t o := by
  induction h with
  | number => simp [operators]
  | @binary o l r hl hr left right ihl ihr =>
    have ho := hroot o rfl
    simp only [operators, List.mem_append, List.mem_cons]
    rintro o' (ho' | rfl | ho')
    · exact ihl (fun below hbelow => ho.trans (left below hbelow)) o' ho'
    · exact ho
    · exact ihr (fun below hbelow => ho.trans (right below hbelow)) o' ho'

theorem allowsShiftOver_iff : (p.of t).allowsShiftOver (p.of u) = true ↔ Below p .right u t := by
  simp only [Precedence.allowsShiftOver, Below, Bool.or_eq_true, decide_eq_true_eq,
    Bool.and_eq_true, beq_iff_eq]
  exact or_congr_right (and_congr_right fun h => by rw [p.same t u h])

/-- Of two operators, one may stand below the other. -/
theorem not_below_iff : ¬ Below p .right u t ↔ Below p .left t u := by
  rcases Nat.lt_trichotomy (p.of u).level (p.of t).level with h | h | h
  · simp [Below, h, Nat.not_lt_of_lt h, Nat.ne_of_lt h]
  · rcases p.sided t with hside | hside
    · simp [Below, h, p.same u t h, hside]
    · simp [Below, h, p.same u t h, hside]
  · simp [Below, h, Nat.not_lt_of_lt h, Nat.ne_of_lt h]

/-! ## Every sequence has a grouped tree -/

instance (side : Assoc) (o below : Token) : Decidable (Below p side o below) :=
  inferInstanceAs (Decidable (_ ∨ _))

/-- One more operator and number: the operator takes all that stands below it to its left. -/
def extend (p : Precedences) (o n : Token) : Expression → Expression
  | number t => binary o (number t) (number n)
  | binary o' l r =>
    if Below p .right o' o then binary o' l (r.extend p o n)
    else binary o (binary o' l r) (number n)

theorem tokens_extend (o n : Token) : (e.extend p o n).tokens = e.tokens ++ [o, n] := by
  induction e with
  | number => rfl
  | binary o' l r ihl ihr =>
    unfold extend
    split
    · simp [tokens, ihr]
    · simp [tokens]

/-- The new root is the old one or the new operator. -/
theorem operator?_extend {o n root : Token} (h : (e.extend p o n).operator? = some root) :
    e.operator? = some root ∨ root = o := by
  cases e with
  | number =>
    cases h
    exact Or.inr rfl
  | binary o' l r =>
    unfold extend at h
    split at h
    · exact Or.inl h
    · cases h
      exact Or.inr rfl

theorem Grouped.extend (h : e.Grouped p) (o n : Token) : (e.extend p o n).Grouped p := by
  induction h with
  | number t => exact .binary (.number t) (.number n) (by simp [operator?]) (by simp [operator?])
  | @binary o' l r hl hr left right ihl ihr =>
    unfold Expression.extend
    split
    · rename_i hbelow
      refine .binary hl ihr left fun below hroot => ?_
      rcases operator?_extend hroot with hroot | rfl
      · exact right below hroot
      · exact hbelow
    · rename_i hbelow
      refine .binary (.binary hl hr left right) (.number n) ?_ (by simp [operator?])
      rintro below ⟨⟩
      exact not_below_iff.1 hbelow

/-- A number, and numbers with operators in front of them. -/
def sequence (first : Token) (rest : List (Token × Token)) : List Token :=
  first :: rest.flatMap fun x => [x.1, x.2]

/-- Numbers with operators between them have a grouped tree. -/
theorem exists_grouped (p : Precedences) (first : Token) (rest : List (Token × Token)) :
    ∃ e : Expression, e.tokens = sequence first rest ∧ e.Grouped p := by
  induction rest using List.reverseRecOn with
  | nil => exact ⟨.number first, rfl, .number first⟩
  | append_singleton rest x ih =>
    obtain ⟨e, htokens, hgrouped⟩ := ih
    refine ⟨e.extend p x.1 x.2, ?_, hgrouped.extend x.1 x.2⟩
    simp [tokens_extend, htokens, sequence]

/-! ## Numbers and operators -/

/-- Numbers stand at the leaves, operators above them. -/
inductive Fits (isOperator : Token → Prop) : Expression → Prop
  | number {t : Token} (h : t.kind = .number) : Fits isOperator (number t)
  | binary {o : Token} {l r : Expression} (ho : isOperator o) (hl : Fits isOperator l)
      (hr : Fits isOperator r) : Fits isOperator (binary o l r)

variable {isOperator : Token → Prop}

/-- The first number, and each later one with the operator in front of it. -/
def parts : Expression → Token × List (Token × Token)
  | number t => (t, [])
  | binary o l r => (l.parts.1, l.parts.2 ++ (o, r.parts.1) :: r.parts.2)

theorem tokens_eq (e : Expression) : e.tokens = sequence e.parts.1 e.parts.2 := by
  induction e with
  | number => rfl
  | binary o l r ihl ihr => simp [tokens, parts, ihl, ihr, sequence]

theorem sequence_inj {first first' : Token} {rest rest' : List (Token × Token)}
    (h : sequence first rest = sequence first' rest') : first = first' ∧ rest = rest' := by
  simp only [sequence, List.cons.injEq] at h
  refine ⟨h.1, ?_⟩
  replace h := h.2
  induction rest generalizing rest' with
  | nil =>
    cases rest' with
    | nil => rfl
    | cons => simp at h
  | cons x rest ih =>
    cases rest' with
    | nil => simp at h
    | cons x' rest' =>
      simp only [List.flatMap_cons, List.cons_append, List.nil_append, List.cons.injEq] at h
      rw [ih h.2.2, Prod.ext h.1 h.2.1]

theorem fits_of_parts (hfirst : e.parts.1.kind = .number)
    (hrest : ∀ x ∈ e.parts.2, isOperator x.1 ∧ x.2.kind = .number) : e.Fits isOperator := by
  induction e with
  | number => exact .number hfirst
  | binary o l r ihl ihr =>
    simp only [parts, List.mem_append, List.mem_cons] at hrest
    obtain ⟨ho, hn⟩ := hrest (o, r.parts.1) (Or.inr (Or.inl rfl))
    exact .binary ho (ihl hfirst fun x hx => hrest x (Or.inl hx))
      (ihr hn fun x hx => hrest x (Or.inr (Or.inr hx)))

/-- The tokens tell what the leaves are. -/
theorem fits_of_tokens {first : Token} {rest : List (Token × Token)}
    (h : e.tokens = sequence first rest) (hfirst : first.kind = .number)
    (hrest : ∀ x ∈ rest, isOperator x.1 ∧ x.2.kind = .number) : e.Fits isOperator := by
  obtain ⟨rfl, rfl⟩ := sequence_inj (e.tokens_eq.symm.trans h)
  exact fits_of_parts hfirst hrest

/-! ## There is one grouped tree -/

theorem Fits.mem_operators (h : e.Fits isOperator) (ht : t ∈ e.tokens) (hk : t.kind ≠ .number) :
    t ∈ e.operators := by
  induction h with
  | number h =>
    obtain rfl := List.mem_singleton.1 ht
    exact absurd h hk
  | binary _ _ _ ihl ihr =>
    simp only [tokens, operators, List.mem_append, List.mem_cons] at ht ⊢
    exact ht.imp ihl (Or.imp_right ihr)

theorem Fits.operator (h : e.Fits isOperator) (ht : t ∈ e.operators) : isOperator t := by
  induction h with
  | number => cases ht
  | binary ho _ _ ihl ihr =>
    rcases List.mem_append.1 ht with ht | ht
    · exact ihl ht
    rcases List.mem_cons.1 ht with rfl | ht
    · exact ho
    · exact ihr ht

/-- An operator cannot stand below a second one to its right, and this below the first to its
    left. -/
theorem Below.asymm (h : Below p .left t u) : ¬ Below p .right u t :=
  not_below_iff.2 h

/-- Grouped trees over the same tokens divide them at the same operator: no root lies in the
    left operand of the other. -/
theorem Grouped.root_not_mem {o o' : Token} {l l' r r' : Expression}
    (h : (Expression.binary o l r).Grouped p) (h' : (Expression.binary o' l' r').Grouped p)
    (hl : l.Fits isOperator) (hr' : r'.Fits isOperator) (hk : o.kind ≠ .number)
    (hk' : o'.kind ≠ .number) {middle : List Token} (hleft : l.tokens = l'.tokens ++ o' :: middle)
    (hright : r'.tokens = middle ++ o :: r.tokens) : False := by
  cases h with
  | binary hgl _ left _ =>
    cases h' with
    | binary _ hgr' _ right' =>
      have hbelow := hgl.operators_below left o' (hl.mem_operators (by simp [hleft]) hk')
      have hbelow' := hgr'.operators_below right' o (hr'.mem_operators (by simp [hright]) hk)
      exact hbelow.asymm hbelow'

/-- **Grouped trees over the same tokens are equal.** -/
theorem Grouped.unique (hop : ∀ o, isOperator o → o.kind ≠ .number) (h : e.Grouped p)
    (h' : e'.Grouped p) (hf : e.Fits isOperator) (hf' : e'.Fits isOperator)
    (ht : e.tokens = e'.tokens) : e = e' := by
  induction hf generalizing e' with
  | @number t hk =>
    cases hf' with
    | number => rw [List.singleton_inj.1 ht]
    | @binary o' l' r' ho' =>
      have : o' ∈ (Expression.number t).tokens := by rw [ht]; simp [tokens]
      rw [List.mem_singleton.1 this] at ho'
      exact absurd hk (hop t ho')
  | @binary o l r ho hl hr ihl ihr =>
    cases hf' with
    | @number t hk =>
      have : o ∈ (Expression.number t).tokens := by rw [← ht]; simp [tokens]
      rw [List.mem_singleton.1 this] at ho
      exact absurd hk (hop t ho)
    | @binary o' l' r' ho' hl' hr' =>
      rcases List.append_eq_append_iff.1 ht with ⟨middle, hleft, hright⟩ | ⟨middle, hleft, hright⟩
      · cases middle with
        | nil =>
          obtain ⟨rfl, htr⟩ := List.cons.inj hright
          rw [List.append_nil] at hleft
          cases h with
          | binary hgl hgr =>
            cases h' with
            | binary hgl' hgr' => rw [ihl hgl hgl' hl' hleft.symm, ihr hgr hgr' hr' htr]
        | cons x middle =>
          obtain ⟨rfl, htr⟩ := List.cons.inj hright
          exact (h'.root_not_mem h hl' hr (hop _ ho') (hop _ ho) hleft htr).elim
      · cases middle with
        | nil =>
          obtain ⟨rfl, htr⟩ := List.cons.inj hright
          rw [List.append_nil] at hleft
          cases h with
          | binary hgl hgr =>
            cases h' with
            | binary hgl' hgr' => rw [ihl hgl hgl' hl' hleft, ihr hgr hgr' hr' htr.symm]
        | cons x middle =>
          obtain ⟨rfl, htr⟩ := List.cons.inj hright
          exact (h.root_not_mem h' hl hr' (hop _ ho) (hop _ ho') hleft htr).elim

end Expression
end LayoutLR
