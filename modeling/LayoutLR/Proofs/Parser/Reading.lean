/-
  Layout-aware LR toolkit — what a parser does with the tokens of its input.

  A parser takes tokens one after the other.  It shifts a token, leaves it to the
  layout, or skips it after an error; so what it shifts comes in the order of the
  input, and without errors every token that was taken has been used.

  * `Input.get`, `Input.take`: the tokens of an input, with the end for ever after;
  * `uses`, `shifted`: the tokens that were used, and those that were shifted;
  * `Machine.Reads`, `Machine.Move.reads`: where a parser stands in its input.
-/
import Mathlib.Data.List.Basic
import LayoutLR.Proofs.Parser.Safety

namespace LayoutLR

variable {σ V : Type}

/-! ## Inputs -/

namespace Input

/-- The token at a position. -/
def get (i : Input) (n : Nat) : Token :=
  i.tokens[n]?.getD i.eof

/-- The first tokens. -/
def take (i : Input) (n : Nat) : List Token :=
  (List.range n).map i.get

/-- The input without its first tokens. -/
def drop (i : Input) (n : Nat) : Input :=
  { i with tokens := i.tokens.drop n }

theorem take_succ (i : Input) (n : Nat) : i.take (n + 1) = i.take n ++ [i.get n] := by
  simp [take, List.range_succ]

theorem next_drop (i : Input) (n : Nat) : (i.drop n).next = (i.get n, i.drop (n + 1)) := by
  unfold next
  cases h : i.tokens.drop n with
  | nil =>
    have hlen := List.drop_eq_nil_iff.1 h
    simp [drop, h, get, eof, hlen, List.drop_eq_nil_of_le (Nat.le_succ_of_le hlen)]
  | cons t rest =>
    have hget : i.tokens[n]? = some t := by
      have := congrArg (·[0]?) h
      simpa using this
    have hrest : i.tokens.drop (n + 1) = rest := by
      have := congrArg List.tail h
      simpa using this
    simp [drop, h, get, hget, hrest]

end Input

/-! ## Uses -/

/-- Whether a verb uses the token up. -/
def Verb.takes : Verb → Bool
  | .record | .cancel | .discard | .shift => true
  | .reduce | .force | .accept | .error => false

/-- What was done with a token, if it was used up. -/
def Note.use? : Note V → Option (Verb × Token)
  | .act verb _ token => if verb.takes then some (verb, token) else none
  | .take | .tooShort _ | .noTransition _ _ => none

/-- Whether an error was met. -/
def Note.isError : Note V → Bool
  | .act verb _ _ => verb == .error
  | .take | .tooShort _ | .noTransition _ _ => false

/-- The tokens that were used up in order, with what was done with them. -/
def uses (notes : List (Note V)) : List (Verb × Token) :=
  (notes.filterMap Note.use?).reverse

/-- The tokens that were shifted in order. -/
def shifted (notes : List (Note V)) : List Token :=
  ((uses notes).filter fun u => u.1 == .shift).map Prod.snd

theorem uses_cons (n : Note V) (notes : List (Note V)) :
    uses (n :: notes) = uses notes ++ n.use?.toList := by
  cases h : n.use? <;> simp [uses, h]

/-- The token that is shifted, if one is. -/
def Note.shift? : Note V → Option Token
  | .act verb _ token => if verb = .shift then some token else none
  | .take | .tooShort _ | .noTransition _ _ => none

theorem mem_shifted {notes : List (Note V)} {token : Token} :
    token ∈ shifted notes ↔ (.shift, token) ∈ uses notes := by
  simp [shifted]

theorem shifted_cons (n : Note V) (notes : List (Note V)) :
    shifted (n :: notes) = shifted notes ++ n.shift?.toList := by
  rw [shifted, shifted, uses_cons, List.filter_append, List.map_append]
  congr 1
  cases n with
  | act verb stack token => cases verb <;> rfl
  | take => rfl
  | tooShort state => rfl
  | noTransition sym prod => rfl

@[simp]
theorem uses_take (notes : List (Note V)) : uses (.take :: notes) = uses notes := by
  rw [uses_cons]
  exact List.append_nil _

theorem uses_replicate_take (n : Nat) (notes : List (Note V)) :
    uses (List.replicate n .take ++ notes) = uses notes := by
  induction n with
  | zero => rfl
  | succ n ih => rw [List.replicate_succ, List.cons_append, uses_take, ih]

/-- A token that is shifted does not open or close a level. -/
theorem Verb.Uses.not_level {verb : Verb} {kind : Kind} (h : verb.Uses kind)
    (hshift : verb = .shift) : kind ≠ .indent ∧ kind ≠ .outdent := by
  cases h with
  | shift hin hout => exact ⟨hin, hout⟩
  | lay hlays =>
    subst hshift
    cases hlays

theorem Verb.Uses.shift_or_lays {verb : Verb} {kind : Kind} (h : verb.Uses kind) :
    verb = .shift ∨ verb.Lays kind := by
  cases h with
  | shift => exact Or.inl rfl
  | lay hlays => exact Or.inr hlays

/-! ## Reading -/

namespace Machine

variable {t : Table} {acts : Actions σ V} {input : Input} {m m' : Machine σ V}

/-- Skipping stops at the token so many places further. -/
theorem skip?_spec {s : Stack V} {eof : Token} {sk : Skipped} (tokens : List Token) :
    ∀ {must : Bool} {token : Token} {indents taken : Nat},
      skip? t s eof must token indents taken tokens = some sk →
      ∃ k, sk.taken = taken + k ∧ sk.tokens = tokens.drop k ∧
        sk.token = (token :: tokens)[k]?.getD eof := by
  induction tokens with
  | nil =>
    intro must token indents taken h
    rw [skip?] at h
    obtain ⟨stop, -, rfl⟩ := Option.map_eq_some_iff.1 h
    cases stop with
    | true => exact ⟨0, rfl, rfl, rfl⟩
    | false => exact ⟨1, rfl, rfl, rfl⟩
  | cons next rest ih =>
    intro must token indents taken h
    rw [skip?] at h
    split at h
    · cases h
    · obtain rfl := Option.some.inj h
      exact ⟨0, rfl, rfl, rfl⟩
    · split at h
      · obtain rfl := Option.some.inj h
        exact ⟨1, rfl, rfl, rfl⟩
      · obtain ⟨k, hk, htokens, htoken⟩ := ih h
        exact ⟨k + 1, by omega, htokens, htoken⟩

/-- Where a parser stands in its input, and what it has done with the tokens before. -/
structure Reads (input : Input) (m : Machine σ V) : Prop where
  place : ∃ k, m.taken = k + 1 ∧ m.token = input.get k ∧ m.input = input.drop (k + 1) ∧
    (shifted m.notes).Sublist (input.take k) ∧
    ((∀ n ∈ m.notes, n.isError = false) → (uses m.notes).map Prod.snd = input.take k)
  used : ∀ u ∈ uses m.notes, u.1.Uses u.2.kind

theorem start_reads (t : Table) (memory : σ) (input : Input) :
    (start t memory input : Machine σ V).Reads input := by
  have hnext := input.next_drop 0
  have hzero : input.drop 0 = input := by simp [Input.drop]
  rw [hzero] at hnext
  refine ⟨⟨0, rfl, ?_, ?_, ?_, fun _ => rfl⟩, by simp [start, uses, Note.use?]⟩
  · simp [start, hnext]
  · simp [start, hnext]
  · exact List.Sublist.slnil

/-- A token was used up, and the next one is taken. -/
theorem Reads.advance (h : m.Reads input) (verb : Verb) (hverb : verb.takes = true)
    (huse : verb.Uses m.token.kind) (hinput : m'.input = m.input)
    (htaken : m'.taken = m.taken) (hnotes : m'.notes = (m.act verb).notes) :
    m'.advance.Reads input := by
  obtain ⟨k, hk, htok, hin, hsub, hused⟩ := h.place
  have hnext : m'.input.next = (input.get (k + 1), input.drop (k + 2)) := by
    rw [hinput, hin, Input.next_drop]
  have huses : uses m'.advance.notes = uses m.notes ++ [(verb, m.token)] := by
    show uses (.take :: m'.notes) = _
    rw [uses_take, hnotes]
    show uses (.act verb m.stack m.token :: m.notes) = _
    rw [uses_cons, Note.use?, if_pos hverb]
    rfl
  refine ⟨⟨k + 1, ?_, ?_, ?_, ?_, fun herr => ?_⟩, fun u hu => ?_⟩
  · show m'.taken + 1 = k + 1 + 1
    rw [htaken, hk]
  · show m'.input.next.1 = _
    rw [hnext]
  · show m'.input.next.2 = _
    rw [hnext]
  · rw [shifted, huses, List.filter_append, List.map_append, Input.take_succ, ← htok]
    refine hsub.append ?_
    by_cases hv : verb = .shift <;> simp [hv]
  · rw [huses, List.map_append, Input.take_succ, ← htok]
    rw [hused fun n hn => herr n ?_]
    · rfl
    · show n ∈ .take :: m'.notes
      rw [hnotes]
      exact List.mem_cons_of_mem _ (List.mem_cons_of_mem _ hn)
  · rw [huses] at hu
    rcases List.mem_append.1 hu with hu | hu
    · exact h.used u hu
    · rw [List.mem_singleton.1 hu]
      exact huse

/-- Something was noted, and no token was taken. -/
theorem Reads.still (h : m.Reads input) {n : Note V} (huse : n.use? = none)
    (hinput : m'.input = m.input) (htoken : m'.token = m.token) (htaken : m'.taken = m.taken)
    (hnotes : m'.notes = n :: m.notes) : m'.Reads input := by
  obtain ⟨k, hk, htok, hin, hsub, hused⟩ := h.place
  have huses : uses m'.notes = uses m.notes := by
    rw [hnotes, uses_cons, huse]
    exact List.append_nil _
  refine ⟨⟨k, htaken.trans hk, htoken.trans htok, hinput.trans hin, ?_, fun herr => ?_⟩, ?_⟩
  · rwa [shifted, huses]
  · rw [huses]
    exact hused fun n' hn' => herr n' (hnotes ▸ List.mem_cons_of_mem _ hn')
  · rw [huses]
    exact h.used

/-- There was an error, and tokens were skipped. -/
theorem Reads.skip (h : m.Reads input) {s : Stack V} {must : Bool} {indents : Nat} {sk : Skipped}
    (hskip : skip? t s m.input.eof must m.token indents 0 m.input.tokens = some sk)
    (hinput : m'.input = { m.input with tokens := sk.tokens }) (htoken : m'.token = sk.token)
    (htaken : m'.taken = m.taken + sk.taken)
    (hnotes : m'.notes = List.replicate sk.taken .take ++ (m.act .error).notes) :
    m'.Reads input := by
  obtain ⟨k, hk, htok, hin, hsub, hused⟩ := h.place
  obtain ⟨j, hj, htokens, hlast⟩ := skip?_spec m.input.tokens hskip
  rw [Nat.zero_add] at hj
  have huses : uses m'.notes = uses m.notes := by
    rw [hnotes, uses_replicate_take]
    show uses (.act .error m.stack m.token :: m.notes) = _
    rw [uses_cons]
    exact List.append_nil _
  have hmono : (input.take k).Sublist (input.take (k + j)) := by
    simp only [Input.take, List.range_add, List.map_append]
    exact List.sublist_append_left _ _
  refine ⟨⟨k + j, by omega, ?_, ?_, ?_, fun herr => ?_⟩, ?_⟩
  · rw [htoken, hlast, hin, htok]
    cases j with
    | zero => rfl
    | succ j =>
      simp only [Input.drop, Input.get, List.getElem?_cons_succ, List.getElem?_drop]
      rw [show k + 1 + j = k + (j + 1) by omega]
      rfl
  · rw [hinput, htokens, hin]
    simp only [Input.drop, List.drop_drop]
    rw [show k + 1 + j = k + j + 1 by omega]
  · rw [shifted, huses]
    exact hsub.trans hmono
  · -- there was an error
    have hnone := herr (.act .error m.stack m.token)
      (hnotes ▸ List.mem_append_right _ (List.mem_cons_self ..))
    cases hnone
  · rw [huses]
    exact h.used

/-- Reading goes on with every step. -/
theorem Move.reads (h : Move t acts m (.next m')) (hm : m.Reads input) : m'.Reads input := by
  generalize hprog : (Progress.next m' : Progress σ V) = prog at h
  cases h with
  | @layout verb stack hverb hview =>
    cases hprog
    refine hm.advance verb ?_ (.lay hverb) rfl rfl rfl
    generalize m.token.kind = kind at hverb
    cases hverb <;> rfl
  | shift huses =>
    cases hprog
    exact hm.advance .shift rfl huses rfl rfl rfl
  | @reduce r verb _ _ _ _ _ _ hverb =>
    cases hprog
    refine hm.still (n := .act verb m.stack m.token) ?_ rfl rfl rfl rfl
    rcases hverb with rfl | rfl <;> rfl
  | resume _ hskip =>
    cases hprog
    obtain ⟨s, must, indents, hskip⟩ := hskip
    exact hm.skip hskip rfl rfl rfl rfl
  | accept => cases hprog
  | giveUp => cases hprog

end Machine

end LayoutLR
