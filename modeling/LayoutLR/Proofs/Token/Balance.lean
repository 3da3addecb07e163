/-
  Layout-aware LR toolkit — layout tokens follow the levels.

  The levels that are open strictly increase, and what was handed out together with
  what still waits has one start of a level more than ends for each of them.  Every
  further line brings the ends of some levels, a line break, and at most one start of
  a level; the first line brings nothing, and the end of the code only ends.

  * `Layout.levels`, `Layout.Ordered`: the columns of the open levels;
  * `Layout.waiting`: the layout tokens that wait;
  * `Layout.enter_spec`: what a further line does;
  * `Scanner.Laid`: how lines and tokens follow each other;
  * `Scanner.Kept`: what every call preserves;
  * `layout_balanced`: all of it, after any number of calls.
-/
import LayoutLR.Proofs.Token.Steps

namespace LayoutLR

/-! ## Levels -/

namespace Layout

variable {l l' : Layout} {column : Nat}

/-- The columns of the open levels, outermost first. -/
def levels (l : Layout) : List Nat :=
  l.base :: l.inner.reverse

/-- Levels that are further and further in, and not too many. -/
structure Ordered (l : Layout) : Prop where
  decreasing : (l.inner ++ [l.base]).Pairwise (· > ·)
  depth : l.inner.length < maxIndentDepth

theorem Ordered.increasing (h : l.Ordered) : l.levels.Pairwise (· < ·) := by
  have := List.pairwise_reverse.2 h.decreasing
  rwa [List.reverse_append, List.reverse_singleton] at this

/-- The kinds of the tokens that wait. -/
def waiting (l : Layout) : List Kind :=
  List.replicate l.outdents .outdent ++ (List.replicate l.newline.toNat .newline ++
    List.replicate l.indent.toNat .indent)

theorem waiting_pop {t : Token} (h : l.pop? = some (t, l')) : l.waiting = t.kind :: l'.waiting := by
  unfold pop? at h
  split at h
  · rename_i houtdents
    cases h
    obtain ⟨n, hn⟩ := Nat.exists_eq_succ_of_ne_zero (Nat.ne_of_gt houtdents)
    simp [waiting, hn, List.replicate_succ, Token.synthetic]
  · rename_i houtdents
    have h0 : l.outdents = 0 := Nat.eq_zero_of_not_pos houtdents
    split at h
    · rename_i hnewline
      cases h
      simp [waiting, h0, hnewline, Token.synthetic]
    · rename_i hnewline
      split at h
      · rename_i hindent
        cases h
        simp [waiting, h0, hnewline, hindent, Token.synthetic]
      · cases h

theorem waiting_eq_nil (h : l.pop? = none) : l.waiting = [] := by
  obtain ⟨houtdents, hnewline, hindent⟩ := Scanner.pop?_eq_none.1 h
  simp [waiting, houtdents, hnewline, hindent]

/-- Handing out a token leaves the levels as they are. -/
theorem pop?_levels {t : Token} (h : l.pop? = some (t, l')) :
    l'.started = l.started ∧ l'.base = l.base ∧ l'.inner = l.inner ∧
      (l'.indent = true → l.indent = true) := by
  unfold pop? at h
  split at h
  · cases h
    exact ⟨rfl, rfl, rfl, id⟩
  split at h
  · cases h
    exact ⟨rfl, rfl, rfl, id⟩
  split at h
  · cases h
    exact ⟨rfl, rfl, rfl, nofun⟩
  · cases h

/-! ## A further line -/

/-- The kinds of the tokens of a further line: the ends of levels, the line break, and the start of
    a level, if one is opened. -/
def lineKinds (ends : Nat) (opens : Bool) : List Kind :=
  List.replicate ends .outdent ++ .newline :: List.replicate opens.toNat .indent

/-- What a line at a column does to levels, where nothing waits: so many of them end, and one more
    is opened or none. -/
structure Enters (l : Layout) (column : Nat) (l' : Layout) (ends : Nat) (opens : Bool) : Prop where
  ordered : l'.Ordered
  started : l'.started = true
  outdents : l'.outdents = ends
  newline : l'.newline = true
  indent : l'.indent = opens
  length : l'.inner.length + ends = l.inner.length + opens.toNat
  inside : opens = true → l'.inner ≠ []
  top : l'.top = column ∨ l.isFull = true ∧ l'.top < column

theorem le_top (h : l.Ordered) : ∀ x ∈ l.inner ++ [l.base], x ≤ l.top := by
  intro x hx
  have hdec := h.decreasing
  unfold top
  cases hinner : l.inner with
  | nil =>
    rw [hinner] at hx
    simp at hx
    simp [hx]
  | cons y ys =>
    rw [hinner] at hx hdec
    rcases List.mem_cons.1 hx with rfl | hx
    · exact Nat.le_refl _
    · exact Nat.le_of_lt ((List.pairwise_cons.1 hdec).1 x hx)

theorem Ordered.push (h : l.Ordered) (hc : l.top < column) : (l.push column).Ordered := by
  unfold Layout.push
  split
  · exact h
  · rename_i hfull
    have := h.depth
    refine ⟨List.pairwise_cons.2 ⟨fun x hx => ?_, h.decreasing⟩, ?_⟩
    · exact Nat.lt_of_le_of_lt (le_top h x hx) hc
    · rw [List.length_cons]
      omega

theorem popLevels_inner (l : Layout) (column : Nat) :
    (l.popLevels column).inner = l.inner.dropWhile fun c => decide (column < c) := by
  have h : ((l.inner.takeWhile fun c => decide (column < c)) ++
      l.inner.dropWhile fun c => decide (column < c)).drop _ = _ := List.drop_left
  rw [List.takeWhile_append_dropWhile] at h
  exact h

theorem Ordered.popLevels (h : l.Ordered) (column : Nat) : (l.popLevels column).Ordered := by
  have hsub : ((l.popLevels column).inner).Sublist l.inner := List.drop_sublist _ _
  refine ⟨h.decreasing.sublist (hsub.append (.refl _)), ?_⟩
  exact Nat.lt_of_le_of_lt hsub.length_le h.depth

/-- Behind the levels that end, the next one is not further in than the line; or none is left but
    the outermost one. -/
theorem popLevels_top (l : Layout) (column : Nat) :
    (l.popLevels column).top ≤ column ∨ (l.popLevels column).inner = [] := by
  cases hinner : (l.popLevels column).inner with
  | nil => exact Or.inr rfl
  | cons x xs =>
    left
    rw [popLevels_inner] at hinner
    have := List.head?_dropWhile_not (fun c => decide (column < c)) l.inner
    rw [hinner] at this
    have hx : x ≤ column := by simpa using this
    unfold top
    rw [popLevels_inner, hinner]
    exact hx

theorem popLevels_length (l : Layout) (column : Nat) : (l.popLevels column).inner.length +
    (l.inner.takeWhile fun c => decide (column < c)).length = l.inner.length := by
  have hle := (List.takeWhile_sublist (l := l.inner) fun c => decide (column < c)).length_le
  simp only [Layout.popLevels, List.length_drop]
  omega

/-- No level ends at a line further in than all of them. -/
theorem popLevels_of_top_lt (h : l.top < column) : l.popLevels column = l := by
  have hnone : (l.inner.takeWhile fun c => decide (column < c)) = [] := by
    unfold top at h
    cases hinner : l.inner with
    | nil => rfl
    | cons x xs =>
      rw [hinner] at h
      exact List.takeWhile_cons_of_neg (by simpa using Nat.le_of_lt h)
  rw [popLevels, hnone]
  rfl

/-- Levels end first, whether or not a line is further in. -/
theorem align_eq (l : Layout) (column : Nat) : l.align column =
    if column < (l.popLevels column).top then { l.popLevels column with base := column }
    else if (l.popLevels column).top < column then (l.popLevels column).push column
    else l.popLevels column := by
  rw [align]
  by_cases hin : l.top < column
  · rw [if_pos hin, popLevels_of_top_lt hin, if_neg (Nat.lt_asymm hin), if_pos hin]
  · rw [if_neg hin]

/-- A further line brings ends of levels, a line break, and at most one start of a level. -/
theorem enter_spec (h : l.Ordered) (hs : l.started = true) (hp : l.pop? = none) (column : Nat) :
    ∃ ends opens, l.Enters column (l.enter column) ends opens := by
  obtain ⟨houtdents, -, hindent⟩ := Scanner.pop?_eq_none.1 hp
  -- what is left of the levels, while the line break waits
  let broken : Layout := { l with newline := true }
  let left : Layout := broken.popLevels column
  let closed := (l.inner.takeWhile fun c => decide (column < c)).length
  have hbroken : broken.Ordered := ⟨h.decreasing, h.depth⟩
  have hordered : left.Ordered := hbroken.popLevels column
  have hlength : left.inner.length + closed = l.inner.length := broken.popLevels_length column
  have hends : left.outdents = closed := by
    show l.outdents + closed = closed
    rw [houtdents, Nat.zero_add]
  rw [enter, if_pos hs, show ({ l with newline := true } : Layout) = broken from rfl, align_eq]
  split
  · rename_i hout
    -- only the outermost level is left, and it moves out
    have hnil : left.inner = [] :=
      (broken.popLevels_top column).resolve_left (Nat.not_le_of_lt hout)
    refine ⟨closed, false, ⟨?_, hordered.depth⟩, hs, hends, rfl, hindent, hlength,
      fun h => absurd h Bool.false_ne_true, Or.inl ?_⟩
    · show (left.inner ++ [column]).Pairwise _
      rw [hnil]
      exact List.pairwise_singleton _ _
    · show left.inner.head?.getD column = column
      rw [hnil]
      rfl
  split
  · rename_i _ hin
    have hpush := hordered.push hin
    rw [show broken.popLevels column = left from rfl]
    by_cases hroom : left.inner.length + 1 = maxIndentDepth
    · -- then no level has ended, and there is no room for another one
      have hdepth := h.depth
      have hfull : l.isFull = true := by
        rw [isFull, beq_iff_eq]
        omega
      rw [Layout.push, if_pos hroom]
      exact ⟨closed, false, hordered, hs, hends, rfl, hindent, hlength,
        fun h => absurd h Bool.false_ne_true, Or.inr ⟨hfull, hin⟩⟩
    · rw [Layout.push, if_neg hroom] at hpush ⊢
      refine ⟨closed, true, hpush, hs, hends, rfl, rfl, ?_, fun _ => List.cons_ne_nil _ _,
        Or.inl rfl⟩
      show left.inner.length + 1 + closed = l.inner.length + 1
      omega
  · rename_i hout hin
    refine ⟨closed, false, hordered, hs, hends, rfl, hindent, hlength,
      fun h => absurd h Bool.false_ne_true, Or.inl ?_⟩
    exact Nat.le_antisymm (Nat.le_of_not_lt hout) (Nat.le_of_not_lt hin)

theorem Enters.waiting {ends : Nat} {opens : Bool} (h : l.Enters column l' ends opens) :
    l'.waiting = lineKinds ends opens := by
  rw [Layout.waiting, h.outdents, h.newline, h.indent]
  rfl

end Layout

/-! ## Lines and tokens -/

namespace Scanner

/-- What matters of an event here: the front of a line, or the kind of a token. -/
inductive Sign where
  | line (column : Nat) (full : Bool)
  | kind (k : Kind)
deriving DecidableEq

def Event.sign : Event → Sign
  | .line column full => .line column full
  | .token t => .kind t.kind

/-- The column of the line whose front was met last, with whether no further level could be
    opened then. -/
def lastLine? (es : List Event) : Option (Nat × Bool) :=
  (es.filterMap fun
    | .line column full => some (column, full)
    | .token _ => none).getLast?

/-- How lines and tokens follow each other, before and after the first line, and before and after
    the end of the code: the first line brings no token; every further one brings the ends of some
    levels, a line break, and the start of a level or none; the end only brings ends of levels. -/
inductive Laid : (started done : Bool) → List Sign → Prop
  | none : Laid false false []
  | first (column : Nat) (full : Bool) : Laid true false [.line column full]
  | text {signs : List Sign} {k : Kind} (h : Laid true false signs) (hk : k.isText = true) :
      Laid true false (signs ++ [.kind k])
  | next {signs : List Sign} (h : Laid true false signs) (column : Nat) (full : Bool) (ends : Nat)
      (opens : Bool) : Laid true false
        (signs ++ .line column full :: (Layout.lineKinds ends opens).map .kind)
  | close {signs : List Sign} {started : Bool} (h : Laid started false signs) (ends : Nat)
      (hends : started = false → ends = 0) :
      Laid started true (signs ++ (List.replicate ends .outdent).map .kind)
  | eof {signs : List Sign} {started : Bool} (h : Laid started true signs) :
      Laid started true (signs ++ [.kind .eof])

/-- Before the first line nothing was met. -/
theorem Laid.eq_nil {signs : List Sign} (h : Laid false false signs) : signs = [] := by
  cases h
  rfl

/-- What was met, and the tokens that wait. -/
def signs (es : List Event) (layout : Layout) : List Sign :=
  es.map Event.sign ++ layout.waiting.map .kind

/-- What holds of the layout of a scanner, with what the scanner has met. -/
structure Kept (es : List Event) (layout : Layout) (done : Bool) : Prop where
  ordered : layout.Ordered
  fresh : layout.started = false → layout.inner = []
  closed : done = true → layout.inner = []
  inside : layout.indent = true → layout.inner ≠ []
  count : (signs es layout).count (.kind .indent) =
    (signs es layout).count (.kind .outdent) + layout.inner.length
  laid : Laid layout.started done (signs es layout)
  top : done = false → ∀ column full, lastLine? es = some (column, full) →
    layout.top = column ∨ full = true ∧ layout.top < column
  ended : Sign.kind .eof ∈ es.map Event.sign → done = true ∧ layout.pop? = none

variable {s s' : Scanner} {es : List Event} {t : Token} {layout layout' : Layout} {done : Bool}

theorem signs_eq (h : layout.pop? = none) : signs es layout = es.map Event.sign := by
  rw [signs, Layout.waiting_eq_nil h, List.map_nil, List.append_nil]

/-- What waits counts as well. -/
theorem count_signs (es : List Event) (layout : Layout) :
    (signs es layout).count (.kind .indent) =
      (es.map Event.sign).count (.kind .indent) + layout.indent.toNat ∧
    (signs es layout).count (.kind .outdent) =
      (es.map Event.sign).count (.kind .outdent) + layout.outdents := by
  constructor
  · simp [signs, Layout.waiting, List.count_replicate]
  · simp [signs, Layout.waiting, List.count_replicate]

theorem signs_snoc (es : List Event) (e : Event) (layout : Layout) :
    signs (es ++ [e]) layout = es.map Event.sign ++ e.sign :: layout.waiting.map .kind := by
  rw [signs, List.map_append, List.append_assoc]
  rfl

theorem lastLine?_line (es : List Event) (column : Nat) (full : Bool) :
    lastLine? (es ++ [.line column full]) = some (column, full) := by
  simp [lastLine?]

theorem lastLine?_token (es : List Event) (t : Token) :
    lastLine? (es ++ [.token t]) = lastLine? es := by
  simp [lastLine?]

/-- Whether the end was met before a token, or is that token. -/
theorem eof_mem_snoc : Sign.kind .eof ∈ (es ++ [Event.token t]).map Event.sign ↔
    Sign.kind .eof ∈ es.map Event.sign ∨ t.kind = .eof := by
  simp [Event.sign, eq_comm]

theorem count_lineKinds (ends : Nat) (opens : Bool) :
    ((Layout.lineKinds ends opens).map Sign.kind).count (.kind .indent) = opens.toNat ∧
    ((Layout.lineKinds ends opens).map Sign.kind).count (.kind .outdent) = ends := by
  constructor
  · simp [Layout.lineKinds, List.count_replicate]
  · simp [Layout.lineKinds, List.count_replicate]

theorem Kept.not_ended (h : Kept es layout false) : Sign.kind .eof ∉ es.map Event.sign := by
  intro hmem
  cases (h.ended hmem).1

/-- The first line: nothing was met before, and no token waits then. -/
theorem Kept.first (h : Kept es layout false) (hpop : layout.pop? = none)
    (hs : layout.started = false) (full : Bool) (column : Nat) :
    Kept (es ++ [.line column full]) { layout with started := true, base := column } false := by
  have hlaid := h.laid
  rw [signs_eq hpop, hs] at hlaid
  obtain rfl : es = [] := List.map_eq_nil_iff.1 hlaid.eq_nil
  have hinner := h.fresh hs
  obtain ⟨houtdents, hnewline, hindent⟩ := pop?_eq_none.1 hpop
  have hsigns : signs ([] ++ [.line column full])
      { layout with started := true, base := column } = [.line column full] :=
    signs_eq (pop?_eq_none.2 ⟨houtdents, hnewline, hindent⟩)
  exact {
    ordered := ⟨by simp [hinner], h.ordered.depth⟩
    fresh := nofun
    closed := nofun
    inside := h.inside
    count := by
      rw [hsigns]
      simp [hinner]
    laid := by
      rw [hsigns]
      exact .first column full
    top := fun _ c full hlast => by
      rw [lastLine?_line] at hlast
      cases hlast
      left
      simp [Layout.top, hinner]
    ended := by simp [Event.sign] }

/-- Every further line. -/
theorem Kept.next {column ends : Nat} {opens : Bool} (h : Kept es layout false)
    (hpop : layout.pop? = none) (hs : layout.started = true)
    (henters : layout.Enters column layout' ends opens) :
    Kept (es ++ [.line column layout.isFull]) layout' false := by
  have hcount := h.count
  have hlaid := h.laid
  rw [signs_eq hpop] at hcount hlaid
  rw [hs] at hlaid
  have hsigns : signs (es ++ [.line column layout.isFull]) layout' = es.map Event.sign ++
      .line column layout.isFull :: (Layout.lineKinds ends opens).map .kind := by
    rw [signs_snoc, henters.waiting]
    rfl
  obtain ⟨hindents, houtdents⟩ := count_lineKinds ends opens
  exact {
    ordered := henters.ordered
    fresh := fun h => by
      rw [henters.started] at h
      cases h
    closed := nofun
    inside := fun h => henters.inside (henters.indent.symm.trans h)
    count := by
      have hlength := henters.length
      rw [hsigns, List.count_append, List.count_append, hcount,
        List.count_cons_of_ne (by simp), List.count_cons_of_ne (by simp), hindents, houtdents]
      omega
    laid := by
      rw [hsigns, henters.started]
      exact hlaid.next column layout.isFull ends opens
    top := fun _ c full hlast => by
      rw [lastLine?_line] at hlast
      cases hlast
      exact henters.top
    ended := fun hmem => absurd hmem (by simpa [Event.sign] using h.not_ended) }

/-- A visible line. -/
theorem Kept.opens (h : Kept es layout false) (hpop : layout.pop? = none) (column : Nat) :
    Kept (es ++ [.line column layout.isFull]) (layout.enter column) false ∧
      (layout.enter column).started = true := by
  by_cases hs : layout.started = true
  · obtain ⟨ends, opens, henters⟩ := Layout.enter_spec h.ordered hs hpop column
    exact ⟨h.next hpop hs henters, henters.started⟩
  · rw [Layout.enter, if_neg hs]
    exact ⟨h.first hpop (by simpa using hs) _ column, rfl⟩

/-- The end of the code. -/
theorem Kept.close (h : Kept es layout false) (hpop : layout.pop? = none) :
    Kept es layout.close true := by
  have hcount := h.count
  have hlaid := h.laid
  rw [signs_eq hpop] at hcount hlaid
  obtain ⟨houtdents, hnewline, hindent⟩ := pop?_eq_none.1 hpop
  have hsigns : signs es layout.close =
      es.map Event.sign ++ (List.replicate layout.inner.length .outdent).map .kind := by
    simp [signs, Layout.waiting, Layout.close, houtdents, hnewline, hindent]
  exact {
    ordered := ⟨List.pairwise_singleton _ _, Nat.zero_lt_of_lt h.ordered.depth⟩
    fresh := fun _ => rfl
    closed := fun _ => rfl
    inside := fun h => by
      rw [show layout.indent = true from h] at hindent
      cases hindent
    count := by
      rw [hsigns, List.count_append, List.count_append, hcount]
      simp [List.count_replicate, Layout.close]
    laid := by
      rw [hsigns]
      exact hlaid.close _ fun hs => by rw [h.fresh hs, List.length_nil]
    top := fun h => absurd h.symm Bool.false_ne_true
    ended := fun hmem => absurd hmem h.not_ended }

/-- Where waiting tokens are placed does not matter. -/
theorem Kept.moveTo (h : Kept es layout done) (hpop : layout.pop? = none) (line col : Nat) :
    Kept es (layout.moveTo line col) done ∧ (layout.moveTo line col).pop? = none := by
  obtain ⟨houtdents, hnewline, hindent⟩ := pop?_eq_none.1 hpop
  have hpop' : (layout.moveTo line col).pop? = none := pop?_eq_none.2 ⟨houtdents, hnewline, hindent⟩
  exact ⟨⟨⟨h.ordered.decreasing, h.ordered.depth⟩, h.fresh, h.closed, h.inside, h.count, h.laid,
    h.top, fun hmem => ⟨(h.ended hmem).1, hpop'⟩⟩, hpop'⟩

/-- Getting ready. -/
theorem Readies.kept {opening : Option Nat} (h : s.Readies opening s')
    (hkept : Kept es s.layout s.done) :
    Kept (es ++ (opening.map fun column => Event.line column s.layout.isFull).toList)
      s'.layout s'.done ∧ (s'.waits = false → s'.layout.started = true) := by
  cases h with
  | waits hw =>
    refine ⟨by simpa using hkept, fun h => ?_⟩
    rw [hw] at h
    cases h
  | inLine _ hs => exact ⟨by simpa using hkept, fun _ => hs⟩
  | @opens place column line col _ _ _ hw =>
    obtain ⟨hpop, hd⟩ := not_waits hw
    rw [hd] at hkept
    obtain ⟨hmoved, hpop'⟩ := hkept.moveTo hpop line col
    obtain ⟨hopens, hs⟩ := hmoved.opens hpop' column
    refine ⟨?_, fun _ => hs⟩
    rw [show Scanner.done _ = s.done from rfl, hd]
    exact hopens
  | @ends place line col hw =>
    obtain ⟨hpop, hd⟩ := not_waits hw
    rw [hd] at hkept
    obtain ⟨hmoved, hpop'⟩ := hkept.moveTo hpop line col
    refine ⟨by simpa using hmoved.close hpop', fun h => ?_⟩
    cases (not_waits h).2

/-- A token that waits does not any more. -/
theorem Kept.pop (h : Kept es layout done) (hpop : layout.pop? = some (t, layout')) :
    Kept (es ++ [.token t]) layout' done := by
  obtain ⟨hstarted, hbase, hinner, hindent⟩ := Layout.pop?_levels hpop
  have hsigns : signs (es ++ [.token t]) layout' = signs es layout := by
    rw [signs_snoc, signs, Layout.waiting_pop hpop]
    rfl
  have heof : Sign.kind .eof ∉ (es ++ [Event.token t]).map Event.sign := by
    intro hmem
    rcases eof_mem_snoc.1 hmem with hmem | hk
    · rw [(h.ended hmem).2] at hpop
      cases hpop
    · have := (pop?_isLayout hpop).1
      rw [hk] at this
      cases this
  exact {
    ordered := by
      constructor
      · rw [hinner, hbase]
        exact h.ordered.decreasing
      · rw [hinner]
        exact h.ordered.depth
    fresh := by
      rw [hstarted, hinner]
      exact h.fresh
    closed := by
      rw [hinner]
      exact h.closed
    inside := fun hi => by
      rw [hinner]
      exact h.inside (hindent hi)
    count := by
      rw [hsigns, hinner]
      exact h.count
    laid := by
      rw [hsigns, hstarted]
      exact h.laid
    top := by
      rw [lastLine?_token, Layout.top, hinner, hbase]
      exact h.top
    ended := fun hmem => absurd hmem heof }

/-- A token with a text, or the end. -/
theorem Kept.token (h : Kept es layout done) (hpop : layout.pop? = none)
    (ht : t.kind.isText = true ∧ layout.started = true ∧ done = false ∨
      t.kind = .eof ∧ done = true) :
    Kept (es ++ [.token t]) layout done := by
  have hcount := h.count
  have hlaid := h.laid
  have hsigns : signs (es ++ [.token t]) layout = es.map Event.sign ++ [.kind t.kind] := by
    rw [signs_eq hpop, List.map_append]
    rfl
  have hkind : t.kind ≠ .indent ∧ t.kind ≠ .outdent := by
    constructor <;> rintro hk <;> simp [hk, Kind.isText, Kind.isLayout] at ht
  rw [signs_eq hpop] at hcount hlaid
  exact {
    ordered := h.ordered
    fresh := h.fresh
    closed := h.closed
    inside := h.inside
    count := by
      rw [hsigns, List.count_append, List.count_append, hcount,
        List.count_singleton, List.count_singleton, if_neg (by simpa using hkind.1),
        if_neg (by simpa using hkind.2)]
      rfl
    laid := by
      rw [hsigns]
      rcases ht with ⟨hk, hs, rfl⟩ | ⟨hk, rfl⟩
      · rw [hs] at hlaid ⊢
        exact hlaid.text hk
      · rw [hk]
        exact hlaid.eof
    top := by
      rw [lastLine?_token]
      exact h.top
    ended := fun hmem => by
      refine ⟨?_, hpop⟩
      rcases ht with ⟨hk, -, rfl⟩ | ⟨-, hd⟩
      · exfalso
        refine (eof_mem_snoc.1 hmem).elim h.not_ended fun heof => ?_
        rw [heof] at hk
        cases hk
      · exact hd }

/-- Handing out a token. -/
theorem Emits.kept (h : s.Emits t s') (hkept : Kept es s.layout s.done)
    (hs : s.waits = false → s.layout.started = true) :
    Kept (es ++ [.token t]) s'.layout s'.done := by
  cases h with
  | waiting hpop => exact hkept.pop hpop
  | text hpop hd =>
    refine hkept.token hpop (Or.inl ⟨lexeme_isText _ _ _ _, hs ?_, hd⟩)
    rw [Scanner.waits, hpop, hd]
    rfl
  | ended hpop hd => exact hkept.token hpop (Or.inr ⟨rfl, hd⟩)

theorem met_kept (cfg : Config) (code : List CodeNode) (n : Nat) :
    let s := (ofCode cfg code).after n
    Kept ((ofCode cfg code).met n) s.layout s.done := by
  let I := fun (es : List Event) (s : Scanner) => Kept es s.layout s.done
  have hstep : ∀ es s, I es s → I (es ++ s.scanEvents) s.scan.2 := by
    intro es s h
    obtain ⟨hready, hs⟩ := s.readies.kept h
    rw [scanEvents, ← List.append_assoc]
    exact s.emits.kept hready hs
  have hstart : I [] (ofCode cfg code) := by
    exact {
      ordered := ⟨List.pairwise_singleton _ _, Nat.zero_lt_succ _⟩
      fresh := fun _ => rfl
      closed := fun h => absurd h Bool.false_ne_true
      inside := fun h => absurd h Bool.false_ne_true
      count := rfl
      laid := .none
      top := fun _ _ _ h => absurd h.symm (Option.some_ne_none _)
      ended := fun h => absurd h List.not_mem_nil }
  exact met_induction hstep hstart n

/-! ## What is returned -/

/-- Where tokens of a kind are not ignored, as many are returned as are met. -/
theorem count_returned {k : Kind} (h : s.config.ignored.covers k = false) (n : Nat) :
    ((s.returned n).map Token.kind).count k = ((s.met n).map Event.sign).count (.kind k) := by
  rw [returned_eq]
  induction s.met n with
  | nil => rfl
  | cons e es ih =>
    cases e with
    | line =>
      rw [List.map_cons, List.count_cons_of_ne (by simp [Event.sign])]
      exact ih
    | token t =>
      by_cases hk : t.kind = k
      · subst hk
        simpa [Event.returned?, Event.sign, h] using ih
      · by_cases hc : s.config.ignored.covers t.kind = true
        · simpa [Event.returned?, Event.sign, hc, hk] using ih
        · simpa [Event.returned?, Event.sign, hc, hk] using ih

end Scanner

/-- **Layout tokens are balanced and follow the levels.** -/
theorem layout_balanced (cfg : Config) (code : List CodeNode)
    (h : ∀ k : Kind, k.isLayout = true → cfg.ignored.covers k = false) (n : Nat) :
    let s := (Scanner.ofCode cfg code).after n
    let kinds := ((Scanner.ofCode cfg code).returned n).map Token.kind
    let met := (Scanner.ofCode cfg code).met n
    s.layout.levels.Pairwise (· < ·) ∧ s.layout.inner.length < maxIndentDepth ∧
    (kinds.count .indent : Int) - kinds.count .outdent =
      s.layout.inner.length + s.layout.outdents - s.layout.indent.toNat ∧
    kinds.count .outdent ≤ kinds.count .indent ∧
    (.eof ∈ kinds → kinds.count .indent = kinds.count .outdent) ∧
    (Scanner.ofCode cfg code).returned n = met.filterMap (Scanner.Event.returned? cfg) ∧
    Scanner.Laid s.layout.started s.done
      (met.map Scanner.Event.sign ++ s.layout.waiting.map .kind) ∧
    (s.done = false → ∀ column full, Scanner.lastLine? met = some (column, full) →
      s.layout.top = column ∨ full = true ∧ s.layout.top < column) := by
  dsimp only
  have hkept := Scanner.met_kept cfg code n
  have hindents := Scanner.count_returned (s := .ofCode cfg code) (h .indent rfl) n
  have houtdents := Scanner.count_returned (s := .ofCode cfg code) (h .outdent rfl) n
  have heof := Scanner.count_returned (s := .ofCode cfg code) (k := .eof) rfl n
  obtain ⟨hindents', houtdents'⟩ := Scanner.count_signs ((Scanner.ofCode cfg code).met n)
    ((Scanner.ofCode cfg code).after n).layout
  have hcount := hkept.count
  rw [hindents', houtdents', ← hindents, ← houtdents] at hcount
  refine ⟨hkept.ordered.increasing, hkept.ordered.depth, ?_, ?_, fun hmem => ?_,
    Scanner.returned_eq _ n, hkept.laid, hkept.top⟩
  · omega
  · -- where the start of a level waits, a level is open
    have hinside : ((Scanner.ofCode cfg code).after n).layout.indent.toNat ≤
        ((Scanner.ofCode cfg code).after n).layout.inner.length := by
      cases hindent : ((Scanner.ofCode cfg code).after n).layout.indent with
      | false => exact Nat.zero_le _
      | true => exact List.length_pos_iff.2 (hkept.inside hindent)
    omega
  · -- at the end no level is open and nothing waits
    have hmet : Scanner.Sign.kind .eof ∈
        ((Scanner.ofCode cfg code).met n).map Scanner.Event.sign := by
      rw [← List.count_pos_iff, ← heof, List.count_pos_iff]
      exact hmem
    obtain ⟨hd, hpop⟩ := hkept.ended hmet
    obtain ⟨houts, -, hins⟩ := Scanner.pop?_eq_none.1 hpop
    rw [hkept.closed hd, houts, hins] at hcount
    simpa using hcount

/-- A line further out that is still further in than the one before it ends a level and starts
    another one. -/
theorem layout_balanced_between :
    let code := [CodeNode.ofText "a\n        b\n    c\n".toList]
    let kinds := ((Scanner.ofCode {} code).returned 9).map Token.kind
    (∀ k : Kind, k.isLayout = true → ({} : Config).ignored.covers k = false) ∧
    kinds = [.word, .newline, .indent, .word, .outdent, .newline, .indent, .word, .outdent] ∧
    kinds.count .outdent ≤ kinds.count .indent := by
  have hlayout : ∀ k : Kind, k.isLayout = true → ({} : Config).ignored.covers k = false := by
    intro k _
    cases k <;> rfl
  refine ⟨hlayout, by decide +kernel, ?_⟩
  exact (layout_balanced {} [CodeNode.ofText "a\n        b\n    c\n".toList] hlayout 9).2.2.2.1

end LayoutLR
