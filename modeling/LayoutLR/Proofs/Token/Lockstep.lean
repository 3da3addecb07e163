/-
  Layout-aware LR toolkit — two scanners that read side by side.

  Two scanners hand out the same tokens if they are alike but for the places where they
  stand, and these stay related: in one way where a line is to be looked for, in another
  inside a line.  Three things depend on how the places are related, and are asked for: that
  both sides leave their lines together, find the same visible line, and cut off the same
  token.  The rest is the same for all such readings.

  * `Cursor.Agree`, `Cursor.SameFront`: cursors in front of the same text, and of the same text
    up to some line break;
  * `Place.FoundAlike`: a search for a visible line on both sides;
  * `Scanner.Alike`, `Scanner.Beside`: scanners side by side;
  * `Scanner.Beside.ready`, `Scanner.Beside.scan`: the two halves of a call;
  * `Scanner.returned_eq_of_scan`: many calls.
-/
import LayoutLR.Proofs.Token.OneLine
import LayoutLR.Proofs.Token.Pieces

namespace LayoutLR

open Text

/-! ## Cursors in front of the same text -/

namespace Cursor

/-- Two cursors in front of the same text, in the same column. -/
structure Agree (a b : Cursor) : Prop where
  rest : b.rest = a.rest
  col : b.col = a.col

/-- Two cursors in front of the same text `l` and a line break, with `r` and `r'` below it. -/
structure SameFront (l r r' : List Char) (a b : Cursor) : Prop where
  left : a.rest = l ++ '\n' :: r
  right : b.rest = l ++ '\n' :: r'
  col : l ≠ [] → a.col = b.col

variable {cfg : Config} {a b : Cursor} {c : Char} {l r r' : List Char} {n : Nat}

theorem Agree.step (h : a.Agree b) : a.step.Agree b.step := by
  obtain ⟨hrest, hcol⟩ := h
  rw [Cursor.step, Cursor.step, hrest]
  split
  · exact ⟨hrest, hcol⟩
  · split
    · exact ⟨rfl, rfl⟩
    · exact ⟨rfl, by rw [hcol]⟩

theorem Agree.advance (h : a.Agree b) (n : Nat) : (a.advance n).Agree (b.advance n) := by
  induction n generalizing a b with
  | zero => exact h
  | succ n ih => exact ih h.step

theorem Agree.skipBlanks (h : a.Agree b) : a.skipBlanks.Agree b.skipBlanks := by
  rw [Cursor.skipBlanks, Cursor.skipBlanks, h.rest]
  exact h.advance _

theorem Agree.ignoredComment? (cfg : Config) (h : a.Agree b) :
    b.ignoredComment? cfg = a.ignoredComment? cfg := by
  rw [Cursor.ignoredComment?, Cursor.ignoredComment?, h.rest]

theorem Agree.skipComments (cfg : Config) (h : a.Agree b) :
    (a.skipComments cfg).Agree (b.skipComments cfg) := by
  fun_induction Cursor.comments cfg a generalizing b with
  | case1 a n hn ih =>
    have hn' : b.ignoredComment? cfg = some n := (h.ignoredComment? cfg).trans hn
    rw [skipComments_eq cfg a, skipComments_eq cfg b, hn, hn']
    exact ih (h.advance n).skipBlanks
  | case2 a hn =>
    have hn' : b.ignoredComment? cfg = none := (h.ignoredComment? cfg).trans hn
    rw [skipComments_eq cfg a, skipComments_eq cfg b, hn, hn']
    exact h

/-- An ignored comment in front of a line break starts with a character that is none. -/
theorem ignoredComment?_front (hrest : a.rest = l ++ '\n' :: r)
    (hn : a.ignoredComment? cfg = some n) : ∃ c l' kind m, l = c :: l' ∧ n = m + 1 ∧
      comment? cfg c (l' ++ '\n' :: r) = some (kind, m) ∧ cfg.ignored.covers kind = true := by
  rw [ignoredComment?, hrest] at hn
  cases l with
  | nil =>
    dsimp only [List.nil_append] at hn
    rw [comment?_newline] at hn
    cases hn
  | cons c l =>
    obtain ⟨⟨kind, m⟩, hcomment, hn⟩ := Option.bind_eq_some_iff.1 hn
    split at hn
    · rename_i hkind
      exact ⟨c, l, kind, m, rfl, (Option.some.inj hn).symm, hcomment, hkind⟩
    · cases hn

namespace SameFront

theorem symm (h : SameFront l r r' a b) : SameFront l r' r b a :=
  ⟨h.right, h.left, fun hne => (h.col hne).symm⟩

theorem step (h : SameFront (c :: l) r r' a b) : SameFront l r r' a.step b.step := by
  have hcol := h.col (List.cons_ne_nil _ _)
  refine ⟨by rw [step_rest, h.left]; rfl, by rw [step_rest, h.right]; rfl, fun _ => ?_⟩
  rw [Cursor.step, Cursor.step, h.left, h.right]
  dsimp only [List.cons_append]
  rw [hcol]
  split <;> rfl

/-- Going on in front of the line break. -/
theorem advance (h : SameFront l r r' a b) (hn : n ≤ l.length) :
    SameFront (l.drop n) r r' (a.advance n) (b.advance n) := by
  induction n generalizing l a b with
  | zero => exact h
  | succ n ih =>
    cases l with
    | nil => cases hn
    | cons c l => exact ih h.step (Nat.le_of_succ_le_succ hn)

theorem skipBlanks_eq (h : a.rest = l ++ '\n' :: r) :
    a.skipBlanks = a.advance (l.takeWhile fun c => isBlank c && c != '\n').length := by
  rw [Cursor.skipBlanks, h, takeWhile_break (by simp)]

/-- Going over blanks. -/
theorem skipBlanks (h : SameFront l r r' a b) :
    SameFront (l.dropWhile fun c => isBlank c && c != '\n') r r' a.skipBlanks b.skipBlanks := by
  have hdrop : ((l.takeWhile fun c => isBlank c && c != '\n') ++
      l.dropWhile fun c => isBlank c && c != '\n').drop _ = _ := List.drop_left
  rw [List.takeWhile_append_dropWhile] at hdrop
  rw [skipBlanks_eq h.left, skipBlanks_eq h.right, ← hdrop]
  exact h.advance (List.takeWhile_prefix _).length_le

/-- An ignored comment that ends in front of the line break is found by the other cursor too. -/
theorem ignoredComment?_some (h : SameFront l r r' a b) (hn : a.ignoredComment? cfg = some n)
    (hle : n ≤ l.length) : b.ignoredComment? cfg = some n := by
  obtain ⟨c, l, kind, n, rfl, rfl, hcomment, hkind⟩ := ignoredComment?_front h.left hn
  refine ignoredComment?_of_covers h.right (comment?_line hcomment ?_) hkind
  exact Nat.le_of_succ_le_succ hle

/-- A token that ends in front of the line break is cut off on the other side, too. -/
theorem cut (h : SameFront l r r' a b) {first : Bool} {cs : List Char} {kind : Kind}
    (hrest : a.rest = c :: cs) (hlexeme : lexeme cfg first c cs = (kind, n)) (hn : n < l.length) :
    ∃ cs', b.rest = c :: cs' ∧ lexeme cfg first c cs' = (kind, n) ∧ cs'.take n = cs.take n ∧
      b.col = a.col ∧ SameFront (l.drop (n + 1)) r r' (a.advance (n + 1)) (b.advance (n + 1)) := by
  cases l with
  | nil => cases hn
  | cons d l =>
    obtain ⟨rfl, hcs⟩ := List.cons.inj (hrest.symm.trans h.left)
    obtain rfl : cs = l ++ '\n' :: r := hcs
    have hle : n ≤ l.length := Nat.le_of_lt_succ hn
    refine ⟨l ++ '\n' :: r', h.right, ?_, ?_, (h.col (List.cons_ne_nil _ _)).symm, h.advance hn⟩
    · rw [← hlexeme]
      exact lexeme_line (by rw [hlexeme]; exact hle)
    · rw [take_line hle, take_line hle]

end SameFront

end Cursor

/-! ## Searching for a visible line -/

/-- The block indent of a line depends on that line only. -/
theorem blockIndent_line (l r : List Char) :
    blockIndent (l ++ '\n' :: r) = blockIndent (l ++ ['\n']) := by
  match l with
  | [] => rfl
  | [a] => unfold blockIndent; split <;> split <;> simp_all
  | [a, b] => unfold blockIndent; split <;> split <;> simp_all
  | [a, b, c] => unfold blockIndent; split <;> split <;> simp_all
  | a :: b :: c :: d :: l => unfold blockIndent; split <;> split <;> simp_all

/-- Two lines with the same front start at the same column, unless they are blank. -/
theorem Place.enterLine_column {cfg : Config} {node node' : CodeNode} {a b : Cursor}
    {l r r' : List Char} (h : (front node a).SameFront l r r' (front node' b))
    (hvisible : (enterLine cfg node a).1.rest.head? ≠ some '\n') :
    (enterLine cfg node' b).2 = (enterLine cfg node a).2 := by
  by_cases hl : l = []
  · -- there is no comment in front of a line break
    refine absurd ?_ hvisible
    have hleft := h.left
    rw [hl, List.nil_append] at hleft
    rw [enterLine_eq, Cursor.skipComments_eq, Cursor.ignoredComment?, hleft]
    dsimp only
    rw [comment?_newline, Option.bind_none]
    dsimp only
    rw [hleft]
    rfl
  · exact (h.col hl).symm

/-- A search for a visible line, and one on the other side: the columns that were found, the
    columns of the cursors, and the places. -/
structure Place.FoundAlike (InLine : Place → Place → Prop) (found found' : Place × Option Nat) :
    Prop where
  column : found'.2 = found.2
  col : found'.1.cursor.col = found.1.cursor.col
  inLine : found.2.isSome → InLine found.1 found'.1

/-- Ways in which places are related: in front of a line and inside a line. -/
structure Place.LineRelation (AtLine InLine : Place → Place → Prop) : Prop where
  /-- Going over the blanks of a line. -/
  skipBlanks : ∀ {p q : Place}, InLine p q →
    InLine { p with cursor := p.cursor.skipBlanks } { q with cursor := q.cursor.skipBlanks }
  /-- Both sides are at the end of their line, or neither is. -/
  leaveLine : ∀ {p q : Place}, InLine p q →
    p.cursor.rest.head?.getD '\n' = '\n' ∧ q.cursor.rest.head?.getD '\n' = '\n' ∧
      AtLine p.leaveLine q.leaveLine ∨
    p.cursor.rest.head?.getD '\n' ≠ '\n' ∧ q.cursor.rest.head?.getD '\n' ≠ '\n'

/-! ## Scanners side by side -/

/-- A token without its place in the code: its kind, its text and its column. -/
def Token.shape (t : Token) : Kind × List Char × Nat :=
  (t.kind, t.text, t.col)

/-- What is observed of tokens: at least their kind, but not the line of a layout token. -/
structure Token.Observes {α : Type} (f : Token → α) : Prop where
  kind : ∀ {t t' : Token}, f t = f t' → t.kind = t'.kind
  synthetic : ∀ (kind : Kind) (line line' col : Nat),
    f (.synthetic kind line col) = f (.synthetic kind line' col)

theorem Token.observes_shape : Observes Token.shape :=
  ⟨congrArg Prod.fst, fun _ _ _ _ => rfl⟩

namespace Scanner

/-- Scanners that differ only in the place where they stand and in the lines that they count. -/
structure Alike (s t : Scanner) : Prop where
  config : t.config = s.config
  layout : ∃ line, t.layout = s.layout.moveTo line s.layout.col
  lineFirst : t.lineFirst = s.lineFirst
  done : t.done = s.done

/-- Scanners whose places are related as long as something is looked for. -/
structure Beside (AtLine InLine : Place → Place → Prop) (s t : Scanner) : Prop
    extends Alike s t where
  fresh : s.done = false → s.layout.started = false → AtLine s.place t.place
  inside : s.done = false → s.layout.started = true → InLine s.place t.place

variable {AtLine InLine : Place → Place → Prop} {s t : Scanner}

theorem Alike.waits (h : s.Alike t) : t.waits = s.waits := by
  obtain ⟨line, hlayout⟩ := h.layout
  rw [Scanner.waits, Scanner.waits, h.done, hlayout, pop?_moveTo, Option.isSome_map]

/-- Both sides open the line that they found, or are at the end. -/
theorem Alike.openLine (h : s.Alike t) (hfound : Place.FoundAlike InLine
    (s.place.nextVisible s.config) (t.place.nextVisible s.config)) :
    Beside AtLine InLine s.openLine t.openLine := by
  obtain ⟨line, hlayout⟩ := h.layout
  obtain ⟨hcolumn, hcol, hin⟩ := hfound
  rw [Scanner.openLine, Scanner.openLine, h.config]
  generalize s.place.nextVisible s.config = found at hcolumn hcol hin
  generalize t.place.nextVisible s.config = found' at hcolumn hcol hin
  obtain ⟨p, column⟩ := found
  obtain ⟨q, column'⟩ := found'
  dsimp only at hcolumn hcol hin
  subst hcolumn
  cases column' with
  | none =>
    refine ⟨⟨rfl, ⟨q.cursor.line, ?_⟩, h.lineFirst, rfl⟩, fun hd _ => ?_, fun hd _ => ?_⟩
    · dsimp only
      rw [hlayout, hcol]
      rfl
    · cases hd
    · cases hd
  | some column =>
    have hstarted : ((s.layout.moveTo p.cursor.line p.cursor.col).enter column).started = true :=
      started_enter _ _
    refine ⟨⟨rfl, ⟨q.cursor.line, ?_⟩, rfl, h.done⟩, fun _ hfresh => ?_, fun _ _ => hin rfl⟩
    · dsimp only
      rw [hlayout, hcol, enter_moveTo, enter_moveTo, enter_moveTo]
      rfl
    · rw [hstarted] at hfresh
      cases hfresh

theorem started_of_lineEnd? (h : s.lineEnd? = none) : s.layout.started = true := by
  by_contra hs
  simp [Scanner.lineEnd?, hs] at h

/-- Both sides are through with their line, or neither is. -/
theorem Beside.lineEnd? (hrel : Place.LineRelation AtLine InLine) (h : Beside AtLine InLine s t)
    (hd : s.done = false) : s.lineEnd? = none ∧ t.lineEnd? = none ∨
      ∃ p q, s.lineEnd? = some p ∧ t.lineEnd? = some q ∧ AtLine p q := by
  obtain ⟨line, hlayout⟩ := h.layout
  have hstarted : t.layout.started = s.layout.started := by rw [hlayout]; rfl
  rw [Scanner.lineEnd?, Scanner.lineEnd?, hstarted]
  cases hs : s.layout.started with
  | false => exact Or.inr ⟨_, _, rfl, rfl, h.fresh hd hs⟩
  | true =>
    dsimp only
    rw [if_pos rfl, if_pos rfl]
    rcases hrel.leaveLine (hrel.skipBlanks (h.inside hd hs)) with ⟨hp, hq, hline⟩ | ⟨hp, hq⟩
    · rw [if_pos hp, if_pos hq]
      exact Or.inr ⟨_, _, rfl, rfl, hline⟩
    · rw [if_neg hp, if_neg hq]
      exact Or.inl ⟨rfl, rfl⟩

/-- Both sides get ready. -/
theorem Beside.ready (hrel : Place.LineRelation AtLine InLine) (h : Beside AtLine InLine s t)
    (hsearch : ∀ p q, s.waits = false → s.lineEnd? = some p → t.lineEnd? = some q → AtLine p q →
      Place.FoundAlike InLine (p.nextVisible s.config) (q.nextVisible s.config)) :
    Beside AtLine InLine s.ready t.ready := by
  rw [Scanner.ready, Scanner.ready, h.waits]
  cases hw : s.waits with
  | true => exact h
  | false =>
    have hd := (not_waits hw).2
    rw [if_neg Bool.false_ne_true, if_neg Bool.false_ne_true]
    rcases h.lineEnd? hrel hd with ⟨hend, hend'⟩ | ⟨p, q, hend, hend', hline⟩
    · have hstarted := started_of_lineEnd? hend
      rw [hend, hend']
      refine ⟨⟨h.config, h.layout, h.lineFirst, h.done⟩, fun _ hfresh => ?_,
        fun _ _ => hrel.skipBlanks (h.inside hd hstarted)⟩
      rw [show s.layout.started = false from hfresh] at hstarted
      cases hstarted
    · rw [hend, hend']
      exact Alike.openLine ⟨h.config, h.layout, h.lineFirst, h.done⟩
        (hsearch p q hw hend hend' hline)

/-- A line is open where a scanner is ready for a token of it. -/
theorem Readies.started {opening : Option Nat} {s' : Scanner} (h : s.Readies opening s')
    (hw : s'.waits = false) : s'.layout.started = true := by
  cases h with
  | waits h =>
    rw [h] at hw
    cases hw
  | inLine _ hs => exact hs
  | opens => exact started_enter _ _
  | ends => simp [Scanner.waits] at hw

/-- A token that waited stands at the place of the layout, and nothing else changes. -/
theorem pop?_kept {l l' : Layout} {x : Token} (h : l.pop? = some (x, l')) :
    x = .synthetic x.kind l.line l.col ∧ l'.col = l.col ∧ l'.started = l.started := by
  unfold Layout.pop? at h
  split at h
  · cases h
    exact ⟨rfl, rfl, rfl⟩
  split at h
  · cases h
    exact ⟨rfl, rfl, rfl⟩
  split at h
  · cases h
    exact ⟨rfl, rfl, rfl⟩
  · cases h

section

variable {α : Type} {f : Token → α}

/-- Both sides hand out a token that waits. -/
theorem Beside.pop (hf : Token.Observes f) (h : Beside AtLine InLine s t) {x : Token} {l : Layout}
    (hpop : s.layout.pop? = some (x, l)) : ∃ y l', t.layout.pop? = some (y, l') ∧ f y = f x ∧
      Beside AtLine InLine { s with layout := l } { t with layout := l' } := by
  obtain ⟨line, hlayout⟩ := h.layout
  obtain ⟨hx, hcol, hstarted⟩ := pop?_kept hpop
  refine ⟨_, _, by rw [hlayout, pop?_moveTo, hpop]; rfl, ?_, ?_⟩
  · rw [hx]
    exact hf.synthetic _ _ _ _
  · refine ⟨⟨h.config, ⟨line, ?_⟩, h.lineFirst, h.done⟩, fun hd hs => ?_, fun hd hs => ?_⟩
    · dsimp only
      rw [hcol]
    · exact h.fresh hd (hstarted.symm.trans hs)
    · exact h.inside hd (hstarted.symm.trans hs)

/-- Both sides hand out the same token, if they cut off the same one. -/
theorem Beside.scan (hf : Token.Observes f) (h : Beside AtLine InLine s.ready t.ready)
    (hcut : ∀ c cs, s.ready.waits = false → s.ready.place.cursor.rest = c :: cs → c ≠ '\n' →
      InLine s.ready.place t.ready.place → ∃ cs', t.ready.place.cursor.rest = c :: cs' ∧
        f (t.ready.cut c cs').1 = f (s.ready.cut c cs).1 ∧
        InLine (s.ready.cut c cs).2.place (t.ready.cut c cs').2.place) :
    f t.scan.1 = f s.scan.1 ∧ Beside AtLine InLine s.scan.2 t.scan.2 := by
  have hwaits := h.waits
  obtain ⟨line, hlayout⟩ := h.layout
  rw [scan_eq, scan_eq, Scanner.atLine, Scanner.atLine]
  cases hpop : s.ready.layout.pop? with
  | some popped =>
    obtain ⟨y, l', hpop', hobserved, hbeside⟩ := h.pop hf hpop
    rw [hpop']
    exact ⟨hobserved, hbeside⟩
  | none =>
    have hpop' : t.ready.layout.pop? = none := by rw [hlayout, pop?_moveTo, hpop]; rfl
    rw [hpop', h.done]
    dsimp only
    cases hd : s.ready.done with
    | true =>
      refine ⟨?_, h⟩
      rw [if_pos rfl, if_pos rfl, eofToken, eofToken, hlayout]
      exact hf.synthetic _ _ _ _
    | false =>
      have hnext : s.ready.waits = false := by rw [Scanner.waits, hpop, hd]; rfl
      have hstarted := s.readies.started hnext
      obtain ⟨c, cs, hrest, hc⟩ := s.readies.rest hnext
      obtain ⟨cs', hrest', hobserved, hin⟩ :=
        hcut c cs hnext hrest (ne_newline hc) (h.inside hd hstarted)
      rw [if_neg Bool.false_ne_true, if_neg Bool.false_ne_true, hrest, hrest']
      refine ⟨hobserved, ⟨h.config, h.layout, rfl, h.done⟩, fun _ hfresh => ?_, fun _ _ => hin⟩
      rw [show s.ready.layout.started = false from hfresh] at hstarted
      cases hstarted

/-! ## Many tokens -/

theorem nextToken_ignored (h : s.config.ignored.covers s.scan.1.kind = true) :
    s.nextToken = s.scan.2.nextToken := by
  rw [Scanner.nextToken]
  dsimp only
  rw [dif_pos h]

variable {R : Scanner → Scanner → Prop}

/-- Both sides return the same token. -/
theorem nextToken_eq_of_scan (hf : Token.Observes f)
    (hconfig : ∀ {s t : Scanner}, R s t → t.config = s.config)
    (hscan : ∀ {s t : Scanner}, R s t → f t.scan.1 = f s.scan.1 ∧ R s.scan.2 t.scan.2)
    (h : R s t) : f t.nextToken.1 = f s.nextToken.1 ∧ R s.nextToken.2 t.nextToken.2 := by
  fun_induction Scanner.nextToken s generalizing t with
  | case1 s x s₁ e c ih =>
    obtain ⟨hobserved, hnext⟩ := hscan h
    rw [e] at hobserved hnext
    rw [nextToken_ignored (by rw [hconfig h, hf.kind hobserved, c])]
    exact ih hnext
  | case2 s x s₁ e c =>
    obtain ⟨hobserved, hnext⟩ := hscan h
    rw [e] at hobserved hnext
    have hkept : t.config.ignored.covers t.scan.1.kind = false := by
      rw [hconfig h, hf.kind hobserved]
      simpa using c
    have hreturned : t.nextToken = t.scan := nextToken_of_scan rfl hkept
    rw [hreturned]
    exact ⟨hobserved, hnext⟩

/-- What each token preserves makes both sides return the same tokens. -/
theorem returned_eq_of_scan (hf : Token.Observes f)
    (hconfig : ∀ {s t : Scanner}, R s t → t.config = s.config)
    (hscan : ∀ {s t : Scanner}, R s t → f t.scan.1 = f s.scan.1 ∧ R s.scan.2 t.scan.2)
    (h : R s t) (n : Nat) : (t.returned n).map f = (s.returned n).map f := by
  induction n generalizing s t with
  | zero => rfl
  | succ n ih =>
    obtain ⟨hobserved, hnext⟩ := nextToken_eq_of_scan hf hconfig hscan h
    rw [Scanner.returned, Scanner.returned, List.map_cons, List.map_cons, hobserved, ih hnext]

end

end Scanner

end LayoutLR
