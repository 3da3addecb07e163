/-
  Layout-aware LR toolkit — what a scanner does in one call.

  A call has two halves.  First the scanner gets ready: unless tokens wait, it goes
  on to the next visible character, and if a further line starts there, the layout
  tokens of that line wait from then on.  Then it hands out what waits, or cuts off
  a token, or is at the end.

  * `Cursor.Passes`, `Place.Passes`: going on over characters that may be left out;
  * `Scanner.ready`, `Scanner.scan_eq`: the two halves of a call;
  * `Scanner.Readies`, `Scanner.Emits`: all that each half can do;
  * `Scanner.after`, `Scanner.returned`, `Scanner.met`: many calls, and what is met on
    the way;
  * `Scanner.met_induction`: what every call preserves.
-/
import LayoutLR.Proofs.Token.Scanning

namespace LayoutLR

open Text

/-! ## Going on -/

/-- Going on inside a run.  Where nothing is ignored, only blanks are gone over. -/
def Cursor.Passes (cfg : Config) (cur cur' : Cursor) : Prop :=
  ∃ skipped, cur.rest = skipped ++ cur'.rest ∧ cur'.pos = cur.pos + byteSize skipped ∧
    (cfg.ignored = {} → ∀ c ∈ skipped, isBlank c = true)

/-- Going on inside a run, or from its end to the next one. -/
inductive Place.Passes (cfg : Config) : Place → Place → Prop
  | refl (p : Place) : Passes cfg p p
  | inRun {p q : Place} {cur : Cursor} (hcur : p.cursor.Passes cfg cur)
      (h : Passes cfg { p with cursor := cur } q) : Passes cfg p q
  | next {p q : Place} {line : Nat} (hrest : p.cursor.rest = [])
      (h : Passes cfg (p.nextNode line) q) : Passes cfg p q

@[simp]
theorem Text.byteSize_nil : byteSize [] = 0 := rfl

@[simp]
theorem Text.byteSize_cons (c : Char) (cs : List Char) :
    byteSize (c :: cs) = c.utf8Size + byteSize cs := rfl

@[simp]
theorem Text.byteSize_append (cs ds : List Char) :
    byteSize (cs ++ ds) = byteSize cs + byteSize ds := by
  rw [byteSize, List.map_append, total_append]
  rfl

/-- Whether no further level can be opened. -/
def Layout.isFull (l : Layout) : Bool :=
  l.inner.length + 1 == maxIndentDepth

namespace Cursor

variable {cfg : Config} {cur cur' cur'' : Cursor}

theorem Passes.refl (cfg : Config) (cur : Cursor) : cur.Passes cfg cur :=
  ⟨[], rfl, rfl, fun _ => nofun⟩

theorem Passes.trans (h : cur.Passes cfg cur') (h' : cur'.Passes cfg cur'') :
    cur.Passes cfg cur'' := by
  obtain ⟨skipped, hrest, hpos, hblank⟩ := h
  obtain ⟨skipped', hrest', hpos', hblank'⟩ := h'
  refine ⟨skipped ++ skipped', ?_, ?_, fun hi c hc => ?_⟩
  · rw [hrest, hrest', List.append_assoc]
  · rw [hpos', hpos, byteSize_append, Nat.add_assoc]
  · exact (List.mem_append.1 hc).elim (hblank hi c) (hblank' hi c)

theorem step_pos {c : Char} {cs : List Char} (h : cur.rest = c :: cs) :
    cur.step.pos = cur.pos + c.utf8Size := by
  rw [step, h]
  dsimp only
  split <;> rfl

/-- The bytes of the characters that were gone over are counted. -/
theorem advance_pos (n : Nat) (cur : Cursor) :
    (cur.advance n).pos = cur.pos + byteSize (cur.rest.take n) := by
  induction n generalizing cur with
  | zero => rfl
  | succ n ih =>
    rw [advance, ih, step_rest]
    cases h : cur.rest with
    | nil => simp [step, h]
    | cons c cs => simp [step_pos h, Nat.add_assoc]

/-- Going over blanks. -/
theorem advance_passes {n : Nat} (h : cfg.ignored = {} → ∀ c ∈ cur.rest.take n, isBlank c = true) :
    cur.Passes cfg (cur.advance n) :=
  ⟨cur.rest.take n, by rw [advance_rest, List.take_append_drop], advance_pos n cur, h⟩

theorem skipBlanks_passes (cfg : Config) (cur : Cursor) : cur.Passes cfg cur.skipBlanks := by
  refine advance_passes fun _ c hc => ?_
  have hp : cur.rest.takeWhile (fun c => isBlank c && c != '\n') <+: cur.rest :=
    List.takeWhile_prefix _
  rw [← List.prefix_iff_eq_take.1 hp] at hc
  have := List.all_eq_true.1 List.all_takeWhile c hc
  exact (Bool.and_eq_true_iff.1 this).1

theorem step_passes {cs : List Char} (h : cur.rest = '\n' :: cs) : cur.Passes cfg cur.step := by
  refine advance_passes (n := 1) fun _ c hc => ?_
  rw [h, List.take_one, List.head?_cons] at hc
  rw [List.mem_singleton.1 hc]
  decide

/-- Ignored comments are gone over. -/
theorem skipComments_passes (cfg : Config) (cur : Cursor) :
    cur.Passes cfg (cur.skipComments cfg) := by
  fun_induction skipComments cfg cur with
  | case1 => exact .refl _ _
  | case2 cur c cs h kind n _ hk ih =>
    refine Passes.trans (advance_passes fun hi => ?_) ((skipBlanks_passes cfg _).trans ih)
    -- where nothing is ignored, there is no such comment
    rw [hi] at hk
    cases kind <;> cases hk
  | case3 => exact .refl _ _
  | case4 => exact .refl _ _

/-- The blanks at the front of a line are gone over: there is a visible character, or nothing is
    left of the line. -/
theorem skipBlanks_head {c : Char} {cs : List Char} (h : cur.skipBlanks.rest = c :: cs) :
    c = '\n' ∨ isBlank c = false := by
  rw [Scanner.skipBlanks_rest] at h
  have := List.head?_dropWhile_not (fun c => isBlank c && c != '\n') cur.rest
  rw [h] at this
  simp only [List.head?_cons] at this
  by_cases hc : c = '\n'
  · exact Or.inl hc
  · right
    simpa [hc] using this

theorem skipComments_head (h : ∀ c cs, cur.rest = c :: cs → c = '\n' ∨ isBlank c = false) {c : Char}
    {cs : List Char} (hrest : (cur.skipComments cfg).rest = c :: cs) :
    c = '\n' ∨ isBlank c = false := by
  fun_induction skipComments cfg cur with
  | case1 => exact h c cs hrest
  | case2 _ _ _ _ _ _ _ _ ih => exact ih (fun _ _ => skipBlanks_head) hrest
  | case3 => exact h c cs hrest
  | case4 => exact h c cs hrest

end Cursor

namespace Place

variable {cfg : Config} {p q r : Place}

theorem Passes.trans (h : p.Passes cfg q) (h' : q.Passes cfg r) : p.Passes cfg r := by
  induction h with
  | refl => exact h'
  | inRun hcur _ ih => exact .inRun hcur (ih h')
  | next hrest _ ih => exact .next hrest (ih h')

theorem Passes.cursor {cur : Cursor} (h : p.cursor.Passes cfg cur) :
    p.Passes cfg { p with cursor := cur } :=
  .inRun h (.refl _)

theorem blockIndent_blank (cs : List Char) : ∀ c ∈ cs.take (blockIndent cs), isBlank c = true := by
  have htab : isBlank '\t' = true := by decide
  have hspace : isBlank ' ' = true := by decide
  unfold blockIndent
  split
  · simp [htab]
  · simp [hspace]
  · nofun

theorem enterLine_passes (cfg : Config) (node : CodeNode) (cur : Cursor) :
    cur.Passes cfg (enterLine cfg node cur).1 := by
  have hstrip :
      cur.Passes cfg (cur.advance (if node.needsStrip then blockIndent cur.rest else 0)) := by
    refine Cursor.advance_passes fun _ => ?_
    split
    · exact blockIndent_blank cur.rest
    · nofun
  -- the column is set, nothing else
  have hcol : ∀ (cur : Cursor) (col : Nat), cur.Passes cfg { cur with col } := fun cur _ =>
    Cursor.Passes.refl cfg cur
  exact hstrip.trans ((hcol _ _).trans
    ((Cursor.skipBlanks_passes cfg _).trans (Cursor.skipComments_passes cfg _)))

theorem enterLine_head {node : CodeNode} {cur : Cursor} {c : Char} {cs : List Char}
    (h : (enterLine cfg node cur).1.rest = c :: cs) : c = '\n' ∨ isBlank c = false :=
  Cursor.skipComments_head (fun _ _ => Cursor.skipBlanks_head) h

theorem nextVisible_passes (cfg : Config) (p : Place) : p.Passes cfg (p.nextVisible cfg).1 := by
  fun_induction nextVisible cfg p with
  | case1 p => exact .refl p
  | case2 p _ _ _ hempty ih => exact .next (List.isEmpty_iff.1 hempty) ih
  | case3 p node _ _ _ cur indent e hr ih =>
    have hcur := enterLine_passes cfg node p.cursor
    rw [e] at hcur
    exact .inRun hcur (.next hr ih)
  | case4 p node _ _ _ cur indent e rest hr ih =>
    have hcur := enterLine_passes cfg node p.cursor
    rw [e] at hcur
    exact .inRun (hcur.trans (Cursor.step_passes hr)) ih
  | case5 p node _ _ _ cur indent e =>
    have hcur := enterLine_passes cfg node p.cursor
    rw [e] at hcur
    exact .cursor hcur

/-- Where a line is found, a visible character stands at its front. -/
theorem nextVisible_some {column : Nat} (h : p.nextVisible cfg = (q, some column)) :
    ∃ c cs, q.cursor.rest = c :: cs ∧ isBlank c = false := by
  fun_induction nextVisible cfg p with
  | case1 => cases h
  | case2 _ _ _ _ _ ih => exact ih h
  | case3 _ _ _ _ _ _ _ _ _ ih => exact ih h
  | case4 _ _ _ _ _ _ _ _ _ _ ih => exact ih h
  | case5 p node _ _ _ cur indent e c cs hr hc =>
    cases h
    have hhead : (enterLine cfg node p.cursor).1.rest = c :: cs := by rw [e, hr]
    exact ⟨c, cs, hr, (enterLine_head hhead).resolve_left hc⟩

theorem nextVisible_none (h : p.nextVisible cfg = (q, none)) : q.ahead = [] := by
  fun_induction nextVisible cfg p with
  | case1 p hp =>
    cases h
    exact hp
  | case2 _ _ _ _ _ ih => exact ih h
  | case3 _ _ _ _ _ _ _ _ _ ih => exact ih h
  | case4 _ _ _ _ _ _ _ _ _ _ ih => exact ih h
  | case5 => cases h

end Place

/-! ## Tokens with a text -/

/-- Whether tokens of this kind are pieces of the code: they are neither layout nor the end. -/
def Kind.isText (k : Kind) : Bool :=
  !k.isLayout && k != .eof

/-- Where no category is dropped, no token is. -/
theorem Ignored.covers_nothing (k : Kind) : ({} : Ignored).covers k = false := by
  cases k <;> rfl

section

variable {cfg : Config} {c : Char} {cs : List Char}

theorem blockCommentMore_isText (cs : List Char) : (blockCommentMore cs).1.isText = true := by
  fun_induction blockCommentMore cs with
  | case1 => rfl
  | case2 => rfl
  | case3 _ _ _ _ _ e ih =>
    rw [e] at ih
    exact ih

theorem comment?_isText {kind : Kind} {n : Nat} (h : comment? cfg c cs = some (kind, n)) :
    kind.isText = true := by
  unfold comment? at h
  split at h
  · cases h
    rfl
  split at h
  · cases h
    exact blockCommentMore_isText cs.tail
  · cases h

theorem stringMore_isText (quote : Char) (cs : List Char) :
    (stringMore quote cs).1.isText = true := by
  fun_induction stringMore quote cs <;> first | rfl | simp_all

theorem multiStringMore_isText (quote : Char) (fresh : Bool) (cs : List Char) :
    (multiStringMore quote fresh cs).1.isText = true := by
  fun_induction multiStringMore quote fresh cs <;> first | rfl | simp_all

theorem markLexeme_isText (cfg : Config) (c : Char) (cs : List Char) :
    (markLexeme cfg c cs).1.isText = true := by
  unfold markLexeme
  dsimp only
  split
  · rfl
  split <;> rfl

/-- What is cut off is a piece of the code. -/
theorem lexeme_isText (cfg : Config) (first : Bool) (c : Char) (cs : List Char) :
    (lexeme cfg first c cs).1.isText = true := by
  unfold lexeme
  split
  · rfl
  split
  · unfold wordLexeme
    dsimp only
    split <;> rfl
  split
  · unfold stringLexeme
    split
    · exact multiStringMore_isText c true (cs.drop 3)
    · exact stringMore_isText c cs
  split
  · rename_i h
    exact comment?_isText h
  split
  · exact markLexeme_isText cfg c cs
  · rfl

end

/-! ## The two halves of a call -/

namespace Scanner

variable {s s' : Scanner} {t : Token} {cfg : Config}

/-- Whether nothing is looked for any more, or not yet: tokens wait, or all is over. -/
def waits (s : Scanner) : Bool :=
  s.layout.pop?.isSome || s.done

theorem not_waits (h : s.waits = false) : s.layout.pop? = none ∧ s.done = false := by
  obtain ⟨hpop, hd⟩ := Bool.or_eq_false_iff.1 h
  exact ⟨Option.not_isSome_iff_eq_none.1 (by rw [hpop]; exact Bool.false_ne_true), hd⟩

/-- The place from which the next line is looked for, if the current line is through. -/
def lineEnd? (s : Scanner) : Option Place :=
  if s.layout.started then
    let place := { s.place with cursor := s.place.cursor.skipBlanks }
    if place.cursor.rest.head?.getD '\n' = '\n' then some place.leaveLine else none
  else some s.place

/-- A scanner that is about to hand out its next token. -/
def ready (s : Scanner) : Scanner :=
  if s.waits then s
  else match s.lineEnd? with
    | some place => { s with place }.openLine
    | none => { s with place := { s.place with cursor := s.place.cursor.skipBlanks } }

/-- The column of the line that is opened on the way to the next token, if one is. -/
def opening? (s : Scanner) : Option Nat :=
  if s.waits then none else s.lineEnd?.bind fun place => (place.nextVisible s.config).2

/-- The scanner gets ready, and hands out a token. -/
theorem scan_eq (s : Scanner) : s.scan = s.ready.atLine := by
  unfold scan ready waits
  cases hpop : s.layout.pop? with
  | some r => simp [atLine, hpop]
  | none =>
    by_cases hdone : s.done = true
    · simp [atLine, hpop, hdone]
    by_cases hstarted : s.layout.started = true
    · simp only [lineEnd?, hstarted, Option.isSome_none, Bool.false_or, if_neg hdone, if_true,
        Bool.not_true, Bool.false_eq_true, if_false]
      cases hrest : s.place.cursor.skipBlanks.rest with
      | nil => simp
      | cons c cs =>
        by_cases hc : c = '\n'
        · simp [hc]
        · simp [hc, atLine, hpop, hdone, hrest]
    · have hend : s.lineEnd? = some s.place := by simp [lineEnd?, hstarted]
      have hwaits : ¬ ((none : Option (Token × Layout)).isSome || s.done) = true := by
        simpa using hdone
      rw [hend, if_neg hdone, if_pos (by simpa using hstarted), if_neg hwaits]

/-- Where no other token comes first, one is cut off. -/
theorem scan_eq_cut {c : Char} {cs : List Char} (hw : s.ready.waits = false)
    (h : s.ready.place.cursor.rest = c :: cs) : s.scan = s.ready.cut c cs := by
  obtain ⟨hpop, hdone⟩ := not_waits hw
  rw [scan_eq, atLine, hpop, hdone, h]
  rfl

/-- What getting ready can do, with the column of the line that is opened. -/
inductive Readies (s : Scanner) : Option Nat → Scanner → Prop
  | waits (h : s.waits = true) : Readies s none s
  | inLine {place : Place} {c : Char} {cs : List Char} (hw : s.waits = false)
      (hs : s.layout.started = true) (hp : s.place.Passes s.config place)
      (hrest : place.cursor.rest = c :: cs) (hc : isBlank c = false) :
      Readies s none { s with place }
  | opens {place : Place} {column line col : Nat} {tooDeep : List Nat} {c : Char} {cs : List Char}
      (hw : s.waits = false) (hp : s.place.Passes s.config place)
      (hrest : place.cursor.rest = c :: cs) (hc : isBlank c = false) :
      Readies s (some column) { s with
        place, layout := (s.layout.moveTo line col).enter column, lineFirst := true, tooDeep }
  | ends {place : Place} {line col : Nat} (hw : s.waits = false)
      (hp : s.place.Passes s.config place) (hahead : place.ahead = []) :
      Readies s none { s with place, layout := (s.layout.moveTo line col).close, done := true }

theorem leaveLine_passes {p : Place} (h : p.cursor.rest.head?.getD '\n' = '\n') :
    p.Passes cfg p.leaveLine := by
  unfold Place.leaveLine
  cases hrest : p.cursor.rest with
  | nil => exact .next hrest (.refl _)
  | cons c cs =>
    have hc : c = '\n' := by simpa [hrest] using h
    exact .cursor (Cursor.step_passes (hc ▸ hrest))

theorem lineEnd?_passes {place : Place} (h : s.lineEnd? = some place) :
    s.place.Passes s.config place := by
  unfold lineEnd? at h
  dsimp only at h
  split at h
  · split at h
    · rename_i hend
      obtain rfl := Option.some.inj h
      exact .inRun (Cursor.skipBlanks_passes s.config _) (leaveLine_passes hend)
    · cases h
  · obtain rfl := Option.some.inj h
    exact .refl _

theorem readies (s : Scanner) : s.Readies s.opening? s.ready := by
  unfold ready opening?
  cases hw : s.waits with
  | true => exact .waits hw
  | false =>
    cases hend : s.lineEnd? with
    | none =>
      have hstarted : s.layout.started = true := by
        by_contra hs
        simp [lineEnd?, hs] at hend
      simp only [lineEnd?, hstarted, if_true] at hend
      split at hend
      · cases hend
      rename_i hbreak
      obtain ⟨c, cs, hrest⟩ : ∃ c cs, s.place.cursor.skipBlanks.rest = c :: cs := by
        refine List.exists_cons_of_ne_nil fun hnil => hbreak ?_
        simp [hnil]
      refine .inLine hw hstarted (.cursor (Cursor.skipBlanks_passes s.config _)) hrest ?_
      exact (Cursor.skipBlanks_head hrest).resolve_left (by simpa [hrest] using hbreak)
    | some place =>
      have hp := (lineEnd?_passes hend).trans (Place.nextVisible_passes s.config place)
      simp only [Bool.false_eq_true, if_false, Option.bind_some]
      unfold openLine
      cases hv : place.nextVisible s.config with
      | mk q column =>
        rw [hv] at hp
        cases column with
        | some column =>
          obtain ⟨c, cs, hrest, hc⟩ := Place.nextVisible_some hv
          exact .opens hw hp hrest hc
        | none => exact .ends hw hp (Place.nextVisible_none hv)

/-- What handing out a token can do. -/
inductive Emits (s : Scanner) : Token → Scanner → Prop
  | waiting {t : Token} {layout : Layout} (h : s.layout.pop? = some (t, layout)) :
      Emits s t { s with layout }
  | text {c : Char} {cs : List Char} (hpop : s.layout.pop? = none) (hd : s.done = false)
      (hrest : s.place.cursor.rest = c :: cs) : Emits s (s.cut c cs).1 (s.cut c cs).2
  | ended (hpop : s.layout.pop? = none) (hd : s.done = true) : Emits s s.eofToken s

/-- A scanner that is ready, and not at the end, stands in front of a visible character. -/
theorem Readies.rest {opening : Option Nat} (h : s.Readies opening s') (hw : s'.waits = false) :
    ∃ c cs, s'.place.cursor.rest = c :: cs ∧ isBlank c = false := by
  cases h with
  | waits h => rw [h] at hw; cases hw
  | inLine _ _ _ hrest hc => exact ⟨_, _, hrest, hc⟩
  | opens _ _ hrest hc => exact ⟨_, _, hrest, hc⟩
  | ends => simp [Scanner.waits] at hw

theorem emits (s : Scanner) : s.ready.Emits s.scan.1 s.scan.2 := by
  rw [scan_eq]
  unfold atLine
  cases hpop : s.ready.layout.pop? with
  | some r => exact .waiting hpop
  | none =>
    cases hd : s.ready.done with
    | true => exact .ended hpop hd
    | false =>
      obtain ⟨c, cs, hrest, -⟩ := s.readies.rest (by simp [waits, hpop, hd])
      simp only [hrest]
      exact .text hpop hd hrest

theorem pop?_isLayout {l l' : Layout} (h : l.pop? = some (t, l')) :
    t.kind.isLayout = true ∧ t.text = [] := by
  unfold Layout.pop? at h
  split at h
  · cases h
    exact ⟨rfl, rfl⟩
  split at h
  · cases h
    exact ⟨rfl, rfl⟩
  split at h
  · cases h
    exact ⟨rfl, rfl⟩
  · cases h

/-- Only at the end is the end handed out. -/
theorem Emits.ended_of_eof (h : s.Emits t s') (ht : t.kind = .eof) :
    s.layout.pop? = none ∧ s.done = true ∧ t = s.eofToken ∧ s' = s := by
  cases h with
  | waiting h =>
    have := (pop?_isLayout h).1
    rw [ht] at this
    cases this
  | @text c cs _ _ _ =>
    have : (lexeme s.config s.lineFirst c cs).1.isText = true := lexeme_isText _ _ _ _
    rw [show (lexeme s.config s.lineFirst c cs).1 = .eof from ht] at this
    cases this
  | ended hpop hd => exact ⟨hpop, hd, rfl, rfl⟩

/-- Behind the end nothing changes any more. -/
theorem nextToken_ended (hpop : s.layout.pop? = none) (hd : s.done = true) :
    s.nextToken = (s.eofToken, s) := by
  have hscan : s.scan = (s.eofToken, s) := by simp [scan, hpop, hd]
  exact nextToken_of_scan hscan rfl

theorem nextToken_eof (h : s.nextToken.1.kind = .eof) :
    s.nextToken.2.nextToken = s.nextToken := by
  fun_induction nextToken s with
  | case1 s t s₁ e c ih => exact ih h
  | case2 s t s₁ e c =>
    have hemits := s.emits
    rw [e] at hemits
    dsimp only at hemits h ⊢
    obtain ⟨hpop, hd, rfl, rfl⟩ := hemits.ended_of_eof h
    exact nextToken_ended hpop hd

theorem Readies.passes {opening : Option Nat} (h : s.Readies opening s') :
    s.place.Passes s.config s'.place := by
  cases h with
  | waits => exact .refl _
  | inLine _ _ hp => exact hp
  | opens _ hp => exact hp
  | ends _ hp => exact hp

theorem Readies.config {opening : Option Nat} (h : s.Readies opening s') :
    s'.config = s.config := by
  cases h <;> rfl

theorem Emits.config (h : s.Emits t s') : s'.config = s.config := by
  cases h <;> rfl

theorem scan_config (s : Scanner) : s.scan.2.config = s.config :=
  s.emits.config.trans s.readies.config

/-! ## Many calls -/

/-- The scanner after some calls. -/
def after : Nat → Scanner → Scanner
  | 0, s => s
  | n + 1, s => after n s.nextToken.2

/-- The tokens that the first calls return. -/
def returned : Nat → Scanner → List Token
  | 0, _ => []
  | n + 1, s => s.nextToken.1 :: returned n s.nextToken.2

theorem after_succ (s : Scanner) (n : Nat) : s.after (n + 1) = (s.after n).nextToken.2 := by
  induction n generalizing s with
  | zero => rfl
  | succ n ih => exact ih s.nextToken.2

/-- There is a first call that returns the end, and from then on every call does. -/
theorem exists_end (s : Scanner) :
    ∃ n ≤ s.weight, ∀ k, (s.after k).nextToken.1.kind = .eof ↔ n ≤ k := by
  induction hw : s.weight using Nat.strongRecOn generalizing s with
  | ind w ih =>
    subst hw
    by_cases he : s.nextToken.1.kind = .eof
    · refine ⟨0, Nat.zero_le _, fun k => iff_of_true ?_ (Nat.zero_le k)⟩
      -- the end is returned again and again
      have hend : ∀ k, (s.after k).nextToken = s.nextToken := by
        intro k
        induction k with
        | zero => rfl
        | succ k ihk => rw [after_succ, ihk, nextToken_eof he]
      rw [hend, he]
    · have hlt := (s.nextToken_lighter).resolve_right fun h => he h.1
      obtain ⟨n, hn, hiff⟩ := ih _ hlt s.nextToken.2 rfl
      refine ⟨n + 1, by omega, fun k => ?_⟩
      cases k with
      | zero => exact iff_of_false he (by omega)
      | succ k => exact (hiff k).trans (by omega)

/-- What a scanner meets: the front of a visible line, with its column and whether no further
    level can be opened, or a token. -/
inductive Event where
  | line (column : Nat) (full : Bool)
  | token (t : Token)

/-- What is met on the way to the next token, ignored or not. -/
def scanEvents (s : Scanner) : List Event :=
  (s.opening?.map fun column => Event.line column s.layout.isFull).toList ++ [.token s.scan.1]

/-- What is met during a call. -/
def callEvents (s : Scanner) : List Event :=
  match _h : s.scan with
  | (t, s₁) => s.scanEvents ++ if _c : s.config.ignored.covers t.kind then s₁.callEvents else []
termination_by s.weight
decreasing_by
  have h := scan_lighter s
  rw [_h] at h
  rcases h with h | ⟨h, _⟩
  · exact h
  · simp only at h
    simp [h, Ignored.covers] at _c

theorem callEvents_eq (s : Scanner) : s.callEvents = s.scanEvents ++
    if s.config.ignored.covers s.scan.1.kind then s.scan.2.callEvents else [] := by
  rw [callEvents]
  rfl

/-- What is met during the first calls. -/
def met : Nat → Scanner → List Event
  | 0, _ => []
  | n + 1, s => s.callEvents ++ met n s.nextToken.2

/-- The token that was met, if it is not ignored. -/
def Event.returned? (cfg : Config) : Event → Option Token
  | .line _ _ => none
  | .token t => if cfg.ignored.covers t.kind then none else some t

theorem returned?_scanEvents (s : Scanner) : s.scanEvents.filterMap (Event.returned? cfg) =
    if cfg.ignored.covers s.scan.1.kind then [] else [s.scan.1] := by
  have hline : ∀ opening : Option Nat, ((opening.map fun column => Event.line column
      s.layout.isFull).toList.filterMap (Event.returned? cfg)) = [] := by
    intro opening
    cases opening <;> rfl
  rw [scanEvents, List.filterMap_append, hline, List.nil_append]
  by_cases hc : cfg.ignored.covers s.scan.1.kind = true
  · simp [Event.returned?, hc]
  · simp [Event.returned?, hc]

theorem nextToken_config (s : Scanner) : s.nextToken.2.config = s.config := by
  fun_induction nextToken s with
  | case1 s t s₁ e c ih =>
    have := s.scan_config
    rw [e] at this
    exact ih.trans this
  | case2 s t s₁ e c =>
    have := s.scan_config
    rwa [e] at this

theorem returned?_callEvents (s : Scanner) :
    s.callEvents.filterMap (Event.returned? s.config) = [s.nextToken.1] := by
  fun_induction nextToken s with
  | case1 s t s₁ e c ih =>
    have hconfig := s.scan_config
    rw [e] at hconfig
    rw [callEvents_eq, e, if_pos c, List.filterMap_append, returned?_scanEvents, e, if_pos c,
      List.nil_append, ← hconfig]
    exact ih
  | case2 s t s₁ e c =>
    rw [callEvents_eq, e, if_neg c, List.append_nil, returned?_scanEvents, e, if_neg c]

/-- The tokens that are returned are those that are met and not ignored. -/
theorem returned_eq (s : Scanner) (n : Nat) :
    s.returned n = (s.met n).filterMap (Event.returned? s.config) := by
  induction n generalizing s with
  | zero => rfl
  | succ n ih =>
    rw [returned, met, List.filterMap_append, returned?_callEvents, ih, nextToken_config]
    rfl

section

variable {I : List Event → Scanner → Prop} {es : List Event}

/-- What every token preserves, every call preserves. -/
theorem call_induction (hstep : ∀ es s, I es s → I (es ++ s.scanEvents) s.scan.2) (h : I es s) :
    I (es ++ s.callEvents) s.nextToken.2 := by
  fun_induction nextToken s generalizing es with
  | case1 s t s₁ e c ih =>
    have hone := hstep es s h
    rw [e] at hone
    have := ih hone
    rwa [callEvents_eq, e, if_pos c, ← List.append_assoc]
  | case2 s t s₁ e c =>
    have hone := hstep es s h
    rw [e] at hone
    rwa [callEvents_eq, e, if_neg c, List.append_nil]

/-- What every token preserves holds after all calls. -/
theorem met_induction (hstep : ∀ es s, I es s → I (es ++ s.scanEvents) s.scan.2) (h : I es s)
    (n : Nat) : I (es ++ s.met n) (s.after n) := by
  induction n generalizing s es with
  | zero =>
    rw [met, List.append_nil]
    exact h
  | succ n ih =>
    rw [met, ← List.append_assoc]
    exact ih (call_induction hstep h)

end

end Scanner

end LayoutLR
