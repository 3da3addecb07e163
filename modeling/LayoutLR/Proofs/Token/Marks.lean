/-
  Layout-aware LR toolkit — how a run of marks is cut up.

  Where neither a number, nor a word, a string or a comment starts, marks are cut off:
  as many as a known text has, the longest that fits, or else all up to the next place
  at which a known text starts.

  * `Config.EntersMark`, `Config.MarkRun`: where marks are cut off, and what they are
    cut off from;
  * `markRun_iff`: the run of marks is the one that is computed;
  * `knownPrefix?_longest`, `unknownLength_apart`, `unknownLength_stops`: how far known and
    unknown marks reach;
  * `Scanner.scan_marks`: the token that is cut off.
-/
import LayoutLR.Proofs.Token.Literals

namespace LayoutLR

open Text

section

variable {cfg : Config} {first : Bool} {c : Char} {cs text run marks p : List Char} {i n m : Nat}

/-! ## Known texts -/

/-- A known text of at least one character. -/
def Config.IsKnown (cfg : Config) (text : List Char) : Prop :=
  text ≠ [] ∧ text ∈ cfg.known

/-- The longest known text that a run begins with. -/
structure Config.LongestKnown (cfg : Config) (run text : List Char) : Prop where
  ahead : text <+: run
  known : cfg.IsKnown text
  longest : ∀ p, p <+: run → cfg.IsKnown p → p.length ≤ text.length

/-- A part of a run, from its start, that may be an unknown mark: no known text lies in it, and
    one starts behind it unless the run ends there. -/
structure Config.UnknownPart (cfg : Config) (run text : List Char) : Prop where
  ne_nil : text ≠ []
  free : ∀ p, cfg.IsKnown p → ¬ p <:+: text
  stops : ∃ rest, run = text ++ rest ∧ (rest = [] ∨ ∃ p, p <+: rest ∧ cfg.IsKnown p)

theorem findSome?_downward {f : Nat → Option (Nat × Nat)} {r : Nat × Nat}
    (h : (List.range n).reverse.findSome? f = some r) :
    ∃ k < n, f k = some r ∧ ∀ m, k < m → m < n → f m = none := by
  induction n with
  | zero => cases h
  | succ n ih =>
    rw [List.range_succ, List.reverse_append, List.reverse_singleton, List.singleton_append,
      List.findSome?_cons] at h
    cases hn : f n with
    | some r' =>
      rw [hn] at h
      exact ⟨n, by omega, hn.trans h, fun m hm hm' => by omega⟩
    | none =>
      rw [hn] at h
      obtain ⟨k, hk, hf, hlater⟩ := ih h
      refine ⟨k, by omega, hf, fun m hm hm' => ?_⟩
      rcases Nat.eq_or_lt_of_le (Nat.le_of_lt_succ hm') with rfl | hm'
      · exact hn
      · exact hlater m hm hm'

/-- A known text in front of a run is looked up. -/
theorem lookup_isKnown (hknown : Text.Sorted cfg.known) (hp : p <+: run) (h : cfg.IsKnown p) :
    ∃ k < min run.length cfg.longest, p.length = k + 1 ∧
      (cfg.lookup (run.take (k + 1))).isSome := by
  obtain ⟨k, hk⟩ := Nat.exists_eq_succ_of_ne_zero (mt List.length_eq_zero_iff.1 h.1)
  have hrun := hp.length_le
  have hlongest := length_le_longest h.2
  refine ⟨k, by omega, hk, ?_⟩
  rw [← Nat.succ_eq_add_one, ← hk, ← List.prefix_iff_eq_take.1 hp]
  exact (search_isSome_iff hknown).2 h.2

/-- The known text that is taken is the longest that the run begins with. -/
theorem knownPrefix?_longest (hknown : Text.Sorted cfg.known)
    (h : knownPrefix? cfg run = some (i, n)) : 0 < n ∧ n ≤ run.length ∧
      cfg.known[i]? = some (run.take n) ∧ cfg.LongestKnown run (run.take n) := by
  obtain ⟨k, hk, hfound, hlater⟩ := findSome?_downward h
  obtain ⟨j, hj, heq⟩ := Option.map_eq_some_iff.1 hfound
  cases heq
  have hlen : k + 1 ≤ run.length := by omega
  have hentry := search_spec hj
  refine ⟨k.succ_pos, hlen, hentry, List.take_prefix _ _, ⟨?_, Array.mem_of_getElem? hentry⟩,
    fun p hp hknows => ?_⟩
  · exact List.ne_nil_of_length_pos (by rw [List.length_take_of_le hlen]; exact k.succ_pos)
  · obtain ⟨l, hl, hlength, hsome⟩ := lookup_isKnown hknown hp hknows
    rw [List.length_take_of_le hlen]
    by_contra hlt
    have hnone := hlater l (by omega) hl
    rw [Option.map_eq_none_iff] at hnone
    rw [hnone] at hsome
    cases hsome

/-- No known text is taken if the run begins with none. -/
theorem knownPrefix?_eq_none_iff (hknown : Text.Sorted cfg.known) :
    knownPrefix? cfg run = none ↔ ∀ p, p <+: run → ¬ cfg.IsKnown p := by
  constructor
  · intro h p hp hknows
    obtain ⟨k, hk, -, hsome⟩ := lookup_isKnown hknown hp hknows
    have hnone := List.findSome?_eq_none_iff.1 h k (List.mem_reverse.2 (List.mem_range.2 hk))
    rw [Option.map_eq_none_iff] at hnone
    rw [hnone] at hsome
    cases hsome
  · intro h
    by_contra hsome
    obtain ⟨⟨i, n⟩, hfound⟩ := Option.ne_none_iff_exists'.1 hsome
    obtain ⟨-, -, -, hlongest⟩ := knownPrefix?_longest hknown hfound
    exact h _ hlongest.ahead hlongest.known

/-! ## Unknown marks -/

theorem unknownLength_le (cfg : Config) (run : List Char) :
    unknownLength cfg run ≤ run.length := by
  fun_induction unknownLength cfg run with
  | case1 => exact Nat.le_refl 0
  | case2 c cs h => simp
  | case3 c cs h ih => simpa using ih

/-- An unknown mark has no known text behind its first character. -/
theorem unknownLength_apart (hm : 0 < m) (h : m < unknownLength cfg run) :
    knownPrefix? cfg (run.drop m) = none := by
  fun_induction unknownLength cfg run generalizing m with
  | case1 => omega
  | case2 c cs hsome => omega
  | case3 c cs hsome ih =>
    obtain ⟨k, rfl⟩ := Nat.exists_eq_succ_of_ne_zero (Nat.pos_iff_ne_zero.1 hm)
    rw [List.drop_succ_cons]
    cases k with
    | zero => simpa using hsome
    | succ k => exact ih k.succ_pos (by omega)

/-- An unknown mark ends where a known text starts, or where the run does. -/
theorem unknownLength_stops (cfg : Config) (run : List Char) :
    run.drop (unknownLength cfg run) = [] ∨
      (knownPrefix? cfg (run.drop (unknownLength cfg run))).isSome := by
  fun_induction unknownLength cfg run with
  | case1 => exact Or.inl rfl
  | case2 c cs h => exact Or.inr h
  | case3 c cs h ih => exact ih

theorem unknownLength_pos (h : run ≠ []) : 0 < unknownLength cfg run := by
  cases run with
  | nil => exact absurd rfl h
  | cons c cs =>
    rw [unknownLength]
    split <;> omega

/-- No known text lies in an unknown mark. -/
theorem unknown_not_infix (hknown : Text.Sorted cfg.known) (hnone : knownPrefix? cfg run = none)
    (hp : cfg.IsKnown p) : ¬ p <:+: run.take (unknownLength cfg run) := by
  rintro ⟨before, after, heq⟩
  have hlen := congrArg List.length heq
  rw [List.length_append, List.length_append, List.length_take] at hlen
  have hpos := List.length_pos_iff.2 hp.1
  have hrun : run = before ++ (p ++ (after ++ run.drop (unknownLength cfg run))) := by
    rw [← List.append_assoc p, ← List.append_assoc before, ← List.append_assoc before, heq,
      List.take_append_drop]
  have hahead : p <+: run.drop before.length := by
    have hdrop := congrArg (List.drop before.length) hrun
    rw [List.drop_left] at hdrop
    rw [hdrop]
    exact List.prefix_append _ _
  have hfree : knownPrefix? cfg (run.drop before.length) = none := by
    cases hb : before.length with
    | zero => rwa [List.drop_zero]
    | succ k => exact unknownLength_apart k.succ_pos (by omega)
  exact (knownPrefix?_eq_none_iff hknown).1 hfree p hahead hp

/-- What is taken as an unknown mark. -/
theorem unknownLength_part (hknown : Text.Sorted cfg.known) (hnone : knownPrefix? cfg run = none)
    (hne : run ≠ []) : cfg.UnknownPart run (run.take (unknownLength cfg run)) := by
  have hpos : 0 < (run.take (unknownLength cfg run)).length := by
    rw [List.length_take_of_le (unknownLength_le cfg run)]
    exact unknownLength_pos hne
  refine ⟨List.ne_nil_of_length_pos hpos, fun p hp => unknown_not_infix hknown hnone hp, _,
    (List.take_append_drop _ _).symm, (unknownLength_stops cfg run).imp_right fun hsome => ?_⟩
  by_contra hfree
  rw [(knownPrefix?_eq_none_iff hknown).2 fun p hp hknows => hfree ⟨p, hp, hknows⟩] at hsome
  cases hsome

/-! ## Runs of marks -/

/-- Marks that a text begins with, such that no comment starts behind the first of them. -/
structure Config.MarksAhead (cfg : Config) (text marks : List Char) : Prop where
  ahead : marks <+: text
  all : ∀ c ∈ marks, cfg.isMark c = true
  free : ∀ n, 0 < n → n < marks.length → commentAhead cfg (text.drop n) = false

/-- The longest run of marks that a text begins with, up to a comment behind its first
    character. -/
def Config.MarkRun (cfg : Config) (text run : List Char) : Prop :=
  cfg.MarksAhead text run ∧ ∀ marks, cfg.MarksAhead text marks → marks.length ≤ run.length

theorem isPrefix_markRun_iff : marks <+: markRun cfg cs ↔ marks <+: cs ∧
    (∀ c ∈ marks, cfg.isMark c = true) ∧
      ∀ n < marks.length, commentAhead cfg (cs.drop n) = false := by
  induction cs generalizing marks with
  | nil =>
    rw [markRun, List.prefix_nil]
    exact ⟨by rintro rfl; simp, fun h => h.1⟩
  | cons c cs ih =>
    cases marks with
    | nil => simp
    | cons d marks =>
      rw [markRun]
      cases hmark : cfg.isMark c && !commentAhead cfg (c :: cs) with
      | false =>
        refine iff_of_false (by simp) ?_
        rintro ⟨hpre, hmarks, hfree⟩
        obtain rfl := (List.cons_prefix_cons.1 hpre).1
        rw [hmarks d List.mem_cons_self, show commentAhead cfg (d :: cs) = false from
          hfree 0 (Nat.succ_pos _)] at hmark
        cases hmark
      | true =>
        rw [Bool.and_eq_true, Bool.not_eq_true'] at hmark
        rw [if_pos rfl, List.cons_prefix_cons, ih, List.cons_prefix_cons, List.forall_mem_cons]
        constructor
        · rintro ⟨rfl, hpre, hmarks, hfree⟩
          refine ⟨⟨rfl, hpre⟩, ⟨hmark.1, hmarks⟩, fun n hn => ?_⟩
          cases n with
          | zero => exact hmark.2
          | succ n => exact hfree n (Nat.lt_of_succ_lt_succ hn)
        · rintro ⟨⟨rfl, hpre⟩, ⟨-, hmarks⟩, hfree⟩
          exact ⟨rfl, hpre, hmarks, fun n hn => hfree (n + 1) (Nat.succ_lt_succ hn)⟩

theorem marksAhead_nil (cfg : Config) (text : List Char) : cfg.MarksAhead text [] :=
  ⟨List.nil_prefix, nofun, fun n _ hn => absurd hn (Nat.not_lt_zero n)⟩

/-- Marks ahead are a beginning of those that are computed. -/
theorem marksAhead_iff (hc : cfg.isMark c = true) :
    cfg.MarksAhead (c :: cs) marks ↔ marks <+: c :: markRun cfg cs := by
  cases marks with
  | nil => exact iff_of_true (marksAhead_nil cfg _) List.nil_prefix
  | cons d marks =>
    rw [List.cons_prefix_cons, isPrefix_markRun_iff]
    constructor
    · rintro ⟨hahead, hmarks, hfree⟩
      obtain ⟨rfl, hpre⟩ := List.cons_prefix_cons.1 hahead
      exact ⟨rfl, hpre, (List.forall_mem_cons.1 hmarks).2,
        fun n hn => hfree (n + 1) n.succ_pos (Nat.succ_lt_succ hn)⟩
    · rintro ⟨rfl, hpre, hmarks, hfree⟩
      refine ⟨List.cons_prefix_cons.2 ⟨rfl, hpre⟩, List.forall_mem_cons.2 ⟨hc, hmarks⟩,
        fun n hpos hn => ?_⟩
      obtain ⟨k, rfl⟩ := Nat.exists_eq_succ_of_ne_zero (Nat.pos_iff_ne_zero.1 hpos)
      exact hfree k (Nat.lt_of_succ_lt_succ hn)

/-- The longest run of marks is the one that is computed. -/
theorem markRun_iff (hc : cfg.isMark c = true) :
    cfg.MarkRun (c :: cs) run ↔ run = c :: markRun cfg cs := by
  constructor
  · rintro ⟨hahead, hlongest⟩
    exact ((marksAhead_iff hc).1 hahead).eq_of_length_le
      (hlongest _ ((marksAhead_iff hc).2 (List.prefix_refl _)))
  · rintro rfl
    exact ⟨(marksAhead_iff hc).2 (List.prefix_refl _),
      fun marks h => ((marksAhead_iff hc).1 h).length_le⟩

/-! ## The token -/

/-- Marks are cut off from `c` on: neither a number, nor a word, a string or a comment starts
    there, and `c` is a mark. -/
structure Config.EntersMark (cfg : Config) (c : Char) (cs : List Char) : Prop where
  digit : c.isDigit = false
  word : cfg.startsWord c = false
  quote : Config.isQuote c = false
  comment : commentAhead cfg (c :: cs) = false
  mark : cfg.isMark c = true

/-- The characters alone tell that `c` is a mark, comments apart. -/
theorem entersMark_iff : cfg.EntersMark c cs ↔
    cfg.isMark c = true ∧ commentAhead cfg (c :: cs) = false := by
  constructor
  · exact fun h => ⟨h.mark, h.comment⟩
  · rintro ⟨hmark, hcomment⟩
    obtain ⟨-, hdigit, hword, hquote⟩ := isMark_spec hmark
    exact ⟨hdigit, hword, hquote, hcomment, hmark⟩

theorem lexeme_entersMark (h : cfg.EntersMark c cs) : lexeme cfg first c cs = markLexeme cfg c cs := by
  rw [lexeme_isMark first h.mark, comment?_eq_none_iff.2 h.comment]
  rfl

/-- A part of the marks ahead is a part of the text. -/
theorem take_markRun (cs : List Char) (hn : 0 < n) (hlen : n ≤ (c :: markRun cfg cs).length) :
    (c :: cs).take (n - 1 + 1) = (c :: markRun cfg cs).take n := by
  have hahead : c :: markRun cfg cs <+: c :: cs :=
    List.cons_prefix_cons.2 ⟨rfl, markRun_isPrefix cfg cs⟩
  obtain ⟨more, hmore⟩ := hahead
  rw [Nat.sub_add_cancel hn, ← hmore, List.take_append_of_le_length hlen]

end

namespace Scanner

variable {s : Scanner} {c : Char} {cs run : List Char}

/-- **How a run of marks is cut up:** the longest known text in front of it is taken.  Without
    one, the first mark is an error where unknown marks are dropped; else marks are taken up to
    the end of the run or a place at which a known text starts, with no known text among them. -/
theorem scan_marks (hknown : Text.Sorted s.config.known) (hw : s.ready.waits = false)
    (htext : s.ready.place.cursor.rest = c :: cs) (henters : s.config.EntersMark c cs)
    (hrun : s.config.MarkRun (c :: cs) run) :
    ((∃ p, p <+: run ∧ s.config.IsKnown p) →
      ∃ i, s.scan.1.kind = .reserved i ∧ s.config.known[i]? = some s.scan.1.text ∧
        s.config.LongestKnown run s.scan.1.text) ∧
    ((∀ p, p <+: run → ¬ s.config.IsKnown p) →
      (s.config.ignored.mark = true → s.scan.1.kind = .error ∧ s.scan.1.text = [c]) ∧
      (s.config.ignored.mark = false →
        s.scan.1.kind = .mark ∧ s.config.UnknownPart run s.scan.1.text)) := by
  have hcut : s.scan.1.kind = (markLexeme s.config c cs).1 ∧
      s.scan.1.text = (c :: cs).take ((markLexeme s.config c cs).2 + 1) := by
    rw [scan_eq_cut hw htext, cut, s.readies.config, lexeme_entersMark henters]
    exact ⟨rfl, rfl⟩
  generalize s.scan.1 = t at hcut ⊢
  rw [markLexeme] at hcut
  obtain ⟨hkind, hcut⟩ := hcut
  obtain rfl := (markRun_iff henters.mark).1 hrun
  cases hfound : knownPrefix? s.config (c :: markRun s.config cs) with
  | some found =>
    obtain ⟨i, n⟩ := found
    rw [hfound] at hkind hcut
    obtain ⟨hpos, hlen, hentry, hlongest⟩ := knownPrefix?_longest hknown hfound
    rw [take_markRun cs hpos hlen] at hcut
    rw [hkind, hcut]
    exact ⟨fun _ => ⟨i, rfl, hentry, hlongest⟩,
      fun hno => absurd hlongest.known (hno _ hlongest.ahead)⟩
  | none =>
    rw [hfound] at hkind hcut
    have hno := (knownPrefix?_eq_none_iff hknown).1 hfound
    have hne : c :: markRun s.config cs ≠ [] := List.cons_ne_nil _ _
    refine ⟨?_, fun _ => ⟨fun hdropped => ?_, fun hwanted => ?_⟩⟩
    · rintro ⟨p, hp, hknows⟩
      exact absurd hknows (hno p hp)
    · rw [hdropped] at hkind hcut
      exact ⟨hkind, hcut⟩
    · simp only [hwanted, Bool.false_eq_true, if_false] at hkind hcut
      rw [take_markRun cs (unknownLength_pos hne) (unknownLength_le _ _)] at hcut
      rw [hkind, hcut]
      exact ⟨rfl, unknownLength_part hknown hfound hne⟩

/-- Unknown marks in front of a known one. -/
theorem scan_marks_beforePlus :
    let s := ofText { known := #[['+']] } ['!', '?', '+', 'b']
    Text.Sorted s.config.known ∧ s.ready.waits = false ∧
      s.ready.place.cursor.rest = ['!', '?', '+', 'b'] ∧
      s.config.EntersMark '!' ['?', '+', 'b'] ∧
      s.config.MarkRun ['!', '?', '+', 'b'] ['!', '?', '+'] ∧
      s.scan.1.kind = .mark ∧ s.config.UnknownPart ['!', '?', '+'] s.scan.1.text := by
  intro s
  have hknown : Text.Sorted s.config.known := List.pairwise_singleton _ _
  have hw : s.ready.waits = false := by decide +kernel
  have htext : s.ready.place.cursor.rest = ['!', '?', '+', 'b'] := by decide +kernel
  have henters : s.config.EntersMark '!' ['?', '+', 'b'] :=
    entersMark_iff.2 (by decide +kernel)
  have hrun : s.config.MarkRun ['!', '?', '+', 'b'] ['!', '?', '+'] :=
    (markRun_iff henters.mark).2 (by decide +kernel)
  have hno : ∀ p, p <+: ['!', '?', '+'] → ¬ s.config.IsKnown p := by
    rintro p hp ⟨-, hmem⟩
    obtain rfl : p = ['+'] := by simpa [s, ofText, ofCode] using hmem
    revert hp
    decide
  refine ⟨hknown, hw, htext, henters, hrun, ?_⟩
  exact ((scan_marks hknown hw htext henters hrun).2 hno).2 rfl

end Scanner

end LayoutLR
