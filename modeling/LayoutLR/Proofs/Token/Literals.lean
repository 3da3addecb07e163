/-
  Layout-aware LR toolkit — which literals a tokenizer finds again.

  The literals of a grammar are the known texts of its tokenizer.  A literal that is a
  name is found as a whole, since words reach as far as they can.  One that is a run of
  marks is found as a whole too, the longest known text being taken, unless a comment
  starts somewhere in it: comments come before marks, and a run of marks ends in front
  of them.

  * `Config.OpensComment`: where comments start;
  * `markRun_eq_self_iff`, `knownPrefix?_whole`, `knownPrefix?_spec`: runs of marks;
  * `lexeme_name`, `lexeme_marks`, `lexeme_marks_ne`: the token at the start of a literal;
  * `Scanner.kinds_ofText`, `Scanner.first_ofText`: the tokens of a text with one token;
  * `literal_found_iff`: the literals of a grammar.
-/
import Mathlib.Data.List.Infix
import LayoutLR.Proofs.Grammar.Numbering
import LayoutLR.Proofs.Text.Names
import LayoutLR.Proofs.Token.Steps

namespace LayoutLR

open Text

/-! ## Comments in a text -/

/-- Whether a comment starts somewhere in a text: `//` or `/*`, or `#` unless a known text begins
    with it. -/
def Config.OpensComment (cfg : Config) (text : List Char) : Prop :=
  ['/', '/'] <:+: text ∨ ['/', '*'] <:+: text ∨
    '#' ∈ text ∧ ∀ known ∈ cfg.known, known.head? ≠ some '#'

section

variable {cfg : Config} {first : Bool} {c : Char} {cs w run : List Char} {i n : Nat}

theorem hashComments_iff :
    cfg.hashComments = true ↔ ∀ known ∈ cfg.known, known.head? ≠ some '#' := by
  simp [Config.hashComments, Array.forall_mem_iff_forall_getElem]

/-- What starts a comment. -/
theorem commentAhead_iff : commentAhead cfg cs = true ↔ ['/', '/'] <+: cs ∨ ['/', '*'] <+: cs ∨
    ['#'] <+: cs ∧ ∀ known ∈ cfg.known, known.head? ≠ some '#' := by
  rw [← hashComments_iff]
  unfold commentAhead
  split
  · simp
  · simp
  · simp
  · rename_i hline hblock hhash
    refine iff_of_false Bool.false_ne_true ?_
    rintro (⟨more, rfl⟩ | ⟨more, rfl⟩ | ⟨⟨more, rfl⟩, -⟩)
    · exact hline more rfl
    · exact hblock more rfl
    · exact hhash more rfl

/-- A comment starts in a text if one starts at some end of it. -/
theorem opensComment_iff :
    cfg.OpensComment cs ↔ ∃ post, post <:+ cs ∧ commentAhead cfg post = true := by
  rw [Config.OpensComment, ← List.singleton_infix_iff, List.infix_iff_prefix_suffix,
    List.infix_iff_prefix_suffix, List.infix_iff_prefix_suffix]
  constructor
  · rintro (⟨post, hpre, hsuf⟩ | ⟨post, hpre, hsuf⟩ | ⟨⟨post, hpre, hsuf⟩, hknown⟩)
    · exact ⟨post, hsuf, commentAhead_iff.2 (Or.inl hpre)⟩
    · exact ⟨post, hsuf, commentAhead_iff.2 (Or.inr (Or.inl hpre))⟩
    · exact ⟨post, hsuf, commentAhead_iff.2 (Or.inr (Or.inr ⟨hpre, hknown⟩))⟩
  · rintro ⟨post, hsuf, hahead⟩
    rcases commentAhead_iff.1 hahead with hpre | hpre | ⟨hpre, hknown⟩
    · exact Or.inl ⟨post, hpre, hsuf⟩
    · exact Or.inr (Or.inl ⟨post, hpre, hsuf⟩)
    · exact Or.inr (Or.inr ⟨⟨post, hpre, hsuf⟩, hknown⟩)

/-- No comment starts in a name. -/
theorem not_opensComment_name (h : isName cs = true) : ¬ cfg.OpensComment cs := by
  have hall : ∀ d ∈ cs, (isWordChar d || d == '_') = true := by
    cases cs with
    | nil => nofun
    | cons c cs =>
      rw [isName, Bool.and_eq_true, List.all_eq_true] at h
      intro d hd
      rcases List.mem_cons.1 hd with rfl | hd
      · rw [isWordChar, Bool.or_right_comm, h.1, Bool.true_or]
      · exact h.2 d hd
  have hslash : '/' ∉ cs := fun hd => absurd (hall _ hd) (by decide)
  have hhash : '#' ∉ cs := fun hd => absurd (hall _ hd) (by decide)
  rintro (hin | hin | ⟨hd, -⟩)
  · exact hslash (hin.subset List.mem_cons_self)
  · exact hslash (hin.subset List.mem_cons_self)
  · exact hhash hd

/-! ## Runs of marks -/

/-- A run of marks is not cut short if no comment starts in it. -/
theorem markRun_eq_self_iff (hmarks : ∀ c ∈ cs, cfg.isMark c = true) :
    markRun cfg cs = cs ↔ ∀ post, post <:+ cs → commentAhead cfg post = false := by
  induction cs with
  | nil =>
    refine iff_of_true rfl ?_
    rintro post hsuf
    rw [List.suffix_nil.1 hsuf]
    rfl
  | cons c cs ih =>
    have ih := ih fun d hd => hmarks d (List.mem_cons_of_mem _ hd)
    simp only [List.suffix_cons_iff, forall_eq_or_imp]
    rw [← ih, markRun, hmarks c List.mem_cons_self, Bool.true_and]
    cases commentAhead cfg (c :: cs) with
    | true => simp
    | false => simp

theorem markRun_isPrefix (cfg : Config) (cs : List Char) : markRun cfg cs <+: cs := by
  induction cs with
  | nil => exact List.prefix_refl _
  | cons c cs ih =>
    rw [markRun]
    split
    · exact List.prefix_cons_inj c |>.2 ih
    · exact List.nil_prefix

/-- No known text is longer than the longest one. -/
theorem length_le_longest (h : run ∈ cfg.known) : run.length ≤ cfg.longest := by
  have hfold : ∀ (texts : List (List Char)) (n : Nat),
      n ≤ texts.foldl (fun n t => max n t.length) n ∧
      ∀ t ∈ texts, t.length ≤ texts.foldl (fun n t => max n t.length) n := by
    intro texts
    induction texts with
    | nil => exact fun n => ⟨Nat.le_refl n, nofun⟩
    | cons t texts ih =>
      intro n
      obtain ⟨hle, hall⟩ := ih (max n t.length)
      refine ⟨Nat.le_trans (Nat.le_max_left _ _) hle, fun u hu => ?_⟩
      rcases List.mem_cons.1 hu with rfl | hu
      · exact Nat.le_trans (Nat.le_max_right _ _) hle
      · exact hall u hu
  rw [Config.longest, ← Array.foldl_toList]
  exact (hfold _ 0).2 run (Array.mem_toList_iff.2 h)

/-- A run that is known as a whole is taken as a whole. -/
theorem knownPrefix?_whole (hrun : run ≠ []) (hlen : run.length ≤ cfg.longest)
    (h : cfg.lookup run = some i) : knownPrefix? cfg run = some (i, run.length) := by
  obtain ⟨n, hn⟩ := Nat.exists_eq_succ_of_ne_zero (mt List.length_eq_zero_iff.1 hrun)
  have htake : run.take (n + 1) = run := List.take_of_length_le (by omega)
  rw [knownPrefix?, Nat.min_eq_left hlen, hn, List.range_succ, List.reverse_append,
    List.reverse_singleton, List.singleton_append, List.findSome?_cons, htake, h]
  rfl

theorem knownPrefix?_spec (h : knownPrefix? cfg run = some (i, n)) :
    cfg.lookup (run.take n) = some i := by
  obtain ⟨m, -, hm⟩ := List.exists_of_findSome?_eq_some h
  obtain ⟨j, hj, heq⟩ := Option.map_eq_some_iff.1 hm
  cases heq
  exact hj

/-! ## The token at the start -/

/-- Whether a text is a run of marks. -/
def isMarks (text : List Char) : Bool :=
  !text.isEmpty && text.all ({} : Config).isMark

/-- A mark is neither a digit, nor does it start a word or a string. -/
theorem isMark_spec (h : cfg.isMark c = true) : isBlank c = false ∧ c.isDigit = false ∧
    cfg.startsWord c = false ∧ Config.isQuote c = false := by
  simp only [Config.isMark, Bool.and_eq_true, Bool.not_eq_true'] at h
  obtain ⟨⟨⟨⟨⟨hblank, -⟩, hword⟩, hunderscore⟩, hadded⟩, hquote⟩ := h
  obtain ⟨hletter, hnumeral⟩ := Bool.or_eq_false_iff.1 hword
  refine ⟨hblank, ?_, ?_, hquote⟩
  · by_contra hdigit
    have hdigit : c.isDigit = true := by simpa using hdigit
    have hsmall : c.toNat < 0x80 := by
      have : c.toNat ≤ 57 := by
        simp only [Char.isDigit, Bool.and_eq_true, decide_eq_true_eq,
          UInt32.le_iff_toNat_le] at hdigit
        exact hdigit.2
      omega
    rw [isNumeral, if_pos hsmall, hdigit] at hnumeral
    cases hnumeral
  · rw [Config.startsWord, hletter, hadded]
    simpa using hunderscore

/-- What the rest of this section is about: a configuration with default characters that knows a
    text. -/
structure Config.Knows (cfg : Config) (i : Nat) (text : List Char) : Prop where
  plain : cfg = { known := cfg.known }
  known : text ∈ cfg.known
  lookup : ∀ t, cfg.lookup t = some i ↔ t = text

/-- A name that is known is cut off as a whole. -/
theorem lexeme_name (h : isName (c :: cs) = true) (hk : cfg.Knows i (c :: cs)) :
    lexeme cfg first c cs = (.reserved i, cs.length) := by
  obtain ⟨hplain, -, hlookup⟩ := hk
  rw [isName, Bool.and_eq_true, List.all_eq_true] at h
  have hstart : cfg.startsWord c = true := by
    rw [hplain]
    simpa [Config.startsWord] using h.1
  have hmore : cs.takeWhile cfg.continuesWord = cs := by
    have hall : ∀ d ∈ cs, cfg.continuesWord d = true := by
      intro d hd
      rw [hplain]
      simpa [Config.continuesWord] using h.2 d hd
    have hend : (cs ++ []).takeWhile cfg.continuesWord = cs ++ [] :=
      List.takeWhile_append_of_pos hall
    rwa [List.append_nil] at hend
  simp [lexeme, isDigit_name h.1, hstart, wordLexeme, hmore, (hlookup _).2 rfl]

/-- Where no comment is ahead, none is cut off. -/
theorem comment?_eq_none_iff : comment? cfg c cs = none ↔ commentAhead cfg (c :: cs) = false := by
  have htwo : ∀ a b : Char, [a, b] <+: c :: cs ↔ c = a ∧ cs.head? = some b := by
    intro a b
    cases cs with
    | nil => simp
    | cons d ds => simp [eq_comm]
  have hone : ['#'] <+: c :: cs ↔ c = '#' := by simp [eq_comm]
  rw [← Bool.not_eq_true, commentAhead_iff, htwo, htwo, hone, ← hashComments_iff, comment?]
  split
  · rename_i hline
    refine iff_of_false nofun fun hno => hno ?_
    rcases hline with hline | hline
    · exact Or.inl hline
    · exact Or.inr (Or.inr hline)
  · rename_i hline
    split
    · rename_i hblock
      exact iff_of_false nofun fun hno => hno (Or.inr (Or.inl hblock))
    · rename_i hblock
      refine iff_of_true rfl ?_
      rintro (h | h | h)
      · exact hline (Or.inl h)
      · exact hblock h
      · exact hline (Or.inr h)

theorem blockCommentMore_ne_reserved (cs : List Char) : (blockCommentMore cs).1 ≠ .reserved i := by
  fun_induction blockCommentMore cs with
  | case1 => simp
  | case2 => simp
  | case3 _ _ _ _ _ e ih =>
    rw [e] at ih
    exact ih

theorem comment?_ne_reserved {kind : Kind} (h : comment? cfg c cs = some (kind, n)) :
    kind ≠ .reserved i := by
  unfold comment? at h
  split at h
  · cases h
    nofun
  split at h
  · cases h
    exact blockCommentMore_ne_reserved cs.tail
  · cases h

/-- What is cut off a run of marks is the whole run only if the run is a whole. -/
theorem markLexeme_reserved (hlookup : ∀ t, cfg.lookup t = some i → t = c :: cs)
    (h : (markLexeme cfg c cs).1 = .reserved i) : markRun cfg cs = cs := by
  unfold markLexeme at h
  dsimp only at h
  split at h
  · rename_i j n hknown
    cases h
    have htake := hlookup _ (knownPrefix?_spec hknown)
    have hlen := congrArg List.length htake
    rw [List.length_take, List.length_cons, List.length_cons] at hlen
    exact (markRun_isPrefix cfg cs).eq_of_length_le (by omega)
  · split at h <;> cases h

theorem isMarks_cons_iff :
    isMarks (c :: cs) = true ↔ ∀ d ∈ c :: cs, ({} : Config).isMark d = true :=
  List.all_eq_true

/-- At a mark, a comment is cut off, or else marks. -/
theorem lexeme_isMark (first : Bool) (hc : cfg.isMark c = true) (cs : List Char) :
    lexeme cfg first c cs = (comment? cfg c cs).getD (markLexeme cfg c cs) := by
  obtain ⟨-, hdigit, hword, hquote⟩ := isMark_spec hc
  rw [lexeme]
  simp only [hdigit, hword, hquote, hc]
  cases comment? cfg c cs <;> rfl

/-- A run of marks in which a comment starts is not cut off as a whole. -/
theorem lexeme_marks_ne (first : Bool) (h : isMarks (c :: cs) = true) (hk : cfg.Knows i (c :: cs))
    (hopens : cfg.OpensComment (c :: cs)) : (lexeme cfg first c cs).1 ≠ .reserved i := by
  obtain ⟨hplain, -, hlookup⟩ := hk
  have hmarks : ∀ d ∈ c :: cs, cfg.isMark d = true := by
    rw [hplain]
    exact isMarks_cons_iff.1 h
  obtain ⟨hc, hcs⟩ := List.forall_mem_cons.1 hmarks
  obtain ⟨post, hsuf, hahead⟩ := opensComment_iff.1 hopens
  rw [lexeme_isMark first hc]
  cases hcomment : comment? cfg c cs with
  | some comment => exact comment?_ne_reserved hcomment
  | none =>
    -- the comment starts behind the first mark, and the run ends in front of it
    intro hreserved
    have hwhole := markLexeme_reserved (fun t => (hlookup t).1) hreserved
    have hrun := (markRun_eq_self_iff hcs).1 hwhole
    rcases List.suffix_cons_iff.1 hsuf with rfl | hsuf
    · rw [comment?_eq_none_iff.1 hcomment] at hahead
      cases hahead
    · rw [hrun post hsuf] at hahead
      cases hahead

/-- A known run of marks in which no comment starts is cut off as a whole. -/
theorem lexeme_marks (first : Bool) (h : isMarks (c :: cs) = true) (hk : cfg.Knows i (c :: cs))
    (hno : ¬ cfg.OpensComment (c :: cs)) : lexeme cfg first c cs = (.reserved i, cs.length) := by
  obtain ⟨hplain, hknown, hlookup⟩ := hk
  have hmarks : ∀ d ∈ c :: cs, cfg.isMark d = true := by
    rw [hplain]
    exact isMarks_cons_iff.1 h
  obtain ⟨hc, hcs⟩ := List.forall_mem_cons.1 hmarks
  have hfree : ∀ post, post <:+ c :: cs → commentAhead cfg post = false := by
    intro post hsuf
    by_contra hahead
    exact hno (opensComment_iff.2 ⟨post, hsuf, by simpa using hahead⟩)
  have hrun := (markRun_eq_self_iff hcs).2 fun post hsuf =>
    hfree post (hsuf.trans (List.suffix_cons c cs))
  have hcomment := comment?_eq_none_iff.2 (hfree _ (List.suffix_refl _))
  have hwhole := knownPrefix?_whole (List.cons_ne_nil c cs) (length_le_longest hknown)
    ((hlookup _).2 rfl)
  rw [lexeme_isMark first hc, hcomment, Option.getD_none, markLexeme, hrun]
  simp [hwhole]

end

/-! ## A text with one token -/

namespace Place

variable {cfg : Config} {p q : Place} {c : Char} {cs : List Char}

/-- A visible character is not gone over where nothing is ignored. -/
theorem Passes.at_visible (hi : cfg.ignored = {}) (h : p.Passes cfg q)
    (hrest : p.cursor.rest = c :: cs) (hc : isBlank c = false) :
    q.cursor.rest = c :: cs ∧ q.ahead = p.ahead := by
  induction h with
  | refl => exact ⟨hrest, rfl⟩
  | @inRun p q cur hcur _ ih =>
    obtain ⟨skipped, hskipped, -, hblank⟩ := hcur
    cases skipped with
    | nil => exact ih (hskipped.symm.trans hrest)
    | cons d skipped =>
      rw [hrest, List.cons_append] at hskipped
      obtain rfl := (List.cons.inj hskipped).1
      rw [hblank hi c List.mem_cons_self] at hc
      cases hc
  | next hnil =>
    rw [hrest] at hnil
    cases hnil

/-- Behind the last run nothing comes. -/
theorem Passes.last (h : p.Passes cfg q) (hahead : p.ahead.tail = []) (hrest : p.cursor.rest = []) :
    q.cursor.rest = [] := by
  induction h with
  | refl => exact hrest
  | inRun hcur _ ih =>
    obtain ⟨skipped, hskipped, -⟩ := hcur
    rw [hrest] at hskipped
    exact ih hahead (List.append_eq_nil_iff.1 hskipped.symm).2
  | @next p q line _ _ ih =>
    have hnext : p.nextNode line = ⟨p.node + 1, [], ⟨[], 0, line, 0⟩⟩ := by
      rw [nextNode, hahead]
    rw [hnext] at ih
    exact ih rfl rfl

end Place

namespace Scanner

variable {cfg : Config} {s : Scanner} {c : Char} {cs : List Char}

/-- A scanner that has gone through its text, with no level open. -/
structure Through (s : Scanner) : Prop where
  waits : s.waits = false
  last : s.place.ahead.tail = []
  rest : s.place.cursor.rest = []
  inner : s.layout.inner = []

theorem Through.scan_eof (h : s.Through) : s.scan.1.kind = .eof := by
  have hemits := s.emits
  have hready := s.readies
  generalize s.scan = result at hemits ⊢
  obtain ⟨t, s'⟩ := result
  generalize s.ready = r at hemits hready
  generalize s.opening? = opening at hready
  cases hready with
  | waits hw =>
    rw [h.waits] at hw
    cases hw
  | inLine _ _ hp hrest =>
    rw [hp.last h.last h.rest] at hrest
    cases hrest
  | opens _ hp hrest =>
    rw [hp.last h.last h.rest] at hrest
    cases hrest
  | @ends place line col hw hp hahead =>
    obtain ⟨houtdents, hnewline, hindent⟩ := pop?_eq_none.1 (not_waits hw).1
    have hpop : (s.layout.moveTo line col).close.pop? = none := by
      refine pop?_eq_none.2 ⟨?_, hnewline, hindent⟩
      show s.layout.outdents + s.layout.inner.length = 0
      rw [houtdents, h.inner]
      rfl
    cases hemits with
    | waiting hsome =>
      rw [hpop] at hsome
      cases hsome
    | text _ hd => cases hd
    | ended => rfl

/-- At the start of a text, the token of its first character is cut off. -/
theorem first_ofText (hi : cfg.ignored = {}) (hc : isBlank c = false) (cs : List Char) :
    (ofText cfg (c :: cs)).scan.1.kind = (lexeme cfg true c cs).1 ∧
      ((lexeme cfg true c cs).2 = cs.length → (ofText cfg (c :: cs)).scan.2.Through) := by
  have hemits := (ofText cfg (c :: cs)).emits
  have hready := (ofText cfg (c :: cs)).readies
  generalize (ofText cfg (c :: cs)).scan = result at hemits ⊢
  obtain ⟨t, s'⟩ := result
  generalize (ofText cfg (c :: cs)).ready = r at hemits hready
  generalize (ofText cfg (c :: cs)).opening? = opening at hready
  cases hready with
  | waits hw => cases hw
  | inLine _ hs => cases hs
  | @opens place column line col _ d ds _ hp hrest =>
    obtain ⟨hplace, hahead⟩ := hp.at_visible hi rfl hc
    cases hemits with
    | waiting hsome => cases hsome
    | @text d ds hpop hd hrest' =>
      obtain ⟨rfl, rfl⟩ := List.cons.inj (hrest'.symm.trans hplace)
      refine ⟨rfl, fun hlen => ⟨rfl, ?_, ?_, rfl⟩⟩
      · show place.ahead.tail = []
        rw [hahead]
        rfl
      · show (place.cursor.advance ((lexeme cfg true d ds).2 + 1)).rest = []
        rw [Cursor.advance_rest, hplace, hlen]
        simp
    | ended _ hd => cases hd
  | ends hw hp hahead =>
    rw [(hp.at_visible hi rfl hc).2] at hahead
    cases hahead

/-- Where nothing is ignored, the tokens of a text come one by one. -/
theorem kinds_eq (hi : s.config.ignored = {}) : s.tokens.map Token.kind =
    if s.scan.1.kind = .eof then [.eof]
    else s.scan.1.kind :: ({ s.scan.2 with tooDeep := [] } : Scanner).tokens.map Token.kind := by
  have hnext : s.nextToken = s.scan := by
    refine nextToken_of_scan rfl ?_
    rw [hi, Ignored.covers_nothing]
  rw [tokens, stream, hnext]
  by_cases he : s.scan.1.kind = .eof
  · simp [he]
  · simp [he, tokens]

theorem Through.kinds (h : s.Through) (hi : s.config.ignored = {}) :
    s.tokens.map Token.kind = [.eof] := by
  rw [kinds_eq hi, if_pos h.scan_eof]

/-- A text is one token if that is what is cut off at its start, up to its end. -/
theorem kinds_ofText {kind : Kind} (hi : cfg.ignored = {}) (hc : isBlank c = false)
    (hk : kind ≠ .eof) (cs : List Char) : (lexeme cfg true c cs = (kind, cs.length) →
      (ofText cfg (c :: cs)).tokens.map Token.kind = [kind, .eof]) ∧
    ((ofText cfg (c :: cs)).tokens.map Token.kind = [kind, .eof] →
      (lexeme cfg true c cs).1 = kind) := by
  obtain ⟨hfirst, hthrough⟩ := first_ofText hi hc cs
  have hkinds := kinds_eq (s := ofText cfg (c :: cs)) hi
  rw [hfirst] at hkinds
  constructor
  · intro hlex
    have hend := hthrough (by rw [hlex])
    have hconfig : (ofText cfg (c :: cs)).scan.2.config.ignored = {} := by
      rw [scan_config]
      exact hi
    have hclear : Through { (ofText cfg (c :: cs)).scan.2 with tooDeep := [] } :=
      ⟨hend.waits, hend.last, hend.rest, hend.inner⟩
    rw [hkinds, hlex, if_neg hk, hclear.kinds hconfig]
  · intro htokens
    rw [hkinds] at htokens
    split at htokens
    · cases htokens
    · exact (List.cons.inj htokens).1

end Scanner

/-! ## The literals of a grammar -/

/-- How the tokenizer of a grammar cuts up a text, if no category is dropped and no characters are
    added: it knows the literals. -/
def Grammar.literalConfig (g : Grammar) : Config where
  known := g.known.map String.toList

/-- The terminals behind the predefined ones are the known texts. -/
theorem Grammar.Numbered.exists_reserved {g : Grammar} (h : g.Numbered) {s : Nat}
    (hs : Kind.reservedBase ≤ s) (ht : g.isTerminal s = true) :
    ∃ i < g.known.size, s = (Kind.reserved i).num := by
  obtain ⟨others, virtuals, hroles⟩ := h.roles
  have hlen : (Kind.predefined.filterMap Kind.name?).length = Kind.reservedBase := rfl
  have hrole : g.roles[s]?.map Prod.snd = some .terminal := by
    rw [Grammar.isTerminal, beq_iff_eq, Grammar.kind?] at ht
    rw [← ht]
    simp [Grammar.roles, Function.comp_def]
  by_cases hi : s - Kind.reservedBase < g.known.size
  · refine ⟨s - Kind.reservedBase, hi, ?_⟩
    simp only [Kind.num]
    omega
  · -- behind the known texts there is no terminal
    exfalso
    rw [hroles, List.append_assoc, List.getElem?_append_right (by simp [hlen]; omega)] at hrole
    obtain ⟨role, hget, hterminal⟩ := Option.map_eq_some_iff.1 hrole
    have hmem := List.mem_of_getElem? hget
    simp only [List.cons_append, List.mem_cons, List.mem_append, List.mem_map] at hmem
    rcases hmem with rfl | ⟨name, -, rfl⟩ | ⟨name, -, rfl⟩ <;> cases hterminal

/-- The tokenizer of a grammar knows the texts of its terminals. -/
theorem Grammar.Numbered.knows {g : Grammar} (h : g.Numbered) {i : Nat} (hi : i < g.known.size) :
    g.literalConfig.Knows i (g.name (Kind.reserved i).num).toList := by
  have hreserved := h.reserved i hi
  refine ⟨rfl, Array.mem_map_of_mem (Array.mem_of_getElem? hreserved), fun t => ?_⟩
  rw [h.lookup g.literalConfig rfl, hreserved, Option.some_inj, ← String.toList_inj,
    String.toList_ofList, eq_comm]

/-- **A literal is found again unless a comment starts in it.** -/
theorem literal_found_iff {code : List CodeNode} {g : Grammar} (h : Grammar.read code = .ok g)
    {s : Nat} (hs : Kind.reservedBase ≤ s) (ht : g.isTerminal s = true)
    (hname : isName (g.name s).toList = true ∨ isMarks (g.name s).toList = true) :
    (Scanner.ofText g.literalConfig (g.name s).toList).tokens.map (fun t => t.kind.num) =
      [s, Kind.eof.num] ↔ ¬ g.literalConfig.OpensComment (g.name s).toList := by
  have hnumbered := Grammar.numbered_of_read h
  obtain ⟨i, hi, rfl⟩ := hnumbered.exists_reserved hs ht
  have hknows := hnumbered.knows hi
  have hnums : ∀ tokens : List Token, tokens.map (fun t => t.kind.num) =
      [(Kind.reserved i).num, Kind.eof.num] ↔ tokens.map Token.kind = [.reserved i, .eof] := by
    intro tokens
    have hinj : Function.Injective Kind.num := fun _ _ => Kind.num_inj
    rw [← hinj.list_map.eq_iff, List.map_map]
    rfl
  rw [hnums]
  generalize (g.name (Kind.reserved i).num).toList = text at hname hknows ⊢
  cases text with
  | nil => rcases hname with hname | hname <;> cases hname
  | cons c cs =>
    have hblank : isBlank c = false := by
      rcases hname with hname | hname
      · rw [isName, Bool.and_eq_true] at hname
        exact isBlank_name hname.1
      · exact (isMark_spec (List.all_eq_true.1 hname c List.mem_cons_self)).1
    have hreservedKind : Kind.reserved i ≠ .eof := by simp
    have hignored : g.literalConfig.ignored = {} := rfl
    obtain ⟨hwhole, hfirst⟩ := Scanner.kinds_ofText hignored hblank hreservedKind cs
    rcases hname with hname | hname
    · exact iff_of_true (hwhole (lexeme_name hname hknows)) (not_opensComment_name hname)
    · exact ⟨fun htokens hopens => lexeme_marks_ne true hname hknows hopens (hfirst htokens),
        fun hno => hwhole (lexeme_marks true hname hknows hno)⟩

/-- A literal of two marks. -/
theorem literal_found_plus : ∃ g, Grammar.readText "S -> '+='\n" = .ok g ∧
    g.isTerminal 12 = true ∧ isMarks (g.name 12).toList = true ∧
    (Scanner.ofText g.literalConfig (g.name 12).toList).tokens.map (fun t => t.kind.num) =
      [12, Kind.eof.num] := by
  obtain ⟨g, hg, htest⟩ := Grammar.exists_readText "S -> '+='\n" (fun g =>
    g.isTerminal 12 && g.name 12 == "+=") (by decide +kernel)
  rw [Bool.and_eq_true, beq_iff_eq] at htest
  obtain ⟨hterminal, hname⟩ := htest
  have hmarks : isMarks (g.name 12).toList = true := by
    rw [hname]
    decide +kernel
  refine ⟨g, hg, hterminal, hmarks,
    (literal_found_iff hg (by decide) hterminal (Or.inr hmarks)).2 ?_⟩
  rw [hname]
  rintro (hin | hin | ⟨hmem, -⟩)
  · exact absurd (hin.subset List.mem_cons_self) (by decide)
  · exact absurd (hin.subset List.mem_cons_self) (by decide)
  · exact absurd hmem (by decide)

/-- A literal in which a comment starts is not found again. -/
theorem literal_lost_in_comment : ∃ g, Grammar.readText "S -> '//'\n" = .ok g ∧
    g.isTerminal 12 = true ∧ isMarks (g.name 12).toList = true ∧
    (Scanner.ofText g.literalConfig (g.name 12).toList).tokens.map (fun t => t.kind.num) ≠
      [12, Kind.eof.num] := by
  obtain ⟨g, hg, htest⟩ := Grammar.exists_readText "S -> '//'\n" (fun g =>
    g.isTerminal 12 && isMarks (g.name 12).toList &&
      (Scanner.ofText g.literalConfig (g.name 12).toList).tokens.map (fun t => t.kind.num) !=
        [12, Kind.eof.num]) (by decide +kernel)
  simp only [Bool.and_eq_true, bne_iff_ne] at htest
  exact ⟨g, hg, htest.1.1, htest.1.2, htest.2⟩

end LayoutLR
