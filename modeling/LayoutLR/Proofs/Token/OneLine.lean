/-
  Layout-aware LR toolkit — a token in front of a line break depends on nothing below it.

  The rules for tokens look at most one character beyond the token.  So a token
  that ends in front of some line break is the same whatever follows below that
  line break.  In each lemma `l` is what is left in front of it, most often the rest of
  a line, and `r` and `r'` are two ways to go on below it.

  * `comment?_line`, `numberLength_line`, `stringLexeme_line`, `markLexeme_line`,
    `wordLexeme_line`: the rules for the single kinds;
  * `lexeme_line`: all of them.
-/
import LayoutLR.Proofs.Token.Literals

namespace LayoutLR

open Text

variable {cfg : Config} {c quote : Char} {l r r' : List Char}

/-! ## What follows first -/

theorem head?_line (l r r' : List Char) : (l ++ '\n' :: r').head? = (l ++ '\n' :: r).head? := by
  cases l <;> rfl

theorem isWordChar_newline : isWordChar '\n' = false := by decide

theorem isMark_newline (cfg : Config) : cfg.isMark '\n' = false := by
  have hblank : isBlank '\n' = true := by decide
  simp [Config.isMark, hblank]

theorem takeWhile_line {p : Char → Bool}
    (h : ((l ++ '\n' :: r).takeWhile p).length ≤ l.length) :
    (l ++ '\n' :: r').takeWhile p = (l ++ '\n' :: r).takeWhile p := by
  induction l with
  | nil =>
    rw [List.nil_append, List.takeWhile_cons] at h
    split at h
    · cases h
    · rename_i hp
      rw [List.nil_append, List.nil_append, List.takeWhile_cons_of_neg hp,
        List.takeWhile_cons_of_neg hp]
  | cons c l ih =>
    rw [List.cons_append, List.takeWhile_cons] at h
    rw [List.cons_append, List.cons_append, List.takeWhile_cons, List.takeWhile_cons]
    split at h
    · rename_i hp
      rw [if_pos hp, if_pos hp, ih (Nat.le_of_succ_le_succ h)]
    · rename_i hp
      rw [if_neg hp, if_neg hp]

theorem takeWhile_break {p : Char → Bool} (hp : p '\n' = false) (l r : List Char) :
    (l ++ '\n' :: r).takeWhile p = l.takeWhile p := by
  induction l with
  | nil => simp [hp]
  | cons c l ih => rw [List.cons_append, List.takeWhile_cons, List.takeWhile_cons, ih]

theorem le_of_unbroken {n : Nat} (h : '\n' ∉ (l ++ '\n' :: r).take n) : n ≤ l.length := by
  by_contra hlt
  refine h ?_
  rw [List.take_append, List.mem_append]
  right
  obtain ⟨k, hk⟩ := Nat.exists_eq_add_of_lt (Nat.lt_of_not_le hlt)
  rw [show n - l.length = k + 1 by omega, List.take_succ_cons]
  exact List.mem_cons_self

theorem take_line {n : Nat} (hn : n ≤ l.length) : (l ++ '\n' :: r).take n = l.take n :=
  List.take_append_of_le_length hn

/-! ## Comments -/

theorem blockCommentMore_cons (c : Char) (cs : List Char) : blockCommentMore (c :: cs) =
    if c = '*' ∧ cs.head? = some '/' then (.blockComment, 2)
    else ((blockCommentMore cs).1, (blockCommentMore cs).2 + 1) := by
  split
  · rename_i h
    obtain ⟨rfl, hhead⟩ := h
    obtain ⟨ds, rfl⟩ := List.head?_eq_some_iff.1 hhead
    rfl
  · rename_i h
    rw [blockCommentMore]
    rintro ds rfl rfl
    exact h ⟨rfl, rfl⟩

theorem blockCommentMore_line (h : (blockCommentMore (l ++ '\n' :: r)).2 ≤ l.length) :
    blockCommentMore (l ++ '\n' :: r') = blockCommentMore (l ++ '\n' :: r) := by
  induction l with
  | nil =>
    have hbreak : ¬ ('\n' = '*' ∧ r.head? = some '/') := fun h => absurd h.1 (by decide)
    rw [List.nil_append, blockCommentMore_cons, if_neg hbreak] at h
    cases h
  | cons c l ih =>
    rw [List.cons_append, blockCommentMore_cons] at h
    rw [List.cons_append, List.cons_append, blockCommentMore_cons, blockCommentMore_cons,
      head?_line l r r']
    split at h
    · rename_i hend
      rw [if_pos hend, if_pos hend]
    · rename_i hend
      rw [if_neg hend, if_neg hend, ih (Nat.le_of_succ_le_succ h)]

theorem comment?_newline (cfg : Config) (cs : List Char) : comment? cfg '\n' cs = none := by
  rw [comment?, if_neg (by simp), if_neg (by simp)]

theorem comment?_line {comment : Kind × Nat} (h : comment? cfg c (l ++ '\n' :: r) = some comment)
    (hn : comment.2 ≤ l.length) : comment? cfg c (l ++ '\n' :: r') = some comment := by
  unfold comment? at h ⊢
  rw [head?_line l r r']
  split at h
  · rename_i hline
    cases h
    rw [if_pos hline, takeWhile_line hn]
  · rename_i hline
    rw [if_neg hline]
    split at h
    · rename_i hblock
      cases h
      rw [if_pos hblock]
      cases l with
      | nil => exact absurd (Option.some.inj hblock.2) (by decide)
      | cons d l =>
        rw [List.cons_append, List.tail_cons] at hn ⊢
        rw [List.cons_append, List.tail_cons, blockCommentMore_line (Nat.le_of_succ_le_succ hn)]
    · cases h

theorem comment?_line_none (h : comment? cfg c (l ++ '\n' :: r) = none) :
    comment? cfg c (l ++ '\n' :: r') = none := by
  unfold comment? at h ⊢
  rw [head?_line l r r']
  split at h
  · cases h
  · rename_i hline
    rw [if_neg hline]
    split at h
    · cases h
    · rename_i hblock
      rw [if_neg hblock]

theorem blockCommentMore_kind (cs : List Char) :
    (blockCommentMore cs).1 = .error ∨
      (blockCommentMore cs).1 = .blockComment ∧ 2 ≤ (blockCommentMore cs).2 := by
  induction cs with
  | nil => exact Or.inl rfl
  | cons c cs ih =>
    rw [blockCommentMore_cons]
    split
    · exact Or.inr ⟨rfl, Nat.le_refl 2⟩
    · exact ih.imp_right fun h => ⟨h.1, Nat.le_succ_of_le h.2⟩

theorem blockCommentMore_le (cs : List Char) : (blockCommentMore cs).2 ≤ cs.length := by
  fun_induction blockCommentMore cs with
  | case1 => exact Nat.le_refl 0
  | case2 cs => simp
  | case3 c cs _ kind n hmore ih =>
    rw [hmore] at ih
    exact Nat.succ_le_succ ih

/-- A block comment does not end with a line break. -/
theorem blockCommentMore_ne_break (h : (blockCommentMore (l ++ '\n' :: r)).1 = .blockComment) :
    (blockCommentMore (l ++ '\n' :: r)).2 ≠ l.length + 1 := by
  induction l with
  | nil =>
    have hbreak : ¬ ('\n' = '*' ∧ r.head? = some '/') := fun h => absurd h.1 (by decide)
    rw [List.nil_append, blockCommentMore_cons, if_neg hbreak] at h ⊢
    have hkind : (blockCommentMore r).1 ≠ .error := fun he => by simp [he] at h
    have hlong := ((blockCommentMore_kind r).resolve_left hkind).2
    simp only [List.length_nil]
    omega
  | cons c l ih =>
    rw [List.cons_append, blockCommentMore_cons] at h ⊢
    split at h
    · rename_i hend
      rw [if_pos hend]
      intro hlength
      obtain rfl : l = [] := List.length_eq_zero_iff.1 (by simpa using hlength.symm)
      exact absurd (Option.some.inj hend.2) (by decide)
    · rename_i hend
      rw [if_neg hend]
      exact fun hlength => ih h (Nat.succ.inj hlength)

/-- A comment that ends behind a line break is a block comment, and does not end right there. -/
theorem comment?_beyond {kind : Kind} {n : Nat}
    (h : comment? cfg c (l ++ '\n' :: r) = some (kind, n)) (hn : l.length < n) (r' : List Char) :
    (∃ n', comment? cfg c (l ++ '\n' :: r') = some (.error, n') ∨
      comment? cfg c (l ++ '\n' :: r') = some (.blockComment, n')) ∧
    (kind = .error ∨ kind = .blockComment ∧ n ≠ l.length + 1 ∧ n ≤ (l ++ '\n' :: r).length) := by
  unfold comment? at h ⊢
  rw [head?_line l r r']
  split at h
  · cases h
    rw [takeWhile_break (by simp)] at hn
    exact absurd (List.takeWhile_prefix _).length_le (Nat.not_le_of_lt hn)
  · rename_i hline
    rw [if_neg hline]
    split at h
    · rename_i hblock
      rw [if_pos hblock]
      cases l with
      | nil => exact absurd (Option.some.inj hblock.2) (by decide)
      | cons d l =>
        rw [List.cons_append, List.tail_cons] at h ⊢
        cases h
        refine ⟨⟨_, (blockCommentMore_kind (l ++ '\n' :: r')).imp (fun h => by rw [← h])
          fun h => by rw [← h.1]⟩, (blockCommentMore_kind _).imp_right fun h => ⟨h.1, ?_, ?_⟩⟩
        · exact fun hlength => blockCommentMore_ne_break h.1 (Nat.succ.inj hlength)
        · exact Nat.succ_le_succ (blockCommentMore_le _)
    · cases h

/-- A block comment is closed if its end stands somewhere. -/
theorem blockCommentMore_closes (cs : List Char) :
    (blockCommentMore cs).1 = .blockComment ↔ ['*', '/'] <:+: cs := by
  induction cs with
  | nil => exact iff_of_false nofun (by decide)
  | cons c cs ih =>
    have hend : c = '*' ∧ cs.head? = some '/' ↔ ['*', '/'] <+: c :: cs := by
      rw [List.cons_prefix_cons, List.head?_eq_some_iff]
      refine and_congr eq_comm ⟨?_, ?_⟩
      · rintro ⟨ds, rfl⟩
        exact ⟨ds, rfl⟩
      · rintro ⟨ds, rfl⟩
        exact ⟨ds, rfl⟩
    rw [blockCommentMore_cons, List.infix_cons_iff, ← ih, ← hend]
    split
    · rename_i h
      exact iff_of_true rfl (Or.inl h)
    · rename_i h
      exact (or_iff_right h).symm

theorem infix_break : ['*', '/'] <:+: l ++ '\n' :: r ↔ ['*', '/'] <:+: l ∨ ['*', '/'] <:+: r := by
  induction l with
  | nil => simp [List.infix_cons_iff, List.cons_prefix_cons]
  | cons c l ih =>
    rw [List.cons_append, List.infix_cons_iff, List.infix_cons_iff, ih, or_assoc,
      List.cons_prefix_cons, List.cons_prefix_cons]
    refine or_congr (and_congr_right fun _ => ?_) Iff.rfl
    cases l <;> simp [List.cons_prefix_cons]

/-- A block comment that is closed or not depending on what stands below a line break. -/
theorem comment?_closes {n n' : Nat} (h : comment? cfg c (l ++ '\n' :: r) = some (.error, n))
    (h' : comment? cfg c (l ++ '\n' :: r') = some (.blockComment, n')) :
    ¬ ['*', '/'] <:+: r ∧ ['*', '/'] <:+: r' := by
  unfold comment? at h h'
  rw [head?_line l r r'] at h'
  split at h
  · cases h
  rename_i hline
  rw [if_neg hline] at h'
  split at h
  · rename_i hblock
    rw [if_pos hblock] at h'
    cases l with
    | nil => exact absurd (Option.some.inj hblock.2) (by decide)
    | cons d l =>
      have hopen : (blockCommentMore (l ++ '\n' :: r)).1 = .error :=
        congrArg Prod.fst (Option.some.inj h)
      have hclosed : (blockCommentMore (l ++ '\n' :: r')).1 = .blockComment :=
        congrArg Prod.fst (Option.some.inj h')
      have hnot : ¬ ['*', '/'] <:+: l ++ '\n' :: r := by
        rw [← blockCommentMore_closes, hopen]
        nofun
      rw [blockCommentMore_closes] at hclosed
      rw [infix_break, not_or] at hnot
      exact ⟨hnot.2, (infix_break.1 hclosed).resolve_left hnot.1⟩
  · cases h

theorem commentAhead_line (cfg : Config) (c : Char) (l r r' : List Char) :
    commentAhead cfg (c :: (l ++ '\n' :: r')) = commentAhead cfg (c :: (l ++ '\n' :: r)) := by
  cases h : commentAhead cfg (c :: (l ++ '\n' :: r)) with
  | false => exact comment?_eq_none_iff.1 (comment?_line_none (comment?_eq_none_iff.2 h))
  | true =>
    by_contra hno
    have hnone := comment?_eq_none_iff.2 (Bool.eq_false_iff.2 hno)
    rw [comment?_eq_none_iff.1 (comment?_line_none hnone)] at h
    cases h

/-! ## Numbers and strings -/

theorem numberMore_line {exponents : List Char} {seenPoint afterExponent : Bool}
    (h : numberMore cfg exponents seenPoint afterExponent (l ++ '\n' :: r) ≤ l.length) :
    numberMore cfg exponents seenPoint afterExponent (l ++ '\n' :: r') =
      numberMore cfg exponents seenPoint afterExponent (l ++ '\n' :: r) := by
  induction l generalizing seenPoint afterExponent with
  | nil =>
    have hpoint : ¬ ('\n' = '.' ∨ '\n' = ',') := by decide
    have hsign : ¬ ('\n' = '+' ∨ '\n' = '-') := by decide
    simp only [List.nil_append, numberMore, isWordChar_newline, Bool.false_eq_true, if_false,
      if_neg hpoint, if_neg hsign] at h ⊢
    split at h
    · rename_i hno
      rw [if_pos hno, if_pos hno]
    · cases h
  | cons c l ih =>
    simp only [List.cons_append, numberMore, head?_line l r r', List.length_cons] at h ⊢
    split_ifs at h ⊢ <;> first | rfl | exact congrArg Nat.succ (ih (Nat.le_of_succ_le_succ h))

theorem numberLength_line (h : numberLength cfg c (l ++ '\n' :: r) ≤ l.length) :
    numberLength cfg c (l ++ '\n' :: r') = numberLength cfg c (l ++ '\n' :: r) := by
  unfold numberLength at h ⊢
  rw [head?_line l r r']
  split at h
  · rename_i hhex
    rw [if_pos hhex, if_pos hhex]
    cases l with
    | nil => rcases hhex.2 with hx | hx <;> exact absurd (Option.some.inj hx) (by decide)
    | cons d l =>
      rw [List.cons_append, List.tail_cons] at h
      rw [List.cons_append, List.cons_append, List.tail_cons, List.tail_cons,
        numberMore_line (Nat.le_of_succ_le_succ h)]
  · rename_i hhex
    rw [if_neg hhex, if_neg hhex]
    exact numberMore_line h

theorem stringMore_newline (quote : Char) (cs : List Char) :
    stringMore quote ('\n' :: cs) = (.error, 0) := by
  cases cs <;> rw [stringMore, if_pos rfl]

theorem stringMore_escape (quote d : Char) (cs : List Char) : stringMore quote ('\\' :: d :: cs) =
    if d = '\n' then (.error, 1) else ((stringMore quote cs).1, (stringMore quote cs).2 + 2) := by
  rw [stringMore, if_neg (by decide), if_pos rfl]

theorem stringMore_cons {quote c : Char} (hc : c ≠ '\\') (cs : List Char) :
    stringMore quote (c :: cs) = if c = '\n' then (.error, 0) else if c = quote then (.string, 1)
      else ((stringMore quote cs).1, (stringMore quote cs).2 + 1) := by
  cases cs <;> simp only [stringMore, if_neg hc]

/-- A string ends in its line, whatever follows. -/
theorem stringMore_line (quote : Char) (r r' : List Char) : ∀ l : List Char,
    stringMore quote (l ++ '\n' :: r') = stringMore quote (l ++ '\n' :: r)
  | [] => by simp only [List.nil_append, stringMore_newline]
  | [c] => by
    by_cases hc : c = '\\'
    · simp only [hc, List.cons_append, List.nil_append, stringMore_escape, if_true]
    · simp only [List.cons_append, List.nil_append, stringMore_cons hc, stringMore_newline]
  | c :: d :: l => by
    by_cases hc : c = '\\'
    · simp only [hc, List.cons_append, stringMore_escape, stringMore_line quote r r' l]
    · have hmore := stringMore_line quote r r' (d :: l)
      rw [List.cons_append, List.cons_append] at hmore
      simp only [List.cons_append, stringMore_cons hc, hmore]

/-- Three quotes stand in front of a line break, or not at all. -/
theorem tripleAhead_break (hquote : quote ≠ '\n') (l r : List Char) :
    tripleAhead quote (l ++ '\n' :: r) = tripleAhead quote l := by
  match l, r with
  | [], [] | [], [_] | [], _ :: _ :: _ => simp [tripleAhead, Ne.symm hquote]
  | [_], [] | [_], _ :: _ => simp [tripleAhead, Ne.symm hquote]
  | [_, _], _ => simp [tripleAhead, Ne.symm hquote]
  | _ :: _ :: _ :: _, _ => rfl

theorem multiStringMore_newline (hquote : quote ≠ '\n') (fresh : Bool) (r : List Char) :
    multiStringMore quote fresh ('\n' :: r) =
      ((multiStringMore quote true r).1, (multiStringMore quote true r).2 + 1) := by
  have htriple : tripleAhead quote ('\n' :: r) = false := tripleAhead_break hquote [] r
  rw [multiStringMore]
  simp [htriple]

/-- The blanks and the quotes at the front of a line stand in front of its line break. -/
theorem multiStringMore_break (hquote : quote ≠ '\n') (fresh : Bool) (c : Char)
    (l r : List Char) : multiStringMore quote fresh (c :: (l ++ '\n' :: r)) =
      let blanks := ((c :: l).takeWhile fun d => d == ' ' || d == '\t').length
      if fresh && tripleAhead quote ((c :: l).drop blanks) then (.multiString, blanks + 3)
      else
        let (kind, n) := multiStringMore quote (c == '\n') (l ++ '\n' :: r)
        (kind, n + 1) := by
  have hblanks : (c :: (l ++ '\n' :: r)).takeWhile (fun d => d == ' ' || d == '\t') =
      (c :: l).takeWhile fun d => d == ' ' || d == '\t' := takeWhile_break (by decide) (c :: l) r
  rw [multiStringMore, hblanks, ← List.cons_append,
    List.drop_append_of_le_length (List.takeWhile_prefix _).length_le, tripleAhead_break hquote]

/-- A string of several lines that ends in front of a line break. -/
theorem multiStringMore_line (hquote : quote ≠ '\n') {fresh : Bool}
    (h : (multiStringMore quote fresh (l ++ '\n' :: r)).2 ≤ l.length) :
    multiStringMore quote fresh (l ++ '\n' :: r') =
      multiStringMore quote fresh (l ++ '\n' :: r) := by
  induction l generalizing fresh with
  | nil =>
    rw [List.nil_append, multiStringMore_newline hquote] at h
    cases h
  | cons c l ih =>
    rw [List.cons_append, multiStringMore_break hquote] at h
    rw [List.cons_append, List.cons_append, multiStringMore_break hquote,
      multiStringMore_break hquote]
    dsimp only at h ⊢
    split
    · rfl
    · rename_i hopen
      rw [if_neg hopen] at h
      rw [ih (Nat.le_of_succ_le_succ h)]

/-- Whether a string of several lines begins is seen in front of the first line break. -/
theorem stringLexeme_break (hquote : quote ≠ '\n') (first : Bool) (l r : List Char) :
    stringLexeme first quote (l ++ '\n' :: r) =
      if first && tripleAhead quote (quote :: l) && (l.drop 2).head?.getD '\n' == '\n' then
        let (kind, n) := multiStringMore quote true ((l ++ '\n' :: r).drop 3)
        (kind, n + 3)
      else stringMore quote (l ++ '\n' :: r) := by
  rw [stringLexeme, ← List.cons_append, tripleAhead_break hquote]
  rcases l with _ | ⟨a, _ | ⟨b, _ | ⟨c, l⟩⟩⟩
  · simp [tripleAhead]
  · simp [tripleAhead]
  · simp
  · simp

/-- A string that ends in front of a line break. -/
theorem stringLexeme_line {first : Bool} (hquote : quote ≠ '\n')
    (h : (stringLexeme first quote (l ++ '\n' :: r)).2 ≤ l.length) :
    stringLexeme first quote (l ++ '\n' :: r') = stringLexeme first quote (l ++ '\n' :: r) := by
  rw [stringLexeme_break hquote] at h
  rw [stringLexeme_break hquote, stringLexeme_break hquote]
  split
  · rename_i hopens
    rw [if_pos hopens] at h
    match l, h with
    | [], h | [_], h | [_, _], h => simp at h
    | a :: b :: d :: l, h =>
      have hmore : (multiStringMore quote true (l ++ '\n' :: r)).2 ≤ l.length :=
        Nat.le_of_add_le_add_right h
      have hline : multiStringMore quote true (l ++ '\n' :: r') = _ :=
        multiStringMore_line hquote hmore
      simp only [List.cons_append, List.drop_succ_cons, List.drop_zero, hline]
  · exact stringMore_line quote r r' l

/-! ## Marks and words -/

/-- A run of marks ends in its line, whatever follows. -/
theorem markRun_line (cfg : Config) (l r r' : List Char) :
    markRun cfg (l ++ '\n' :: r') = markRun cfg (l ++ '\n' :: r) := by
  induction l with
  | nil =>
    simp only [List.nil_append, markRun, isMark_newline, Bool.false_and, Bool.false_eq_true,
      if_false]
  | cons c l ih =>
    rw [List.cons_append, List.cons_append, markRun, markRun, ih, commentAhead_line cfg c l r r']

theorem markLexeme_line (cfg : Config) (c : Char) (l r r' : List Char) :
    markLexeme cfg c (l ++ '\n' :: r') = markLexeme cfg c (l ++ '\n' :: r) := by
  rw [markLexeme, markLexeme, markRun_line cfg l r r']

theorem wordLexeme_snd (cfg : Config) (c : Char) (cs : List Char) :
    (wordLexeme cfg c cs).2 = (cs.takeWhile cfg.continuesWord).length := by
  unfold wordLexeme
  dsimp only
  split <;> rfl

theorem wordLexeme_line (h : (wordLexeme cfg c (l ++ '\n' :: r)).2 ≤ l.length) :
    wordLexeme cfg c (l ++ '\n' :: r') = wordLexeme cfg c (l ++ '\n' :: r) := by
  rw [wordLexeme_snd] at h
  rw [wordLexeme, wordLexeme, takeWhile_line h]

/-! ## All tokens -/

theorem isQuote_ne_newline (h : Config.isQuote c = true) : c ≠ '\n' := by
  rintro rfl
  exact absurd h (by decide)

/-- **A token that ends in front of a line break depends on nothing below it.** -/
theorem lexeme_line {first : Bool}
    (h : (lexeme cfg first c (l ++ '\n' :: r)).2 ≤ l.length) :
    lexeme cfg first c (l ++ '\n' :: r') = lexeme cfg first c (l ++ '\n' :: r) := by
  unfold lexeme at h ⊢
  split at h
  · rename_i hdigit
    rw [if_pos hdigit, if_pos hdigit, numberLength_line h]
  rename_i hdigit
  rw [if_neg hdigit, if_neg hdigit]
  split at h
  · rename_i hword
    rw [if_pos hword, if_pos hword, wordLexeme_line h]
  rename_i hword
  rw [if_neg hword, if_neg hword]
  split at h
  · rename_i hquote
    rw [if_pos hquote, if_pos hquote, stringLexeme_line (isQuote_ne_newline hquote) h]
  rename_i hquote
  rw [if_neg hquote, if_neg hquote]
  split at h
  · rename_i comment hcomment
    rw [comment?_line hcomment h]
  · rename_i hcomment
    rw [comment?_line_none hcomment, markLexeme_line cfg c l r r']

end LayoutLR
