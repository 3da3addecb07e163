/-
  Layout-aware LR toolkit — the words, arrows and quoted texts of grammars.

  Parts of a line of a grammar are cut off one by one, each up to the character that
  follows it.

  * `quoted`: a text in quotes, which `unquote` takes off again;
  * `lexes_arrow`, `lexes_word`, `lexes_string`: parts behind a blank;
  * `lexeme_identifier`: names, of which none is a known mark.
-/
import LayoutLR.Grammar.Reader
import LayoutLR.Proofs.Text.Names
import LayoutLR.Proofs.Text.Order
import LayoutLR.Proofs.Token.Scanning

namespace LayoutLR

open Scanner Text

/-- A text in quotes. -/
def quoted (text : List Char) : List Char :=
  '\x27' :: (text ++ ['\x27'])

theorem unquote_quoted (w : List Char) : unquote (quoted w) = w := by
  simp [unquote, quoted]

section

variable {first : Bool} {cs rest w : List Char} {c d : Char} {toks : List (Kind × List Char)}

/-- An arrow, up to a character that is no mark. -/
theorem lexes_arrow (hd : grammarConfig.isMark d = false)
    (h : Lexes grammarConfig false (d :: cs) toks rest) :
    Lexes grammarConfig false (' ' :: '-' :: '>' :: d :: cs) ((.arrow, ['-', '>']) :: toks)
      rest := by
  refine h.spaced ['>'] (by decide) ?_ rfl
  refine lexeme_mark (by decide) (by decide) (by decide) (by simp [comment?]) (by decide) ?_
    (by decide +kernel)
  rw [List.singleton_append, markRun, markRun]
  simp [hd, show grammarConfig.isMark '>' = true by decide, commentAhead]

/-- A word that is not known, up to a blank. -/
theorem lexes_word (hdigit : c.isDigit = false) (hblank : Text.isBlank c = false)
    (hc : grammarConfig.startsWord c = true) (hw : ∀ d ∈ w, grammarConfig.continuesWord d = true)
    (hd : grammarConfig.continuesWord d = false) (hlookup : grammarConfig.lookup (c :: w) = none)
    (h : Lexes grammarConfig false (d :: cs) toks rest) :
    Lexes grammarConfig false (' ' :: c :: (w ++ d :: cs)) ((.word, c :: w) :: toks) rest :=
  h.spaced w hblank (lexeme_word hdigit hc hw hd hlookup) rfl

/-- A text in quotes, if nothing in it means something else. -/
theorem lexes_string (hquote : '\x27' ∉ w) (hslash : '\\' ∉ w) (hbreak : '\n' ∉ w)
    (h : Lexes grammarConfig false cs toks rest) :
    Lexes grammarConfig false (' ' :: (quoted w ++ cs)) ((.string, quoted w) :: toks) rest := by
  refine h.spaced (w ++ ['\x27']) (by decide) ?_ rfl
  rw [List.append_assoc, List.singleton_append, List.length_append]
  exact lexeme_string hquote hslash hbreak (by decide)

/-- No name is a known mark. -/
theorem lookup_identifier (h : isName w = true) : grammarConfig.lookup w = none := by
  rw [Option.eq_none_iff_forall_ne_some]
  intro i hi
  have htable : Ascending grammarConfig.known := by
    unfold Ascending
    decide
  have hmem := Array.mem_of_getElem? ((search_eq_some_iff htable).1 hi)
  have hmarks : ∀ mark ∈ grammarMarks, isName mark = false := by decide
  rw [hmarks w hmem] at h
  cases h

/-- A name reaches up to the first character that cannot continue it. -/
theorem lexeme_identifier (h : isName (c :: w) = true)
    (hd : grammarConfig.continuesWord d = false) :
    lexeme grammarConfig first c (w ++ d :: rest) = (.word, w.length) := by
  have hlookup := lookup_identifier h
  rw [isName, Bool.and_eq_true, List.all_eq_true] at h
  refine lexeme_word (isDigit_name h.1) ?_ (fun d hd => ?_) hd hlookup
  · simpa [Config.startsWord, grammarConfig] using h.1
  · simpa [Config.continuesWord, grammarConfig] using h.2 d hd

end

end LayoutLR
