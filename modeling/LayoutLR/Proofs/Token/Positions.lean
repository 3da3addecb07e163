/-
  Layout-aware LR toolkit — positions of tokens point into the document.

  A scanner counts lines from the line of its run on, one for each line break that
  it goes over.  So the line that it stands on and the line breaks that are left of
  the run add up to the same number everywhere in the run.  Together with the text
  that is behind, this places whatever is cut off in the document.

  * `StandsAt`: a piece of code at its place in the document;
  * `Cursor.lastLine`: what is the same everywhere in a run;
  * `Place.Tracks`: a place whose offset and line belong to some code;
  * `Demand`, `Scanner.calls`: reading tokens and raw text in turns;
  * `positions_in_document`: what is read stands in the document where it claims to.
-/
import LayoutLR.Proofs.Document.Inclusion
import LayoutLR.Proofs.Token.Coverage

namespace LayoutLR

open Text

/-! ## Pieces of a document -/

/-- The run with the number `node` stands in the document where its line starts; `offset` bytes
    further on comes the piece, on the line `line` of the document. -/
def StandsAt (doc : List Char) (code : List CodeNode) (node offset line : Nat)
    (piece : List Char) : Prop :=
  ∃ run front back before behind, code[node]? = some run ∧
    doc = front ++ run.text ++ back ∧ byteSize front = lineStart doc run.line ∧
    run.text = before ++ piece ++ behind ∧ byteSize before = offset ∧
    line = 1 + (front ++ before).count '\n'

/-! ## Searching -/

namespace Text

variable {marker cs : List Char} {n : Nat}

theorem find_some (h : find marker cs = some n) :
    n ≤ cs.length ∧ marker <+: cs.drop n ∧ ∀ k < n, ¬ marker <+: cs.drop k := by
  induction cs generalizing n with
  | nil =>
    rw [find] at h
    split at h
    · rename_i hempty
      cases h
      rw [List.isEmpty_iff.1 hempty]
      exact ⟨Nat.le_refl 0, List.prefix_rfl, nofun⟩
    · cases h
  | cons c cs ih =>
    rw [find] at h
    split at h
    · rename_i hfront
      cases h
      exact ⟨Nat.zero_le _, List.isPrefixOf_iff_prefix.1 hfront, nofun⟩
    · rename_i hfront
      obtain ⟨n, hn, rfl⟩ := Option.map_eq_some_iff.1 h
      obtain ⟨hle, hfound, hfirst⟩ := ih hn
      refine ⟨Nat.succ_le_succ hle, hfound, fun k hk => ?_⟩
      cases k with
      | zero => exact fun hmarker => hfront (List.isPrefixOf_iff_prefix.2 hmarker)
      | succ k => exact hfirst k (Nat.lt_of_succ_lt_succ hk)

theorem find_none (h : find marker cs = none) : ¬ marker <:+: cs := by
  induction cs with
  | nil =>
    rw [find] at h
    split at h
    · cases h
    · rename_i hempty
      rw [List.infix_nil]
      exact fun hnil => hempty (List.isEmpty_iff.2 hnil)
  | cons c cs ih =>
    rw [find] at h
    split at h
    · cases h
    · rename_i hfront
      rw [List.infix_cons_iff]
      rintro (hmarker | hmarker)
      · exact hfront (List.isPrefixOf_iff_prefix.2 hmarker)
      · exact ih (Option.map_eq_none_iff.1 h) hmarker

end Text

/-! ## Lines of a run -/

namespace Cursor

/-- The line at which the current run ends. -/
def lastLine (cur : Cursor) : Nat :=
  cur.line + cur.rest.count '\n'

theorem step_lastLine (cur : Cursor) : cur.step.lastLine = cur.lastLine := by
  rw [lastLine, lastLine, step]
  cases hrest : cur.rest with
  | nil => rw [hrest]
  | cons c cs =>
    dsimp only
    split
    · rename_i hc
      rw [hc, List.count_cons_self]
      dsimp only
      omega
    · rename_i hc
      rw [List.count_cons_of_ne hc]

@[simp]
theorem advance_lastLine (n : Nat) (cur : Cursor) : (cur.advance n).lastLine = cur.lastLine := by
  induction n generalizing cur with
  | zero => rfl
  | succ n ih => rw [advance, ih, step_lastLine]

@[simp]
theorem skipBlanks_lastLine (cur : Cursor) : cur.skipBlanks.lastLine = cur.lastLine :=
  advance_lastLine _ _

theorem skipComments_lastLine (cfg : Config) (cur : Cursor) :
    (cur.skipComments cfg).lastLine = cur.lastLine := by
  fun_induction skipComments cfg cur with
  | case1 => rfl
  | case2 _ _ _ _ _ _ _ _ ih => rw [ih, skipBlanks_lastLine, advance_lastLine]
  | case3 => rfl
  | case4 => rfl

end Cursor

/-! ## Places that count -/

namespace Place

theorem enterLine_lastLine (cfg : Config) (node : CodeNode) (cur : Cursor) :
    (enterLine cfg node cur).1.lastLine = cur.lastLine := by
  rw [enterLine, Cursor.skipComments_lastLine, Cursor.skipBlanks_lastLine]
  exact Cursor.advance_lastLine _ _

/-- A place in some code, on the line that the run and the text behind tell. -/
structure Tracks (p : Place) (code : List CodeNode) : Prop where
  within : p.Within code
  counted : ∀ run, code[p.node]? = some run → p.cursor.lastLine = run.line + run.lineBreaks

variable {cfg : Config} {code : List CodeNode} {p : Place} {cur : Cursor}

theorem start_tracks (code : List CodeNode) : (start code).Tracks code := by
  refine ⟨start_within code, fun run hrun => ?_⟩
  cases code with
  | nil => cases hrun
  | cons first rest =>
    cases hrun
    rfl

theorem Tracks.nextNode (h : p.Tracks code) (line : Nat) : (p.nextNode line).Tracks code := by
  refine ⟨h.within.nextNode line, ?_⟩
  have htail : p.ahead.tail = code.drop (p.node + 1) := by rw [h.within.ahead, List.tail_drop]
  unfold Place.nextNode
  split
  · rename_i hend
    intro run hrun
    rw [htail, List.drop_eq_nil_iff] at hend
    rw [List.getElem?_eq_none hend] at hrun
    cases hrun
  · rename_i next later hnext
    intro run hrun
    rw [htail] at hnext
    rw [← List.head?_drop, hnext] at hrun
    cases hrun
    rfl

/-- Going on inside the run. -/
theorem Tracks.passes (h : p.Tracks code) (hcur : p.cursor.Passes cfg cur)
    (hline : cur.lastLine = p.cursor.lastLine) :
    ({ p with cursor := cur } : Place).Tracks code where
  within := h.within.passes (.cursor hcur)
  counted run hrun := hline.trans (h.counted run hrun)

theorem Tracks.skipBlanks (h : p.Tracks code) :
    ({ p with cursor := p.cursor.skipBlanks } : Place).Tracks code :=
  h.passes (Cursor.skipBlanks_passes {} p.cursor) (Cursor.skipBlanks_lastLine _)

theorem Tracks.nextVisible (h : p.Tracks code) : (p.nextVisible cfg).1.Tracks code := by
  fun_induction Place.nextVisible cfg p with
  | case1 => exact h
  | case2 p _ _ _ _ ih => exact ih (h.nextNode _)
  | case3 p _ _ _ _ _ _ _ _ ih => exact ih (h.nextNode _)
  | case4 p node _ _ _ cur indent e rest hr ih =>
    have hcur := enterLine_passes cfg node p.cursor
    have hline := enterLine_lastLine cfg node p.cursor
    rw [e] at hcur hline
    exact ih (h.passes (hcur.trans (Cursor.step_passes hr))
      ((Cursor.step_lastLine cur).trans hline))
  | case5 p node _ _ _ cur indent e =>
    have hcur := enterLine_passes cfg node p.cursor
    have hline := enterLine_lastLine cfg node p.cursor
    rw [e] at hcur hline
    exact h.passes hcur hline

theorem Tracks.leaveLine (h : p.Tracks code) (hbreak : p.cursor.rest.head?.getD '\n' = '\n') :
    p.leaveLine.Tracks code := by
  unfold Place.leaveLine
  cases hrest : p.cursor.rest with
  | nil => exact h.nextNode _
  | cons c cs =>
    have hc : c = '\n' := by simpa [hrest] using hbreak
    have hstep : p.cursor.Passes {} p.cursor.step := Cursor.step_passes (hc ▸ hrest)
    exact h.passes hstep (Cursor.step_lastLine _)

/-- Going over some characters. -/
theorem Tracks.advance (h : p.Tracks code) (n : Nat) :
    ({ p with cursor := p.cursor.advance n } : Place).Tracks code := by
  obtain ⟨before, htext, hpos⟩ := h.within.text
  refine ⟨⟨h.within.ahead, before ++ p.cursor.rest.take n, ?_, ?_⟩, fun run hrun => ?_⟩
  · rw [htext, Cursor.advance_rest, List.append_assoc, List.take_append_drop]
  · rw [Cursor.advance_pos, hpos, byteSize_append]
  · exact (Cursor.advance_lastLine _ _).trans (h.counted run hrun)

/-- What stands at a place of the code of a document stands in the document. -/
theorem Tracks.standsAt {doc piece : List Char} (h : p.Tracks code)
    (hcode : ∀ run ∈ code, run.StandsIn doc) (hrun : p.node < code.length)
    (hpiece : piece <+: p.cursor.rest) :
    StandsAt doc code p.node p.cursor.pos p.cursor.line piece := by
  obtain ⟨behind, hrest⟩ := hpiece
  obtain ⟨before, htext, hpos⟩ := h.within.text
  obtain ⟨front, back, hdoc, hstart, hline⟩ := (hcode _ (List.getElem_mem hrun)).piece
  have hget := List.getElem?_eq_getElem hrun
  rw [hget, Option.map_some, Option.getD_some, ← hrest] at htext
  have hcounted := h.counted _ hget
  refine ⟨code[p.node], front, back, before, behind, hget, hdoc, hstart, ?_, hpos.symm, ?_⟩
  · rw [htext, List.append_assoc]
  · -- the breaks that are left are the same on both sides
    simp only [Cursor.lastLine, CodeNode.lineBreaks, htext, ← hrest, List.count_append] at hcounted
    rw [List.count_append]
    omega

end Place

/-! ## Reading tokens and raw text -/

/-- A call that reads from a scanner: the next token, or raw text up to a marker. -/
inductive Demand where
  | next
  | raw (marker : List Char)
deriving DecidableEq

namespace Scanner

/-- The scanner after a call; where no marker is found, nothing changes. -/
def call (s : Scanner) : Demand → Scanner
  | .next => s.nextToken.2
  | .raw marker => ((s.takeUntil? marker).map Prod.snd).getD s

/-- The scanner after some calls. -/
def calls (s : Scanner) (cs : List Demand) : Scanner :=
  cs.foldl call s

variable {code : List CodeNode} {s : Scanner} {doc marker raw : List Char}

theorem openLine_place (s : Scanner) : s.openLine.place = (s.place.nextVisible s.config).1 := by
  unfold openLine
  split <;> rename_i h <;> rw [h]

theorem lineEnd?_tracks {place : Place} (hend : s.lineEnd? = some place)
    (h : s.place.Tracks code) : place.Tracks code := by
  unfold lineEnd? at hend
  dsimp only at hend
  split at hend
  · split at hend
    · rename_i hbreak
      cases hend
      exact h.skipBlanks.leaveLine hbreak
    · cases hend
  · cases hend
    exact h

theorem ready_tracks (h : s.place.Tracks code) : s.ready.place.Tracks code := by
  unfold ready
  split
  · exact h
  split
  · rename_i place hend
    rw [openLine_place]
    exact (lineEnd?_tracks hend h).nextVisible
  · exact h.skipBlanks

theorem Emits.tracks {t : Token} {s' : Scanner} (h : s.Emits t s') (hp : s.place.Tracks code) :
    s'.place.Tracks code := by
  cases h with
  | waiting => exact hp
  | text => exact hp.advance _
  | ended => exact hp

theorem scan_tracks (h : s.place.Tracks code) : s.scan.2.place.Tracks code :=
  s.emits.tracks (ready_tracks h)

theorem nextToken_tracks (h : s.place.Tracks code) : s.nextToken.2.place.Tracks code := by
  fun_induction nextToken s with
  | case1 s t s₁ e c ih =>
    have hscan := scan_tracks h
    rw [e] at hscan
    exact ih hscan
  | case2 s t s₁ e c =>
    have hscan := scan_tracks h
    rwa [e] at hscan

theorem call_tracks (c : Demand) (h : s.place.Tracks code) : (s.call c).place.Tracks code := by
  cases c with
  | next => exact nextToken_tracks h
  | raw marker =>
    rw [call, takeUntil?]
    dsimp only
    cases find marker s.place.cursor.rest with
    | none => exact h
    | some n => exact h.advance _

/-- After any calls, offset and line belong to the code. -/
theorem calls_tracks (cs : List Demand) (h : s.place.Tracks code) :
    (s.calls cs).place.Tracks code := by
  induction cs generalizing s with
  | nil => exact h
  | cons c cs ih => exact ih (call_tracks c h)

/-- A token that is cut off stands in the document. -/
theorem Emits.standsAt {t : Token} {s' : Scanner} (h : s.Emits t s') (ht : t.kind.isText = true)
    (hp : s.place.Tracks code) (hcode : ∀ run ∈ code, run.StandsIn doc) :
    StandsAt doc code t.node t.offset t.line t.text := by
  cases h with
  | waiting h =>
    rw [Kind.isText, (pop?_isLayout h).1] at ht
    cases ht
  | @text c cs hpop hd hrest =>
    have hnode : s.place.node < code.length := by
      refine Nat.lt_of_not_le fun hle => ?_
      have hnil := hp.within.rest_eq_nil (hp.within.ahead.trans (List.drop_eq_nil_of_le hle))
      rw [hnil] at hrest
      cases hrest
    have hpiece : (s.cut c cs).1.text <+: s.place.cursor.rest := by
      rw [hrest]
      exact List.take_prefix _ _
    exact hp.standsAt hcode hnode hpiece
  | ended => cases ht

theorem nextToken_standsAt (h : s.place.Tracks code) (hcode : ∀ run ∈ code, run.StandsIn doc)
    (ht : s.nextToken.1.kind.isText = true) : StandsAt doc code s.nextToken.1.node
      s.nextToken.1.offset s.nextToken.1.line s.nextToken.1.text := by
  fun_induction nextToken s with
  | case1 s t s₁ e c ih =>
    have hscan := scan_tracks h
    rw [e] at hscan
    exact ih hscan ht
  | case2 s t s₁ e c =>
    have hemits := s.emits
    rw [e] at hemits
    exact hemits.standsAt ht (ready_tracks h) hcode

/-- What is read up to a marker, which comes first behind it. -/
structure ReadsRaw (doc : List Char) (code : List CodeNode) (p : Place) (marker raw : List Char) :
    Prop where
  found : raw ++ marker <+: p.cursor.rest
  first : ∀ k < raw.length, ¬ marker <+: p.cursor.rest.drop k
  standsAt : p.node < code.length → StandsAt doc code p.node p.cursor.pos p.cursor.line raw
  /-- Behind the code there is nothing to read. -/
  behind : code.length ≤ p.node → raw = []

theorem takeUntil?_readsRaw {after : Scanner} (h : s.place.Tracks code)
    (hcode : ∀ run ∈ code, run.StandsIn doc) (hraw : s.takeUntil? marker = some (raw, after)) :
    ReadsRaw doc code s.place marker raw ∧
      after = { s with place := { s.place with
        cursor := s.place.cursor.advance (raw ++ marker).length } } := by
  rw [takeUntil?] at hraw
  obtain ⟨n, hfind, hresult⟩ := Option.map_eq_some_iff.1 hraw
  cases hresult
  obtain ⟨hle, hfound, hfirst⟩ := find_some hfind
  have hlength : (s.place.cursor.rest.take n).length = n := List.length_take_of_le hle
  have hfront : s.place.cursor.rest.take n ++ marker <+: s.place.cursor.rest := by
    conv_rhs => rw [← List.take_append_drop n s.place.cursor.rest]
    exact (List.prefix_append_right_inj _).2 hfound
  refine ⟨⟨hfront, fun k hk => hfirst k (hlength ▸ hk),
    fun hnode => h.standsAt hcode hnode (List.take_prefix _ _), fun hnode => ?_⟩, ?_⟩
  · have hahead : s.place.ahead = [] := h.within.ahead.trans (List.drop_eq_nil_of_le hnode)
    rw [h.within.rest_eq_nil hahead, List.take_nil]
  · rw [List.length_append, hlength]

end Scanner

/-- **Positions point into the document.**  However tokens and raw text are read in turns from a
    section of a document, the scanner stands between two characters of the code, and each token
    that is a piece of the code, like the raw text up to a marker, stands in the document at the
    offset and on the line that it names.  Where no marker follows, nothing changes. -/
theorem positions_in_document (doc : List Char) (cfg : Config) {s : Section}
    (hs : s ∈ (extract doc).sections) (cs : List Demand) :
    let scanner := (Scanner.ofCode cfg s.code).calls cs
    let token := scanner.nextToken.1
    scanner.place.Within s.code ∧
    (token.kind.isText = true →
      StandsAt doc s.code token.node token.offset token.line token.text) ∧
    ∀ marker,
      (∀ raw after, scanner.takeUntil? marker = some (raw, after) →
        Scanner.ReadsRaw doc s.code scanner.place marker raw ∧
        after = { scanner with place := { scanner.place with
          cursor := scanner.place.cursor.advance (raw ++ marker).length } }) ∧
      (scanner.takeUntil? marker = none →
        ¬ marker <:+: scanner.place.cursor.rest ∧ scanner.call (.raw marker) = scanner) := by
  intro scanner token
  have hcode : ∀ run ∈ s.code, run.StandsIn doc := fun run hrun => sections_standIn hs hrun
  have htracks : scanner.place.Tracks s.code :=
    Scanner.calls_tracks cs (Place.start_tracks s.code)
  refine ⟨htracks.within, Scanner.nextToken_standsAt htracks hcode, fun marker =>
    ⟨fun raw after hraw => Scanner.takeUntil?_readsRaw htracks hcode hraw, fun hraw => ?_⟩⟩
  refine ⟨find_none (Option.map_eq_none_iff.1 hraw), ?_⟩
  rw [Scanner.call, hraw]
  rfl

/-- A section that includes another one below it. -/
def splicedDocument : List Char :=
  "# main\n\n    a: x\n        ## inner\n\n# inner\n\n    b\n    c\n".toList

def splicedSection : Section :=
  ⟨"main", [⟨"    a: x\n".toList, 3, 0, true⟩, ⟨"    b\n    c\n".toList, 8, 4, true⟩]⟩

theorem positions_in_document_spliced :
    let scanner := (Scanner.ofCode {} splicedSection.code).calls
      [.next, .raw [':'], .next, .next, .next]
    splicedSection ∈ (extract splicedDocument).sections ∧
    scanner.nextToken.1 = ⟨.word, ['b'], 1, 4, 8, 4⟩ ∧
    StandsAt splicedDocument splicedSection.code scanner.nextToken.1.node
      scanner.nextToken.1.offset scanner.nextToken.1.line scanner.nextToken.1.text := by
  intro scanner
  have hsections : (extract splicedDocument).sections = [splicedSection] := by cbv
  have hs : splicedSection ∈ (extract splicedDocument).sections :=
    hsections ▸ List.mem_singleton_self splicedSection
  have htoken : scanner.nextToken.1 = ⟨.word, ['b'], 1, 4, 8, 4⟩ := by decide +kernel
  exact ⟨hs, htoken, (positions_in_document splicedDocument {} hs _).2.1 (by rw [htoken]; rfl)⟩

end LayoutLR
