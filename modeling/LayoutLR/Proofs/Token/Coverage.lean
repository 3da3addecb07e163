/-
  Layout-aware LR toolkit — tokens are pieces of the code, and leave nothing out.

  A scanner only goes on: what it hands out ends where it stands, and what it goes
  over without handing it out is blank, or ignored.  So its tokens come in the order
  of the code and do not overlap, and where nothing is ignored, the visible
  characters of the tokens are those of the code.

  * `Place.Within`: a place that belongs to some code;
  * `Place.visible`, `Token.visible`: where the visible characters are;
  * `Token.CutAt`, `Scanner.scan_place`: how one token and the place after it go together;
  * `Scanner.Accounts`: what is true of all tokens so far;
  * `tokens_account`: the sequence of tokens ends, and accounts for the code.
-/
import LayoutLR.Proofs.Token.Steps

namespace LayoutLR

open Text

/-! ## Tokens as pieces of the code -/

/-- A token that is a piece of the run it names, at the offset it names. -/
structure Token.LiesIn (t : Token) (code : List CodeNode) : Prop where
  nonempty : t.text ≠ []
  piece : ∃ node before behind, code[t.node]? = some node ∧
    node.text = before ++ t.text ++ behind ∧ byteSize before = t.offset

/-- A token that comes before another one and does not reach into it. -/
structure Token.Precedes (t u : Token) : Prop where
  ordered : t.node < u.node ∨ t.node = u.node ∧ t.offset < u.offset
  apart : t.node = u.node → t.offset + byteSize t.text ≤ u.offset

/-- The character at an offset of a run lies in the token. -/
structure Token.Holds (t : Token) (node offset : Nat) : Prop where
  node : t.node = node
  le : t.offset ≤ offset
  lt : offset < t.offset + byteSize t.text

/-! ## Visible characters -/

/-- The places of the visible characters of a text that starts at an offset of a run. -/
def visibleFrom (node offset : Nat) : List Char → List (Nat × Nat)
  | [] => []
  | c :: cs =>
    (if isBlank c then [] else [(node, offset)]) ++ visibleFrom node (offset + c.utf8Size) cs

/-- The places of the visible characters of some runs, the first of which has the given number. -/
def visibleRuns (node : Nat) : List CodeNode → List (Nat × Nat)
  | [] => []
  | run :: runs => visibleFrom node 0 run.text ++ visibleRuns (node + 1) runs

/-- The places of the visible characters that are still to come. -/
def Place.visible (p : Place) : List (Nat × Nat) :=
  visibleFrom p.node p.cursor.pos p.cursor.rest ++ visibleRuns (p.node + 1) p.ahead.tail

/-- The places of the visible characters of a token. -/
def Token.visible (t : Token) : List (Nat × Nat) :=
  visibleFrom t.node t.offset t.text

section

variable {node offset : Nat} {cs ds : List Char} {x : Nat × Nat}

theorem visibleFrom_append (node offset : Nat) (cs ds : List Char) :
    visibleFrom node offset (cs ++ ds) =
      visibleFrom node offset cs ++ visibleFrom node (offset + byteSize cs) ds := by
  induction cs generalizing offset with
  | nil => rfl
  | cons c cs ih => rw [List.cons_append, visibleFrom, visibleFrom, ih, List.append_assoc,
      byteSize_cons, Nat.add_assoc]

theorem visibleFrom_blank (h : ∀ c ∈ cs, isBlank c = true) : visibleFrom node offset cs = [] := by
  induction cs generalizing offset with
  | nil => rfl
  | cons c cs ih =>
    rw [visibleFrom, if_pos (h c List.mem_cons_self), List.nil_append,
      ih fun d hd => h d (List.mem_cons_of_mem _ hd)]

theorem mem_visibleFrom (h : x ∈ visibleFrom node offset cs) :
    x.1 = node ∧ offset ≤ x.2 ∧ x.2 < offset + byteSize cs := by
  induction cs generalizing offset with
  | nil => cases h
  | cons c cs ih =>
    have hc := c.utf8Size_pos
    rw [byteSize_cons]
    rcases List.mem_append.1 h with h | h
    · split at h
      · cases h
      · rw [List.mem_singleton.1 h]
        exact ⟨rfl, Nat.le_refl _, by omega⟩
    · obtain ⟨hnode, hle, hlt⟩ := ih h
      exact ⟨hnode, by omega, by omega⟩

/-- A visible character of a run is among those of the code. -/
theorem mem_visibleRuns {code : List CodeNode} {i : Nat} {run : CodeNode}
    {before behind : List Char}
    {c : Char} (first : Nat) (hrun : code[i]? = some run) (htext : run.text = before ++ c :: behind)
    (hc : isBlank c = false) : (first + i, byteSize before) ∈ visibleRuns first code := by
  induction code generalizing first i with
  | nil => cases hrun
  | cons run' runs ih =>
    rw [visibleRuns, List.mem_append]
    cases i with
    | zero =>
      left
      obtain rfl := Option.some.inj hrun
      rw [htext, visibleFrom_append, Nat.zero_add, List.mem_append]
      right
      simp [visibleFrom, hc]
    | succ i =>
      right
      rw [show first + (i + 1) = first + 1 + i by omega]
      exact ih (first + 1) hrun

end

/-! ## Places in some code -/

namespace Place

variable {cfg : Config} {code : List CodeNode} {p q : Place} {t : Token}

/-- A place in some code, or behind it. -/
structure Within (p : Place) (code : List CodeNode) : Prop where
  ahead : p.ahead = code.drop p.node
  text : ∃ before, (code[p.node]?.map CodeNode.text).getD [] = before ++ p.cursor.rest ∧
    p.cursor.pos = byteSize before

theorem start_within (code : List CodeNode) : (start code).Within code := by
  cases code with
  | nil => exact ⟨rfl, [], rfl, rfl⟩
  | cons run runs => exact ⟨rfl, [], rfl, rfl⟩

theorem Within.nextNode (h : p.Within code) (line : Nat) : (p.nextNode line).Within code := by
  have htail : p.ahead.tail = code.drop (p.node + 1) := by rw [h.ahead, List.tail_drop]
  unfold Place.nextNode
  split
  · rename_i he
    rw [htail, List.drop_eq_nil_iff] at he
    refine ⟨?_, [], ?_, rfl⟩
    · exact (List.drop_eq_nil_iff.2 he).symm
    · rw [List.getElem?_eq_none he]
      rfl
  · rename_i run runs he
    rw [htail] at he
    refine ⟨he.symm, [], ?_, rfl⟩
    have hget : code[p.node + 1]? = some run := by
      rw [← List.head?_drop, he, List.head?_cons]
    rw [hget]
    rfl

/-- Going on stays in the code. -/
theorem Within.passes (hp : p.Within code) (h : p.Passes cfg q) : q.Within code := by
  induction h with
  | refl => exact hp
  | inRun hcur _ ih =>
    obtain ⟨skipped, hrest, hpos, -⟩ := hcur
    obtain ⟨before, htext, hbefore⟩ := hp.text
    refine ih ⟨hp.ahead, before ++ skipped, ?_, ?_⟩
    · rw [htext, hrest, List.append_assoc]
    · rw [hpos, hbefore, byteSize_append]
  | next _ _ ih => exact ih (hp.nextNode _)

theorem Within.rest_eq_nil (h : p.Within code) (hahead : p.ahead = []) : p.cursor.rest = [] := by
  obtain ⟨before, htext, -⟩ := h.text
  rw [h.ahead, List.drop_eq_nil_iff] at hahead
  rw [List.getElem?_eq_none hahead] at htext
  exact (List.append_eq_nil_iff.1 htext.symm).2

theorem visible_start (code : List CodeNode) : (start code).visible = visibleRuns 0 code := by
  cases code with
  | nil => rfl
  | cons run runs => rfl

theorem visible_nextNode (hrest : p.cursor.rest = []) (line : Nat) :
    (p.nextNode line).visible = p.visible := by
  rw [visible, visible, hrest, Place.nextNode]
  cases p.ahead.tail with
  | nil => rfl
  | cons run runs => rfl

/-- Where nothing is ignored, going on leaves no visible character behind. -/
theorem Passes.visible (hi : cfg.ignored = {}) (h : p.Passes cfg q) : q.visible = p.visible := by
  induction h with
  | refl => rfl
  | inRun hcur _ ih =>
    obtain ⟨skipped, hrest, hpos, hblank⟩ := hcur
    rw [ih, Place.visible, Place.visible, hrest, visibleFrom_append,
      visibleFrom_blank (hblank hi), hpos]
    rfl
  | next hrest _ ih => rw [ih, visible_nextNode hrest]

end Place

/-! ## One token -/

/-- A token that was cut off at a place, up to a cursor. -/
structure Token.CutAt (t : Token) (p : Place) (cur : Cursor) : Prop where
  nonempty : t.text ≠ []
  rest : p.cursor.rest = t.text ++ cur.rest
  pos : cur.pos = p.cursor.pos + byteSize t.text
  node : t.node = p.node
  offset : t.offset = p.cursor.pos

/-- A token that ends at a place or before it. -/
def Token.EndsBy (t : Token) (p : Place) : Prop :=
  t.node < p.node ∨ t.node = p.node ∧ t.offset + byteSize t.text ≤ p.cursor.pos

theorem byteSize_pos {cs : List Char} (h : cs ≠ []) : 0 < byteSize cs := by
  cases cs with
  | nil => exact absurd rfl h
  | cons c cs =>
    have := c.utf8Size_pos
    rw [byteSize_cons]
    omega

section

variable {cfg : Config} {code : List CodeNode} {p q : Place} {cur : Cursor} {t u : Token}

theorem Token.EndsBy.passes (ht : t.EndsBy p) (h : p.Passes cfg q) : t.EndsBy q := by
  induction h with
  | refl => exact ht
  | @inRun p q cur hcur _ ih =>
    obtain ⟨skipped, -, hpos, -⟩ := hcur
    refine ih ?_
    rcases ht with hnode | ⟨hnode, hle⟩
    · exact Or.inl hnode
    · exact Or.inr ⟨hnode, by dsimp only; omega⟩
  | @next p q line _ _ ih =>
    have hnext : (p.nextNode line).node = p.node + 1 := by
      unfold Place.nextNode
      split <;> rfl
    refine ih (Or.inl ?_)
    rcases ht with hnode | ⟨hnode, -⟩ <;> omega

namespace Token.CutAt

theorem liesIn (h : t.CutAt p cur) (hp : p.Within code) : t.LiesIn code := by
  obtain ⟨before, htext, hpos⟩ := hp.text
  refine ⟨h.nonempty, ?_⟩
  rw [h.rest, ← h.node] at htext
  cases hrun : code[t.node]? with
  | none =>
    rw [hrun] at htext
    have := (List.append_eq_nil_iff.1 (List.append_eq_nil_iff.1 htext.symm).2).1
    exact absurd this h.nonempty
  | some run =>
    rw [hrun] at htext
    exact ⟨run, before, cur.rest, rfl, htext.trans (List.append_assoc ..).symm,
      by rw [h.offset, hpos]⟩

theorem within (h : t.CutAt p cur) (hp : p.Within code) :
    ({ p with cursor := cur } : Place).Within code := by
  obtain ⟨before, htext, hpos⟩ := hp.text
  refine ⟨hp.ahead, before ++ t.text, ?_, ?_⟩
  · rw [htext, h.rest, List.append_assoc]
  · rw [h.pos, hpos, byteSize_append]

theorem endsBy (h : t.CutAt p cur) : t.EndsBy { p with cursor := cur } :=
  Or.inr ⟨h.node, Nat.le_of_eq (by rw [h.offset, h.pos])⟩

/-- What ends by the place where a token starts comes before that token. -/
theorem precedes (h : t.CutAt p cur) (hu : u.EndsBy p) (hne : u.text ≠ []) : u.Precedes t := by
  have hpos := byteSize_pos hne
  constructor
  · rcases hu with hnode | ⟨hnode, hle⟩
    · exact Or.inl (h.node ▸ hnode)
    · exact Or.inr ⟨hnode.trans h.node.symm, by rw [h.offset]; omega⟩
  · intro hnode
    rcases hu with hlt | ⟨-, hle⟩
    · rw [hnode, h.node] at hlt
      exact absurd hlt (Nat.lt_irrefl _)
    · rw [h.offset]
      exact hle

theorem endsBy_of_endsBy (h : t.CutAt p cur) (hu : u.EndsBy p) :
    u.EndsBy { p with cursor := cur } := by
  rcases hu with hnode | ⟨hnode, hle⟩
  · exact Or.inl hnode
  · refine Or.inr ⟨hnode, ?_⟩
    rw [h.pos]
    exact Nat.le_trans hle (Nat.le_add_right _ _)

theorem visible (h : t.CutAt p cur) :
    p.visible = t.visible ++ ({ p with cursor := cur } : Place).visible := by
  rw [Place.visible, Place.visible, Token.visible, h.rest, visibleFrom_append, h.node, h.offset,
    h.pos, List.append_assoc]

end Token.CutAt

end

namespace Scanner

variable {cfg : Config} {code : List CodeNode} {s : Scanner}

/-- What is cut off is a piece of the code. -/
theorem cut_cutAt {c : Char} {cs : List Char} (hrest : s.place.cursor.rest = c :: cs) :
    (s.cut c cs).1.kind.isText = true ∧ ∃ cur, (s.cut c cs).1.CutAt s.place cur ∧
      (s.cut c cs).2.place = { s.place with cursor := cur } := by
  have hkind := lexeme_isText s.config s.lineFirst c cs
  cases hl : lexeme s.config s.lineFirst c cs with
  | mk kind n =>
    rw [hl] at hkind
    rw [cut_eq hl]
    refine ⟨hkind, s.place.cursor.advance (n + 1), ⟨List.cons_ne_nil _ _, ?_, ?_, rfl, rfl⟩, rfl⟩
    · rw [Cursor.advance_rest, hrest, List.drop_succ_cons, List.cons_append, List.take_append_drop]
    · rw [Cursor.advance_pos, hrest, List.take_succ_cons]

/-- What is handed out is no piece of the code, or the one at the scanner's place. -/
theorem Emits.place {s' : Scanner} {t : Token} (h : s.Emits t s') :
    t.kind.isText = false ∧ s'.place = s.place ∨ t.kind.isText = true ∧
      ∃ cur, t.CutAt s.place cur ∧ s'.place = { s.place with cursor := cur } := by
  cases h with
  | waiting h =>
    refine Or.inl ⟨?_, rfl⟩
    rw [Kind.isText, (pop?_isLayout h).1]
    rfl
  | text _ _ hrest => exact Or.inr (cut_cutAt hrest)
  | ended => exact Or.inl ⟨rfl, rfl⟩

/-! ## All tokens -/

/-- The piece of the code that was met, if it is one. -/
def Event.piece? : Event → Option Token
  | .line _ _ => none
  | .token t => if t.kind.isText then some t else none

/-- The pieces that were met account for the code in front of a place. -/
structure Accounts (cfg : Config) (code : List CodeNode) (ts : List Token) (p : Place) : Prop where
  within : p.Within code
  lies : ∀ t ∈ ts, t.LiesIn code
  endsBy : ∀ t ∈ ts, t.EndsBy p
  ordered : ts.Pairwise Token.Precedes
  visible : cfg.ignored = {} → visibleRuns 0 code = ts.flatMap Token.visible ++ p.visible

variable {ts : List Token} {p q : Place} {t : Token} {cur : Cursor}

theorem accounts_start (cfg : Config) (code : List CodeNode) :
    Accounts cfg code [] (.start code) where
  within := Place.start_within code
  lies := nofun
  endsBy := nofun
  ordered := .nil
  visible _ := (Place.visible_start code).symm

theorem Accounts.passes (h : Accounts cfg code ts p) (hp : p.Passes cfg q) :
    Accounts cfg code ts q where
  within := h.within.passes hp
  lies := h.lies
  endsBy t ht := (h.endsBy t ht).passes hp
  ordered := h.ordered
  visible hi := by rw [h.visible hi, hp.visible hi]

theorem Accounts.cut (h : Accounts cfg code ts p) (ht : t.CutAt p cur) :
    Accounts cfg code (ts ++ [t]) { p with cursor := cur } where
  within := ht.within h.within
  lies u hu := by
    rcases List.mem_append.1 hu with hu | hu
    · exact h.lies u hu
    · rw [List.mem_singleton.1 hu]
      exact ht.liesIn h.within
  endsBy u hu := by
    rcases List.mem_append.1 hu with hu | hu
    · exact ht.endsBy_of_endsBy (h.endsBy u hu)
    · rw [List.mem_singleton.1 hu]
      exact ht.endsBy
  ordered := by
    refine List.pairwise_append.2 ⟨h.ordered, List.pairwise_singleton _ _, ?_⟩
    intro u hu v hv
    rw [List.mem_singleton.1 hv]
    exact ht.precedes (h.endsBy u hu) (h.lies u hu).nonempty
  visible hi := by
    rw [h.visible hi, ht.visible, List.flatMap_append, List.flatMap_singleton, List.append_assoc]

theorem piece?_scanEvents (s : Scanner) : s.scanEvents.filterMap Event.piece? =
    if s.scan.1.kind.isText then [s.scan.1] else [] := by
  have hline : ∀ opening : Option Nat, ((opening.map fun column => Event.line column
      s.layout.isFull).toList.filterMap Event.piece?) = [] := by
    intro opening
    cases opening <;> rfl
  rw [scanEvents, List.filterMap_append, hline, List.nil_append]
  by_cases hc : s.scan.1.kind.isText = true
  · simp [Event.piece?, hc]
  · simp [Event.piece?, hc]

/-- What was met accounts for the code that is behind. -/
theorem met_accounts (cfg : Config) (code : List CodeNode) (n : Nat) :
    Accounts cfg code (((ofCode cfg code).met n).filterMap Event.piece?)
      ((ofCode cfg code).after n).place := by
  let I := fun (es : List Event) (s : Scanner) =>
    s.config = cfg ∧ Accounts cfg code (es.filterMap Event.piece?) s.place
  have hstep : ∀ es s, I es s → I (es ++ s.scanEvents) s.scan.2 := by
    rintro es s ⟨rfl, h⟩
    refine ⟨s.scan_config, ?_⟩
    rw [List.filterMap_append, piece?_scanEvents]
    have hready := h.passes s.readies.passes
    rcases s.emits.place with ⟨hk, hplace⟩ | ⟨hk, cur, ht, hplace⟩
    · rw [hk, if_neg Bool.false_ne_true, List.append_nil, hplace]
      exact hready
    · rw [hk, if_pos rfl, hplace]
      exact hready.cut ht
  have hstart : I [] (ofCode cfg code) := ⟨rfl, accounts_start cfg code⟩
  exact (met_induction hstep hstart n).2

/-- Where the end was reached, no code is ahead; and it stays reached. -/
theorem Readies.atEnd {opening : Option Nat} {s' : Scanner} (h : s.Readies opening s')
    (hs : s.done = true → s.place.ahead = []) :
    (s'.done = true → s'.place.ahead = []) ∧ (s.done = true → s'.done = true) := by
  have hundone : s.waits = false → s.done = false := fun hw => (Bool.or_eq_false_iff.1 hw).2
  cases h with
  | waits => exact ⟨hs, id⟩
  | inLine hw =>
    have hd := hundone hw
    exact ⟨fun h => absurd (hd.symm.trans h) Bool.false_ne_true, id⟩
  | opens hw =>
    have hd := hundone hw
    exact ⟨fun h => absurd (hd.symm.trans h) Bool.false_ne_true, id⟩
  | ends _ _ hahead => exact ⟨fun _ => hahead, fun _ => rfl⟩

theorem Emits.atEnd {t : Token} {s' : Scanner} (h : s.Emits t s')
    (hs : s.done = true → s.place.ahead = []) :
    (s'.done = true → s'.place.ahead = []) ∧ (s.done = true → s'.done = true) := by
  cases h with
  | waiting => exact ⟨hs, id⟩
  | text _ hd => exact ⟨fun h => absurd (hd.symm.trans h) Bool.false_ne_true, id⟩
  | ended => exact ⟨hs, id⟩

/-- Once the end was met, no code is ahead. -/
theorem met_ends (cfg : Config) (code : List CodeNode) (n : Nat) {t : Token}
    (ht : Event.token t ∈ (ofCode cfg code).met n) (hk : t.kind = .eof) :
    ((ofCode cfg code).after n).place.ahead = [] := by
  let I := fun (es : List Event) (s : Scanner) => (s.done = true → s.place.ahead = []) ∧
    ∀ t, Event.token t ∈ es → t.kind = .eof → s.done = true
  have hstep : ∀ es s, I es s → I (es ++ s.scanEvents) s.scan.2 := by
    rintro es s ⟨hahead, heof⟩
    obtain ⟨hready, hstays⟩ := s.readies.atEnd hahead
    obtain ⟨hscan, hstays'⟩ := s.emits.atEnd hready
    refine ⟨hscan, fun t ht hk => hstays' ?_⟩
    rcases List.mem_append.1 ht with ht | ht
    · exact hstays (heof t ht hk)
    · -- the token that is handed out now
      rcases List.mem_append.1 ht with ht | ht
      · cases hopen : s.opening? <;> simp [hopen] at ht
      · obtain rfl : t = s.scan.1 := by simpa using ht
        exact (s.emits.ended_of_eof hk).2.1
  have hstart : I [] (ofCode cfg code) := ⟨nofun, nofun⟩
  have h := met_induction hstep hstart n
  exact h.1 (h.2 t ht hk)

/-- The pieces that are returned are among those that are met. -/
theorem returned_sublist (s : Scanner) (n : Nat) :
    ((s.returned n).filter fun t => t.kind.isText).Sublist ((s.met n).filterMap Event.piece?) := by
  rw [returned_eq]
  induction s.met n with
  | nil => exact .slnil
  | cons e es ih =>
    cases e with
    | line => exact ih
    | token t =>
      by_cases hk : t.kind.isText = true
      · by_cases hc : s.config.ignored.covers t.kind = true
        · simpa [Event.returned?, Event.piece?, hc, hk] using ih.cons t
        · simpa [Event.returned?, Event.piece?, hc, hk] using ih
      · by_cases hc : s.config.ignored.covers t.kind = true
        · simpa [Event.returned?, Event.piece?, hc, hk] using ih
        · simpa [Event.returned?, Event.piece?, hc, hk] using ih

theorem mem_met_of_returned {t : Token} {n : Nat} (h : t ∈ s.returned n) :
    Event.token t ∈ s.met n := by
  rw [returned_eq] at h
  obtain ⟨e, he, hreturned⟩ := List.mem_filterMap.1 h
  cases e with
  | line => cases hreturned
  | token u =>
    rw [Event.returned?] at hreturned
    split at hreturned
    · cases hreturned
    · obtain rfl := Option.some.inj hreturned
      exact he

/-- Where nothing is ignored, every piece that is met is returned. -/
theorem mem_returned_of_piece (hi : s.config.ignored = {}) {t : Token} {n : Nat}
    (h : t ∈ (s.met n).filterMap Event.piece?) : t ∈ s.returned n ∧ t.kind.isText = true := by
  obtain ⟨e, he, hpiece⟩ := List.mem_filterMap.1 h
  cases e with
  | line => cases hpiece
  | token u =>
    rw [Event.piece?] at hpiece
    split at hpiece
    · rename_i hk
      obtain rfl := Option.some.inj hpiece
      refine ⟨?_, hk⟩
      have hcovers : s.config.ignored.covers u.kind = false := by
        rw [hi, Ignored.covers_nothing]
      rw [returned_eq]
      exact List.mem_filterMap.2 ⟨_, he, by rw [Event.returned?, hcovers]; rfl⟩
    · cases hpiece

/-- At the end, no visible character is left. -/
theorem visible_end {n : Nat} {t : Token} (ht : t ∈ (ofCode cfg code).returned n)
    (hk : t.kind = .eof) :
    ((ofCode cfg code).after n).place.visible = [] := by
  have hahead := met_ends cfg code n (mem_met_of_returned ht) hk
  rw [Place.visible, (met_accounts cfg code n).within.rest_eq_nil hahead, hahead]
  rfl

end Scanner

/-- **The sequence of tokens ends, and accounts for the code.** -/
theorem tokens_account (cfg : Config) (code : List CodeNode) :
    let s := Scanner.ofCode cfg code
    (∃ n, ∀ k, (s.after k).nextToken.1.kind = .eof ↔ n ≤ k) ∧
    (∀ n, ∀ t ∈ s.returned n, t.kind.isText = true → t.LiesIn code) ∧
    (∀ n, ((s.returned n).filter fun t => t.kind.isText).Pairwise Token.Precedes) ∧
    (cfg.ignored = {} → ∀ n, (∃ t ∈ s.returned n, t.kind = .eof) →
      ∀ i run before c behind, code[i]? = some run → run.text = before ++ c :: behind →
        (∀ t ∈ s.returned n, t.kind.isText = true → ¬ t.Holds i (byteSize before)) →
          isBlank c = true) := by
  dsimp only
  have haccounts := Scanner.met_accounts cfg code
  have hsub := (Scanner.ofCode cfg code).returned_sublist
  refine ⟨?_, fun n t ht hk => ?_, fun n => ?_,
    fun hi n ⟨t, ht, hk⟩ i run before c behind hrun htext hout => ?_⟩
  · obtain ⟨n, -, hn⟩ := (Scanner.ofCode cfg code).exists_end
    exact ⟨n, hn⟩
  · exact (haccounts n).lies t ((hsub n).subset (List.mem_filter.2 ⟨ht, hk⟩))
  · exact (haccounts n).ordered.sublist (hsub n)
  · by_contra hc
    have hc : isBlank c = false := by simpa using hc
    have hmem := mem_visibleRuns 0 hrun htext hc
    rw [(haccounts n).visible hi, Scanner.visible_end ht hk, List.append_nil, Nat.zero_add] at hmem
    obtain ⟨u, hu, hvisible⟩ := List.mem_flatMap.1 hmem
    obtain ⟨hnode, hle, hlt⟩ := mem_visibleFrom hvisible
    obtain ⟨hreturned, hkind⟩ := Scanner.mem_returned_of_piece (s := .ofCode cfg code) hi hu
    exact hout u hreturned hkind ⟨hnode.symm, hle, hlt⟩

end LayoutLR
