/-
  Layout-aware LR toolkit — the places at which a scanner begins a line.

  To find the next visible character, a scanner begins one line after the other, until one
  is visible or the code ends.  The end of a run is begun like a line, too.  A scanner never
  goes back, so that the places at which lines are begun, and those at which it hands out
  tokens, come one behind the other.

  * `Place.Before`: one place at or behind another;
  * `Place.lineStarts`, `Scanner.lineStarts`: the places at which a line is begun on the way
    to the next token;
  * `Place.Search`: what a search for a visible line can do, line by line;
  * `Scanner.turns`: the scanner in front of each token, up to the end;
  * `Scanner.lineStarts_before`, `Scanner.turns_before`: nothing is gone back.
-/
import LayoutLR.Proofs.Token.Pieces

namespace LayoutLR

open Text

/-- Whether a block comment that is not closed starts here. -/
def Cursor.opensComment (cfg : Config) (cur : Cursor) : Bool :=
  match cur.rest with
  | [] => false
  | c :: cs => (comment? cfg c cs).any fun comment => comment.1 == .error

/-! ## One place behind another -/

namespace Place

variable {cfg : Config} {p q r : Place}

/-- A place at or behind another one. -/
def Before (p q : Place) : Prop :=
  p.node < q.node ∨ p.node = q.node ∧ q.cursor.rest <:+ p.cursor.rest

/-- A place in the given run, with the given text left of it. -/
def At (p : Place) (node : Nat) (rest : List Char) : Prop :=
  p.node = node ∧ p.cursor.rest = rest

theorem Before.refl (p : Place) : p.Before p :=
  Or.inr ⟨rfl, List.suffix_refl _⟩

theorem Before.trans (h : p.Before q) (h' : q.Before r) : p.Before r := by
  rcases h with h | ⟨h, hrest⟩ <;> rcases h' with h' | ⟨h', hrest'⟩
  · exact Or.inl (Nat.lt_trans h h')
  · exact Or.inl (h' ▸ h)
  · exact Or.inl (h ▸ h')
  · exact Or.inr ⟨h.trans h', hrest'.trans hrest⟩

theorem nextNode_node (p : Place) (line : Nat) : (p.nextNode line).node = p.node + 1 := by
  unfold nextNode
  split <;> rfl

theorem Passes.before (h : p.Passes cfg q) : p.Before q := by
  induction h with
  | refl => exact .refl _
  | @inRun p q cur hcur _ ih =>
    obtain ⟨skipped, hrest, -⟩ := hcur
    have hback : p.Before { p with cursor := cur } := Or.inr ⟨rfl, skipped, hrest.symm⟩
    exact hback.trans ih
  | @next p q line _ _ ih =>
    have hnext : p.Before (p.nextNode line) := Or.inl (by rw [nextNode_node]; omega)
    exact hnext.trans ih

/-- What is left at a place is no longer than what was left before. -/
theorem Before.length_le {node : Nat} {rest : List Char} (h : p.Before q) (hq : q.At node rest)
    (hp : p.node = node) : rest.length ≤ p.cursor.rest.length := by
  rcases h with h | ⟨-, h⟩
  · exact absurd (hp.trans hq.1.symm) (Nat.ne_of_lt h)
  · exact hq.2 ▸ h.length_le

/-! ## Beginning lines -/

/-- The places at which a line is begun, from the start of a line to the first visible character
    there or further down. -/
def lineStarts (cfg : Config) (p : Place) : List Place :=
  match _h : p.ahead with
  | [] => []
  | node :: _ =>
    p ::
      if p.cursor.rest.isEmpty then lineStarts cfg (p.nextNode p.cursor.line)
      else
        match _r : (enterLine cfg node p.cursor).1.rest with
        | [] => lineStarts cfg (p.nextNode (enterLine cfg node p.cursor).1.line)
        | c :: _ =>
          if c = '\n' then lineStarts cfg { p with cursor := (enterLine cfg node p.cursor).1.step }
          else []
termination_by p.weight
decreasing_by
  · exact nextNode_weight_lt _ _ (by simp [_h])
  · exact nextNode_weight_lt _ _ (by simp [_h])
  · exact step_weight_lt _r

/-- Whether the first visible characters of a line, behind ignored comments, open a block comment
    that is not closed. -/
def opensComment (cfg : Config) (p : Place) : Bool :=
  match p.ahead with
  | [] => false
  | node :: _ => (enterLine cfg node p.cursor).1.opensComment cfg

/-- What a search for a visible line can do: the places at which lines are begun, and what is
    found. -/
inductive Search (cfg : Config) : Place → List Place → Place × Option Nat → Prop
  | behind {p : Place} (hahead : p.ahead = []) : Search cfg p [] (p, none)
  | next {p : Place} {node : CodeNode} {later : List CodeNode} {starts : List Place}
      {found : Place × Option Nat} (hahead : p.ahead = node :: later) (hrest : p.cursor.rest = [])
      (h : Search cfg (p.nextNode p.cursor.line) starts found) : Search cfg p (p :: starts) found
  | leave {p : Place} {node : CodeNode} {later : List CodeNode} {starts : List Place}
      {found : Place × Option Nat} (hahead : p.ahead = node :: later) (hne : p.cursor.rest ≠ [])
      (hend : (enterLine cfg node p.cursor).1.rest.head?.getD '\n' = '\n')
      (h : Search cfg (leaveLine { p with cursor := (enterLine cfg node p.cursor).1 })
        starts found) : Search cfg p (p :: starts) found
  | visible {p : Place} {node : CodeNode} {later : List CodeNode} {c : Char} {cs : List Char}
      (hahead : p.ahead = node :: later) (hne : p.cursor.rest ≠ [])
      (hrest : (enterLine cfg node p.cursor).1.rest = c :: cs) (hc : c ≠ '\n') :
      Search cfg p [p] ({ p with cursor := (enterLine cfg node p.cursor).1 },
        some (enterLine cfg node p.cursor).2)

theorem lineStarts_eq (cfg : Config) (p : Place) : p.lineStarts cfg =
    match p.ahead with
    | [] => []
    | node :: _ =>
      p ::
        if p.cursor.rest.isEmpty then (p.nextNode p.cursor.line).lineStarts cfg
        else match (enterLine cfg node p.cursor).1.rest with
          | [] => (p.nextNode (enterLine cfg node p.cursor).1.line).lineStarts cfg
          | c :: _ =>
            if c = '\n' then
              lineStarts cfg { p with cursor := (enterLine cfg node p.cursor).1.step }
            else [] := by
  rw [lineStarts]
  split
  · rename_i h
    rw [h]
  · rename_i node later h
    rw [h]
    dsimp only
    split
    · rfl
    · split
      · rename_i hrest
        rw [hrest]
      · rename_i hrest
        rw [hrest]

/-- A search for a visible line, with the places at which lines are begun. -/
theorem search (cfg : Config) (p : Place) :
    Search cfg p (p.lineStarts cfg) (p.nextVisible cfg) := by
  fun_induction nextVisible cfg p with
  | case1 p hahead =>
    rw [lineStarts_eq, hahead]
    exact .behind hahead
  | case2 p node later hahead hempty ih =>
    rw [lineStarts_eq, hahead]
    dsimp only
    rw [if_pos hempty]
    exact .next hahead (List.isEmpty_iff.1 hempty) ih
  | case3 p node later hahead hempty cur indent henter hrest ih =>
    have hne : p.cursor.rest ≠ [] := by simpa using hempty
    obtain rfl : (enterLine cfg node p.cursor).1 = cur := by rw [henter]
    rw [lineStarts_eq, hahead]
    dsimp only
    rw [if_neg hempty, hrest]
    refine .leave hahead hne (by rw [hrest]; rfl) ?_
    rw [leaveLine_nil (p := { p with cursor := (enterLine cfg node p.cursor).1 }) hrest]
    exact ih
  | case4 p node later hahead hempty cur indent henter cs hrest ih =>
    have hne : p.cursor.rest ≠ [] := by simpa using hempty
    obtain rfl : (enterLine cfg node p.cursor).1 = cur := by rw [henter]
    have hstarts : p.lineStarts cfg =
        p :: lineStarts cfg { p with cursor := (enterLine cfg node p.cursor).1.step } := by
      rw [lineStarts_eq, hahead]
      dsimp only
      rw [if_neg hempty, hrest]
      dsimp only
      rw [if_pos rfl]
    rw [hstarts]
    refine .leave hahead hne (by rw [hrest]; rfl) ?_
    rw [leaveLine_cons (p := { p with cursor := (enterLine cfg node p.cursor).1 }) hrest]
    exact ih
  | case5 p node later hahead hempty cur indent henter c cs hrest hc =>
    have hne : p.cursor.rest ≠ [] := by simpa using hempty
    obtain rfl : (enterLine cfg node p.cursor).1 = cur := by rw [henter]
    obtain rfl : (enterLine cfg node p.cursor).2 = indent := by rw [henter]
    have hstarts : p.lineStarts cfg = [p] := by
      rw [lineStarts_eq, hahead]
      dsimp only
      rw [if_neg hempty, hrest]
      dsimp only
      rw [if_neg hc]
    rw [hstarts]
    exact .visible hahead hne hrest hc

/-- Lines are begun one behind the other, and what is found comes behind them. -/
theorem Search.before {starts : List Place} {found : Place × Option Nat}
    (h : Search cfg p starts found) :
    p.Before found.1 ∧ ∀ q ∈ starts, p.Before q ∧ q.Before found.1 := by
  have hcons : ∀ {p p₁ : Place} {starts : List Place} {found : Place × Option Nat},
      p.Before p₁ → p₁.Before found.1 ∧ (∀ q ∈ starts, p₁.Before q ∧ q.Before found.1) →
      p.Before found.1 ∧ ∀ q ∈ p :: starts, p.Before q ∧ q.Before found.1 := by
    rintro p p₁ starts found hp ⟨hfound, hstarts⟩
    refine ⟨hp.trans hfound, List.forall_mem_cons.2 ⟨⟨.refl p, hp.trans hfound⟩, ?_⟩⟩
    exact fun q hq => ⟨hp.trans (hstarts q hq).1, (hstarts q hq).2⟩
  induction h with
  | behind => exact ⟨.refl _, nofun⟩
  | next hahead hrest h ih => exact hcons (Or.inl (by rw [nextNode_node]; omega)) ih
  | @leave p node _ _ _ hahead hne hend h ih =>
    have hcur := Passes.cursor (enterLine_passes cfg node p.cursor)
    exact hcons (hcur.trans (Scanner.leaveLine_passes hend)).before ih
  | @visible p node _ c cs hahead hne hrest hc =>
    have hp := (Passes.cursor (enterLine_passes cfg node p.cursor)).before
    exact ⟨hp, List.forall_mem_singleton.2 ⟨.refl p, hp⟩⟩

end Place

/-! ## Turns of a scanner -/

namespace Scanner

variable {s t : Scanner} {p : Place}

/-- The end of the current run, if only blanks are left of it: it is begun like a line. -/
def runEnd? (s : Scanner) : Option Place :=
  if s.layout.started && s.place.cursor.skipBlanks.rest.isEmpty then
    some { s.place with cursor := s.place.cursor.skipBlanks }
  else none

/-- The places at which a line is begun on the way to the next token. -/
def lineStarts (s : Scanner) : List Place :=
  if s.waits then []
  else s.runEnd?.toList ++ (s.lineEnd?.map (Place.lineStarts s.config)).getD []

/-- The scanner in front of each token, ignored or not, up to the end. -/
def turns (s : Scanner) : List Scanner :=
  match _h : s.scan with
  | (t, s₁) => s :: if _e : t.kind = .eof then [] else s₁.turns
termination_by s.weight
decreasing_by
  have h := scan_lighter s
  rw [_h] at h
  exact h.resolve_right fun h => _e h.1

theorem turns_eq (s : Scanner) :
    s.turns = s :: if s.scan.1.kind = .eof then [] else s.scan.2.turns := by
  rw [turns]
  rfl

/-- Nothing is gone back by a token. -/
theorem scan_before (s : Scanner) :
    s.place.Before s.ready.place ∧ s.ready.place.Before s.scan.2.place := by
  refine ⟨s.readies.passes.before, ?_⟩
  have hemits := s.emits
  generalize s.scan = result at hemits ⊢
  obtain ⟨t, s'⟩ := result
  cases hemits with
  | waiting => exact .refl _
  | @text c cs _ _ hrest =>
    refine Or.inr ⟨rfl, ?_⟩
    show (Cursor.advance _ _).rest <:+ _
    rw [Cursor.advance_rest]
    exact List.drop_suffix _ _
  | ended => exact .refl _

/-- Behind the end of a run, the next line is looked for in the next run. -/
theorem lineEnd?_runEnd (h : s.runEnd? = some p) :
    s.place.Before p ∧ ∃ q, s.lineEnd? = some q ∧ p.node < q.node := by
  unfold runEnd? at h
  split at h
  · rename_i hend
    obtain rfl := Option.some.inj h
    rw [Bool.and_eq_true, List.isEmpty_iff] at hend
    obtain ⟨hstarted, hrest⟩ := hend
    refine ⟨(Place.Passes.cursor (Cursor.skipBlanks_passes s.config _)).before, ?_⟩
    rw [lineEnd?, hstarted, if_pos rfl]
    dsimp only
    refine ⟨_, if_pos (by rw [hrest]; rfl), ?_⟩
    rw [Place.leaveLine]
    dsimp only
    rw [hrest]
    dsimp only
    rw [Place.nextNode_node]
    exact Nat.lt_succ_self _
  · cases h

/-- Where the search for a line starts.  All lines are begun by it, but for the end of the run in
    front of it. -/
theorem mem_lineStarts (h : p ∈ s.lineStarts) : s.waits = false ∧ ∃ q, s.lineEnd? = some q ∧
    (p ∈ q.lineStarts s.config ∨ s.place.Before p ∧ p.node < q.node) := by
  unfold lineStarts at h
  cases hw : s.waits with
  | true =>
    rw [hw] at h
    cases h
  | false =>
    rw [hw, if_neg Bool.false_ne_true, List.mem_append, Option.mem_toList] at h
    refine ⟨rfl, ?_⟩
    rcases h with h | h
    · obtain ⟨hp, q, hend, hlt⟩ := lineEnd?_runEnd h
      exact ⟨q, hend, Or.inr ⟨hp, hlt⟩⟩
    · cases hend : s.lineEnd? with
      | none =>
        rw [hend] at h
        cases h
      | some q =>
        rw [hend] at h
        exact ⟨q, rfl, Or.inl h⟩

theorem lineStarts_subset {q : Place} (hw : s.waits = false) (h : s.lineEnd? = some q) :
    q.lineStarts s.config ⊆ s.lineStarts := by
  rw [lineStarts, hw, if_neg Bool.false_ne_true, h]
  exact List.subset_append_right _ _

/-- A scanner that looks for a line stops where the search does. -/
theorem ready_place {q : Place} (hw : s.waits = false) (h : s.lineEnd? = some q) :
    s.ready.place = (q.nextVisible s.config).1 := by
  rw [ready, hw, if_neg Bool.false_ne_true, h]
  dsimp only
  unfold openLine
  dsimp only
  split <;> rename_i hfound <;> rw [hfound]

/-- Lines are begun behind the place where the scanner stands, and tokens come behind them. -/
theorem lineStarts_before (h : p ∈ s.lineStarts) :
    s.place.Before p ∧ p.Before s.ready.place := by
  obtain ⟨hw, q, hend, hq⟩ := mem_lineStarts h
  obtain ⟨hfound, hstarts⟩ := (Place.search s.config q).before
  rw [ready_place hw hend]
  rcases hq with hq | ⟨hp, hlt⟩
  · exact ⟨(lineEnd?_passes hend).before.trans (hstarts p hq).1, (hstarts p hq).2⟩
  · exact ⟨hp, Place.Before.trans (Or.inl hlt) hfound⟩

theorem mem_turns (h : t ∈ s.turns) :
    t = s ∨ s.scan.1.kind ≠ .eof ∧ t ∈ s.scan.2.turns := by
  rw [turns_eq] at h
  rcases List.mem_cons.1 h with rfl | h
  · exact Or.inl rfl
  · split at h
    · cases h
    · rename_i he
      exact Or.inr ⟨he, h⟩

/-- Turns come one behind the other. -/
theorem turns_before (h : t ∈ s.turns) : s.place.Before t.place := by
  induction hw : s.weight using Nat.strongRecOn generalizing s with
  | ind w ih =>
    rcases mem_turns h with rfl | ⟨he, h⟩
    · exact .refl _
    · have hlt := s.scan_lighter.resolve_right fun h => he h.1
      have hnext := ih _ (hw ▸ hlt) h rfl
      exact (s.scan_before.1.trans s.scan_before.2).trans hnext

/-- What holds of all turns, and behind the end, holds of all turns from the next token on. -/
theorem forall_turns_scan {P : Scanner → Prop}
    (hended : ∀ s : Scanner, s.layout.pop? = none → s.done = true → P s)
    (h : ∀ t ∈ s.turns, P t) : ∀ t ∈ s.scan.2.turns, P t := by
  by_cases he : s.scan.1.kind = .eof
  · obtain ⟨hpop, hd, -, hnext⟩ := s.emits.ended_of_eof he
    have hscan : s.ready.scan = (s.ready.eofToken, s.ready) := by simp [Scanner.scan, hpop, hd]
    rw [hnext, turns_eq, hscan]
    exact List.forall_mem_singleton.2 (hended s.ready hpop hd)
  · rw [turns_eq, if_neg he] at h
    exact (List.forall_mem_cons.1 h).2

end Scanner

end LayoutLR
