/-
  Layout-aware LR toolkit — lines that show nothing make no difference.

  A blank line, and a line with an ignored comment only, may come or go wherever a scanner
  begins a line: the tokens stay the same, but for the lines that they are on and the bytes in
  front of them.  In two readings the text in front of the new lines looks into them, and both
  have to be ruled out: a token that takes in the line break in front of them, and a line above
  them that opens a block comment, which they close.

  * `Cursor.SameFront.skipComments`, `enterLine_sameFront`: lines above the new ones;
  * `Insertion`: hidden lines, and a place for them in some code;
  * `Insertion.Facing`, `Insertion.AtLine`, `Insertion.InLine`: a place in the code as it is, and
    one in the code with the new lines;
  * `Insertion.Begins`, `Insertion.Clear`: a line is begun where the new ones go, and nothing
    looks into them;
  * `Insertion.AtLine.nextVisible`, `Insertion.InLine.cut`, `Insertion.Reads.scan`: both sides
    find the same line, cut off the same token, and go on like this;
  * `hidden_lines_invisible`: both sides return the same tokens.
-/
import LayoutLR.Proofs.Token.HiddenLines
import LayoutLR.Proofs.Token.LineStarts
import LayoutLR.Proofs.Token.Lockstep

namespace LayoutLR

open Text

/-! ## In front of the same line break -/

section

variable {cfg : Config} {node : CodeNode} {a b : Cursor} {l r r' : List Char} {n : Nat}

/-- An ignored comment that does not go on below a line break ends in front of it. -/
theorem ignoredComment?_le_of_stays (hrest : a.rest = l ++ '\n' :: r)
    (hn : a.ignoredComment? cfg = some n) (hstay : r.length ≤ (a.advance n).rest.length) :
    n ≤ l.length := by
  rw [Cursor.advance_rest, hrest, List.length_drop, List.length_append, List.length_cons] at hstay
  obtain ⟨c, l, kind, n, rfl, rfl, hcomment, hkind⟩ := Cursor.ignoredComment?_front hrest hn
  rw [List.length_cons] at hstay ⊢
  by_contra hlt
  rcases (comment?_beyond hcomment (by omega) r).2 with rfl | ⟨-, hne, hle⟩
  · cases hkind
  · rw [List.length_append, List.length_cons] at hle
    omega

/-- A comment of one side only is a block comment that is closed there, below the line break. -/
theorem Cursor.SameFront.opensComment (h : SameFront l r r' a b)
    (hn : b.ignoredComment? cfg = some n) (hno : a.ignoredComment? cfg = none) :
    cfg.ignored.blockComment = true ∧ a.opensComment cfg = true ∧
      ¬ ['*', '/'] <:+: r ∧ ['*', '/'] <:+: r' := by
  have hlt : l.length < n := by
    by_contra hle
    rw [h.symm.ignoredComment?_some hn (Nat.le_of_not_lt hle)] at hno
    cases hno
  obtain ⟨c, l, kind, n, rfl, rfl, hcomment, hkind⟩ := ignoredComment?_front h.right hn
  obtain ⟨⟨n', hother⟩, hblock⟩ := comment?_beyond hcomment (Nat.lt_of_succ_lt_succ hlt) r
  obtain ⟨rfl, -⟩ := hblock.resolve_left (by rintro rfl; cases hkind)
  rcases hother with hother | hother
  · refine ⟨hkind, ?_, comment?_closes hother hcomment⟩
    rw [Cursor.opensComment, h.left, List.cons_append]
    dsimp only
    rw [hother]
    rfl
  · rw [ignoredComment?_of_covers h.left hother hkind] at hno
    cases hno

/-- Going over ignored comments in front of a line break, if no block comment is left open that
    the other side closes. -/
theorem Cursor.SameFront.skipComments (h : SameFront l r r' a b)
    (hstay : r.length ≤ (a.skipComments cfg).rest.length)
    (hopen : cfg.ignored.blockComment = true → ¬ ['*', '/'] <:+: r → ['*', '/'] <:+: r' →
      (a.skipComments cfg).opensComment cfg = false) :
    ∃ l', SameFront l' r r' (a.skipComments cfg) (b.skipComments cfg) := by
  fun_induction Cursor.comments cfg a generalizing b l with
  | case1 a n hn ih =>
    rw [skipComments_eq cfg a, hn] at hstay hopen
    have hle : n ≤ l.length := by
      refine ignoredComment?_le_of_stays h.left hn (Nat.le_trans hstay ?_)
      exact Nat.le_trans (skipComments_length_le _ _) (skipBlanks_length_le _)
    rw [skipComments_eq cfg a, skipComments_eq cfg b, hn, h.ignoredComment?_some hn hle]
    exact ih (h.advance hle).skipBlanks hstay hopen
  | case2 a hn =>
    rw [skipComments_eq cfg a, hn] at hopen
    rw [skipComments_eq cfg a, skipComments_eq cfg b, hn]
    cases hm : b.ignoredComment? cfg with
    | none => exact ⟨l, h⟩
    | some m =>
      obtain ⟨hignored, hopens, hno, hyes⟩ := h.opensComment hm hn
      rw [hopen hignored hno hyes] at hopens
      cases hopens

/-- The fronts of a line that is the same up to some line break. -/
theorem front_sameFront (node : CodeNode) {node' : CodeNode}
    (hnode : node'.needsStrip = node.needsStrip ∧ node'.indent = node.indent)
    (ha : a.rest = l ++ '\n' :: r) (hb : b.rest = l ++ '\n' :: r') :
    ∃ l', Cursor.SameFront l' r r' (Place.front node a) (Place.front node' b) := by
  have hindent : blockIndent b.rest = blockIndent a.rest := by
    rw [ha, hb, blockIndent_line, blockIndent_line l r]
  have hle : (if node.needsStrip then blockIndent a.rest else 0) ≤ l.length := by
    refine le_of_unbroken (r := r) fun hbreak => ?_
    rw [← ha] at hbreak
    split at hbreak
    · exact absurd (blockIndent_unbroken a.rest _ hbreak) (by decide)
    · cases hbreak
  rw [Place.front, Place.front, hnode.1, hnode.2, hindent]
  generalize (if node.needsStrip then blockIndent a.rest else 0) = k at hle ⊢
  have hleft : (a.advance k).rest = l.drop k ++ '\n' :: r := by
    rw [Cursor.advance_rest, ha, List.drop_append_of_le_length hle]
  have hright : (b.advance k).rest = l.drop k ++ '\n' :: r' := by
    rw [Cursor.advance_rest, hb, List.drop_append_of_le_length hle]
  exact ⟨_, Cursor.SameFront.skipBlanks ⟨hleft, hright, fun _ => rfl⟩⟩

/-- A line that is the same up to some line break is entered in the same way. -/
theorem enterLine_sameFront (node : CodeNode) {node' : CodeNode}
    (hnode : node'.needsStrip = node.needsStrip ∧ node'.indent = node.indent)
    (ha : a.rest = l ++ '\n' :: r) (hb : b.rest = l ++ '\n' :: r')
    (hstay : r.length ≤ (Place.enterLine cfg node a).1.rest.length)
    (hopen : cfg.ignored.blockComment = true → ¬ ['*', '/'] <:+: r → ['*', '/'] <:+: r' →
      (Place.enterLine cfg node a).1.opensComment cfg = false) :
    (∃ l', Cursor.SameFront l' r r' (Place.enterLine cfg node a).1
      (Place.enterLine cfg node' b).1) ∧
    ((Place.enterLine cfg node a).1.rest.head? ≠ some '\n' →
      (Place.enterLine cfg node' b).2 = (Place.enterLine cfg node a).2) := by
  obtain ⟨l', hfront⟩ := front_sameFront node hnode ha hb
  exact ⟨hfront.skipComments hstay hopen, Place.enterLine_column hfront⟩

/-- A line is entered in the same way, wherever it stands. -/
theorem enterLine_agree (cfg : Config) (node : CodeNode) {node' : CodeNode}
    (hnode : node'.needsStrip = node.needsStrip ∧ node'.indent = node.indent)
    (h : b.rest = a.rest) :
    (Place.enterLine cfg node a).1.Agree (Place.enterLine cfg node' b).1 ∧
      (Place.enterLine cfg node' b).2 = (Place.enterLine cfg node a).2 := by
  have hfront : (Place.front node a).Agree (Place.front node' b) := by
    rw [Place.front, Place.front, hnode.1, hnode.2, h]
    refine Cursor.Agree.skipBlanks ⟨?_, rfl⟩
    show (Cursor.advance _ b).rest = (Cursor.advance _ a).rest
    rw [Cursor.advance_rest, Cursor.advance_rest, h]
  exact ⟨hfront.skipComments cfg, hfront.col⟩

end

/-! ## Code with a place for hidden lines -/

namespace Place

variable {p : Place}

/-- A place at the start of its run, or behind the code. -/
def Fresh (p : Place) : Prop :=
  p.cursor.rest = (p.ahead.head?.map CodeNode.text).getD [] ∧ p.cursor.col = 0

theorem start_fresh (code : List CodeNode) : (start code).Fresh := by
  unfold start
  split <;> exact ⟨rfl, rfl⟩

theorem start_ahead (code : List CodeNode) :
    (start code).node = 0 ∧ (start code).ahead = code.drop (start code).node := by
  unfold start
  split <;> exact ⟨rfl, rfl⟩

theorem nextNode_fresh (p : Place) (line : Nat) : (p.nextNode line).Fresh := by
  unfold nextNode
  split <;> exact ⟨rfl, rfl⟩

theorem nextNode_ahead (p : Place) (line : Nat) : (p.nextNode line).ahead = p.ahead.tail := by
  unfold nextNode
  split <;> rename_i h <;> rw [h]

end Place

/-- Lines that show nothing, and a place for them in some code: at the start of a line of a run. -/
structure Insertion (cfg : Config) where
  before : List CodeNode
  run : CodeNode
  after : List CodeNode
  /-- The lines of the run in front of the place. -/
  front : List Char
  /-- What follows in the run. -/
  back : List Char
  inserted : List Char
  text : run.text = front ++ back
  closed : Closed front
  hidden : HiddenLines cfg inserted
  /-- Only at the end of the run may a line break be missing. -/
  whole : back = [] ∨ Closed inserted

namespace Insertion

variable {cfg : Config} (i : Insertion cfg)

/-- The run with the new lines. -/
def grownRun : CodeNode :=
  { i.run with text := i.front ++ (i.inserted ++ i.back) }

/-- The code as it is. -/
def code : List CodeNode :=
  i.before ++ i.run :: i.after

/-- The code with the new lines. -/
def grown : List CodeNode :=
  i.before ++ i.grownRun :: i.after

/-- A place in the code where the new lines go. -/
def Here (p : Place) : Prop :=
  p.At i.before.length i.back

/-- A place in front of the new lines. -/
def InFront (p : Place) : Prop :=
  p.node < i.before.length ∨ p.node = i.before.length ∧ i.back.length < p.cursor.rest.length

instance (p : Place) : Decidable (i.Here p) :=
  inferInstanceAs (Decidable (_ ∧ _))

variable {i} {p q : Place}

theorem InFront.not_here (h : i.InFront p) : ¬ i.Here p := by
  rintro ⟨hnode, hrest⟩
  rcases h with h | ⟨-, h⟩
  · exact Nat.ne_of_lt h hnode
  · exact Nat.lt_irrefl _ (hrest ▸ h)

theorem InFront.of_before (h : i.InFront q) (hp : p.Before q) : i.InFront p := by
  rcases hp with hp | ⟨hp, hrest⟩ <;> rcases h with h | ⟨h, hlt⟩
  · exact Or.inl (Nat.lt_trans hp h)
  · exact Or.inl (h ▸ hp)
  · exact Or.inl (hp ▸ h)
  · exact Or.inr ⟨hp.trans h, Nat.lt_of_lt_of_le hlt hrest.length_le⟩

theorem inFront_of_not_here (h : p.Before q) (hq : i.Here q) (hp : ¬ i.Here p) : i.InFront p := by
  obtain ⟨hnode, hback⟩ := hq
  rcases h with h | ⟨h, hrest⟩
  · exact Or.inl (hnode ▸ h)
  · rw [hback] at hrest
    refine Or.inr ⟨h.trans hnode, Nat.lt_of_le_of_ne hrest.length_le fun hlength => ?_⟩
    exact hp ⟨h.trans hnode, (hrest.eq_of_length hlength).symm⟩

theorem InFront.not_before (h : i.InFront q) (hp : i.Here p) : ¬ p.Before q :=
  fun hq => (h.of_before hq).not_here hp

/-! ## Places side by side -/

/-- Places in the same run, in the code as it is and with the new lines. -/
structure Along (i : Insertion cfg) (p q : Place) : Prop where
  node : q.node = p.node
  left : p.ahead = i.code.drop p.node
  right : q.ahead = i.grown.drop p.node

/-- Places in front of the same line, or in front of the same lines above the new ones. -/
inductive Facing (i : Insertion cfg) (p q : Place) : Prop
  | same (h : i.Along p q) (hrest : q.cursor.rest = p.cursor.rest)
      (hcol : p.ahead = [] → q.cursor.col = p.cursor.col)
  | front {l : List Char} (h : i.Along p q) (hnode : p.node = i.before.length)
      (hleft : p.cursor.rest = l ++ '\n' :: i.back)
      (hright : q.cursor.rest = l ++ '\n' :: (i.inserted ++ i.back))

/-- Places from which the next visible line is looked for alike. -/
def AtLine (i : Insertion cfg) (p q : Place) : Prop :=
  ∃ q', i.Facing p q' ∧ q.nextVisible cfg = q'.nextVisible cfg

/-- Places inside the same line. -/
inductive InLine (i : Insertion cfg) (p q : Place) : Prop
  | same (h : i.Along p q) (hagree : p.cursor.Agree q.cursor)
  | front {l : List Char} (h : i.Along p q) (hnode : p.node = i.before.length)
      (hfront : p.cursor.SameFront l i.back (i.inserted ++ i.back) q.cursor)

theorem Facing.atLine (h : i.Facing p q) : i.AtLine p q :=
  ⟨q, h, rfl⟩

namespace Along

theorem move (h : i.Along p q) (a b : Cursor) :
    i.Along { p with cursor := a } { q with cursor := b } :=
  ⟨h.node, h.left, h.right⟩

/-- At every place but one, the next run is the same. -/
theorem ahead (h : i.Along p q) :
    p.node = i.before.length ∧ p.ahead = i.run :: i.after ∧ q.ahead = i.grownRun :: i.after ∨
    p.node ≠ i.before.length ∧ q.ahead.head? = p.ahead.head? := by
  rw [h.left, h.right, code, grown]
  generalize p.node = k
  generalize i.before = before
  induction before generalizing k with
  | nil =>
    cases k with
    | zero => exact Or.inl ⟨rfl, rfl, rfl⟩
    | succ k => exact Or.inr ⟨Nat.succ_ne_zero k, rfl⟩
  | cons node before ih =>
    cases k with
    | zero => exact Or.inr ⟨(Nat.succ_ne_zero _).symm, rfl⟩
    | succ k => simpa using ih k

theorem nextNode (h : i.Along p q) (line line' : Nat) :
    i.Along (p.nextNode line) (q.nextNode line') := by
  refine ⟨?_, ?_, ?_⟩
  · rw [Place.nextNode_node, Place.nextNode_node, h.node]
  · rw [Place.nextNode_ahead, Place.nextNode_node, h.left, List.tail_drop]
  · rw [Place.nextNode_ahead, Place.nextNode_node, h.right, List.tail_drop]

/-- Where the new lines go, they are gone over. -/
theorem atLine_here (h : i.Along p q) (hnode : p.node = i.before.length)
    (hleft : p.cursor.rest = i.back) (hright : q.cursor.rest = i.inserted ++ i.back) :
    i.AtLine p q := by
  obtain ⟨-, hp, hq⟩ := h.ahead.resolve_right fun hne => hne.1 hnode
  obtain ⟨cur, hcur, hvisible⟩ := nextVisible_hidden i.hidden i.whole hq hright
  refine ⟨_, .same (h.move p.cursor cur) (hcur.trans hleft.symm) fun hnil => ?_, hvisible⟩
  rw [show p.ahead = [] from hnil] at hp
  cases hp

/-- At the start of a run. -/
theorem atLine_fresh (h : i.Along p q) (hp : p.Fresh) (hq : q.Fresh) : i.AtLine p q := by
  obtain ⟨hrest, hcol⟩ := hp
  obtain ⟨hrest', hcol'⟩ := hq
  rcases h.ahead with ⟨hnode, hahead, hahead'⟩ | ⟨-, hahead⟩
  · rw [hahead] at hrest
    rw [hahead'] at hrest'
    have hleft : p.cursor.rest = i.front ++ i.back := hrest.trans i.text
    have hright : q.cursor.rest = i.front ++ (i.inserted ++ i.back) := hrest'
    rcases i.closed with hfront | hfront
    · rw [hfront] at hleft hright
      exact h.atLine_here hnode hleft hright
    · obtain ⟨l, hl⟩ := List.getLast?_eq_some_iff.1 hfront
      rw [hl, List.append_assoc] at hleft hright
      exact Facing.atLine (.front h hnode hleft hright)
  · rw [hahead] at hrest'
    exact Facing.atLine (.same h (hrest'.trans hrest.symm) fun _ => hcol'.trans hcol.symm)

end Along

namespace InLine

/-- Going over the blanks of a line. -/
theorem skipBlanks (h : i.InLine p q) : i.InLine { p with cursor := p.cursor.skipBlanks }
    { q with cursor := q.cursor.skipBlanks } := by
  cases h with
  | same h hagree => exact .same (h.move _ _) hagree.skipBlanks
  | front h hnode hfront => exact .front (h.move _ _) hnode hfront.skipBlanks

theorem node (h : i.InLine p q) : q.node = p.node := by
  cases h with
  | same h hagree => exact h.node
  | front h hnode hfront => exact h.node

/-- The next character is the same. -/
theorem head? (h : i.InLine p q) : q.cursor.rest.head? = p.cursor.rest.head? := by
  cases h with
  | same h hagree => rw [hagree.rest]
  | front h hnode hfront => rw [hfront.left, hfront.right, head?_line]

theorem col (h : i.InLine p q) (hvisible : p.cursor.rest.head? ≠ some '\n') :
    q.cursor.col = p.cursor.col := by
  cases h with
  | same h hagree => exact hagree.col
  | front h hnode hfront =>
    refine (hfront.col ?_).symm
    rintro rfl
    exact hvisible (by rw [hfront.left]; rfl)

/-- Both sides are at the end of their line, or neither is. -/
theorem leaveLine (h : i.InLine p q) :
    p.cursor.rest.head?.getD '\n' = '\n' ∧ q.cursor.rest.head?.getD '\n' = '\n' ∧
      i.AtLine p.leaveLine q.leaveLine ∨
    p.cursor.rest.head?.getD '\n' ≠ '\n' ∧ q.cursor.rest.head?.getD '\n' ≠ '\n' := by
  rw [h.head?]
  refine (em (p.cursor.rest.head?.getD '\n' = '\n')).imp (fun hend => ⟨hend, hend, ?_⟩)
    fun hend => ⟨hend, hend⟩
  rw [Place.leaveLine, Place.leaveLine]
  cases h with
  | same h hagree =>
    rw [hagree.rest]
    split
    · exact (h.nextNode _ _).atLine_fresh (p.nextNode_fresh _) (q.nextNode_fresh _)
    · exact Facing.atLine (.same (h.move _ _) hagree.step.rest fun _ => hagree.step.col)
  | @front l h hnode hfront =>
    rw [hfront.left, hfront.right]
    cases l with
    | nil =>
      refine (h.move _ _).atLine_here hnode ?_ ?_
      · exact (Cursor.step_rest _).trans (by rw [hfront.left]; rfl)
      · exact (Cursor.step_rest _).trans (by rw [hfront.right]; rfl)
    | cons c l =>
      have hstep := hfront.step
      exact Facing.atLine (.front (h.move _ _) hnode hstep.left hstep.right)

end InLine

theorem lineRelation (i : Insertion cfg) : Place.LineRelation i.AtLine i.InLine :=
  ⟨InLine.skipBlanks, InLine.leaveLine⟩

/-! ## Looking for a visible line -/

section

variable {p₁ : Place} {starts : List Place} {found : Place × Option Nat} {node : CodeNode}
  {later : List CodeNode}

/-- A search for a visible line, or what comes after it, begins a line where the new ones go, if
    they are still ahead. -/
def Reached (i : Insertion cfg) (p : Place) (starts : List Place) (found : Place × Option Nat) :
    Prop :=
  i.InFront p → ∃ here, i.Here here ∧ (here ∈ starts ∨ found.1.Before here)

/-- Where block comments are ignored, and the new lines hold the end of one, no line above them
    opens a block comment that is left open. -/
def NoneOpen (i : Insertion cfg) (starts : List Place) : Prop :=
  cfg.ignored.blockComment = true → ['*', '/'] <:+: i.inserted → ∀ p ∈ starts,
    p.node = i.before.length → i.back.length < p.cursor.rest.length → p.opensComment cfg = false

instance (starts : List Place) : Decidable (i.NoneOpen starts) :=
  inferInstanceAs (Decidable (_ → _ → ∀ p ∈ starts, _ → _ → _ = false))

theorem Reached.next (h : i.Reached p (p :: starts) found) (hp : p.Before p₁) :
    i.Reached p₁ starts found := by
  intro hfront
  obtain ⟨here, hhere, hstart⟩ := h (hfront.of_before hp)
  refine ⟨here, hhere, hstart.imp_left fun hstart => ?_⟩
  rcases List.mem_cons.1 hstart with rfl | hstart
  · exact absurd hhere (hfront.of_before hp).not_here
  · exact hstart

/-- Above the new lines, no line reaches over their place. -/
theorem Reached.before (h : i.Reached p (p :: starts) found) (hfront : i.InFront p)
    (hstarts : ∀ q ∈ starts, p₁.Before q) (hfound : p₁.Before found.1) :
    ∃ here, i.Here here ∧ p₁.Before here := by
  obtain ⟨here, hhere, hstart⟩ := h hfront
  refine ⟨here, hhere, ?_⟩
  rcases hstart with hstart | hstart
  · rcases List.mem_cons.1 hstart with rfl | hstart
    · exact absurd hhere hfront.not_here
    · exact hstarts _ hstart
  · exact hfound.trans hstart

theorem NoneOpen.next (h : i.NoneOpen (p :: starts)) : i.NoneOpen starts :=
  fun hignored hend q hq => h hignored hend q (List.mem_cons_of_mem _ hq)

theorem Along.behind (h : i.Along p q) (hahead : p.ahead = []) :
    p.node ≠ i.before.length ∧ q.ahead = [] := by
  rcases h.ahead with ⟨-, hp, -⟩ | ⟨hnode, hhead⟩
  · rw [hahead] at hp
    cases hp
  · rw [hahead] at hhead
    exact ⟨hnode, List.head?_eq_none_iff.1 hhead⟩

theorem Along.in_run (h : i.Along p q) (hahead : p.ahead = node :: later) :
    ∃ node' later', q.ahead = node' :: later' ∧
      node'.needsStrip = node.needsStrip ∧ node'.indent = node.indent := by
  rcases h.ahead with ⟨-, hp, hq⟩ | ⟨-, hhead⟩
  · obtain ⟨rfl, -⟩ := List.cons.inj (hp.symm.trans hahead)
    exact ⟨_, _, hq, rfl, rfl⟩
  · rw [hahead] at hhead
    obtain ⟨later', hq⟩ := List.head?_eq_some_iff.1 hhead
    exact ⟨_, _, hq, rfl, rfl⟩

/-- An end of a comment that the new lines bring with them is one of theirs. -/
theorem closes_inserted (i : Insertion cfg) (h : ['*', '/'] <:+: i.inserted ++ i.back)
    (hback : ¬ ['*', '/'] <:+: i.back) : ['*', '/'] <:+: i.inserted := by
  rcases i.whole with hnil | hnil | hlast
  · rwa [hnil, List.append_nil] at h
  · rw [hnil, List.nil_append] at h
    exact absurd h hback
  · obtain ⟨l, hl⟩ := List.getLast?_eq_some_iff.1 hlast
    rw [hl, List.append_assoc, List.singleton_append, infix_break] at h
    rw [hl]
    exact (h.resolve_right hback).trans (List.prefix_append _ _).isInfix

/-- A line is entered on both sides; if something visible follows, at the same column. -/
theorem Facing.enterLine (h : i.Facing p q) (hahead : p.ahead = node :: later)
    (hne : p.cursor.rest ≠ []) (hreached : i.InFront p →
      ∃ here, i.Here here ∧
        Place.Before { p with cursor := (Place.enterLine cfg node p.cursor).1 } here)
    (hopen : i.NoneOpen [p]) :
    ∃ node' later', q.ahead = node' :: later' ∧ q.cursor.rest ≠ [] ∧
      i.InLine { p with cursor := (Place.enterLine cfg node p.cursor).1 }
        { q with cursor := (Place.enterLine cfg node' q.cursor).1 } ∧
      ((Place.enterLine cfg node p.cursor).1.rest.head? ≠ some '\n' →
        (Place.enterLine cfg node' q.cursor).2 = (Place.enterLine cfg node p.cursor).2) := by
  cases h with
  | same h hrest =>
    obtain ⟨node', later', hahead', hnode⟩ := h.in_run hahead
    obtain ⟨hagree, hcolumn⟩ := enterLine_agree cfg node hnode hrest
    exact ⟨node', later', hahead', hrest ▸ hne, .same (h.move _ _) hagree, fun _ => hcolumn⟩
  | front h hnode hleft hright =>
    obtain ⟨node', later', hahead', hsame⟩ := h.in_run hahead
    have hlt : i.back.length < p.cursor.rest.length := by
      rw [hleft, List.length_append, List.length_cons]
      omega
    -- no comment reaches over the place of the new lines, since a line is begun there
    obtain ⟨here, hhere, hbefore⟩ := hreached (Or.inr ⟨hnode, hlt⟩)
    obtain ⟨⟨l', hfront⟩, hcolumn⟩ := enterLine_sameFront node hsame hleft hright
      (hbefore.length_le hhere hnode) fun hignored hno hyes => by
        have hopens := hopen hignored (i.closes_inserted hyes hno) p (List.mem_singleton_self p)
          hnode hlt
        rwa [Place.opensComment, hahead] at hopens
    exact ⟨node', later', hahead', by simp [hright], .front (h.move _ _) hnode hfront, hcolumn⟩

/-- From the start of a line, both sides find the same visible line, or none. -/
theorem AtLine.nextVisible (h : i.AtLine p q) (hsearch : Place.Search cfg p starts found)
    (hreached : i.Reached p starts found) (hopen : i.NoneOpen starts) :
    Place.FoundAlike i.InLine found (q.nextVisible cfg) := by
  -- on the search in the code as it is; the other one goes over the new lines in `AtLine`
  induction hsearch generalizing q with
  | @behind p hahead =>
    obtain ⟨q, hfacing, hvisible⟩ := h
    rw [hvisible]
    cases hfacing with
    | same h hrest hcol =>
      rw [Place.nextVisible_behind (h.behind hahead).2]
      exact ⟨rfl, hcol hahead, nofun⟩
    | front h hnode => exact absurd hnode (h.behind hahead).1
  | @next p node later starts found hahead hrest hsearch ih =>
    obtain ⟨q, hfacing, hvisible⟩ := h
    rw [hvisible]
    cases hfacing with
    | same h hrest' =>
      obtain ⟨node', later', hahead', -⟩ := h.in_run hahead
      rw [(Place.nextVisible_next hahead' (hrest'.trans hrest)).1]
      refine ih ((h.nextNode _ _).atLine_fresh (p.nextNode_fresh _) (q.nextNode_fresh _)) ?_
        hopen.next
      exact hreached.next (Or.inl (by rw [Place.nextNode_node]; omega))
    | front h hnode hleft =>
      rw [hrest] at hleft
      exact absurd hleft.symm (by simp)
  | @leave p node later starts found hahead hne hend hsearch ih =>
    obtain ⟨q, hfacing, hvisible⟩ := h
    have henter := (Place.Passes.cursor (Place.enterLine_passes cfg node p.cursor)).before
    have hleave := (Scanner.leaveLine_passes
      (p := { p with cursor := (Place.enterLine cfg node p.cursor).1 }) hend :
        Place.Passes cfg _ _).before
    obtain ⟨hfound, hstarts⟩ := hsearch.before
    obtain ⟨node', later', hahead', hne', hin, -⟩ := hfacing.enterLine hahead hne
      (fun hfront => hreached.before hfront (fun s hs => hleave.trans (hstarts s hs).1)
        (hleave.trans hfound))
      fun hignored hend s hs => hopen hignored hend s (List.mem_singleton.1 hs ▸ List.mem_cons_self)
    obtain ⟨-, hend', hline⟩ := hin.leaveLine.resolve_right fun hno => hno.1 hend
    rw [hvisible, Place.nextVisible_leave hahead' hne' hend']
    exact ih hline (hreached.next (henter.trans hleave)) hopen.next
  | @visible p node later c cs hahead hne hrest hc =>
    obtain ⟨q, hfacing, hvisible⟩ := h
    obtain ⟨node', later', hahead', hne', hin, hcolumn⟩ := hfacing.enterLine hahead hne
      (fun hfront => hreached.before hfront nofun (.refl _)) hopen
    have hshown : (Place.enterLine cfg node p.cursor).1.rest.head? ≠ some '\n' := by
      rw [hrest]
      exact fun he => hc (Option.some.inj he)
    obtain ⟨cs', hrest'⟩ := List.head?_eq_some_iff.1 (hin.head?.trans (by rw [hrest]; rfl))
    rw [hvisible, Place.nextVisible_found hahead' hne' hrest' hc]
    exact ⟨congrArg some (hcolumn hshown), hin.col hshown, fun _ => hin⟩

end

/-- Both sides cut off the same token, if it does not reach to the new lines. -/
theorem InLine.cut (h : i.InLine p q) (first : Bool) {c : Char} {cs : List Char}
    (hrest : p.cursor.rest = c :: cs) {kind : Kind} {n : Nat}
    (hlexeme : lexeme cfg first c cs = (kind, n))
    (hstay : i.InFront p → i.InFront { p with cursor := p.cursor.advance (n + 1) }) :
    ∃ cs', q.cursor.rest = c :: cs' ∧ lexeme cfg first c cs' = (kind, n) ∧
      cs'.take n = cs.take n ∧ q.cursor.col = p.cursor.col ∧
      i.InLine { p with cursor := p.cursor.advance (n + 1) }
        { q with cursor := q.cursor.advance (n + 1) } := by
  cases h with
  | same h hagree =>
    exact ⟨cs, hagree.rest.trans hrest, hlexeme, rfl, hagree.col,
      .same (h.move _ _) (hagree.advance _)⟩
  | @front l h hnode hfront =>
    have hlength := congrArg List.length hfront.left
    rw [List.length_append, List.length_cons] at hlength
    have hlt : n < l.length := by
      rcases hstay (Or.inr ⟨hnode, by omega⟩) with hearlier | ⟨-, hlt⟩
      · exact absurd hnode (Nat.ne_of_lt hearlier)
      · dsimp only at hlt
        rw [Cursor.advance_rest, List.length_drop] at hlt
        omega
    obtain ⟨cs', hrest', hlexeme', htake, hcol, hfront'⟩ := hfront.cut hrest hlexeme hlt
    exact ⟨cs', hrest', hlexeme', htake, hcol, .front (h.move _ _) hnode hfront'⟩

/-! ## Scanners side by side -/

variable {s t : Scanner}

/-- Some line is begun where the new lines go. -/
def Begins (i : Insertion cfg) (s : Scanner) : Prop :=
  ∃ turn ∈ s.turns, ∃ p ∈ turn.lineStarts, i.Here p

/-- On the way to the next token, nothing above the new lines looks into them: the token does not
    end where they go, and no line opens a block comment that they might close. -/
structure Clear (i : Insertion cfg) (s : Scanner) : Prop where
  token : s.scan.1.text ≠ [] → ¬ i.Here s.scan.2.place
  lines : i.NoneOpen s.lineStarts

instance (s : Scanner) : Decidable (i.Clear s) :=
  decidable_of_iff ((s.scan.1.text ≠ [] → ¬ i.Here s.scan.2.place) ∧ i.NoneOpen s.lineStarts)
    ⟨fun h => ⟨h.1, h.2⟩, fun h => ⟨h.token, h.lines⟩⟩

theorem clear_ended (hpop : s.layout.pop? = none) (hd : s.done = true) : i.Clear s := by
  have hscan : s.scan = (s.eofToken, s) := by simp [Scanner.scan, hpop, hd]
  have hstarts : s.lineStarts = [] := if_pos (by simp [Scanner.waits, hd])
  refine ⟨fun htext => ?_, fun _ _ p hp => ?_⟩
  · rw [hscan] at htext
    exact absurd rfl htext
  · rw [hstarts] at hp
    cases hp

theorem Begins.before (h : i.Begins s) : ∃ p, i.Here p ∧ s.place.Before p := by
  obtain ⟨turn, hturn, p, hp, hhere⟩ := h
  exact ⟨p, hhere, (Scanner.turns_before hturn).trans (Scanner.lineStarts_before hp).1⟩

/-- A scanner that is still in front of the new lines begins the line behind its token. -/
theorem Begins.scan (h : i.Begins s) (hfront : i.InFront s.ready.place) : i.Begins s.scan.2 := by
  obtain ⟨turn, hturn, p, hp, hhere⟩ := h
  rcases Scanner.mem_turns hturn with rfl | ⟨-, hturn⟩
  · exact absurd (Scanner.lineStarts_before hp).2 (hfront.not_before hhere)
  · exact ⟨turn, hturn, p, hp, hhere⟩

/-- Where a line is looked for above the new ones, their place is begun by the search or later. -/
theorem reached_of_begins (h : i.InFront s.place → i.Begins s) (hw : s.waits = false)
    (hend : s.lineEnd? = some p) :
    i.Reached p (p.lineStarts s.config) (p.nextVisible s.config) := by
  intro hfront
  obtain ⟨turn, hturn, here, hstart, hhere⟩ :=
    h (hfront.of_before (Scanner.lineEnd?_passes hend).before)
  rcases Scanner.mem_turns hturn with rfl | ⟨-, hturn⟩
  · obtain ⟨-, p', hend', hstart⟩ := Scanner.mem_lineStarts hstart
    obtain rfl := Option.some.inj (hend.symm.trans hend')
    refine ⟨here, hhere, Or.inl (hstart.resolve_right fun hlt => ?_)⟩
    exact hfront.not_before hhere (Or.inl hlt.2)
  · obtain ⟨p', hhere', hbefore⟩ := Begins.before ⟨turn, hturn, here, hstart, hhere⟩
    refine ⟨p', hhere', Or.inr ?_⟩
    rw [← Scanner.ready_place hw hend]
    exact s.scan_before.2.trans hbefore

/-- A token above the new lines ends above them. -/
theorem inFront_scan (h : i.InFront s.place → i.Begins s) (hclear : i.Clear s)
    (htext : s.scan.1.text ≠ []) (hfront : i.InFront s.ready.place) : i.InFront s.scan.2.place := by
  obtain ⟨here, hhere, hbefore⟩ :=
    ((h (hfront.of_before s.scan_before.1)).scan hfront).before
  exact inFront_of_not_here hbefore hhere (hclear.token htext)

/-- Scanners of the code as it is and with the new lines, and what the first one is to meet. -/
structure Reads (i : Insertion cfg) (s t : Scanner) : Prop
    extends Scanner.Beside i.AtLine i.InLine s t where
  setting : s.config = cfg
  clear : ∀ turn ∈ s.turns, i.Clear turn
  begins : i.InFront s.place → i.Begins s

end Insertion

/-- A token without the line that it is on and the bytes in front of it. -/
def Token.unplaced (t : Token) : Token :=
  { t with offset := 0, line := 0 }

theorem Token.observes_unplaced : Observes Token.unplaced :=
  ⟨fun {t t'} h => show t.unplaced.kind = t'.unplaced.kind by rw [h], fun _ _ _ _ => rfl⟩

namespace Insertion

variable {cfg : Config} {i : Insertion cfg} {s t : Scanner}

/-- Both sides hand out the same token. -/
theorem Reads.scan (h : i.Reads s t) :
    t.scan.1.unplaced = s.scan.1.unplaced ∧ i.Reads s.scan.2 t.scan.2 := by
  have hturn : s ∈ s.turns := Scanner.turns_eq s ▸ List.mem_cons_self
  have hready := h.toBeside.ready i.lineRelation fun p q hw hp hq hline => by
    have hreached := reached_of_begins h.begins hw hp
    have hopen := (h.clear s hturn).lines
    have hsubset := Scanner.lineStarts_subset hw hp
    rw [h.setting] at hreached hsubset ⊢
    exact hline.nextVisible (p.search cfg) hreached fun hignored hend r hr =>
      hopen hignored hend r (hsubset hr)
  obtain ⟨htoken, hnext⟩ := hready.scan Token.observes_unplaced fun c cs hw hrest _ hin => by
    cases hlexeme : lexeme s.ready.config s.ready.lineFirst c cs with
    | mk kind n =>
      have hconfig : s.ready.config = cfg := s.readies.config.trans h.setting
      have hscan := Scanner.scan_eq_cut hw hrest
      rw [Scanner.cut_eq hlexeme] at hscan
      -- above the new lines a token ends above them, so that it does not depend on them
      have hstay := inFront_scan h.begins (h.clear s hturn)
      rw [hscan] at hstay
      obtain ⟨cs', hrest', hlexeme', htake, hcol, hin'⟩ :=
        hin.cut _ hrest (hconfig ▸ hlexeme) (hstay (List.cons_ne_nil _ _))
      rw [← hconfig, ← hready.config, ← hready.lineFirst] at hlexeme'
      refine ⟨cs', hrest', ?_⟩
      rw [Scanner.cut_eq hlexeme, Scanner.cut_eq hlexeme']
      refine ⟨?_, hin'⟩
      simp only [Token.unplaced, htake, hcol, hin.node]
  refine ⟨htoken, hnext, (Scanner.scan_config s).trans h.setting,
    Scanner.forall_turns_scan (fun _ => clear_ended) h.clear, fun hfront => ?_⟩
  have hready := hfront.of_before s.scan_before.2
  exact (h.begins (hready.of_before s.scan_before.1)).scan hready

theorem reads_start (hbegins : i.Begins (Scanner.ofCode cfg i.code))
    (hclear : ∀ turn ∈ (Scanner.ofCode cfg i.code).turns, i.Clear turn) :
    i.Reads (Scanner.ofCode cfg i.code) (Scanner.ofCode cfg i.grown) := by
  obtain ⟨hnode, hahead⟩ := Place.start_ahead i.code
  obtain ⟨hnode', hahead'⟩ := Place.start_ahead i.grown
  have halong : i.Along (Place.start i.code) (Place.start i.grown) :=
    ⟨hnode'.trans hnode.symm, hahead, by rw [hahead', hnode', hnode]⟩
  exact ⟨⟨⟨rfl, ⟨_, rfl⟩, rfl, rfl⟩,
    fun _ _ => halong.atLine_fresh (Place.start_fresh _) (Place.start_fresh _), nofun⟩, rfl,
    hclear, fun _ => hbegins⟩

end Insertion

/-- **Lines that show nothing make no difference.**  Into a run of code, at a place at which a
    scanner begins a line, any lines are put that are blank or hold one ignored comment.  Where no
    token ends at that place, and no line above it in the run opens a block comment that the new
    lines might close, the scanners of the code with and without them return the same tokens, call
    after call, but for the lines and bytes at which these stand. -/
theorem hidden_lines_invisible (cfg : Config) (i : Insertion cfg)
    (hbegins : i.Begins (Scanner.ofCode cfg i.code))
    (hclear : ∀ turn ∈ (Scanner.ofCode cfg i.code).turns, i.Clear turn) (n : Nat) :
    ((Scanner.ofCode cfg i.grown).returned n).map Token.unplaced =
      ((Scanner.ofCode cfg i.code).returned n).map Token.unplaced :=
  Scanner.returned_eq_of_scan (R := i.Reads) Token.observes_unplaced (fun h => h.config)
    Insertion.Reads.scan (Insertion.reads_start hbegins hclear) n

/-- A blank line and two lines with a comment each, for the second of two runs. -/
def commentLines : Insertion { ignored := .comments } where
  before := [⟨"a\n".toList, 1, 0, false⟩]
  run := ⟨"    b\n      c\n    d\n".toList, 3, 2, true⟩
  after := []
  front := "    b\n      c\n".toList
  back := "    d\n".toList
  inserted := "\t\n  /* e */ \n// f\n".toList
  text := by decide +kernel
  closed := by decide +kernel
  hidden :=
    .line ['\t'] (.blank _ (by decide)) (by decide) <|
    .line [' ', ' ', '/', '*', ' ', 'e', ' ', '*', '/', ' ']
      (.blockComment [' ', ' '] [' ', 'e', ' '] [' '] (by decide) (by decide) (by decide) rfl)
      (by decide) <|
    .line ['/', '/', ' ', 'f']
      (.lineComment [] '/' ['/'] [' ', 'f'] (by decide) (.inl rfl) rfl) (by decide) <|
    .last [] (.blank _ (by decide)) (by decide)
  whole := by decide +kernel

theorem hidden_lines_invisible_commentLines :
    let i := commentLines
    let s := Scanner.ofCode { ignored := .comments } i.code
    i.Begins s ∧ (∀ turn ∈ s.turns, i.Clear turn) ∧
    (s.returned 8).map Token.kind =
      [.word, .newline, .indent, .word, .newline, .indent, .word, .outdent] ∧
    ((Scanner.ofCode { ignored := .comments } i.grown).returned 12).map Token.unplaced =
      (s.returned 12).map Token.unplaced := by
  intro i s
  have hbegins : i.Begins s := by
    unfold Insertion.Begins
    decide +kernel
  have hclear : ∀ turn ∈ s.turns, i.Clear turn := by decide +kernel
  exact ⟨hbegins, hclear, by decide +kernel, hidden_lines_invisible _ i hbegins hclear 12⟩

/-- A blank line behind a comment that is left open, which takes in the end of the last line. -/
def behindOpenComment : Insertion { ignored := .comments } where
  before := []
  run := .ofText "/* a\n".toList
  after := []
  front := "/* a\n".toList
  back := []
  inserted := ['\n']
  text := by decide +kernel
  closed := by decide +kernel
  hidden := .line [] (.blank _ (by decide)) (by decide) <|
    .last [] (.blank _ (by decide)) (by decide)
  whole := .inl rfl

/-- A line with a comment below a comment that is left open, where a slash may start a word, so
    that it is read as three tokens. -/
def belowOpenComment : Insertion { ignored := .comments, wordStart := ['/'] } where
  before := []
  run := .ofText "/* a\nb\n".toList
  after := []
  front := "/* a\n".toList
  back := "b\n".toList
  inserted := "/* x */\n".toList
  text := by decide +kernel
  closed := by decide +kernel
  hidden :=
    .line ['/', '*', ' ', 'x', ' ', '*', '/']
      (.blockComment [] [' ', 'x', ' '] [] (by decide) (by decide) (by decide) rfl)
      (by decide) <|
    .last [] (.blank _ (by decide)) (by decide)
  whole := by decide +kernel

/-- At both places a line is begun, and new lines change the tokens: the first comment takes in
    one more line, and the second one is closed by the new line and ignored. -/
theorem hidden_lines_openComment :
    (let i := behindOpenComment
      let s := Scanner.ofCode { ignored := .comments } i.code
      let t := Scanner.ofCode { ignored := .comments } i.grown
      i.Begins s ∧ (s.returned 2).map Token.text = ["/* a\n".toList, []] ∧
        (t.returned 2).map Token.text = ["/* a\n\n".toList, []]) ∧
    (let i := belowOpenComment
      let s := Scanner.ofCode { ignored := .comments, wordStart := ['/'] } i.code
      let t := Scanner.ofCode { ignored := .comments, wordStart := ['/'] } i.grown
      i.Begins s ∧
        (s.returned 6).map Token.kind = [.word, .mark, .word, .newline, .word, .eof] ∧
        (t.returned 2).map Token.kind = [.word, .eof]) := by
  unfold Insertion.Begins
  decide +kernel

end LayoutLR
