/-
  Layout-aware LR toolkit — stacks are paths through the automaton.

  The states on a stack are joined by transitions on the symbols of its frames.
  With items behind the states, such a path can be walked back: what an item has
  before its dot lies on top of the stack, and below it there is a state that
  knows the head.  So a reduction never finds too few frames, and its head can
  always be pushed.

  * `Frame.view`, `Stack.view`: a stack without its layout;
  * `Table.Path`: the frames are joined by transitions;
  * `Table.Path.pop`: the frames of a body;
  * `Table.Path.reduce`: what a reduction finds.
-/
import LayoutLR.Parser.Machine
import LayoutLR.Proofs.Automaton.Table

namespace LayoutLR

variable {σ V : Type}

/-! ## Stacks without layout -/

/-- A frame without its layout. -/
def Frame.view (f : Frame V) : Nat × Nat × Option V :=
  (f.state, f.sym, f.value)

/-- The frames of a stack without their layout, from the top down. -/
def Stack.view (s : Stack V) : List (Nat × Nat × Option V) :=
  s.frames.map Frame.view

namespace Stack

theorem view_updateTop (s : Stack V) {f : Frame V → Frame V} (hf : (f s.top).view = s.top.view) :
    (s.updateTop f).view = s.view := by
  simp [view, frames, updateTop, hf]

@[simp]
theorem view_recordIndent (s : Stack V) (startsLine : Bool) :
    (s.recordIndent startsLine).view = s.view :=
  s.view_updateTop rfl

section

variable {α : Type} {k : Frame V → α}

/-- Refreshing keeps what does not depend on levels and line breaks below. -/
theorem map_refreshAll
    (hk : ∀ (f : Frame V) n b, k { f with sinceIndent := n, newlinePermitted := b } = k f)
    (t : Table) (upper below : List (Frame V)) :
    (refreshAll t upper below).map k = (upper ++ below).map k := by
  have hrefresh (f : Frame V) (below : List (Frame V)) : k (refresh t f below) = k f := by
    cases below with
    | nil => exact hk f _ _
    | cons g below => exact hk f _ _
  induction upper with
  | nil => rfl
  | cons f upper ih =>
    simp only [refreshAll, List.foldr_cons, List.map_cons, List.cons_append, hrefresh]
    exact congrArg (k f :: ·) ih

theorem map_ofFrames (s : Stack V) {fs : List (Frame V)} (h : fs.map k = s.frames.map k) :
    (s.ofFrames fs).frames.map k = s.frames.map k := by
  cases fs with
  | nil => rfl
  | cons f fs => exact h

/-- Closing a level keeps what does not depend on levels and line breaks. -/
theorem map_cancelIndent
    (hk : ∀ (f : Frame V) n b, k { f with sinceIndent := n, newlinePermitted := b } = k f)
    (hindents : ∀ (f : Frame V) n, k { f with indents := n } = k f) (t : Table) (s : Stack V) :
    (s.cancelIndent t).frames.map k = s.frames.map k := by
  unfold cancelIndent
  have hsplit := List.take_append_drop s.top.sinceIndent s.frames
  dsimp only
  split
  · rfl
  · rename_i f below hdrop
    rw [hdrop] at hsplit
    have hframes : s.frames.map k = (s.frames.take s.top.sinceIndent).map k ++
        k f :: below.map k := by
      rw [← List.map_cons, ← List.map_append, hsplit]
    split
    · rfl
    · split
      · refine s.map_ofFrames ?_
        rw [hframes, List.map_append, List.map_cons, hindents]
      · refine s.map_ofFrames ?_
        rw [map_refreshAll hk, hframes]
        simp [hindents]

end

@[simp]
theorem view_cancelIndent (t : Table) (s : Stack V) : (s.cancelIndent t).view = s.view :=
  map_cancelIndent (fun _ _ _ => rfl) (fun _ _ => rfl) t s

theorem view_push? {t : Table} {s s' : Stack V} {state sym indents : Nat} {startsLine : Bool}
    {value : V} (h : s.push? t state sym indents startsLine value = some s') :
    s'.view = (state, sym, some value) :: s.view := by
  obtain ⟨row, -, rfl⟩ := Option.map_eq_some_iff.1 h
  rfl

theorem top_push? {t : Table} {s s' : Stack V} {state sym indents : Nat} {startsLine : Bool}
    {value : V} (h : s.push? t state sym indents startsLine value = some s') :
    s'.top.value = some value := by
  obtain ⟨row, -, rfl⟩ := Option.map_eq_some_iff.1 h
  rfl

theorem exists_push? {t : Table} (s : Stack V) {state : Nat} (h : state < t.rows.size)
    (sym indents : Nat) (startsLine : Bool) (value : V) :
    ∃ s', s.push? t state sym indents startsLine value = some s' := by
  simp [push?, Table.row?, h]

theorem size_eq (s : Stack V) : s.size = s.frames.length := by
  simp [size, frames]

theorem values_eq_view (s : Stack V) : s.values = s.view.reverse.filterMap fun x => x.2.2 := by
  rw [values, view, ← List.map_reverse, List.filterMap_map]
  rfl

/-- The values do not hang on the layout. -/
theorem values_congr {s s' : Stack V} (h : s'.view = s.view) : s'.values = s.values := by
  rw [values_eq_view, values_eq_view, h]

theorem values_push {s s' : Stack V} {q sym : Nat} {v : V}
    (h : s'.view = (q, sym, some v) :: s.view) : s'.values = s.values ++ [v] := by
  rw [values_eq_view, values_eq_view, h]
  simp

theorem values_append {s rest : Stack V} {popped : List (Frame V)}
    (h : s.frames = popped ++ rest.frames) :
    s.values = rest.values ++ popped.reverse.filterMap Frame.value := by
  rw [values, h, List.reverse_append, List.filterMap_append]
  rfl

/-- Frames that are taken off were on top. -/
theorem frames_pop? {s rest : Stack V} {n : Nat} {popped : List (Frame V)}
    (h : s.pop? n = some (popped, rest)) : s.frames = popped ++ rest.frames := by
  unfold pop? at h
  split at h
  · cases h
  · rename_i top below hdrop
    obtain ⟨rfl, rfl⟩ := Prod.mk.inj (Option.some.inj h)
    have hsplit := List.take_append_drop n s.frames
    rw [hdrop] at hsplit
    exact hsplit.symm

end Stack

/-! ## Paths -/

/-- Frames from the top down to the bottom, joined by transitions. -/
def Table.Path (t : Table) : List (Frame V) → Prop
  | [] => False
  | [f] => f.state = 0 ∧ f.value = none
  | f :: f' :: fs => (∃ v, f.value = some v) ∧ t.goto? f'.state f.sym = some f.state ∧
      t.Path (f' :: fs)

namespace Table.Path

variable {g : Grammar} {t : Table} {has : Nat → Item → Prop} {f : Frame V} {fs fs' : List (Frame V)}

/-- Layout does not matter. -/
theorem congr (h : t.Path fs) (hv : fs'.map Frame.view = fs.map Frame.view) : t.Path fs' := by
  induction fs generalizing fs' with
  | nil => exact absurd h id
  | cons f fs ih =>
    obtain ⟨f', fs', rfl⟩ : ∃ f' fs'', fs' = f' :: fs'' := by
      cases fs' with
      | nil => cases hv
      | cons f' fs' => exact ⟨f', fs', rfl⟩
    rw [List.map_cons, List.map_cons, List.cons.injEq] at hv
    obtain ⟨hf, hfs⟩ := hv
    simp only [Frame.view, Prod.mk.injEq] at hf
    obtain ⟨hstate, hsym, hvalue⟩ := hf
    cases fs with
    | nil =>
      obtain rfl : fs' = [] := by simpa using hfs
      exact ⟨hstate.trans h.1, hvalue.trans h.2⟩
    | cons b fs =>
      obtain ⟨b', fs', rfl⟩ : ∃ b' fs'', fs' = b' :: fs'' := by
        cases fs' with
        | nil => cases hfs
        | cons b' fs' => exact ⟨b', fs', rfl⟩
      have hb : b'.state = b.state := congrArg Prod.fst (List.cons.inj hfs).1
      obtain ⟨hval, hgo, hrest⟩ := h
      exact ⟨hvalue ▸ hval, by rw [hb, hsym, hstate]; exact hgo, ih hrest hfs⟩

/-- A frame on top of a path, after a transition. -/
theorem push {s s' : Stack V} {next sym : Nat} {v : V} (h : t.Path s.frames)
    (hgo : t.goto? s.top.state sym = some next)
    (hview : s'.view = (next, sym, some v) :: s.view) : t.Path s'.frames := by
  let f : Frame V := ⟨next, sym, some v, 0, 0, 0, false⟩
  have hf : t.Path (f :: s.frames) := ⟨⟨v, rfl⟩, hgo, h⟩
  exact hf.congr hview

theorem tail {f' : Frame V} (h : t.Path (f :: f' :: fs)) : t.Path (f' :: fs) :=
  h.2.2

/-- The rest of a path is a path. -/
theorem suffix {popped : List (Frame V)} (h : t.Path (popped ++ f :: fs)) : t.Path (f :: fs) := by
  induction popped with
  | nil => exact h
  | cons f' popped ih =>
    refine ih ?_
    cases popped with
    | nil => exact h.tail
    | cons => exact h.tail

theorem state_lt (hb : t.Backed g has) (h : t.Path fs) : ∀ f ∈ fs, f.state < t.rows.size := by
  induction fs with
  | nil => simp
  | cons f fs ih =>
    intro f' hf'
    cases fs with
    | nil =>
      rw [List.mem_singleton.1 hf', h.1]
      exact hb.start
    | cons b fs =>
      rcases List.mem_cons.1 hf' with rfl | hf'
      · exact (hb.target _ _ _ h.2.1).1
      · exact ih h.tail f' hf'

/-- The first state is at the bottom only. -/
theorem bottom (hb : t.Backed g has) (h : t.Path (f :: fs)) (hf : f.state = 0) :
    fs = [] ∧ f.value = none := by
  cases fs with
  | nil => exact ⟨rfl, h.2⟩
  | cons b fs => exact absurd hf (hb.target _ _ _ h.2.1).2

theorem isChain (h : t.Path fs) :
    fs.IsChain fun above below => t.goto? below.state above.sym = some above.state := by
  induction fs with
  | nil => exact .nil
  | cons f fs ih =>
    cases fs with
    | nil => exact .singleton f
    | cons b fs => exact .cons_cons h.2.1 (ih h.tail)

/-- What an item has before its dot lies on top of the stack, above a state that has the
    item with the dot at the start. -/
theorem pop (hb : t.Backed g has) (h : t.Path (f :: fs)) {i : Item} (hi : has f.state i) :
    ∃ popped f' fs', f :: fs = popped ++ f' :: fs' ∧ popped.length = i.dot ∧
      (popped.map Frame.sym).reverse = (g.body i.prod).take i.dot ∧
      (∀ p ∈ popped, ∃ v, p.value = some v) ∧ has f'.state ⟨i.prod, 0⟩ := by
  obtain ⟨p, d⟩ := i
  induction d generalizing f fs with
  | zero => exact ⟨[], f, fs, rfl, rfl, by simp, by simp, hi⟩
  | succ d ih =>
    cases fs with
    | nil =>
      -- in the first state the dot of every item is at the start
      rw [h.1] at hi
      exact absurd (hb.origin _ hi) (Nat.succ_ne_zero d)
    | cons b fs =>
      obtain ⟨hvalue, hgo, hrest⟩ := h
      obtain ⟨⟨p', d'⟩, hj, hnext, hadv⟩ := hb.behind _ _ _ _ hgo hi (Nat.succ_pos d)
      obtain ⟨rfl, hd⟩ := Item.mk.inj hadv
      obtain rfl := Nat.succ.inj hd
      obtain ⟨popped, f', fs', heq, hlen, hsyms, hvals, hhas⟩ := ih hrest hj
      refine ⟨f :: popped, f', fs', by rw [heq]; rfl, by simp [hlen], ?_, ?_, hhas⟩
      · rw [List.map_cons, List.reverse_cons, hsyms]
        dsimp only at hnext ⊢
        rw [List.take_add_one, show (g.body p)[d]? = some f.sym from hnext]
        rfl
      · rintro x (_ | ⟨_, hx⟩)
        · exact hvalue
        · exact hvals x hx

/-- **A reduction finds its body**: the frames of the body lie on top, with their values, and
    the head can be pushed on the rest. -/
theorem reduce (hb : t.Backed g has) {s : Stack V} (h : t.Path s.frames) {r : Reduction}
    (hr : t.reduce? s.top.state = some r) :
    ∃ popped rest, s.pop? r.size = some (popped, rest) ∧ s.frames = popped ++ rest.frames ∧
      popped.length = r.size ∧ (popped.map Frame.sym).reverse = g.body r.prod ∧
      (∀ f ∈ popped, ∃ v, f.value = some v) ∧ has rest.top.state ⟨r.prod, 0⟩ ∧
      (r.prod ≠ 0 → ∃ q, t.goto? rest.top.state r.sym = some q) := by
  obtain ⟨hby, hi⟩ := hb.reduce _ r hr
  have hsize : r.size = (g.body r.prod).length := by rw [hby]; rfl
  have hsym : r.sym = g.head r.prod := by rw [hby]; rfl
  obtain ⟨popped, f, fs, heq, hlen, hsyms, hvals, hhas⟩ := pop hb h hi
  have hlen : popped.length = r.size := hlen.trans hsize.symm
  have hdrop : s.frames.drop r.size = f :: fs := by
    rw [Stack.frames, heq, ← hlen, List.drop_left]
  have htake : s.frames.take r.size = popped := by
    rw [Stack.frames, heq, ← hlen, List.take_left]
  refine ⟨popped, ⟨f, fs⟩, ?_, heq, hlen, ?_, hvals, hhas, fun hne => ?_⟩
  · simp [Stack.pop?, hdrop, htake]
  · rw [hsyms, List.take_length]
  · rw [hsym]
    exact hb.head _ _ hhas hne

end Table.Path

end LayoutLR
