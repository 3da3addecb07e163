/-
  Layout-aware LR toolkit — what the layout of a frame hangs on.

  A frame keeps how far up the last open level is, and whether a line may end.  Both
  are told by the levels of the frame itself and by the frame below, on any table and
  for any order of tokens.  So the end of a level closes the innermost one, and does
  not reduce across it.  Only after an error it is different: the levels of dropped
  frames move to the error, and a line may still end there as if they had not.

  * `Frame.LiesOn`: how the layout of a frame hangs on the frame below;
  * `Table.Layered`: frames with such a layout;
  * `Table.Layered.levelDown`: how far down the last open level is;
  * `Stack.Reshaped`, `Machine.step_reshaped`: what a step does to the stack;
  * `innermost_level_closed`: the end of a level closes the innermost one;
  * `permission_from_below`: whether a line may end at a frame.
-/
import LayoutLR.Proofs.Parser.Levels

namespace LayoutLR

variable {σ V : Type}

/-- Whether some item of a state waits for a line-like symbol. -/
def Table.startsLine (t : Table) (q : Nat) : Bool :=
  ((t.row? q).map Row.startsLine).getD false

theorem Table.startsLine_of_row {t : Table} {q : Nat} {row : Row} (h : t.row? q = some row) :
    t.startsLine q = row.startsLine := by
  rw [startsLine, h]
  rfl

/-! ## Frames on each other -/

namespace Frame

/-- An error that has taken over levels, at which a line may end as if it had not. -/
structure Carries (t : Table) (f g : Frame V) : Prop where
  sym : f.sym = Kind.error.num
  levels : 0 < f.indents
  permitted : f.newlinePermitted = (t.startsLine f.state || g.newlinePermitted)

/-- How the layout of a frame hangs on the frame below. -/
structure LiesOn (t : Table) (f g : Frame V) : Prop where
  since : f.sinceIndent = if 0 < f.indents then 0 else g.sinceIndent + 1
  permitted :
    f.newlinePermitted = (t.startsLine f.state || (f.indents == 0 && g.newlinePermitted)) ∨
      f.Carries t g

/-- The layout of the bottom frame. -/
structure LiesAtBottom (t : Table) (f : Frame V) : Prop where
  since : f.sinceIndent = 0
  permitted : f.newlinePermitted = t.startsLine f.state

variable {t : Table} {f g g' : Frame V}

/-- A line may end wherever a state waits for it. -/
theorem LiesOn.permitted_of_startsLine (h : f.LiesOn t g) (hline : t.startsLine f.state = true) :
    f.newlinePermitted = true := by
  rcases h.permitted with hperm | hcarries
  · rw [hperm, hline, Bool.true_or]
  · rw [hcarries.permitted, hline, Bool.true_or]

/-- Of the frame below only the layout counts. -/
theorem LiesOn.congr (h : f.LiesOn t g) (hsince : g'.sinceIndent = g.sinceIndent)
    (hperm : g'.newlinePermitted = g.newlinePermitted) : f.LiesOn t g' := by
  refine ⟨by rw [h.since, hsince], h.permitted.imp (fun hp => ?_) fun hc => ?_⟩
  · rw [hp, hperm]
  · exact ⟨hc.sym, hc.levels, by rw [hc.permitted, hperm]⟩

end Frame

/-- Frames from the top down whose layout hangs on the frames below. -/
def Table.Layered (t : Table) : List (Frame V) → Prop
  | [] => True
  | [f] => f.LiesAtBottom t
  | f :: g :: fs => f.LiesOn t g ∧ t.Layered (g :: fs)

namespace Table.Layered

variable {t : Table} {f f' : Frame V} {fs upper below : List (Frame V)} {s rest : Stack V}

theorem tail (h : t.Layered (f :: fs)) : t.Layered fs := by
  cases fs with
  | nil => trivial
  | cons g fs => exact h.2

theorem suffix (h : t.Layered (upper ++ below)) : t.Layered below := by
  induction upper with
  | nil => exact h
  | cons u upper ih => exact ih h.tail

theorem of_suffix (h : t.Layered s.frames) (hsuffix : rest.frames <:+ s.frames) :
    t.Layered rest.frames := by
  obtain ⟨popped, hframes⟩ := hsuffix
  rw [← hframes] at h
  exact h.suffix

/-- A frame may be exchanged for one with the same layout. -/
theorem exchange (h : t.Layered (upper ++ f :: below)) (h' : t.Layered (f' :: below))
    (hsince : f'.sinceIndent = f.sinceIndent) (hperm : f'.newlinePermitted = f.newlinePermitted) :
    t.Layered (upper ++ f' :: below) := by
  induction upper with
  | nil => exact h'
  | cons u upper ih =>
    cases upper with
    | nil => exact ⟨h.1.congr hsince hperm, h'⟩
    | cons u' upper => exact ⟨h.1, ih h.2⟩

/-! ## The last open level -/

/-- Above the last open level a frame knows how far up it is. -/
theorem since_eq (h : t.Layered s.frames) (hframes : s.frames = upper ++ f :: below)
    (hflat : ∀ u ∈ upper, u.indents = 0) (hlevel : 0 < f.indents) :
    s.top.sinceIndent = upper.length := by
  obtain ⟨top, rest⟩ := s
  simp only [Stack.frames] at h hframes ⊢
  rw [hframes] at h
  induction upper generalizing top rest with
  | nil =>
    obtain ⟨rfl, rfl⟩ := List.cons.inj hframes
    cases rest with
    | nil => exact h.since
    | cons g rest => rw [h.1.since, if_pos hlevel, List.length_nil]
  | cons u upper ih =>
    obtain ⟨rfl, rfl⟩ := List.cons.inj hframes
    obtain ⟨hu, hflat⟩ := List.forall_mem_cons.1 hflat
    cases hrest : upper ++ f :: below with
    | nil => simp at hrest
    | cons g rest =>
      rw [List.cons_append, hrest] at h
      rw [h.1.since, if_neg (by omega), ih hflat g rest (hrest ▸ h.2) hrest.symm, List.length_cons]

/-- Without an open level a frame knows how far up it is. -/
theorem since_bottom (h : t.Layered (f :: fs)) (hflat : ∀ u ∈ f :: fs, u.indents = 0) :
    f.sinceIndent = fs.length := by
  induction fs generalizing f with
  | nil => exact h.since
  | cons g fs ih =>
    have hf : ¬ 0 < f.indents := by simp [hflat f]
    rw [h.1.since, if_neg hf, ih h.2 fun u hu => hflat u (List.mem_cons_of_mem _ hu),
      List.length_cons]

end Table.Layered

/-- There is a last open level, or none is open. -/
theorem exists_last_level (fs : List (Frame V)) : (∃ upper f below, fs = upper ++ f :: below ∧
    (∀ u ∈ upper, u.indents = 0) ∧ 0 < f.indents) ∨ ∀ u ∈ fs, u.indents = 0 := by
  cases hfind : fs.find? fun f => decide (0 < f.indents) with
  | none =>
    refine Or.inr fun u hu => ?_
    have := List.find?_eq_none.1 hfind u hu
    simpa using this
  | some f =>
    obtain ⟨hf, upper, below, rfl, hflat⟩ := List.find?_eq_some_iff_append.1 hfind
    exact Or.inl ⟨upper, f, below, rfl, by simpa using hflat, by simpa using hf⟩

/-! ## What is done to a stack -/

namespace Stack

variable {t : Table} {s s' rest : Stack V} {f : Frame V} {upper below : List (Frame V)}

theorem initial_layered (t : Table) : t.Layered (initial t : Stack V).frames :=
  ⟨rfl, rfl⟩

theorem push?_layered {state sym indents : Nat} {startsLine : Bool} {v : V}
    (h : t.Layered s.frames) (hpush : s.push? t state sym indents startsLine v = some s') :
    t.Layered s'.frames := by
  obtain ⟨row, hrow, rfl⟩ := Option.map_eq_some_iff.1 hpush
  refine ⟨⟨rfl, Or.inl ?_⟩, h⟩
  rw [Table.startsLine_of_row hrow]

theorem recordIndent_layered {row : Row} (h : t.Layered s.frames)
    (hrow : t.row? s.top.state = some row) : t.Layered (s.recordIndent row.startsLine).frames := by
  obtain ⟨top, below⟩ := s
  have hline : t.startsLine top.state = row.startsLine := t.startsLine_of_row hrow
  cases below with
  | nil =>
    have hperm : top.newlinePermitted = t.startsLine top.state := h.permitted
    refine ⟨rfl, ?_⟩
    simp [recordIndent, updateTop, hperm, hline]
  | cons g below =>
    refine ⟨⟨by simp [recordIndent, updateTop], Or.inl ?_⟩, h.2⟩
    have hperm := h.1.permitted_of_startsLine
    rw [hline] at hperm
    show (row.startsLine && top.newlinePermitted) = _
    cases hrow : row.startsLine <;> simp_all [recordIndent, updateTop]

/-- An error takes over levels. -/
theorem addIndents_layered {state : Nat} {v : V} (h : t.Layered s.frames)
    (hpush : s.push? t state Kind.error.num 0 false v = some s') (indents : Nat) :
    t.Layered (Machine.addIndents s' indents).frames := by
  obtain ⟨row, hrow, rfl⟩ := Option.map_eq_some_iff.1 hpush
  refine ⟨⟨?_, ?_⟩, h⟩
  · simp [Machine.addIndents, updateTop]
  · rw [← t.startsLine_of_row hrow]
    rcases Nat.eq_zero_or_pos indents with rfl | hpos
    · exact Or.inl (by simp [Machine.addIndents, updateTop])
    · exact Or.inr ⟨rfl, by simpa [Machine.addIndents, updateTop] using hpos,
        by simp [Machine.addIndents, updateTop]⟩

/-- Frames without levels lie as the frames below have them. -/
theorem refreshAll_layered (h : t.Layered below) (hflat : ∀ u ∈ upper, u.indents = 0) :
    t.Layered (refreshAll t upper below) := by
  induction upper with
  | nil => exact h
  | cons u upper ih =>
    have hu := hflat u (List.mem_cons_self ..)
    have hupper := ih fun v hv => hflat v (List.mem_cons_of_mem _ hv)
    simp only [refreshAll, List.foldr_cons] at hupper ⊢
    generalize List.foldr (fun f below => refresh t f below :: below) below upper = lower at hupper ⊢
    cases lower with
    | nil => exact ⟨rfl, rfl⟩
    | cons g lower =>
      refine ⟨⟨by simp [refresh, hu], Or.inl ?_⟩, hupper⟩
      simp [refresh, hu, Table.startsLine]

/-- The frames after the last open level was closed. -/
theorem frames_cancelIndent (h : t.Layered s.frames) (hframes : s.frames = upper ++ f :: below)
    (hflat : ∀ u ∈ upper, u.indents = 0) (hlevel : 0 < f.indents) :
    (s.cancelIndent t).frames =
      if 1 < f.indents then upper ++ { f with indents := f.indents - 1 } :: below
      else refreshAll t (upper ++ [{ f with indents := f.indents - 1 }]) below := by
  have hsince := h.since_eq hframes hflat hlevel
  have hdrop : s.frames.drop s.top.sinceIndent = f :: below := by
    rw [hframes, hsince, List.drop_left]
  have htake : s.frames.take s.top.sinceIndent = upper := by
    rw [hframes, hsince, List.take_left]
  unfold cancelIndent
  dsimp only
  rw [hdrop, htake]
  dsimp only
  rw [if_neg (Nat.ne_of_gt hlevel)]
  have hofFrames {fs : List (Frame V)} (hne : fs ≠ []) : (s.ofFrames fs).frames = fs := by
    cases fs with
    | nil => exact absurd rfl hne
    | cons f fs => rfl
  by_cases hmore : 1 < f.indents
  · rw [if_pos (by omega), if_pos hmore, hofFrames (by simp)]
  · rw [if_neg (by omega), if_neg hmore, hofFrames]
    intro hnil
    have := congrArg (List.map Frame.indents) hnil
    simp [indents_refreshAll] at this

theorem canCancelIndent_iff (h : t.Layered s.frames) :
    s.canCancelIndent = true ↔ ∃ f ∈ s.frames, 0 < f.indents := by
  unfold canCancelIndent
  constructor
  · intro hcan
    split at hcan
    · rename_i f hf
      exact ⟨f, List.mem_of_getElem? hf, by simpa using hcan⟩
    · cases hcan
  · rintro ⟨g, hg, hlevel⟩
    rcases exists_last_level s.frames with ⟨upper, f, below, hframes, hflat, hf⟩ | hflat
    · rw [h.since_eq hframes hflat hf, hframes]
      simpa using hf
    · rw [hflat g hg] at hlevel
      exact absurd hlevel (Nat.lt_irrefl 0)

theorem cancelIndent_layered (h : t.Layered s.frames) (hopen : s.canCancelIndent = true) :
    t.Layered (s.cancelIndent t).frames := by
  obtain ⟨g, hg, hlevel⟩ := (canCancelIndent_iff h).1 hopen
  rcases exists_last_level s.frames with ⟨upper, f, below, hframes, hflat, hf⟩ | hflat
  · have hlower : t.Layered (f :: below) := by
      rw [hframes] at h
      exact h.suffix
    rw [frames_cancelIndent h hframes hflat hf]
    split
    · -- the frame keeps some levels, and its layout
      rename_i hmore
      rw [hframes] at h
      refine h.exchange ?_ rfl rfl
      cases below with
      | nil => exact ⟨hlower.since, hlower.permitted⟩
      | cons g below =>
        obtain ⟨⟨hsince, hperm⟩, hbelow⟩ := hlower
        refine ⟨⟨?_, hperm.imp (fun hperm => ?_) fun hcarries => ?_⟩, hbelow⟩
        · rw [hsince, if_pos hf, if_pos (by dsimp only; omega)]
        · have hopen : (f.indents == 0) = false := beq_eq_false_iff_ne.2 (by omega)
          have hstill : (f.indents - 1 == 0) = false := beq_eq_false_iff_ne.2 (by omega)
          dsimp only
          rw [hstill, hperm, hopen]
        · exact ⟨hcarries.sym, by dsimp only; omega, hcarries.permitted⟩
    · rename_i hlast
      refine refreshAll_layered hlower.tail fun u hu => ?_
      rcases List.mem_append.1 hu with hu | hu
      · exact hflat u hu
      · rw [List.mem_singleton.1 hu]
        dsimp only
        omega
  · rw [hflat g hg] at hlevel
    exact absurd hlevel (Nat.lt_irrefl 0)

end Stack

/-- What a step does to a stack, whatever the table is. -/
inductive Stack.Reshaped (t : Table) (s : Stack V) : Stack V → Prop
  | keep : Reshaped t s s
  | record {row : Row} (hrow : t.row? s.top.state = some row) :
      Reshaped t s (s.recordIndent row.startsLine)
  | cancel (hopen : s.canCancelIndent = true) : Reshaped t s (s.cancelIndent t)
  | push {rest s' : Stack V} {state sym indents : Nat} {startsLine : Bool} {v : V}
      (hrest : rest.frames <:+ s.frames)
      (hpush : rest.push? t state sym indents startsLine v = some s') : Reshaped t s s'
  | error {rest s' : Stack V} {state indents : Nat} {v : V} (hrest : rest.frames <:+ s.frames)
      (hpush : rest.push? t state Kind.error.num 0 false v = some s') :
      Reshaped t s (Machine.addIndents s' indents)

/-- The layout of frames hangs on the frames below after a step as well. -/
theorem Stack.Reshaped.layered {t : Table} {s s' : Stack V} (hs : s.Reshaped t s')
    (h : t.Layered s.frames) : t.Layered s'.frames := by
  cases hs with
  | keep => exact h
  | record hrow => exact Stack.recordIndent_layered h hrow
  | cancel hopen => exact Stack.cancelIndent_layered h hopen
  | push hrest hpush => exact Stack.push?_layered (h.of_suffix hrest) hpush
  | error hrest hpush => exact Stack.addIndents_layered (h.of_suffix hrest) hpush _

/-! ## Steps -/

namespace Machine

variable {t : Table} {acts : Actions σ V} {m m' : Machine σ V} {s : Stack V} {row : Row}

theorem recover_reshaped (hs : m.stack.frames <:+ s.frames) (h : recover t acts m = .next m') :
    s.Reshaped t m'.stack := by
  have hcases := recover_cases t acts m
  rw [h] at hcases
  cases hcases with
  | resume hfind hpush =>
    obtain ⟨top, -, hframes, -⟩ := findError_spec hfind
    exact .error ((hframes ▸ List.suffix_append top _).trans hs) hpush

theorem fail_reshaped (hs : m.stack.frames <:+ s.frames) (h : fail t acts m = .next m') :
    s.Reshaped t m'.stack := by
  rcases fail_cases t acts m with hfail | ⟨eofError, hfail⟩
  · cases h.symm.trans hfail
  · exact recover_reshaped (m := { m with eofError }) hs (hfail.symm.trans h)

/-- After a reduction its head was pushed, or some frames are gone. -/
def Reduced.Reshaped (t : Table) (s : Stack V) : Reduced σ V → Prop
  | .pushed m => s.Reshaped t m.stack
  | .failed m => m.stack.frames <:+ s.frames
  | .accepted _ _ | .broken _ => True

theorem reduceBy_reshaped (t : Table) (acts : Actions σ V) (m : Machine σ V) (r : Reduction) :
    Reduced.Reshaped t m.stack (reduceBy t acts m r) := by
  unfold reduceBy
  cases hpop : m.stack.pop? r.size with
  | none => exact List.suffix_rfl
  | some popped =>
    obtain ⟨popped, rest⟩ := popped
    have hrest : rest.frames <:+ m.stack.frames := Stack.frames_pop? hpop ▸ List.suffix_append _ _
    dsimp only
    split
    · split
      · exact hrest
      · trivial
    split
    · exact hrest
    split
    · trivial
    · exact .push hrest ‹_›

theorem reduceOrFail_reshaped {forced : Bool} (h : reduceOrFail t acts m row forced = .next m') :
    m.stack.Reshaped t m'.stack := by
  have hattempt := reduceOrFail_attempt t acts m row forced
  rw [h] at hattempt
  generalize hp : Progress.next m' = p at hattempt
  cases hattempt with
  | refused => exact fail_reshaped List.suffix_rfl hp.symm
  | tooShort => exact fail_reshaped (m := m.note _) List.suffix_rfl hp.symm
  | @pushed r verb _ _ hby =>
    have hreshaped := reduceBy_reshaped t acts (m.act verb) r
    rw [hby] at hreshaped
    obtain rfl := Progress.next.inj hp
    exact hreshaped
  | accepted => cases hp
  | @failed r verb _ _ hby =>
    have hreshaped := reduceBy_reshaped t acts (m.act verb) r
    rw [hby] at hreshaped
    exact fail_reshaped hreshaped hp.symm
  | broken => cases hp

theorem shift_reshaped {next : Nat} (h : Machine.shift t acts m next = .next m') :
    m.stack.Reshaped t m'.stack := by
  unfold Machine.shift at h
  dsimp only [act, note] at h
  cases hpush : m.stack.push? t next m.token.kind.num 0 (m.token.kind == .newline)
      (acts.token m.memory m.token).1 with
  | none =>
    rw [hpush] at h
    cases h
  | some stack =>
    rw [hpush] at h
    cases h
    exact .push List.suffix_rfl hpush

/-- **What a step does to the stack**, whatever the table is. -/
theorem step_reshaped (h : m.step t acts = .next m') : m.stack.Reshaped t m'.stack := by
  have hchoice := step_choice t acts m
  rw [h] at hchoice
  generalize hp : Progress.next m' = p at hchoice
  cases hchoice with
  | lost => cases hp
  | record _ hrow =>
    obtain rfl := Progress.next.inj hp
    exact .record hrow
  | cancel _ hopen =>
    obtain rfl := Progress.next.inj hp
    exact .cancel hopen
  | discard =>
    obtain rfl := Progress.next.inj hp
    exact .keep
  | shift => exact shift_reshaped hp.symm
  | reduce => exact reduceOrFail_reshaped hp.symm
  | recover => exact recover_reshaped List.suffix_rfl hp.symm

/-- The layout of frames hangs on the frames below at every step of a run. -/
theorem after_layered {memory : σ} {input : Input} {n : Nat}
    (hm : (start t memory input).after t acts n = some m) : t.Layered m.stack.frames :=
  after_induction (P := fun m => t.Layered m.stack.frames)
    (fun _ _ h hstep => (step_reshaped hstep).layered h) n _ m (Stack.initial_layered t) hm

end Machine

/-! ## Frames by their height -/

namespace Stack

variable {t : Table} {s : Stack V} {f : Frame V} {i : Nat} {upper lower below : List (Frame V)}

/-- The frame at a height above the bottom. -/
def frame? (s : Stack V) (i : Nat) : Option (Frame V) :=
  s.frames.reverse[i]?

theorem frame?_append (hframes : s.frames = upper ++ lower) (hi : i < lower.length) :
    s.frame? i = lower.reverse[i]? := by
  rw [frame?, hframes, List.reverse_append, List.getElem?_append_left (by simpa using hi)]

theorem frame?_eq_some_iff : s.frame? i = some f ↔
    ∃ upper below, s.frames = upper ++ f :: below ∧ below.length = i := by
  constructor
  · intro hf
    obtain ⟨hlt, hget⟩ := List.getElem?_eq_some_iff.1 hf
    have hsplit := List.take_append_drop i s.frames.reverse
    rw [List.drop_eq_getElem_cons hlt, hget] at hsplit
    have hframes := congrArg List.reverse hsplit
    rw [List.reverse_append, List.reverse_cons, List.append_assoc, List.singleton_append,
      List.reverse_reverse] at hframes
    refine ⟨_, _, hframes.symm, ?_⟩
    simp only [List.length_reverse, List.length_take] at hlt ⊢
    omega
  · rintro ⟨upper, below, hframes, rfl⟩
    rw [frame?_append hframes (by simp)]
    simp

/-- The last open level at a frame or below it is some frames down; if none is open, the bottom
    is. -/
structure LevelDown (s : Stack V) (i d : Nat) : Prop where
  le : d ≤ i
  flat : ∀ k f, i - d < k → k ≤ i → s.frame? k = some f → f.indents = 0
  level : (∃ f, s.frame? (i - d) = some f ∧ 0 < f.indents) ∨
    d = i ∧ ∀ f, s.frame? 0 = some f → f.indents = 0

end Stack

/-- A frame knows how far down the last open level is. -/
theorem Table.Layered.levelDown {t : Table} {s : Stack V} (h : t.Layered s.frames) {i : Nat}
    {f : Frame V} (hf : s.frame? i = some f) : s.LevelDown i f.sinceIndent := by
  obtain ⟨upper, below, hframes, rfl⟩ := Stack.frame?_eq_some_iff.1 hf
  have hlower : t.Layered (f :: below) := by
    rw [hframes] at h
    exact h.suffix
  -- the frames from this one down are a stack as well
  have hrest : (⟨f, below⟩ : Stack V).frames = f :: below := rfl
  rcases exists_last_level (f :: below) with ⟨inner, g, bottom, hsplit, hflat, hg⟩ | hflat
  · have hsince : f.sinceIndent = inner.length :=
      Table.Layered.since_eq (s := ⟨f, below⟩) hlower hsplit hflat hg
    have hlen : below.length + 1 = inner.length + (bottom.length + 1) := by
      simpa using congrArg List.length hsplit
    rw [hsplit] at hframes
    rw [hsince]
    refine ⟨by omega, fun k u hk hki hu => ?_, Or.inl ⟨g, ?_, hg⟩⟩
    · rw [Stack.frame?_append hframes (by simp; omega), List.reverse_append,
        List.getElem?_append_right (by simp; omega)] at hu
      exact hflat u (List.mem_reverse.1 (List.mem_of_getElem? hu))
    · refine Stack.frame?_eq_some_iff.2 ⟨upper ++ inner, bottom, by rw [hframes, List.append_assoc], ?_⟩
      omega
  · rw [hlower.since_bottom hflat]
    have hzero (k : Nat) (hk : k ≤ below.length) (u : Frame V) (hu : s.frame? k = some u) :
        u.indents = 0 := by
      rw [Stack.frame?_append hframes (by simp; omega)] at hu
      exact hflat u (List.mem_reverse.1 (List.mem_of_getElem? hu))
    exact ⟨Nat.le_refl _, fun k u _ hk hu => hzero k hk u hu,
      Or.inr ⟨rfl, fun u hu => hzero 0 (Nat.zero_le _) u hu⟩⟩

/-- Above the last open level nothing is open. -/
theorem Table.Layered.flat_take {t : Table} {s : Stack V} (h : t.Layered s.frames) :
    ∀ f ∈ s.frames.take s.top.sinceIndent, f.indents = 0 := by
  rcases exists_last_level s.frames with ⟨upper, f, below, hframes, hflat, hf⟩ | hflat
  · rw [h.since_eq hframes hflat hf, hframes, List.take_left]
    exact hflat
  · exact fun f hf => hflat f (List.mem_of_mem_take hf)

/-! ## The end of a level -/

/-- The end of a level forces a reduction. -/
structure Machine.OutForces (t : Table) (m : Machine σ V) (r : Reduction) : Prop where
  kind : m.token.kind = .outdent
  reduce : t.reduce? m.stack.top.state = some r
  inside : r.size ≤ m.stack.top.sinceIndent

theorem Machine.OutForces.step {t : Table} {m : Machine σ V} {r : Reduction} (h : m.OutForces t r)
    (acts : Actions σ V) : ∃ row, t.row? m.stack.top.state = some row ∧ row.reduce = some r ∧
      m.step t acts = reduceOrFail t acts m row true := by
  obtain ⟨row, hrow, hred⟩ := Option.bind_eq_some_iff.1 h.reduce
  refine ⟨row, hrow, hred, ?_⟩
  simp [Machine.step, hrow, h.kind, stepOutdent, reducesInside, hred, h.inside]

/-- **The end of a level closes the innermost one.**  At every step of a run, on any table, each
    frame knows how far down the last open level is.  So a level can be cancelled if and only if
    some frame has one open; this takes one from the topmost such frame and from no other; and
    a reduction that the end of a level forces takes no frame with a level off the stack. -/
theorem innermost_level_closed (t : Table) (acts : Actions σ V) (memory : σ) (input : Input) {n : Nat}
    {m : Machine σ V} (hm : (Machine.start t memory input).after t acts n = some m) :
    (∀ i f, m.stack.frame? i = some f → m.stack.LevelDown i f.sinceIndent) ∧
    (m.stack.canCancelIndent = true ↔ ∃ f ∈ m.stack.frames, 0 < f.indents) ∧
    (∀ upper f below, m.stack.frames = upper ++ f :: below → (∀ u ∈ upper, u.indents = 0) →
      0 < f.indents → (m.stack.cancelIndent t).frames.map Frame.indents =
        upper.map Frame.indents ++ (f.indents - 1) :: below.map Frame.indents) ∧
    ∀ r, m.OutForces t r → (∃ row, t.row? m.stack.top.state = some row ∧ row.reduce = some r ∧
        m.step t acts = Machine.reduceOrFail t acts m row true) ∧
      ∀ popped rest, m.stack.pop? r.size = some (popped, rest) → ∀ f ∈ popped, f.indents = 0 := by
  have h := Machine.after_layered hm
  refine ⟨fun i f hf => h.levelDown hf, Stack.canCancelIndent_iff h, ?_, ?_⟩
  · intro upper f below hframes hflat hf
    rw [Stack.frames_cancelIndent h hframes hflat hf]
    split
    · rw [List.map_append, List.map_cons]
    · rw [Stack.indents_refreshAll]
      simp
  · intro r hr
    refine ⟨hr.step acts, fun popped rest hpop f hf => h.flat_take f ?_⟩
    unfold Stack.pop? at hpop
    split at hpop
    · cases hpop
    · obtain ⟨rfl, -⟩ := Prod.mk.inj (Option.some.inj hpop)
      exact (List.take_subset_take_left _ hr.inside) hf

/-- Three numbers on a line, the first of which may be an error. -/
def numberTriple : String :=
  "S -> T NEWLINE\nT -> NUMBER NUMBER NUMBER\n   | ERROR NUMBER NUMBER\n"

/-- Three numbers two levels in, and the end of a level. -/
def deepTriple : Input :=
  .ofList [(.indent, []), (.indent, []), (.number, ['1']), (.number, ['2']), (.number, ['3']),
    (.outdent, [])]

set_option maxRecDepth 100000 in
/-- The end of the level is met above the three numbers: it forces them to be reduced, and both
    levels stay open at the bottom, where one of them can be cancelled. -/
theorem innermost_level_closed_deepTriple : ∃ g m r popped rest,
    Grammar.readText numberTriple = .ok g ∧
    (Machine.start (Automaton.build g .lalr).table {} deepTriple).after
      (Automaton.build g .lalr).table treeActions 5 = some m ∧
    m.stack.frames.map Frame.indents = [0, 0, 0, 2] ∧
    m.stack.LevelDown 3 m.stack.top.sinceIndent ∧ m.stack.canCancelIndent = true ∧
    (m.stack.cancelIndent (Automaton.build g .lalr).table).frames.map Frame.indents = [0, 0, 0, 1] ∧
    m.OutForces (Automaton.build g .lalr).table r ∧ m.stack.pop? r.size = some (popped, rest) ∧
    popped.length = 3 ∧ ∀ f ∈ popped, f.indents = 0 := by
  obtain ⟨g, m, hg, hm, htest⟩ := Machine.exists_after numberTriple deepTriple 5 (fun t m =>
    decide (m.token.kind = .outdent ∧ m.stack.frames.map Frame.indents = [0, 0, 0, 2]) &&
      (t.reduce? m.stack.top.state).any fun (r : Reduction) =>
        decide (r.size = 3 ∧ r.size ≤ m.stack.top.sinceIndent)) (by decide +kernel)
  obtain ⟨hat, htest⟩ := Bool.and_eq_true_iff.1 htest
  obtain ⟨hkind, hindents⟩ := of_decide_eq_true hat
  obtain ⟨r, hr, htest⟩ := (Option.any_eq_true _ _).1 htest
  obtain ⟨hsize, hinside⟩ := of_decide_eq_true htest
  obtain ⟨hdown, hcan, hcancel, hforced⟩ :=
    innermost_level_closed (Automaton.build g .lalr).table treeActions {} deepTriple hm
  -- the frames `a`, `b`, `c` above the bottom `d`
  obtain ⟨a, fs, hframes, ha, hindents⟩ := List.map_eq_cons_iff.1 hindents
  obtain ⟨b, fs, rfl, hb, hindents⟩ := List.map_eq_cons_iff.1 hindents
  obtain ⟨c, fs, rfl, hc, hindents⟩ := List.map_eq_cons_iff.1 hindents
  obtain ⟨d, fs, rfl, hd, hindents⟩ := List.map_eq_cons_iff.1 hindents
  obtain rfl := List.map_eq_nil_iff.1 hindents
  have hpop : m.stack.pop? r.size = some ([a, b, c], ⟨d, []⟩) := by
    simp [Stack.pop?, hframes, hsize]
  have hout : m.OutForces (Automaton.build g .lalr).table r := ⟨hkind, hr, hinside⟩
  refine ⟨g, m, r, _, _, hg, hm, by simp [hframes, ha, hb, hc, hd], ?_, ?_, ?_, hout, hpop, rfl,
    (hforced r hout).2 _ _ hpop⟩
  · obtain rfl : m.stack.top = a := (List.cons.inj hframes).1
    exact hdown 3 m.stack.top (by simp [Stack.frame?, hframes])
  · exact hcan.2 ⟨d, by simp [hframes], by omega⟩
  · rw [hcancel [a, b, c] d [] hframes (by simp [ha, hb, hc]) (by omega)]
    simp [ha, hb, hc, hd]

/-! ## The end of a line -/

/-- **Whether a line may end at a frame hangs on the frame below.**  At every step of a run, on any
    table, a line may end at the bottom if its state waits for that, and at another frame if its
    state waits for that, or if it has no level open and a line may end at the frame below.  Only
    at an error with levels open a line may end even so, if it may at the frame below. -/
theorem permission_from_below (t : Table) (acts : Actions σ V) (memory : σ) (input : Input) {n : Nat}
    {m : Machine σ V} (hm : (Machine.start t memory input).after t acts n = some m) :
    (∀ f, m.stack.frame? 0 = some f → f.newlinePermitted = t.startsLine f.state) ∧
    ∀ i f g, m.stack.frame? (i + 1) = some f → m.stack.frame? i = some g →
      f.newlinePermitted = (t.startsLine f.state || (f.indents == 0 && g.newlinePermitted)) ∨
      f.sym = Kind.error.num ∧ 0 < f.indents ∧
        f.newlinePermitted = (t.startsLine f.state || g.newlinePermitted) := by
  have h := Machine.after_layered hm
  constructor
  · intro f hf
    obtain ⟨upper, below, hframes, hlen⟩ := Stack.frame?_eq_some_iff.1 hf
    obtain rfl := List.length_eq_zero_iff.1 hlen
    rw [hframes] at h
    exact h.suffix.permitted
  · intro i f g hf hg
    obtain ⟨upper, below, hframes, hlen⟩ := Stack.frame?_eq_some_iff.1 hf
    cases below with
    | nil => cases hlen
    | cons b below =>
      obtain rfl : i = below.length := by simpa using hlen.symm
      have hlower : m.stack.frames = (upper ++ [f]) ++ b :: below := by simp [hframes]
      rw [Stack.frame?_append hlower (by simp)] at hg
      obtain rfl : b = g := by simpa using hg
      rw [hframes] at h
      refine h.suffix.1.permitted.imp_right fun hcarries => ?_
      exact ⟨hcarries.sym, hcarries.levels, hcarries.permitted⟩

/-- A number, a level with something else and two numbers on two lines. -/
def tornTriple : Input :=
  .ofList [(.number, ['1']), (.indent, []), (.string, ['x']), (.number, ['2']), (.newline, []),
    (.number, ['3']), (.outdent, []), (.newline, [])]

set_option maxRecDepth 100000 in
/-- With a level open at the number, no line may end there. -/
theorem permission_from_below_tornTriple : ∃ g m f b, Grammar.readText numberTriple = .ok g ∧
    (Machine.start (Automaton.build g .lalr).table {} tornTriple).after
      (Automaton.build g .lalr).table treeActions 2 = some m ∧
    m.stack.frame? 1 = some f ∧ m.stack.frame? 0 = some b ∧ b.newlinePermitted = true ∧
    f.sym = Kind.number.num ∧ f.newlinePermitted =
      ((Automaton.build g .lalr).table.startsLine f.state ||
        (f.indents == 0 && b.newlinePermitted)) := by
  obtain ⟨g, m, hg, hm, htest⟩ := Machine.exists_after numberTriple tornTriple 2 (fun _ m =>
    (m.stack.frame? 1).any fun (f : Frame Tree) => (m.stack.frame? 0).any fun (b : Frame Tree) =>
      decide (b.newlinePermitted = true ∧ f.sym = Kind.number.num)) (by decide +kernel)
  obtain ⟨f, hf, htest⟩ := (Option.any_eq_true _ _).1 htest
  obtain ⟨b, hb, htest⟩ := (Option.any_eq_true _ _).1 htest
  obtain ⟨hperm, hsym⟩ := of_decide_eq_true htest
  refine ⟨g, m, f, b, hg, hm, hf, hb, hperm, hsym, ?_⟩
  rcases (permission_from_below _ treeActions {} tornTriple hm).2 0 f b hf hb with h | ⟨herror, -⟩
  · exact h
  · rw [hsym] at herror
    cases herror

set_option maxRecDepth 100000 in
/-- **An error with levels open lets a line end**: the level of the number that was dropped is open
    at the error, whose state waits for no line break. -/
theorem permission_kept_by_error : ∃ g m f b, Grammar.readText numberTriple = .ok g ∧
    (Machine.start (Automaton.build g .lalr).table {} tornTriple).after
      (Automaton.build g .lalr).table treeActions 3 = some m ∧
    m.stack.frame? 1 = some f ∧ m.stack.frame? 0 = some b ∧ f.indents = 1 ∧
    (Automaton.build g .lalr).table.startsLine f.state = false ∧ f.newlinePermitted ≠
      ((Automaton.build g .lalr).table.startsLine f.state ||
        (f.indents == 0 && b.newlinePermitted)) := by
  obtain ⟨g, m, hg, hm, htest⟩ := Machine.exists_after numberTriple tornTriple 3 (fun t m =>
    (m.stack.frame? 1).any fun (f : Frame Tree) => (m.stack.frame? 0).any fun (b : Frame Tree) =>
      decide (f.indents = 1 ∧ t.startsLine f.state = false ∧ f.newlinePermitted ≠
        (t.startsLine f.state || (f.indents == 0 && b.newlinePermitted)))) (by decide +kernel)
  obtain ⟨f, hf, htest⟩ := (Option.any_eq_true _ _).1 htest
  obtain ⟨b, hb, htest⟩ := (Option.any_eq_true _ _).1 htest
  exact ⟨g, m, f, b, hg, hm, hf, hb, of_decide_eq_true htest⟩

end LayoutLR
