/-
  Layout-aware LR toolkit — no value is lost, and none is used twice.

  Every value that the actions make is on the stack until it is handed to a
  reduction or disposed of.  To tell values apart they are numbered in the order
  in which they are made, and a ledger notes where the numbers go.  At every step
  the numbers in the ledger and those on the stack are all numbers so far, each
  once; when parsing is over, only the value that is returned is left.  The table
  may be any: a reduction without a transition on its head, or with too few
  frames, ends in an error that gives the values up.

  * `Ledger`, `Actions.numbered`: the values with their numbers, and the ledger;
  * `Ledger.Balances`: every number is somewhere, once;
  * `Machine.step_balanced`: what a step preserves;
  * `values_used_once`: the ledger of a whole run.
-/
import LayoutLR.Proofs.Parser.Relabel
import LayoutLR.Proofs.Parser.Safety

namespace LayoutLR

variable {σ V : Type}

/-! ## The ledger -/

/-- What became of the values that were made. -/
structure Ledger (σ : Type) where
  memory : σ
  /-- How many values were made. -/
  made : Nat := 0
  /-- The numbers of the values that were handed to a reduction. -/
  reduced : List Nat := []
  /-- The numbers of the values that were disposed of. -/
  disposed : List Nat := []

/-- The actions with a number for every value, in the order in which they are made. -/
def Actions.numbered (acts : Actions σ V) : Actions (Ledger σ) (Nat × V) where
  token l t :=
    let (v, memory) := acts.token l.memory t
    ((l.made, v), { l with memory, made := l.made + 1 })
  reduce l prod body :=
    let (v, memory) := acts.reduce l.memory prod (body.map Prod.snd)
    ((l.made, v), { l with
      memory
      made := l.made + 1
      reduced := l.reduced ++ body.map Prod.fst })
  error l t :=
    let (v, memory) := acts.error l.memory t
    ((l.made, v), { l with memory, made := l.made + 1 })
  dispose l v := { l with
    memory := acts.dispose l.memory v.2
    disposed := l.disposed ++ [v.1] }

/-- Without the numbers these are the same actions. -/
theorem Actions.numbered_maps (acts : Actions σ V) :
    acts.numbered.Maps Prod.snd Ledger.memory acts := by
  constructor <;> intros <;> rfl

namespace Ledger

variable {acts : Actions σ V} {l : Ledger σ} {held held' : List (Nat × V)}

/-- Every number so far is in the ledger or among the values that are held, once. -/
def Balances (l : Ledger σ) (held : List (Nat × V)) : Prop :=
  (l.reduced ++ l.disposed ++ held.map Prod.fst).Perm (List.range l.made)

theorem Balances.perm (h : l.Balances held) (hp : held.Perm held') : l.Balances held' :=
  ((hp.symm.map Prod.fst).append_left _).trans h

/-- A value that is made is held. -/
theorem Balances.make (h : l.Balances held) (memory : σ) (v : V) :
    ({ l with memory, made := l.made + 1 } : Ledger σ).Balances (held ++ [(l.made, v)]) := by
  unfold Balances at h ⊢
  rw [List.range_succ, List.map_append, ← List.append_assoc]
  exact h.append_right _

theorem Balances.token (acts : Actions σ V) (h : l.Balances held) (t : Token) :
    (acts.numbered.token l t).2.Balances (held ++ [(acts.numbered.token l t).1]) :=
  h.make _ _

theorem Balances.error (acts : Actions σ V) (h : l.Balances held) (t : Token) :
    (acts.numbered.error l t).2.Balances (held ++ [(acts.numbered.error l t).1]) :=
  h.make _ _

/-- A reduction takes the values of its body and makes one. -/
theorem Balances.reduce (acts : Actions σ V) {body : List (Nat × V)}
    (h : l.Balances (held ++ body)) (prod : Nat) :
    (acts.numbered.reduce l prod body).2.Balances
      (held ++ [(acts.numbered.reduce l prod body).1]) := by
  have htaken :
      ({ l with reduced := l.reduced ++ body.map Prod.fst } : Ledger σ).Balances held := by
    unfold Balances at h ⊢
    refine List.Perm.trans ?_ h
    rw [List.perm_iff_count]
    intro n
    simp only [List.map_append, List.count_append]
    omega
  exact htaken.make _ _

theorem Balances.dispose {v : Nat × V} (h : l.Balances (v :: held)) :
    (acts.numbered.dispose l v).Balances held := by
  unfold Balances at h ⊢
  refine List.Perm.trans ?_ h
  rw [List.perm_iff_count]
  intro n
  simp only [Actions.numbered, List.map_cons, List.count_append, List.count_cons, List.count_nil]
  omega

theorem Balances.disposeAll (values : List (Nat × V)) (h : l.Balances (values ++ held)) :
    (acts.numbered.disposeAll l values).Balances held := by
  induction values generalizing l with
  | nil => exact h
  | cons v values ih => exact ih h.dispose

end Ledger

/-! ## Steps -/

/-- The values on the stack are those that are held. -/
def Machine.Balanced (m : Machine (Ledger σ) (Nat × V)) : Prop :=
  m.memory.Balances m.stack.values

/-- After a step the values on the stack are held, or the value that is returned. -/
def Progress.Balanced : Progress (Ledger σ) (Nat × V) → Prop
  | .next m => m.Balanced
  | .done value m => m.memory.Balances value.toList
  | .broken _ => True

namespace Machine

variable {t : Table} {acts : Actions σ V} {m m' : Machine (Ledger σ) (Nat × V)}

/-- After a reduction, the value that is returned is held as well. -/
def Reduced.Balanced : Reduced (Ledger σ) (Nat × V) → Prop
  | .pushed m | .failed m => m.Balanced
  | .accepted value m => m.memory.Balances (value :: m.stack.values)
  | .broken _ => True

/-- A change of the layout alone leaves the values where they are. -/
theorem Balanced.layout (h : m.Balanced) {s : Stack (Nat × V)} (hview : s.view = m.stack.view) :
    m.memory.Balances s.values := by
  rw [Stack.values_congr hview]
  exact h

/-- A value that is pushed stays held. -/
theorem balances_push? {l : Ledger σ} {s s' : Stack (Nat × V)} {state sym indents : Nat}
    {startsLine : Bool} {v : Nat × V} (h : l.Balances (s.values ++ [v]))
    (hs : s.push? t state sym indents startsLine v = some s') : l.Balances s'.values := by
  rw [Stack.values_push (Stack.view_push? hs)]
  exact h

/-- Nothing is held when the stack was given up. -/
theorem Balanced.disposeStack (h : m.Balanced) :
    (acts.numbered.disposeAll m.memory m.stack.values).Balances ([] : List (Nat × V)) := by
  refine Ledger.Balances.disposeAll m.stack.values ?_
  rw [List.append_nil]
  exact h

theorem Balanced.shift (h : m.Balanced) (next : Nat) : (shift t acts.numbered m next).Balanced := by
  unfold Machine.shift
  dsimp only [act, note]
  cases hs : m.stack.push? t next m.token.kind.num 0 (m.token.kind == .newline)
    (acts.numbered.token m.memory m.token).1 with
  | none => trivial
  | some s => exact balances_push? (Ledger.Balances.token acts h m.token) hs

theorem Balanced.resync (h : m.Balanced) (indents : Nat) :
    (resync t acts.numbered m indents).Balanced := by
  unfold Machine.resync
  dsimp only
  split
  · trivial
  · split
    · trivial
    · exact h.disposeStack
    · exact h.layout (m.stack.view_updateTop rfl)

/-- The values on a stack, those of the bottom apart. -/
theorem values_perm_bottom (s : Stack V) :
    s.values.Perm (s.frames.dropLast.filterMap Frame.value ++
      (s.frames.getLast?.bind Frame.value).toList) := by
  have hlast : s.frames.dropLast ++ [s.frames.getLast (by simp [Stack.frames])] = s.frames :=
    List.dropLast_append_getLast _
  have hbottom (x : Frame V) : [x].filterMap Frame.value = x.value.toList := by
    cases hx : x.value <;> simp [hx]
  refine ((List.reverse_perm s.frames).filterMap Frame.value).trans (List.Perm.of_eq ?_)
  rw [List.getLast?_eq_some_getLast (by simp [Stack.frames]), Option.bind_some, ← hbottom,
    ← List.filterMap_append, hlast]

/-- Recovery drops frames, and pushes the error or gives it up as well. -/
theorem Balanced.recover (h : m.Balanced) : (recover t acts.numbered m).Balanced := by
  have herror := Ledger.Balances.error acts h m.token
  unfold Machine.recover
  dsimp only [act, note]
  cases hfind : findError t [] m.stack.frames with
  | none =>
    refine Ledger.Balances.disposeAll _ (herror.perm ?_)
    refine ((values_perm_bottom m.stack).append_right _).trans ?_
    rw [Option.toList_none, List.append_nil, List.append_assoc]
    exact (List.perm_append_singleton _ _).append_left _
  | some r =>
    obtain ⟨dropped, below, next⟩ := r
    obtain ⟨_, rfl, hsplit, -⟩ := findError_spec hfind
    dsimp only
    cases hs : below.push? t next Kind.error.num 0 false
      (acts.numbered.error m.memory m.token).1 with
    | none => trivial
    | some s =>
      refine Balanced.resync ?_ _
      refine Ledger.Balances.disposeAll _ (herror.perm ?_)
      rw [Stack.values_push (Stack.view_push? hs), Stack.values_append hsplit, List.append_assoc]
      refine (List.perm_append_comm_assoc _ _ _).trans ?_
      exact ((List.reverse_perm dropped).filterMap Frame.value).append_right _

/-- A reduction takes the values of the frames that it pops. -/
theorem Balanced.reduceBy (t : Table) (acts : Actions σ V) (h : m.Balanced) (r : Reduction) :
    (reduceBy t acts.numbered m r).Balanced := by
  unfold Machine.reduceBy
  cases hpop : m.stack.pop? r.size with
  | none => exact h
  | some popped =>
    obtain ⟨popped, rest⟩ := popped
    have hvalues := Stack.values_append (Stack.frames_pop? hpop)
    have hheld : m.memory.Balances (rest.values ++ popped.reverse.filterMap Frame.value) := by
      rw [← hvalues]
      exact h
    dsimp only
    generalize popped.reverse.filterMap Frame.value = body at hheld
    split
    · -- the start production: the first value of its body is returned
      cases body with
      | nil =>
        rw [List.append_nil] at hheld
        exact hheld
      | cons value others =>
        refine Ledger.Balances.disposeAll others (hheld.perm ?_)
        exact List.perm_append_comm.trans List.perm_middle.symm
    · have hmade := Ledger.Balances.reduce acts hheld r.prod
      split
      · exact Ledger.Balances.dispose (hmade.perm (List.perm_append_singleton _ _))
      · split
        · trivial
        · exact balances_push? hmade ‹_›

theorem Balanced.fail (h : m.Balanced) : (fail t acts.numbered m).Balanced := by
  unfold Machine.fail
  split
  · split
    · exact h.disposeStack
    · exact Balanced.recover (m := { m with eofError := true }) h
  · exact h.recover

theorem Balanced.reduceOrFail (h : m.Balanced) (row : Row) (forced : Bool) :
    (reduceOrFail t acts.numbered m row forced).Balanced := by
  unfold Machine.reduceOrFail
  split
  · exact h.fail
  · rename_i r _
    split
    · exact h.fail
    · split
      · exact Balanced.fail (m := m.note _) h
      · dsimp only
        generalize (if r.prod = 0 then Verb.accept else if forced then .force else .reduce) = verb
        have hreduced := Balanced.reduceBy t acts (m := m.act verb) h r
        cases hr : Machine.reduceBy t acts.numbered (m.act verb) r with
        | pushed m₁ =>
          rw [hr] at hreduced
          exact hreduced
        | accepted value m₁ =>
          -- what is left on the stack goes, and the value alone is held
          rw [hr] at hreduced
          refine Ledger.Balances.disposeAll _ (hreduced.perm ?_)
          exact (List.perm_append_singleton _ _).symm
        | failed m₁ =>
          rw [hr] at hreduced
          exact Balanced.fail hreduced
        | broken m₁ => trivial

theorem Balanced.shiftOrReduce (h : m.Balanced) (row : Row) :
    (shiftOrReduce t acts.numbered m row).Balanced := by
  unfold Machine.shiftOrReduce
  split
  · exact h.shift _
  · exact h.reduceOrFail row false

theorem Balanced.stepOutdent (h : m.Balanced) (row : Row) :
    (stepOutdent t acts.numbered m row).Balanced := by
  unfold Machine.stepOutdent
  dsimp only
  split
  · exact h.reduceOrFail row true
  · split
    · exact h.layout (m.stack.view_cancelIndent t)
    · exact h.recover

theorem Balanced.stepNewline (h : m.Balanced) (row : Row) :
    (stepNewline t acts.numbered m row).Balanced := by
  unfold Machine.stepNewline
  dsimp only
  split
  · exact h
  · split
    · exact h.reduceOrFail row true
    · exact h.shiftOrReduce row

/-- **A step loses no value**, and uses none that was used before. -/
theorem step_balanced (t : Table) (acts : Actions σ V) (h : m.Balanced) :
    (m.step t acts.numbered).Balanced := by
  unfold step
  split
  · trivial
  · rename_i row _
    split
    · exact h.layout (m.stack.view_recordIndent row.startsLine)
    · exact h.stepOutdent row
    · exact h.stepNewline row
    · exact h.shiftOrReduce row

/-! ## Runs -/

theorem start_balanced (t : Table) (memory : σ) (input : Input) :
    (start t { memory } input : Machine (Ledger σ) (Nat × V)).Balanced :=
  .refl _

theorem after_balanced {n : Nat} (h : m.Balanced) (hm : m.after t acts.numbered n = some m') :
    m'.Balanced := by
  refine after_induction (fun m₁ m₂ h₁ hstep => ?_) n m m' h hm
  have hnext := step_balanced t acts h₁
  rw [hstep] at hnext
  exact hnext

end Machine

theorem Run.within_finished {budget : Nat} {verdict : Verdict V} {m : Machine σ V} {v : Option V}
    (h : (Run.within budget verdict m).verdict = .finished v) : verdict = .finished v := by
  unfold Run.within at h
  dsimp only at h
  split at h
  · cases h
  · exact h

/-- The ledger of a run that is over has every number but that of the value that is returned. -/
theorem parse_balances (t : Table) (acts : Actions σ V) (memory : σ) (input : Input)
    (budget : Nat) {value : Option (Nat × V)}
    (h : (parse t acts.numbered { memory } input budget).verdict = .finished value) :
    (parse t acts.numbered { memory } input budget).machine.memory.Balances value.toList := by
  unfold parse at h ⊢
  obtain ⟨n, m, hm, hend⟩ := Machine.runFor_cases t acts.numbered budget
    (input.tokens.length + budget + 2) (Machine.start t { memory } input)
  have hstep := Machine.step_balanced t acts
    (Machine.after_balanced (Machine.start_balanced t memory input) hm)
  rcases hend with hrun | ⟨v, m₁, hdone, hrun⟩ | ⟨m₁, -, hrun⟩
  · rw [hrun] at h
    cases h
  · rw [hrun] at h ⊢
    cases Run.within_finished h
    rw [hdone] at hstep
    exact hstep
  · rw [hrun] at h
    cases Run.within_finished h

/-- **Every value is used once.**  A run that is over is the run of the numbered values without
    their numbers; there the numbers handed to a reduction, those disposed of and the one that
    is returned are all numbers given out, each once. -/
theorem values_used_once (t : Table) (acts : Actions σ V) (memory : σ) (input : Input)
    (budget : Nat) {value : Option V}
    (h : (parse t acts memory input budget).verdict = .finished value) :
    ∃ (returned : Option (Nat × V)) (m : Machine (Ledger σ) (Nat × V)),
      parse t acts.numbered { memory } input budget = ⟨.finished returned, m⟩ ∧
      parse t acts memory input budget =
        ⟨.finished (returned.map Prod.snd), m.map Prod.snd Ledger.memory⟩ ∧
      (m.memory.reduced ++ m.memory.disposed ++ (returned.map Prod.fst).toList).Perm
        (List.range m.memory.made) := by
  have hmap : parse t acts memory input budget = _ :=
    parse_map acts.numbered_maps t { memory } input budget
  rw [hmap] at h ⊢
  cases hrun : parse t acts.numbered { memory } input budget with
  | mk verdict m =>
    rw [hrun] at h
    cases verdict with
    | finished returned =>
      have hbalances := parse_balances t acts memory input budget (congrArg Run.verdict hrun)
      rw [hrun] at hbalances
      refine ⟨returned, m, rfl, rfl, ?_⟩
      rw [Option.toList_map]
      exact hbalances
    | broken => cases h
    | exhausted => cases h

/-- A list of pairs, with errors in between. -/
def pairList : String :=
  "L -> L NUMBER STRING\n   | L ERROR\n   | NUMBER STRING\n"

/-- The second pair has no end. -/
def brokenPair : Input :=
  .ofList [(.number, ['1']), (.string, ['x']), (.number, ['2']), (.number, ['3']), (.string, ['y'])]

set_option maxRecDepth 100000 in
/-- The number that is dropped at the error is disposed of, and at last the end of the input. -/
theorem values_used_once_brokenPair : ∃ g, Grammar.readText pairList = .ok g ∧
    ∃ returned m,
      parse (Automaton.build g .lalr).table treeActions.numbered { memory := {} } brokenPair 20 =
        ⟨.finished returned, m⟩ ∧
      m.memory.disposed = [3, 9] ∧
      (m.memory.reduced ++ m.memory.disposed ++ (returned.map Prod.fst).toList).Perm
        (List.range m.memory.made) := by
  obtain ⟨g, hg, htest⟩ := Grammar.exists_readText pairList (fun g =>
    (parse (Automaton.build g .lalr).table treeActions {} brokenPair 20).result?.isSome &&
    (parse (Automaton.build g .lalr).table treeActions.numbered ⟨{}, 0, [], []⟩ brokenPair
      20).machine.memory.disposed == [3, 9]) (by decide +kernel)
  obtain ⟨hover, hdisposed⟩ := Bool.and_eq_true_iff.1 htest
  obtain ⟨value, hresult⟩ := Option.isSome_iff_exists.1 hover
  obtain ⟨returned, m, hrun, -, hperm⟩ :=
    values_used_once _ treeActions _ _ _ (Run.verdict_of_result? hresult)
  rw [hrun] at hdisposed
  exact ⟨g, hg, returned, m, hrun, beq_iff_eq.1 hdisposed, hperm⟩

end LayoutLR
