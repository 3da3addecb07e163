/-
  Layout-aware LR toolkit — the calls that a parser makes.

  A parser changes the memory of its actions by calling them and in no other way.
  So what every call keeps, a run keeps; and actions that write down how they are
  called tell what has happened in a run, in order and without gaps.

  * `Call`, `Actions.logged`: actions that write down their calls;
  * `callsOf`: the calls of a run;
  * `Actions.Keeps`: what every call does to the memory;
  * `Machine.runFor_memory`: what a run does to the memory.
-/
import LayoutLR.Proofs.Parser.Choices
import LayoutLR.Proofs.Parser.Relabel

namespace LayoutLR

variable {σ V : Type}

/-! ## Writing calls down -/

/-- A call of an action, with what it is given. -/
inductive Call (V : Type) where
  | token (u : Token)
  | reduce (prod : Nat) (body : List V)
  | error (u : Token)
  | dispose (v : V)

/-- Whether a call is about an error. -/
def Call.isError : Call V → Bool
  | .error _ => true
  | .token _ | .reduce _ _ | .dispose _ => false

/-- Actions that write down their calls, the latest last. -/
def Actions.logged (acts : Actions σ V) : Actions (σ × List (Call V)) V where
  token mem u := ((acts.token mem.1 u).1, (acts.token mem.1 u).2, mem.2 ++ [.token u])
  reduce mem p body :=
    ((acts.reduce mem.1 p body).1, (acts.reduce mem.1 p body).2, mem.2 ++ [.reduce p body])
  error mem u := ((acts.error mem.1 u).1, (acts.error mem.1 u).2, mem.2 ++ [.error u])
  dispose mem v := (acts.dispose mem.1 v, mem.2 ++ [.dispose v])

/-- Writing calls down changes nothing else. -/
theorem Actions.logged_maps (acts : Actions σ V) : acts.logged.Maps id Prod.fst acts := by
  constructor
  · exact fun _ _ => rfl
  · intro mem p body
    rw [List.map_id]
    rfl
  · exact fun _ _ => rfl
  · exact fun _ _ => rfl

/-- The calls of a run in order. -/
def callsOf (t : Table) (acts : Actions σ V) (memory : σ) (input : Input) (budget : Nat) :
    List (Call V) :=
  (parse t acts.logged (memory, []) input budget).machine.memory.2

theorem verdict_logged (t : Table) (acts : Actions σ V) (memory : σ) (input : Input)
    (budget : Nat) : (parse t acts memory input budget).verdict =
      (parse t acts.logged (memory, []) input budget).verdict := by
  have h := parse_map acts.logged_maps t (memory, []) input budget
  have hid (v : Verdict V) : v.map id = v := by
    cases v <;> simp [Verdict.map]
  rw [show ((memory, []) : σ × List (Call V)).1 = memory from rfl] at h
  rw [h]
  exact hid _

/-! ## What calls do to the memory -/

/-- A relation between a memory and later ones. -/
structure Actions.Keeps (acts : Actions σ V) (R : σ → σ → Prop) : Prop where
  refl : ∀ mem, R mem mem
  trans : ∀ {mem₁ mem₂ mem₃}, R mem₁ mem₂ → R mem₂ mem₃ → R mem₁ mem₃
  token : ∀ mem u, R mem (acts.token mem u).2
  reduce : ∀ mem p body, R mem (acts.reduce mem p body).2
  error : ∀ mem u, R mem (acts.error mem u).2
  dispose : ∀ mem v, R mem (acts.dispose mem v)

theorem Actions.Keeps.disposeAll {acts : Actions σ V} {R : σ → σ → Prop} (h : acts.Keeps R) (mem : σ)
    (values : List V) : R mem (acts.disposeAll mem values) := by
  induction values generalizing mem with
  | nil => exact h.refl mem
  | cons v values ih => exact h.trans (h.dispose mem v) (ih _)

/-- Calls that were written down stay. -/
theorem Actions.logged_keeps (acts : Actions σ V) :
    acts.logged.Keeps fun mem mem' => mem.2 <+: mem'.2 where
  refl _ := List.prefix_rfl
  trans := List.IsPrefix.trans
  token _ _ := List.prefix_append _ _
  reduce _ _ _ := List.prefix_append _ _
  error _ _ := List.prefix_append _ _
  dispose _ _ := List.prefix_append _ _

/-- The machine after a step. -/
def Progress.machine : Progress σ V → Machine σ V
  | .next m | .done _ m | .broken m => m

namespace Machine

variable {acts : Actions σ V} {R : σ → σ → Prop}

theorem resync_memory (h : acts.Keeps R) (t : Table) (m : Machine σ V) (indents : Nat) :
    R m.memory (resync t acts m indents).machine.memory := by
  unfold resync
  dsimp only
  split
  · exact h.refl _
  · split
    · exact h.refl _
    · exact h.disposeAll _ _
    · exact h.refl _

/-- After the call for the error, recovery only gives values up. -/
theorem recover_memory (h : acts.Keeps R) (t : Table) (m : Machine σ V) :
    R (acts.error m.memory m.token).2 (recover t acts m).machine.memory := by
  unfold recover
  dsimp only [act, note]
  split
  · exact h.disposeAll _ _
  · rename_i dropped stack next _
    cases stack.push? t next Kind.error.num 0 false (acts.error m.memory m.token).1 with
    | none => exact h.disposeAll _ _
    | some s =>
      refine h.trans (h.disposeAll _ (dropped.filterMap Frame.value)) ?_
      exact resync_memory h t { m.act .error with
        stack := s
        memory := acts.disposeAll (acts.error m.memory m.token).2 (dropped.filterMap Frame.value)
        calls := m.calls + 1 } _

theorem fail_memory (h : acts.Keeps R) (t : Table) (m : Machine σ V) :
    R m.memory (fail t acts m).machine.memory := by
  rcases fail_cases t acts m with hfail | ⟨eofError, hfail⟩
  · rw [hfail]
    exact h.disposeAll _ _
  · rw [hfail]
    exact h.trans (h.error _ _) (recover_memory h t { m with eofError })

theorem shift_memory (h : acts.Keeps R) (t : Table) (m : Machine σ V) (next : Nat) :
    R m.memory (shift t acts m next).machine.memory := by
  unfold shift
  dsimp only [act, note]
  cases m.stack.push? t next m.token.kind.num 0 (m.token.kind == .newline)
      (acts.token m.memory m.token).1 with
  | none => exact h.token _ _
  | some s => exact h.token _ _

/-- The machine after a reduction. -/
def Reduced.machine : Reduced σ V → Machine σ V
  | .pushed m | .accepted _ m | .failed m | .broken m => m

theorem reduceBy_memory (h : acts.Keeps R) (t : Table) (m : Machine σ V) (r : Reduction) :
    R m.memory (reduceBy t acts m r).machine.memory := by
  unfold reduceBy
  split
  · exact h.refl _
  dsimp only
  split
  · split
    · exact h.refl _
    · exact h.disposeAll _ _
  split
  · exact h.trans (h.reduce _ _ _) (h.dispose _ _)
  split
  · exact h.reduce _ _ _
  · exact h.reduce _ _ _

theorem reduceOrFail_memory (h : acts.Keeps R) (t : Table) (m : Machine σ V) (row : Row)
    (forced : Bool) : R m.memory (reduceOrFail t acts m row forced).machine.memory := by
  have hreduced {r : Reduction} {verb : Verb} {x : Reduced σ V}
      (hby : reduceBy t acts (m.act verb) r = x) : R m.memory x.machine.memory := by
    rw [← hby]
    exact reduceBy_memory h t (m.act verb) r
  have hattempt := reduceOrFail_attempt t acts m row forced
  generalize reduceOrFail t acts m row forced = p at hattempt
  cases hattempt with
  | refused => exact fail_memory h t m
  | tooShort => exact fail_memory h t (m.note _)
  | pushed _ hby => exact hreduced hby
  | accepted _ hby => exact h.trans (hreduced hby) (h.disposeAll _ _)
  | failed _ hby => exact h.trans (hreduced hby) (fail_memory h t _)
  | broken _ hby => exact hreduced hby

/-- **A step changes the memory by calls only.** -/
theorem step_memory (h : acts.Keeps R) (t : Table) (m : Machine σ V) :
    R m.memory (m.step t acts).machine.memory := by
  have hchoice := step_choice t acts m
  generalize m.step t acts = p at hchoice
  cases hchoice with
  | lost | record | cancel | discard => exact h.refl _
  | shift => exact shift_memory h t m _
  | reduce => exact reduceOrFail_memory h t m _ _
  | recover => exact h.trans (h.error _ _) (recover_memory h t m)

theorem runFor_memory (h : acts.Keeps R) (t : Table) (budget : Nat) :
    ∀ (steps : Nat) (m : Machine σ V), R m.memory (m.runFor t acts budget steps).machine.memory
  | 0, m => h.refl _
  | steps + 1, m => by
    have hstep := step_memory h t m
    unfold runFor
    split
    · rename_i m' heq
      rw [heq] at hstep
      split
      · exact hstep
      · exact h.trans hstep (runFor_memory h t budget steps m')
    · rename_i heq
      rw [heq] at hstep
      exact hstep
    · rename_i heq
      rw [heq] at hstep
      exact hstep

end Machine

end LayoutLR
