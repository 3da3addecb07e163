/-
  Layout-aware LR toolkit — the stack of a parser.

  A frame stands for a symbol that was met, with the state that follows it and
  the value of the symbol.  Frames also keep track of layout: the levels that
  were opened while the frame was on top, how many frames up the last line start
  and the last open level are, and whether a line may end here.

  * `Frame`, `Stack`: the data; the bottom frame stands for no symbol;
  * `Stack.push?`: a frame on top, after a transition;
  * `Stack.recordIndent`, `Stack.cancelIndent`: a level is opened or closed;
  * `Stack.pop?`: the frames of a body, and the stack below them.
-/
import LayoutLR.Automaton.Table

namespace LayoutLR

variable {V : Type}

/-- A symbol on the stack. -/
structure Frame (V : Type) where
  state : Nat
  sym : Nat
  /-- The value of the symbol; the bottom frame has none. -/
  value : Option V
  /-- The levels opened while this frame was on top that are still open. -/
  indents : Nat
  /-- The frames since the last start of a line. -/
  sinceNewline : Nat
  /-- The frames since the last open level. -/
  sinceIndent : Nat
  /-- Whether a line break means something here. -/
  newlinePermitted : Bool
deriving Repr

/-- Frames, at least the one on top. -/
structure Stack (V : Type) where
  top : Frame V
  /-- The other frames, from the top down. -/
  below : List (Frame V)
deriving Repr

namespace Stack

/-- All frames, from the top down. -/
def frames (s : Stack V) : List (Frame V) :=
  s.top :: s.below

/-- The number of frames. -/
def size (s : Stack V) : Nat :=
  s.below.length + 1

/-- The values on the stack, from the bottom up. -/
def values (s : Stack V) : List V :=
  s.frames.reverse.filterMap Frame.value

/-- The stack with the frame of state 0 alone. -/
def initial (t : Table) : Stack V :=
  ⟨⟨0, Kind.error.num, none, 0, 0, 0, ((t.row? 0).map Row.startsLine).getD false⟩, []⟩

/-- Changes the frame on top. -/
def updateTop (s : Stack V) (f : Frame V → Frame V) : Stack V :=
  { s with top := f s.top }

/-! ## Pushing and popping -/

/-- Puts a frame on top, if the state exists.  The frame takes over `indents` open levels,
    and starts a line if it is told so. -/
def push? (t : Table) (s : Stack V) (state sym indents : Nat) (startsLine : Bool) (value : V) :
    Option (Stack V) :=
  (t.row? state).map fun row =>
    { top :=
        { state, sym, indents
          value := some value
          sinceNewline := if startsLine then 0 else s.top.sinceNewline + 1
          sinceIndent := if 0 < indents then 0 else s.top.sinceIndent + 1
          newlinePermitted := row.startsLine || (indents == 0 && s.top.newlinePermitted) }
      below := s.frames }

/-- Takes `n` frames off, if one is left: the frames from the top down, and the rest. -/
def pop? (s : Stack V) (n : Nat) : Option (List (Frame V) × Stack V) :=
  match s.frames.drop n with
  | [] => none
  | top :: below => some (s.frames.take n, ⟨top, below⟩)

/-! ## Levels -/

/-- A level is opened on top. -/
def recordIndent (s : Stack V) (startsLine : Bool) : Stack V :=
  s.updateTop fun f =>
    { f with
      indents := f.indents + 1
      sinceNewline := 0
      sinceIndent := 0
      newlinePermitted := startsLine && f.newlinePermitted }

/-- Whether a level is open at the last frame that says so. -/
def canCancelIndent (s : Stack V) : Bool :=
  match s.frames[s.top.sinceIndent]? with
  | some f => decide (0 < f.indents)
  | none => false

/-- A frame as the frames below it have it. -/
def refresh (t : Table) (f : Frame V) (below : List (Frame V)) : Frame V :=
  let startsLine := ((t.row? f.state).map Row.startsLine).getD false
  match below with
  | [] => { f with sinceIndent := 0, newlinePermitted := startsLine }
  | g :: _ =>
    { f with sinceIndent := g.sinceIndent + 1
             newlinePermitted := startsLine || g.newlinePermitted }

/-- Puts frames on top of others, each as the frames below have it. -/
def refreshAll (t : Table) (upper below : List (Frame V)) : List (Frame V) :=
  upper.foldr (fun f below => refresh t f below :: below) below

/-- The stack of some frames, `s` if there are none. -/
def ofFrames (s : Stack V) : List (Frame V) → Stack V
  | [] => s
  | top :: below => ⟨top, below⟩

/-- The last open level is closed. -/
def cancelIndent (t : Table) (s : Stack V) : Stack V :=
  let upper := s.frames.take s.top.sinceIndent
  match s.frames.drop s.top.sinceIndent with
  | [] => s
  | f :: below =>
    let f' := { f with indents := f.indents - 1 }
    if f.indents = 0 then s
    else if 0 < f'.indents then s.ofFrames (upper ++ f' :: below)
    else s.ofFrames (refreshAll t (upper ++ [f']) below)

end Stack

end LayoutLR
