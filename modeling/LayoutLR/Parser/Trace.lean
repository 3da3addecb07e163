/-
  Layout-aware LR toolkit — watching a parser.

  A trace has a line for everything that is done with a token: the stack from the
  bottom up, with the states, their open levels and whether a line may end, then
  the token and the verb.  The lines go to a sink, which may have room for some
  of them only.

  * `traceLine`: one line;
  * `Sink`: where the lines go;
  * `transcript`: the trace and the messages of a run.
-/
import LayoutLR.Parser.Run
import LayoutLR.Text.Quoted

namespace LayoutLR

variable {σ V : Type}

/-! ## Lines -/

/-- The word for what is done with a token. -/
def Verb.text : Verb → String
  | .record => "Record"
  | .cancel => "Cancel"
  | .discard => "Discard"
  | .shift => "Shift"
  | .reduce => "Reduce"
  | .force => "Force"
  | .accept => "Accept"
  | .error => "ERROR"

/-- The name of a symbol; one beyond the table of names is shown as a kind of token. -/
def Table.symbolName (t : Table) (sym : Nat) : String :=
  t.names[sym]?.getD (Kind.ofNum sym).display

/-- A state with its open levels. -/
def Frame.stateText (f : Frame V) : String :=
  s!"({f.state}" ++ (if f.newlinePermitted then "^" else "") ++
    String.ofList (List.replicate f.indents '>') ++ ") "

/-- The frames above the bottom one, from the bottom up. -/
def framesText (t : Table) (frames : List (Frame V)) : String :=
  String.join (frames.map fun f => t.symbolName f.sym ++ " " ++ f.stateText)

/-- The stack from the bottom up. -/
def stackText (t : Table) (s : Stack V) : String :=
  match s.frames.reverse with
  | [] => ""
  | bottom :: frames => bottom.stateText ++ framesText t frames

/-- A line of a trace. -/
def traceLine (t : Table) (verb : Verb) (s : Stack V) (token : Token) : String :=
  stackText t s ++ "[" ++ t.symbolName token.kind.num ++
    (if token.text.isEmpty || token.kind.isLayout then "" else " " ++ Text.quote token.text) ++
    "] " ++ verb.text

/-! ## Transcripts -/

/-- Where a trace goes. -/
inductive Sink where
  /-- Nowhere. -/
  | off
  | unlimited
  /-- There is room for some more lines; after that it fails. -/
  | room (lines : Nat)
deriving DecidableEq, Repr

/-- A message of a run. -/
inductive Message where
  | warning (text : String)
  | fault (text : String)
deriving DecidableEq, Repr

/-- What was seen of a run. -/
structure Transcript where
  trace : List String
  messages : List Message

/-- Adds a line of trace in front. -/
def Transcript.addLine (r : Transcript) (line : String) : Transcript :=
  { r with trace := line :: r.trace }

/-- Adds messages in front. -/
def Transcript.addMessages (r : Transcript) (ms : List Message) : Transcript :=
  { r with messages := ms ++ r.messages }

/-- The trace and the messages of some notes, in order.  `deep` lists, for each token to be
    taken, the lines that were nested too deep on the way to it. -/
def transcribe (t : Table) (sink : Sink) (deep : List (List Nat)) : List (Note V) → Transcript
  | [] => ⟨[], []⟩
  | .take :: rest =>
    (transcribe t sink deep.tail rest).addMessages
      ((deep.head?.getD []).map fun line => .warning (Scanner.warning line))
  | .act verb s token :: rest =>
    match sink with
    | .off => transcribe t sink deep rest
    | .unlimited => (transcribe t sink deep rest).addLine (traceLine t verb s token)
    | .room 0 =>
      (transcribe t .off deep rest).addMessages
        [.warning "disabling parse trace: sink is full"]
    | .room (n + 1) =>
      (transcribe t (.room n) deep rest).addLine (traceLine t verb s token)
  | .tooShort state :: rest =>
    (transcribe t sink deep rest).addMessages
      [.fault s!"state {state} reduces more frames than are on the stack"]
  | .noTransition sym prod :: rest =>
    (transcribe t sink deep rest).addMessages
      [.fault s!"no transition on symbol {sym} after reducing {prod}"]

/-- The trace and the messages of a run. -/
def Run.transcript (r : Run σ V) (t : Table) (sink : Sink) (deep : List (List Nat)) : Transcript :=
  transcribe t sink deep r.machine.notes.reverse

end LayoutLR
