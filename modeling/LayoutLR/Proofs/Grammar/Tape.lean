/-
  Layout-aware LR toolkit — reading with room for one token.

  A grammar is read from a scanner by way of a slot, where one token may be put back after a
  look at it.  Raw text is taken from the scanner directly.  So nothing is lost or comes out of
  order if a token is only put back, and raw text only taken, while the slot is empty.

  * `Scanner.answers`: what a scanner hands out for a series of demands;
  * `Tape`: a scanner with a slot, and what the calls of the reader do to it;
  * `Tape.demands`, `Tape.consumed`: what calls ask the scanner for, and what they consume;
  * `Tape.Run`: calls that are made while there is room;
  * `Tape.Run.proper`, `Tape.Run.consumed_eq`: so they are, and they consume what the scanner
    hands out.
-/
import Mathlib.Data.List.Basic
import LayoutLR.Grammar.Reader
import LayoutLR.Proofs.Token.InLine
import LayoutLR.Proofs.Token.Positions

namespace LayoutLR

/-! ## Pieces of code -/

/-- What a scanner hands out: a token, or raw text. -/
inductive Piece where
  | token (t : Token)
  | raw (text : List Char)
deriving DecidableEq

/-- Whether a piece ends a statement. -/
def Piece.Ends : Piece → Prop
  | token t => t.kind.Ends
  | raw _ => False

namespace Scanner

/-- What a scanner hands out for a demand, and the scanner behind it. -/
def answer (s : Scanner) : Demand → List Piece × Scanner
  | .next => ([.token s.nextToken.1], { s.nextToken.2 with tooDeep := [] })
  | .raw marker =>
    match s.takeUntil? marker with
    | some (text, s') => ([.raw text], s')
    | none => ([], s)

/-- What a scanner hands out for some demands, one after the other. -/
def answers (s : Scanner) : List Demand → List Piece
  | [] => []
  | d :: ds => (s.answer d).1 ++ (s.answer d).2.answers ds

/-- The scanner behind what it hands out for some demands. -/
def behind (s : Scanner) (ds : List Demand) : Scanner :=
  ds.foldl (fun s d => (s.answer d).2) s

theorem answers_append (s : Scanner) (ds ds' : List Demand) :
    s.answers (ds ++ ds') = s.answers ds ++ (s.behind ds).answers ds' := by
  induction ds generalizing s with
  | nil => rfl
  | cons d ds ih =>
    rw [List.cons_append, answers, ih, answers, List.append_assoc]
    rfl

theorem behind_append (s : Scanner) (ds ds' : List Demand) :
    s.behind (ds ++ ds') = (s.behind ds).behind ds' :=
  List.foldl_append

end Scanner

/-! ## Tapes -/

/-- A scanner, and the token that was put back. -/
structure Tape where
  scanner : Scanner
  slot : Option Token := none

namespace Tape

variable {p q r : Tape} {cs cs' : List ReaderCall} {got got' : List Piece} {c : ReaderCall}
  {t : Token}

/-- The token that is next. -/
def nextToken (p : Tape) : Token :=
  p.slot.getD p.scanner.nextToken.1

/-- The tape after a call. -/
def after (p : Tape) : ReaderCall → Tape
  | .next =>
    match p.slot with
    | some _ => ⟨p.scanner, none⟩
    | none => ⟨(p.scanner.answer .next).2, none⟩
  | .unread t => ⟨p.scanner, some t⟩
  | .raw marker => ⟨(p.scanner.answer (.raw marker)).2, p.slot⟩

/-- What a call asks the scanner for. -/
def demand? (p : Tape) : ReaderCall → Option Demand
  | .next => if p.slot.isNone then some .next else none
  | .unread _ => none
  | .raw marker => some (.raw marker)

/-- What is consumed after a call, `got` being what was before: a token that is put back is not
    consumed. -/
def take (p : Tape) (got : List Piece) : ReaderCall → List Piece
  | .next => got ++ [.token p.nextToken]
  | .unread _ => got.dropLast
  | .raw marker => got ++ (p.scanner.answer (.raw marker)).1

/-- The tape after some calls. -/
def afterAll (p : Tape) (cs : List ReaderCall) : Tape :=
  cs.foldl after p

/-- What some calls ask the scanner for, in order. -/
def demands (p : Tape) : List ReaderCall → List Demand
  | [] => []
  | c :: cs => (p.demand? c).toList ++ (p.after c).demands cs

/-- What is consumed after some calls, `got` being what was before. -/
def consumedFrom (p : Tape) (got : List Piece) : List ReaderCall → List Piece
  | [] => got
  | c :: cs => (p.after c).consumedFrom (p.take got c) cs

/-- What some calls consume. -/
def consumed (p : Tape) (cs : List ReaderCall) : List Piece :=
  p.consumedFrom [] cs

theorem afterAll_concat (p : Tape) (cs : List ReaderCall) (c : ReaderCall) :
    p.afterAll (cs ++ [c]) = (p.afterAll cs).after c :=
  List.foldl_append

theorem demands_concat (p : Tape) (cs : List ReaderCall) (c : ReaderCall) :
    p.demands (cs ++ [c]) = p.demands cs ++ ((p.afterAll cs).demand? c).toList := by
  induction cs generalizing p with
  | nil => exact List.append_nil _
  | cons c' cs ih =>
    rw [List.cons_append, demands, ih, demands, List.append_assoc]
    rfl

theorem consumedFrom_concat (p : Tape) (got : List Piece) (cs : List ReaderCall) (c : ReaderCall) :
    p.consumedFrom got (cs ++ [c]) = (p.afterAll cs).take (p.consumedFrom got cs) c := by
  induction cs generalizing p got with
  | nil => rfl
  | cons c' cs ih => exact ih _ _

/-! ## Calls while there is room -/

/-- Calls with what they consume.  A token is put back, and raw text is taken, only while the
    slot is empty; the token is the one that was consumed last. -/
inductive Run (p : Tape) : List ReaderCall → List Piece → Tape → Prop
  | refl : Run p [] [] p
  | next {cs : List ReaderCall} {got : List Piece} {q : Tape} (h : Run p cs got q) :
      Run p (cs ++ [.next]) (got ++ [.token q.nextToken]) (q.after .next)
  | unread {cs : List ReaderCall} {got : List Piece} {q : Tape} {t : Token}
      (h : Run p cs (got ++ [.token t]) q) (hslot : q.slot = none) :
      Run p (cs ++ [.unread t]) got (q.after (.unread t))
  | raw {cs : List ReaderCall} {got : List Piece} {q : Tape} (h : Run p cs got q)
      (hslot : q.slot = none) (marker : List Char) :
      Run p (cs ++ [.raw marker]) (got ++ (q.scanner.answer (.raw marker)).1)
        (q.after (.raw marker))

namespace Run

theorem trans (h : p.Run cs got q) (h' : q.Run cs' got' r) :
    p.Run (cs ++ cs') (got ++ got') r := by
  induction h' with
  | refl => rwa [List.append_nil, List.append_nil]
  | next _ ih =>
    rw [← List.append_assoc, ← List.append_assoc]
    exact ih.next
  | unread _ hslot ih =>
    rw [← List.append_assoc] at ih ⊢
    exact ih.unread hslot
  | raw _ hslot marker ih =>
    rw [← List.append_assoc, ← List.append_assoc]
    exact ih.raw hslot marker

theorem afterAll_eq (h : p.Run cs got q) : p.afterAll cs = q := by
  induction h with
  | refl => rfl
  | next _ ih => rw [afterAll_concat, ih]
  | unread _ _ ih => rw [afterAll_concat, ih]
  | raw _ _ _ ih => rw [afterAll_concat, ih]

theorem consumed_eq_got (h : p.Run cs got q) : p.consumed cs = got := by
  induction h with
  | refl => rfl
  | next h ih => rw [consumed, consumedFrom_concat, ← consumed, ih, h.afterAll_eq, take]
  | unread h _ ih =>
    rw [consumed, consumedFrom_concat, ← consumed, ih, take, List.dropLast_concat]
  | raw h _ _ ih => rw [consumed, consumedFrom_concat, ← consumed, ih, h.afterAll_eq, take]

/-- **Calls that are made while there is room** are made while the slot is empty, and put back
    what was consumed last. -/
theorem proper (h : p.Run cs got q) {before rest : List ReaderCall}
    (hcs : cs = before ++ c :: rest) : (c ≠ .next → (p.afterAll before).slot = none) ∧
      ∀ t, c = .unread t → (p.consumed before).getLast? = some (.token t) := by
  -- the last call is the one in question, or it comes later
  have hlast : ∀ {cs : List ReaderCall} {c' : ReaderCall} {rest : List ReaderCall},
      cs ++ [c'] = before ++ c :: rest →
        cs = before ∧ c' = c ∨ ∃ rest', cs = before ++ c :: rest' := fun {cs c' rest} heq => by
    rcases List.eq_nil_or_concat rest with rfl | ⟨rest', c'', rfl⟩
    · obtain ⟨rfl, hc⟩ := List.append_inj' heq rfl
      exact Or.inl ⟨rfl, (List.cons.inj hc).1⟩
    · rw [List.concat_eq_append, ← List.cons_append, ← List.append_assoc] at heq
      exact Or.inr ⟨rest', (List.append_inj' heq rfl).1⟩
  induction h generalizing rest with
  | refl => simp at hcs
  | next h ih =>
    rcases hlast hcs with ⟨rfl, rfl⟩ | ⟨rest', hcs⟩
    · exact ⟨fun hne => absurd rfl hne, fun t ht => by cases ht⟩
    · exact ih hcs
  | unread h hslot ih =>
    rcases hlast hcs with ⟨rfl, rfl⟩ | ⟨rest', hcs⟩
    · refine ⟨fun _ => by rw [h.afterAll_eq, hslot], fun t ht => ?_⟩
      cases ht
      rw [h.consumed_eq_got, List.getLast?_concat]
    · exact ih hcs
  | raw h hslot _ ih =>
    rcases hlast hcs with ⟨rfl, rfl⟩ | ⟨rest', hcs⟩
    · exact ⟨fun _ => by rw [h.afterAll_eq, hslot], fun t ht => by cases ht⟩
    · exact ih hcs

/-- What was in the slot and what the scanner hands out is what is consumed and what is in the
    slot then. -/
theorem balance (h : p.Run cs got q) :
    p.slot.toList.map Piece.token ++ p.scanner.answers (p.demands cs) =
      got ++ q.slot.toList.map Piece.token ∧
    p.scanner.behind (p.demands cs) = q.scanner := by
  induction h with
  | refl => exact ⟨List.append_nil _, rfl⟩
  | @next cs got q h ih =>
    obtain ⟨hpieces, hbehind⟩ := ih
    rw [demands_concat, h.afterAll_eq, Scanner.answers_append, Scanner.behind_append, hbehind,
      ← List.append_assoc, hpieces]
    cases hslot : q.slot with
    | some t => simp [demand?, after, nextToken, hslot, Scanner.answers, Scanner.behind]
    | none =>
      simp [demand?, after, nextToken, hslot, Scanner.answers, Scanner.behind, Scanner.answer]
  | @unread cs got q t h hslot ih =>
    obtain ⟨hpieces, hbehind⟩ := ih
    rw [demands_concat, h.afterAll_eq, Scanner.answers_append, Scanner.behind_append, hbehind,
      ← List.append_assoc, hpieces]
    simp [demand?, after, hslot, Scanner.answers, Scanner.behind]
  | @raw cs got q h hslot marker ih =>
    obtain ⟨hpieces, hbehind⟩ := ih
    rw [demands_concat, h.afterAll_eq, Scanner.answers_append, Scanner.behind_append, hbehind,
      ← List.append_assoc, hpieces]
    simp [demand?, after, hslot, Scanner.answers, Scanner.behind]

/-- **What is consumed is what the scanner hands out**, one by one and in order, where the slot is
    empty before and after. -/
theorem consumed_eq (h : p.Run cs got q) (hp : p.slot = none) (hq : q.slot = none) :
    p.consumed cs = p.scanner.answers (p.demands cs) := by
  have hbalance := h.balance.1
  rw [hp, hq] at hbalance
  rw [h.consumed_eq_got]
  simpa using hbalance.symm

end Run

end Tape

/-! ## Sources -/

namespace Source

variable {s s' : Source}

/-- What a source reads from. -/
def tape (s : Source) : Tape :=
  ⟨s.scanner, s.pending⟩

theorem next_pending (s : Source) : s.next.2.pending = none := by
  unfold next
  split <;> rfl

theorem nextToken_tape (s : Source) : s.tape.nextToken = s.next.1 := by
  unfold Tape.nextToken tape next
  cases s.pending <;> rfl

theorem after_next (s : Source) : s.tape.after .next = s.next.2.tape := by
  unfold Tape.after tape next
  cases s.pending <;> rfl

/-- The warnings and the calls before do not matter to what is read. -/
theorem next_congr (h : s.tape = s'.tape) :
    s.next.1 = s'.next.1 ∧ s.next.2.tape = s'.next.2.tape := by
  rw [← nextToken_tape, ← nextToken_tape, ← after_next, ← after_next, h]
  exact ⟨rfl, rfl⟩

/-- A token that was put back is the next one. -/
@[simp]
theorem next_unread (s : Source) (t : Token) : (s.unread t).next.1 = t :=
  rfl

/-- Behind a token that was put back, reading goes on where it was. -/
theorem tape_next_unread (hp : s.pending = none) (t : Token) :
    (s.unread t).next.2.tape = s.tape := by
  rw [tape, tape, hp]
  rfl

theorem takeUntil_pending (s : Source) (marker : List Char) :
    (s.takeUntil marker).2.pending = s.pending := by
  unfold takeUntil
  dsimp only
  split <;> rfl

theorem takeUntil_config (s : Source) (marker : List Char) :
    (s.takeUntil marker).2.scanner.config = s.scanner.config := by
  unfold takeUntil
  dsimp only
  split
  · exact Scanner.takeUntil?_config ‹_›
  · rfl

/-- Raw text is asked of the scanner; there is none without the marker. -/
theorem after_raw (s : Source) (marker : List Char) :
    s.tape.after (.raw marker) = (s.takeUntil marker).2.tape ∧
      (s.tape.scanner.answer (.raw marker)).1 = (s.takeUntil marker).1.toList.map .raw := by
  unfold Tape.after takeUntil Scanner.answer
  dsimp only [tape]
  cases s.scanner.takeUntil? marker <;> exact ⟨rfl, rfl⟩

end Source

end LayoutLR
