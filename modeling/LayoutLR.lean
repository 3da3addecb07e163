import LayoutLR.Main
import LayoutLR.Proofs.Automaton.Consistency
import LayoutLR.Proofs.Automaton.LeastClosure
import LayoutLR.Proofs.Automaton.Settled
import LayoutLR.Proofs.Block.Roundtrip
import LayoutLR.Proofs.Document.Origins
import LayoutLR.Proofs.Document.Problems
import LayoutLR.Proofs.Grammar.FollowSets
import LayoutLR.Proofs.Grammar.Lookup
import LayoutLR.Proofs.Grammar.Pushback
import LayoutLR.Proofs.Grammar.Roundtrip
import LayoutLR.Proofs.Operator.Grouping
import LayoutLR.Proofs.Operator.RightOperand
import LayoutLR.Proofs.Parser.Decision
import LayoutLR.Proofs.Parser.Endless
import LayoutLR.Proofs.Parser.Foresight
import LayoutLR.Proofs.Parser.Ledger
import LayoutLR.Proofs.Parser.LineBoundary
import LayoutLR.Proofs.Parser.LineBreaks
import LayoutLR.Proofs.Sorted.History
import LayoutLR.Proofs.Token.Balance
import LayoutLR.Proofs.Token.Coverage
import LayoutLR.Proofs.Token.Insertion
import LayoutLR.Proofs.Token.Marks
import LayoutLR.Proofs.Token.Positions
import LayoutLR.Proofs.Token.Rendered
