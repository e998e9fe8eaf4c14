import Lookahead.Cli.Command
import Lookahead.Main
import Lookahead.Report.Summary
import Lookahead.Report.View
import Lookahead.Proofs.Grammar.Derivation
import Lookahead.Proofs.Grammar.WellFormed
import Lookahead.Proofs.Fallible
import Lookahead.Proofs.Grammar.Canonical
import Lookahead.Proofs.Grammar.Corner
import Lookahead.Proofs.Grammar.Language
import Lookahead.Proofs.Grammar.LeftRecursion
import Lookahead.Proofs.Reader.Rounds
import Lookahead.Proofs.Grammar.Readable
import Lookahead.Proofs.Grammar.Removal
import Lookahead.Proofs.Grammar.Sentential
import Lookahead.Proofs.LL1.Membership
import Lookahead.Proofs.LR0.Automaton
import Lookahead.Proofs.LR0.Valid
import Lookahead.Proofs.SLR1.Loop
import Lookahead.Proofs.SLR1.Membership
import Lookahead.Proofs.SLR1.Termination
import Lookahead.Proofs.Sets.Begins
import Lookahead.Proofs.LL1.Classification
import Lookahead.Proofs.LL1.Termination
import Lookahead.Proofs.SLR1.Classification
import Lookahead.Proofs.Sets.Follows
import Lookahead.Proofs.LL1.Definition
import Lookahead.Proofs.SLR1.Handle
import Lookahead.Proofs.LL1.Trace
import Lookahead.Proofs.SLR1.Trace
import Lookahead.Proofs.Analysis
import Lookahead.Proofs.SLR1.Split
import Lookahead.Proofs.SLR1.Stack
import Lookahead.Proofs.LL1.Recursion
import Lookahead.Proofs.LR0.Collection
import Lookahead.Proofs.Report.Grid
import Lookahead.Proofs.Report.Named
import Lookahead.Proofs.Sets.Checked
import Lookahead.Proofs.Report.Range
import Lookahead.Proofs.Grammar.Renaming
import Lookahead.Proofs.Sets.Renaming
import Lookahead.Proofs.LL1.Renaming
import Lookahead.Proofs.LR0.Renaming
import Lookahead.Proofs.SLR1.Renaming
import Lookahead.Proofs.RuleOrder
import Lookahead.Proofs.Sets.Sweeps
import Lookahead.Proofs.Sets.Exact
import Lookahead.Proofs.LR0.Simulation
import Lookahead.Proofs.LR0.Viable
import Lookahead.Proofs.Text.Pieces
import Lookahead.Proofs.Text.Lines
import Lookahead.Proofs.Reader.Outline
import Lookahead.Proofs.Reader.Spaced
import Lookahead.Proofs.Reader.Compact
import Lookahead.Proofs.Report.Productions
import Lookahead.Proofs.Report.ReadBack
import Lookahead.Proofs.Grammar.Frame
import Lookahead.Proofs.LR0.Closure
import Lookahead.Proofs.LR0.Kernel
import Lookahead.Proofs.Grammar.Building
import Lookahead.Proofs.Report.Columns
import Lookahead.Proofs.Reader.Words
import Lookahead.Proofs.Report.Aligned
import Lookahead.Proofs.Naming
