import ParseForest.OrderedSet
import ParseForest.Symbol
import ParseForest.Symbol.Table
import ParseForest.Symbol.Reserved
import ParseForest.Span
import ParseForest.Diagnostic
import ParseForest.Grammar.Name
import ParseForest.Grammar.Production
import ParseForest.InternalError
import ParseForest.Grammar.Cast
import ParseForest.Issue
import ParseForest.Session
import ParseForest.Lattice.Digraph
import ParseForest.Lattice
import ParseForest.ListSort
import ParseForest.Grammar
import ParseForest.Forest.Text
import ParseForest.Forest.Agreement
import ParseForest.Forest.Summary
import ParseForest.Forest.Digest
import ParseForest.Forest.Fingerprint
import ParseForest.Term
import ParseForest.Outcome
import ParseForest.Memo
import ParseForest.Transformer
import ParseForest.LeafRule
import ParseForest.Cleaning
import ParseForest.Completion
import ParseForest.Disambiguation
import ParseForest.Spelling.Grammar
import ParseForest.Spelling.Forest
import ParseForest.Proofs.Occurrence
import ParseForest.Proofs.Lists
import ParseForest.Proofs.Agreement
import ParseForest.Proofs.Tree
import ParseForest.Proofs.Ledger
import ParseForest.Proofs.Interning
import ParseForest.Proofs.Building
import ParseForest.Proofs.Joining
import ParseForest.Proofs.Passing
import ParseForest.Proofs.Cleaned
import ParseForest.Proofs.Readings
import ParseForest.Proofs.CleanedReadings
import ParseForest.Proofs.Completed
import ParseForest.Proofs.CompletedReadings
import ParseForest.Proofs.Genuine
import ParseForest.Proofs.Disambiguated
import ParseForest.Proofs.Slots
import ParseForest.Proofs.ConstantHooks
import ParseForest.Proofs.History
import ParseForest.Proofs.Closure
import ParseForest.Proofs.Declared
import ParseForest.Proofs.WellSorted
import ParseForest.Proofs.Rejection
import ParseForest.Proofs.Congruence
import ParseForest.Proofs.NormalForm
import ParseForest.Proofs.Presentation
import ParseForest.Proofs.Tokens
import ParseForest.Proofs.Walking
import ParseForest.Proofs.Workshop
import ParseForest.Proofs.Equality
import ParseForest.Proofs.CleaningLaws
import ParseForest.Proofs.ListInsertion
import ParseForest.Proofs.CompletionLaws
import ParseForest.Proofs.Propagation
import ParseForest.Proofs.StackSearch
import ParseForest.Proofs.Cycles
import ParseForest.Proofs.SubsortOrder
import ParseForest.Proofs.Renaming
import ParseForest.Proofs.RenamedPasses
import ParseForest.Proofs.Correspondence
import ParseForest.Proofs.Writing
import ParseForest.Proofs.Lockstep
import ParseForest.Proofs.Numbering
import ParseForest.Proofs.Alternatives
import ParseForest.Proofs.AttributeSets
import ParseForest.Proofs.Descent
import ParseForest.Proofs.Recording
import ParseForest.Proofs.Tally
import ParseForest.Proofs.Visits
