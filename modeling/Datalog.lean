import Datalog.Token.Stream
import Datalog.Storage.Unreliable
import Datalog.KnowledgeBase
import Datalog.Clause.Json
import Datalog.Settings.Json
import Datalog.Token.Json
import Datalog.Proofs.Relation.Index
import Datalog.Proofs.Relation.Matching
import Datalog.Proofs.Database.Reachable
import Datalog.Proofs.Database.Growth
import Datalog.Proofs.Outcome
import Datalog.Proofs.Database.Calls
import Datalog.Proofs.Database.AppendOnly
import Datalog.Proofs.Database.Places
import Datalog.Proofs.Substitution
import Datalog.Proofs.Join
import Datalog.Proofs.Consequence
import Datalog.Proofs.Fixpoint.Harvest
import Datalog.Proofs.ConjunctiveQuery
import Datalog.Proofs.Fixpoint.Commit
import Datalog.Proofs.Fixpoint.Round
import Datalog.Proofs.Fixpoint.Strata
import Datalog.Proofs.Fixpoint.Lockstep
import Datalog.Proofs.Fixpoint.Refusals
import Datalog.Proofs.Fixpoint.States
import Datalog.Proofs.Fixpoint.Termination
import Datalog.Proofs.Program
import Datalog.Proofs.Fixpoint.Materialize
import Datalog.Proofs.Digraph.Search
import Datalog.Proofs.Digraph.Components
import Datalog.Proofs.Stratification
import Datalog.Proofs.Stratification.Rules
import Datalog.Proofs.Digraph.Descent
import Datalog.Proofs.Digraph.Course
import Datalog.Proofs.Digraph.Counted
import Datalog.Proofs.Stratification.Descent
import Datalog.Proofs.LeastModel
import Datalog.Proofs.Strategies
import Datalog.Proofs.Provenance
import Datalog.Proofs.Limit
import Datalog.Proofs.Repetition
import Datalog.Proofs.Recorded
import Datalog.Proofs.Interruption
import Datalog.Proofs.KnowledgeBase
import Datalog.Proofs.History
import Datalog.Proofs.Clause.Grammar
import Datalog.Proofs.Clause.Reading
import Datalog.Proofs.Token.Spelling
import Datalog.Proofs.Program.Batches
import Datalog.Proofs.Clause.RoundTrip
import Datalog.Proofs.Token.Munch
import Datalog.Proofs.Token.Stream
import Datalog.Proofs.Clause.Foresight
import Datalog.Proofs.Clause.Viability
import Datalog.Proofs.Clause.OpenFacts
import Datalog.Proofs.Clause.FirstOffence
import Datalog.Proofs.Clause.Overlooked
import Datalog.Proofs.Requests
import Datalog.Proofs.RoundBound
import Datalog.Proofs.Program.Shuffle
import Datalog.Proofs.Stratification.Matching
import Datalog.Proofs.Fixpoint.Fetched
import Datalog.Proofs.Fixpoint.MatchingRounds
import Datalog.Proofs.StratumStart
import Datalog.Proofs.Reordering
import Datalog.Proofs.Program.Validation
import Datalog.Proofs.Program.Catalog
import Datalog.Proofs.Answers
import Datalog.Proofs.Token.Joint
import Datalog.Proofs.Clause.Concatenation
import Datalog.Proofs.Database.Counting
import Datalog.Proofs.Preparation
import Datalog.Proofs.Linear
import Datalog.Proofs.Appending
import Datalog.Proofs.Accounting
import Datalog.Proofs.Renaming.Clause
import Datalog.Proofs.Renaming.Program
import Datalog.Proofs.Renaming.Evaluation
import Datalog.Proofs.JsonText.Grammar
import Datalog.Proofs.JsonText.Words
import Datalog.Proofs.JsonText.Skipping
import Datalog.Proofs.JsonText.Decoding
import Datalog.Proofs.JsonText.Shapes
import Datalog.Proofs.JsonText.Variants
import Datalog.Proofs.JsonText.Writing
import Datalog.Proofs.Settings.Json
import Datalog.Proofs.JsonText.RoundTrip
