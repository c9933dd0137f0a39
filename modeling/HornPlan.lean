import HornPlan.Action
import HornPlan.Catalogue
import HornPlan.Chaining
import HornPlan.Clause
import HornPlan.Code
import HornPlan.CommandLine.Files
import HornPlan.CommandLine.Options
import HornPlan.CommandLine.Session
import HornPlan.Distinct
import HornPlan.Entailment
import HornPlan.Error
import HornPlan.Expression
import HornPlan.Json.Basic
import HornPlan.Json.Printer
import HornPlan.Json.Reader
import HornPlan.Json.Value
import HornPlan.KnowledgeBase
import HornPlan.Main
import HornPlan.Occurrence
import HornPlan.Planner
import HornPlan.Problem
import HornPlan.Proofs.Accounts
import HornPlan.Proofs.Answers
import HornPlan.Proofs.Applications
import HornPlan.Proofs.Arguments
import HornPlan.Proofs.Caching
import HornPlan.Proofs.Calls
import HornPlan.Proofs.Chaining
import HornPlan.Proofs.Checkpoints
import HornPlan.Proofs.Compositions
import HornPlan.Proofs.CompoundTerms
import HornPlan.Proofs.Conclusions
import HornPlan.Proofs.Consequences
import HornPlan.Proofs.Consistency
import HornPlan.Proofs.Continuations
import HornPlan.Proofs.Coverage
import HornPlan.Proofs.Cycles
import HornPlan.Proofs.Distances
import HornPlan.Proofs.Documents
import HornPlan.Proofs.Encodings
import HornPlan.Proofs.Entailment
import HornPlan.Proofs.Enumerations
import HornPlan.Proofs.Equations
import HornPlan.Proofs.Executability
import HornPlan.Proofs.Exhaustion
import HornPlan.Proofs.ExpansionCounts
import HornPlan.Proofs.FailedSteps
import HornPlan.Proofs.Failures
import HornPlan.Proofs.Faults
import HornPlan.Proofs.FlatFacts
import HornPlan.Proofs.GroundInstances
import HornPlan.Proofs.Groundings
import HornPlan.Proofs.Handovers
import HornPlan.Proofs.HonestSearches
import HornPlan.Proofs.Instances
import HornPlan.Proofs.Joins
import HornPlan.Proofs.KnowledgeBases
import HornPlan.Proofs.Labels
import HornPlan.Proofs.LeastCost
import HornPlan.Proofs.LevelingOff
import HornPlan.Proofs.Levels
import HornPlan.Proofs.Listings
import HornPlan.Proofs.Lists
import HornPlan.Proofs.Matching
import HornPlan.Proofs.Mirrors
import HornPlan.Proofs.OldestFirst
import HornPlan.Proofs.Outcomes
import HornPlan.Proofs.Plans
import HornPlan.Proofs.Printing
import HornPlan.Proofs.Problems
import HornPlan.Proofs.Proposals
import HornPlan.Proofs.RecordedGraphs
import HornPlan.Proofs.Records
import HornPlan.Proofs.RelaxedGraphs
import HornPlan.Proofs.Renamings
import HornPlan.Proofs.Replies
import HornPlan.Proofs.Restorations
import HornPlan.Proofs.Resumption
import HornPlan.Proofs.Runs
import HornPlan.Proofs.SearchTrees
import HornPlan.Proofs.Searches
import HornPlan.Proofs.Sessions
import HornPlan.Proofs.ShortestPlans
import HornPlan.Proofs.Simulations
import HornPlan.Proofs.States
import HornPlan.Proofs.Strategies
import HornPlan.Proofs.Substitutions
import HornPlan.Proofs.Termination
import HornPlan.Proofs.Terms
import HornPlan.Proofs.Texts
import HornPlan.Proofs.TimeLimits
import HornPlan.Proofs.Unification
import HornPlan.Proofs.Verdicts
import HornPlan.Proofs.WholeGraphs
import HornPlan.Proposal
import HornPlan.RecordedGraph
import HornPlan.RelaxedGraph
import HornPlan.Report
import HornPlan.Search.Basic
import HornPlan.Search.Checkpoint
import HornPlan.Search.Count
import HornPlan.Search.Run
import HornPlan.Search.Step
import HornPlan.Search.Strategy
import HornPlan.Search.Tree
import HornPlan.Simulation
import HornPlan.State
import HornPlan.Substitution
import HornPlan.Term
import HornPlan.TermData
import HornPlan.Text.Binary64
import HornPlan.Text.Blank
import HornPlan.Text.CodePoints
import HornPlan.Text.Decimal
import HornPlan.Text.Lowercase
import HornPlan.Text.Numeral
import HornPlan.Text.Printable
import HornPlan.Text.Quoted
import HornPlan.Text.Uppercase
import HornPlan.Unification
import HornPlan.Worlds.Blocks
import HornPlan.Worlds.Cake
import HornPlan.Worlds.Freight
import HornPlan.Worlds.Garage
import HornPlan.Worlds.Roads
import HornPlan.Worlds.Stating
