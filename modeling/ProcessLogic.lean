import ProcessLogic.Command.Check
import ProcessLogic.Command.Compare
import ProcessLogic.Command.Random
import ProcessLogic.Formula.Semantics
import ProcessLogic.Game.Bisimilarity
import ProcessLogic.Graph.Solution
import ProcessLogic.Main
import ProcessLogic.Proofs.Tally
import ProcessLogic.Proofs.Graph.Presentation
import ProcessLogic.Proofs.Marking.OnDemand
import ProcessLogic.Proofs.Marking.Budget
import ProcessLogic.Proofs.Graph.NodeTable
import ProcessLogic.Proofs.Graph.Unfolding
import ProcessLogic.Proofs.Lts.Saturation
import ProcessLogic.Proofs.Lts.Trace
import ProcessLogic.Proofs.Game.Bisimulation
import ProcessLogic.Proofs.Game.Inclusion
import ProcessLogic.Proofs.Formula.Scope
import ProcessLogic.Proofs.Formula.Acceptance
import ProcessLogic.Proofs.Formula.Query
import ProcessLogic.Proofs.Formula.Satisfaction
import ProcessLogic.Proofs.Marking.Level
import ProcessLogic.Proofs.Marking.Rank
import ProcessLogic.Proofs.Game.Distinction
import ProcessLogic.Proofs.Game.Simulation
import ProcessLogic.Proofs.Game.Bisimilarity
import ProcessLogic.Proofs.Formula.Weakening
import ProcessLogic.Proofs.Formula.Transfer
import ProcessLogic.Proofs.Game.Characterisation
import ProcessLogic.Proofs.Marking.Exhaustive
import ProcessLogic.Proofs.Graph.Closure
import ProcessLogic.Proofs.Game.Forest
import ProcessLogic.Proofs.Game.Partition
import ProcessLogic.Proofs.Game.Collapse
import ProcessLogic.Proofs.Game.Depth
import ProcessLogic.Proofs.Marking.Agreement
import ProcessLogic.Proofs.Game.Calls
import ProcessLogic.Proofs.Game.Strategy
import ProcessLogic.Proofs.Formula.Grammar
import ProcessLogic.Proofs.Formula.Reading
import ProcessLogic.Proofs.Formula.Meaning
import ProcessLogic.Proofs.Formula.Obstruction
import ProcessLogic.Proofs.Formula.Reparse
import ProcessLogic.Proofs.Lts.Aldebaran
import ProcessLogic.Proofs.Lts.Union
import ProcessLogic.Proofs.Formula.Duality
import ProcessLogic.Proofs.Formula.Declared
import ProcessLogic.Proofs.Game.Verdicts
import ProcessLogic.Proofs.Game.Classes
import ProcessLogic.Proofs.Lts.Queries
import ProcessLogic.Proofs.Lts.Rendering
import ProcessLogic.Proofs.Lts.Padding
import ProcessLogic.Proofs.Marking.Refinement
import ProcessLogic.Proofs.Game.Merging
import ProcessLogic.Proofs.Game.Ranks
import ProcessLogic.Proofs.Lts.Reading
import ProcessLogic.Proofs.Lts.Random
