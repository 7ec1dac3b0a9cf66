import SortedLogic.Command.Datatypes
import SortedLogic.Command.Equality
import SortedLogic.Command.Laws
import SortedLogic.Command.Machines
import SortedLogic.Command.Programs
import SortedLogic.Command.Provers
import SortedLogic.Command.Reflection
import SortedLogic.Command.Relations
import SortedLogic.Command.Rules
import SortedLogic.Command.Shapes
import SortedLogic.Command.Tactics
import SortedLogic.Command.Terms
import SortedLogic.Command.Testing
import SortedLogic.Command.Texts
import SortedLogic.Command.Theories
import SortedLogic.Command.Words
import SortedLogic.Main
import SortedLogic.Proofs.BodyRuns
import SortedLogic.Proofs.BoundNames
import SortedLogic.Proofs.Calculations
import SortedLogic.Proofs.Counters
import SortedLogic.Proofs.DatatypeNames
import SortedLogic.Proofs.EqualityGraph
import SortedLogic.Proofs.Generalization
import SortedLogic.Proofs.InductionSchemes
import SortedLogic.Proofs.MachineArithmetic
import SortedLogic.Proofs.NormalForms
import SortedLogic.Proofs.Registries
import SortedLogic.Proofs.Resolution
import SortedLogic.Proofs.Scripts
import SortedLogic.Proofs.SearchTermination
import SortedLogic.Proofs.ShapeText
import SortedLogic.Proofs.TermOrders
import SortedLogic.Proofs.AttemptStates
import SortedLogic.Proofs.BagCompletion
import SortedLogic.Proofs.WordCompletion
import SortedLogic.Text.Renumber
