import Metamodel.Files.Tree
import Metamodel.Main
import Metamodel.Proofs.LinkOrder
import Metamodel.Proofs.Steps
import Metamodel.Proofs.Lookup
import Metamodel.Proofs.Growth
import Metamodel.Proofs.Buildability
import Metamodel.Proofs.Construction
import Metamodel.Proofs.Supply
import Metamodel.Proofs.Runs
import Metamodel.Proofs.ReferenceClosure
import Metamodel.Proofs.KeyCoherence
import Metamodel.Proofs.Agreement
import Metamodel.Proofs.Solving
import Metamodel.Proofs.Loading
import Metamodel.Proofs.ModularBuild
import Metamodel.Proofs.Filling
import Metamodel.Proofs.SolutionOrder
import Metamodel.Proofs.Updates
import Metamodel.Proofs.OneSketchEach
import Metamodel.Proofs.OpenDrafts
import Metamodel.Proofs.Transfer
import Metamodel.Proofs.AttributeOrigins
import Metamodel.Proofs.Reordering
import Metamodel.Proofs.Derivations
import Metamodel.Proofs.Relocation
import Metamodel.Proofs.Parsing
import Metamodel.Proofs.Spelling
import Metamodel.Proofs.Rendering
import Metamodel.Proofs.SolvingPhases
import Metamodel.Proofs.Conformance
import Metamodel.Proofs.Accesses
import Metamodel.Proofs.ConstructionReads
import Metamodel.Proofs.Coverage
import Metamodel.Proofs.Fragments
import Metamodel.Proofs.Discovery
import Metamodel.Proofs.Nesting
import Metamodel.Proofs.ImplicitDomains
import Metamodel.Proofs.FrozenAnswers
import Metamodel.Proofs.JsonReading
import Metamodel.Proofs.DocumentReading
import Metamodel.Proofs.CycleReport
import Metamodel.Proofs.DomainConstruction
import Metamodel.Proofs.SimpleAssociations
import Metamodel.Proofs.UnresolvedLinks
import Metamodel.Proofs.OutsideNames
import Metamodel.Proofs.StatementFaults
import Metamodel.Proofs.PartialLoads
import Metamodel.Proofs.LineBreaks
import Metamodel.Proofs.JoinedTexts
import Metamodel.Proofs.SyntaxErrors
import Metamodel.Proofs.Offsets
import Metamodel.Proofs.TokenTiling
import Metamodel.Proofs.Bytewise
import Metamodel.Proofs.ErrorSpans
import Metamodel.Proofs.QuotedFaults
