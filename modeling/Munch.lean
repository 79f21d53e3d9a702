import Munch.Journal
import Munch.Proofs.InfixWriting
import Munch.Proofs.InfixFaults
import Munch.Proofs.SubsetExactness
import Munch.Proofs.LexerReload
import Munch.Proofs.FailurePlaces
import Munch.Proofs.DiscoveryOrder
import Munch.Proofs.CanonicalForm
import Munch.Proofs.TokenBoundaries
import Munch.Proofs.AutomataOrder
import Munch.Proofs.SinkStates
import Munch.Proofs.RereadAutomata
import Munch.Proofs.DiscoveryInStep
import Munch.Proofs.Renumbering
import Munch.Proofs.QuotedCharacters
import Munch.Proofs.RuleStatements
import Munch.Proofs.ListingBlocks
import Munch.Proofs.ListingFaults
import Munch.Proofs.PolishWords
import Munch.Proofs.WhiteBetween
import Munch.Proofs.ThompsonShape
import Munch.Proofs.Worklist
import Munch.Proofs.RenderedTrees
import Munch.Proofs.OperatorStack
import Munch.Proofs.DepthFirst
import Munch.Proofs.MergedTransitions
import Munch.Proofs.IndexedTransitions
import Munch.Proofs.SinkSearch
import Munch.Proofs.PendingSink
import Munch.Proofs.StateCounter
