import Typeahead.Files.Scratch
import Typeahead.Main
import Typeahead.Program.Fixture
import Typeahead.Proofs.BoundNames
import Typeahead.Proofs.CacheRuns
import Typeahead.Proofs.CheckedRequests
import Typeahead.Proofs.ComprehensionSlots
import Typeahead.Proofs.DeadCode
import Typeahead.Proofs.FinalSigma
import Typeahead.Proofs.Interference
import Typeahead.Proofs.Listings
import Typeahead.Proofs.Literals
import Typeahead.Proofs.NamespaceClauses
import Typeahead.Proofs.ParameterHints
import Typeahead.Proofs.Positions
import Typeahead.Proofs.Privacy
import Typeahead.Proofs.SortTexts
import Typeahead.Proofs.StableRanking
import Typeahead.Tree.Dump
