import Typeahead.Grammar.Tagged
import Typeahead.Proofs.Containment
import Typeahead.Proofs.Faults
import Typeahead.Proofs.Inventory
import Typeahead.Proofs.Keys
import Typeahead.Proofs.Locality
import Typeahead.Proofs.Locating
import Typeahead.Proofs.Naming
import Typeahead.Proofs.Rereading
import Typeahead.Proofs.Shape
import Typeahead.Service
import Typeahead.Proofs.Answering
import Typeahead.Proofs.Tagging
import Typeahead.Proofs.ByteOrder
import Typeahead.Proofs.Listing
import Typeahead.Proofs.Merging
import Typeahead.Proofs.Distribution
import Typeahead.Proofs.Sequencing
import Typeahead.Proofs.Resolver
import Typeahead.Proofs.OpenPath
