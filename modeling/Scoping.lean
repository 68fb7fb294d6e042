import Scoping.Env.Lemmas
import Scoping.Library
import Scoping.Proofs.Candidates
import Scoping.Proofs.Records
import Scoping.Proofs.Contents
import Scoping.Proofs.Imports
import Scoping.Proofs.Members
import Scoping.Proofs.LocalScopes
import Scoping.Proofs.ModuleScope
import Scoping.Proofs.Failures
import Scoping.Proofs.BuiltInterfaces
import Scoping.Proofs.LoadOrder
import Scoping.Proofs.ModuleInterfaces
import Scoping.Proofs.Reachable
import Scoping.Proofs.Coherence
import Scoping.Proofs.Visibility
import Scoping.Proofs.Pieces
import Scoping.Proofs.Nesting
import Scoping.Proofs.Aspects
import Scoping.Proofs.Grouping
import Scoping.Proofs.Reordering
import Scoping.Proofs.Layers
import Scoping.Proofs.Rekeying
import Scoping.Proofs.Targets
import Scoping.Proofs.RenamedScopes
import Scoping.Proofs.DroppedKeys
import Scoping.Proofs.Selections
import Scoping.Proofs.Ownership
import Scoping.Proofs.NameOrder
import Scoping.Proofs.PatternVariables
import Scoping.Proofs.Phrases
import Scoping.Proofs.Displays
