import Lox.Main
import Lox.Scope.References
import Lox.Proofs.SuperStatic
import Lox.Proofs.SessionLaw
import Lox.Proofs.Renaming
import Lox.Proofs.Acceptance
import Lox.Proofs.Recognition
import Lox.Proofs.ScopeStack
import Lox.Proofs.StaticRules
import Lox.Proofs.Edits
import Lox.Proofs.Conduct
import Lox.Proofs.Restoration
import Lox.Proofs.ActiveCalls
import Lox.Proofs.HeapOrder
import Lox.Proofs.Returns
import Lox.Proofs.SpansOfTokens
import Lox.Proofs.Context
import Lox.Proofs.Layout
import Lox.Proofs.SearchedRuns
import Lox.Proofs.Locality
import Lox.Proofs.SourcePlaces
import Lox.Proofs.NumberText
import Lox.Proofs.LoopRounds
import Lox.Proofs.Initializers
import Lox.Proofs.DebugText
import Lox.Proofs.Highlighting
import Lox.Proofs.Listings
import Lox.Proofs.Variables
import Lox.Proofs.Properties
