import SymbolAtlas.Graph.Build
import SymbolAtlas.Graph.Search
import SymbolAtlas.Settings.Load
import SymbolAtlas.Source.Draft
import SymbolAtlas.Source.Tables
import SymbolAtlas.Unused
import SymbolAtlas.Proofs.Graph.Agreement
import SymbolAtlas.Proofs.Graph.Blocks
import SymbolAtlas.Proofs.Graph.Defined
import SymbolAtlas.Proofs.Graph.Log
import SymbolAtlas.Proofs.Graph.Overlap
import SymbolAtlas.Proofs.Graph.Relations
import SymbolAtlas.Proofs.Graph.Rounds
import SymbolAtlas.Proofs.Graph.Steps
import SymbolAtlas.Proofs.Graph.TwoKeys
import SymbolAtlas.Proofs.Lookup.Ascending
import SymbolAtlas.Proofs.Lookup.ExportTarget
import SymbolAtlas.Proofs.Lookup.LeftOut
import SymbolAtlas.Proofs.Lookup.OwnSite
import SymbolAtlas.Proofs.Lookup.Precedence
import SymbolAtlas.Proofs.Settings.Layers
import SymbolAtlas.Proofs.Settings.RoundTrip
import SymbolAtlas.Proofs.Source.Exported
import SymbolAtlas.Proofs.Source.Reopened
import SymbolAtlas.Proofs.Symbol.InferredTypes
import SymbolAtlas.Proofs.Unused.Antitone
import SymbolAtlas.Proofs.Unused.Called
import SymbolAtlas.Proofs.Unused.Members
import SymbolAtlas.Proofs.Unused.OwnName
import SymbolAtlas.Proofs.Unused.Reported
