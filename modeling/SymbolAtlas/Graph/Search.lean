/-
Path searches and their reports.
-/
import SymbolAtlas.Fault
import SymbolAtlas.Graph.Climb
import SymbolAtlas.Graph.Diagram
import SymbolAtlas.Graph.Query
import SymbolAtlas.Graph.Walk
import SymbolAtlas.Text.Path

namespace SymbolAtlas

/-- A path through the graph with the recorded call of each of its steps. -/
structure CallPath where
  nodes : List String
  edges : List Edge
  startSymbol : String
  endSymbol : String

namespace CallPath

def size (p : CallPath) : Nat := p.nodes.length

def isEmpty (p : CallPath) : Bool := p.nodes.isEmpty

def contains (p : CallPath) (key : String) : Bool := decide (key ∈ p.nodes)

end CallPath

/-- What a search found, the diagram of it, and where the diagram may be kept. -/
structure SearchReport where
  paths : List CallPath
  totalPaths : Nat
  diagram : String
  outputPath : String

namespace Graph

/-- The symbol key with the characters that a file name should not have replaced. -/
def fileStem (key : String) : String :=
  String.ofList (key.toList.map fun c => if Diagram.isPlain c || c == '-' then c else '_')

variable (g : Graph) (outputDir : String)

def edgesAlong (nodes : List String) : List Edge :=
  (Diagram.pairs nodes).filterMap fun p => g.edge? p.1 p.2

def require (key : String) : Except SearchError Node :=
  match g.node? key with
  | some node => .ok node
  | none => .error (.notInGraph key)

def reportOf (paths : List CallPath) (fileName : String) : SearchReport :=
  { paths := paths
    totalPaths := paths.length
    diagram := (Diagram.ofPaths g (paths.map CallPath.nodes)).render
    outputPath := Text.joinPath outputDir fileName }

/-- All simple paths between two keys. -/
def findPaths (source target : String) : Except SearchError SearchReport := do
  let first ← g.require source
  let last ← g.require target
  let paths := (g.simplePaths first last.key).map fun nodes =>
    { nodes := nodes, edges := g.edgesAlong nodes, startSymbol := source,
      endSymbol := target : CallPath }
  return g.reportOf outputDir paths
    ("trace_" ++ fileStem source ++ "_to_" ++ fileStem target ++ ".md")

/-- All chains of callers that lead to a key, each from its root down. -/
def findCallers (target : String) : Except SearchError SearchReport := do
  let last ← g.require target
  let paths := (g.callerChains last).map fun nodes =>
    { nodes := nodes, edges := g.edgesAlong nodes, startSymbol := nodes.headD last.key,
      endSymbol := last.key : CallPath }
  return g.reportOf outputDir paths ("callers_" ++ fileStem last.key ++ ".md")

def trace (query : TraceQuery) : Except SearchError SearchReport :=
  g.findPaths outputDir query.source query.target

end Graph
end SymbolAtlas
