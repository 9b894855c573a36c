import DotMend.Check
import DotMend.Parse.Graph
import DotMend.Token.Scan

namespace DotMend

structure Source where
  parse : Parse
  diagnostics : List Diagnostic
  deriving Repr

namespace Source

def graph (s : Source) : Option Tree := s.parse.graph

def ofText (t : Text) : Source :=
  let scanned := Token.scan t
  let parse := Parse.ofTokens scanned.tokens
  ⟨parse, scanned.diagnostics ++ parse.diagnostics ++ parse.graph.elim [] Tree.check⟩

def hasErrors (s : Source) : Bool := !s.diagnostics.isEmpty

end Source

namespace Parse

/-- Every node that was built, by number, with the number of its parent. -/
def nodes (p : Parse) : List (Option Nat × Tree) := p.forest.flatMap (Tree.postorder none)

def node? (p : Parse) (number : Nat) : Option Tree := (p.nodes.map Prod.snd)[number]?

def path (p : Parse) (t : Tree) : List Tree := (p.forest.findSome? (Tree.pathTo? t.number)).getD []

end Parse

end DotMend
