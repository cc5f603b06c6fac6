import Respell.Pattern.Node

/-!
# Patterns

A pattern is a chain of nodes and the number of groups that its author may refer to.
-/

namespace Respell

/-- A chain of nodes, with the highest number that a group of it bears. -/
structure Pattern where
  nodes : List Node
  groups : Nat
  deriving DecidableEq

namespace Pattern

/-- The pattern without nodes. -/
def empty : Pattern := ⟨[], 0⟩

/-- The pattern of a chain. -/
def ofNodes (nodes : List Node) : Pattern :=
  ⟨nodes, (Node.groupNumbersOfChain nodes).foldl max 0⟩

/-- The pattern that takes all of any word. -/
def anyWord : Pattern := ofNodes [.leaf .remainder .once]

/-- The pattern has no node. -/
def isEmpty (p : Pattern) : Bool := p.nodes.isEmpty

end Pattern

end Respell
