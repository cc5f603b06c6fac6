import Respell.Rule

/-!
# Chains of rules

Rules are tried in the order of a chain.  A chain can be cut behind any of its rules and
continued there by another chain.
-/

namespace Respell

/-- Rules in the order in which they are tried. -/
abbrev RuleChain (τ : Type) := List (Rule τ)

namespace RuleChain

variable {τ : Type}

/-- The chain that goes on with `next` behind the rule at an index, and what came behind
that rule before. -/
def replaceAfter (rules : RuleChain τ) (index : Nat) (next : RuleChain τ) :
    RuleChain τ × RuleChain τ :=
  (rules.take (index + 1) ++ next, rules.drop (index + 1))

/-- For each rule its tag and the text that the word becomes by it, if it matches. -/
def respellings (rules : RuleChain τ) (word : Bytes) : List (τ × Option String) :=
  rules.map fun r => (r.tag, (r.respell? word).map (·.text))

/-- The tag of the first rule that matches the word, and the text that the word becomes. -/
def first? (rules : RuleChain τ) (word : Bytes) : Option (τ × String) :=
  rules.findSome? fun r => (r.respell? word).map fun rendering => (r.tag, rendering.text)

end RuleChain

end Respell
