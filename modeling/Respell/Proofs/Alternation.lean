import Mathlib.Data.List.Forall2
import Mathlib.Tactic.Common
import Respell.Match
import Respell.Proofs.Pattern.Node
import Respell.Reading

/-!
# Classes as alternations

A reference to a class in which case does not count is an alternation over its members: a
group, with a number beyond the captures, that has one branch for each member.  Both are
repeated in the same rounds, and in each round a member is the same step as its branch, so
that the searches are equal and not only what they find.
-/

namespace Respell

/-- The member as a branch of a group: its text once, replaced, and no other replacement. -/
def Member.branch (m : Member) : Branch Node :=
  ⟨[.leaf (.literal m.text m.replacement) .once], none⟩

mutual

/-- The second node is the first one with its class references spelled out, at any depth.  A
class in which case does not count becomes the alternation of its members, and a class that
does not exist the alternation of nothing. -/
inductive Node.SpelledOut (lexicon : Lexicon) : Node → Node → Prop
  | folded {id : ClassId} {reps : Reps} {number : Nat} {c : NamedClass}
      (hc : lexicon.get? id = some c) (hcasing : c.casing = .folded)
      (hnumber : captureCount ≤ number) :
      Node.SpelledOut lexicon (.leaf (.memberOf id) reps)
        (.group number (c.members.map Member.branch) reps)
  | missing {id : ClassId} {reps : Reps} {number : Nat} (hc : lexicon.get? id = none)
      (hnumber : captureCount ≤ number) :
      Node.SpelledOut lexicon (.leaf (.memberOf id) reps) (.group number [] reps)
  | exact {id : ClassId} {reps : Reps} {c : NamedClass} (hc : lexicon.get? id = some c)
      (hcasing : c.casing = .exact) :
      Node.SpelledOut lexicon (.leaf (.memberOf id) reps) (.leaf (.memberOf id) reps)
  | leaf {content : Leaf} {reps : Reps} (h : ∀ id, content ≠ .memberOf id) :
      Node.SpelledOut lexicon (.leaf content reps) (.leaf content reps)
  | group {number : Nat} {branches branches' : List (Branch Node)} {reps : Reps}
      (h : List.Forall₂ (Branch.SpelledOut lexicon) branches branches') :
      Node.SpelledOut lexicon (.group number branches reps) (.group number branches' reps)

/-- The second branch is the first one with its class references spelled out. -/
inductive Branch.SpelledOut (lexicon : Lexicon) : Branch Node → Branch Node → Prop
  | mk {nodes nodes' : List Node} {replacement : Option Bytes}
      (h : List.Forall₂ (Node.SpelledOut lexicon) nodes nodes') :
      Branch.SpelledOut lexicon ⟨nodes, replacement⟩ ⟨nodes', replacement⟩

end

/-! ### Every node can be spelled out -/

section Exists

variable {lexicon : Lexicon}

theorem exists_spelledOut_of_nodes {nodes : List Node}
    (h : ∀ n ∈ nodes, ∃ m, Node.SpelledOut lexicon n m) :
  ∃ nodes', List.Forall₂ (Node.SpelledOut lexicon) nodes nodes'
  := by
  induction nodes with
  | nil => use [], List.Forall₂.nil
  | cons n ns ih =>
      obtain ⟨m, hm⟩ := h n List.mem_cons_self
      obtain ⟨ms, hms⟩ := ih (fun n hn => h n (List.mem_cons_of_mem _ hn))
      use m :: ms, List.Forall₂.cons hm hms

theorem exists_spelledOut_of_branches {branches : List (Branch Node)}
    (h : ∀ b ∈ branches, ∀ n ∈ b.nodes, ∃ m, Node.SpelledOut lexicon n m) :
  ∃ branches', List.Forall₂ (Branch.SpelledOut lexicon) branches branches'
  := by
  induction branches with
  | nil => use [], List.Forall₂.nil
  | cons b bs ih =>
      obtain ⟨ms, hms⟩ := exists_spelledOut_of_nodes (h b List.mem_cons_self)
      obtain ⟨cs, hcs⟩ := ih (fun b hb => h b (List.mem_cons_of_mem _ hb))
      use ⟨ms, b.replacement⟩ :: cs, List.Forall₂.cons (.mk hms) hcs

theorem exists_spelledOut_leaf (content : Leaf) (reps : Reps) :
  ∃ m, Node.SpelledOut lexicon (.leaf content reps) m
  := by
  cases content with
  | memberOf id =>
      cases hc : lexicon.get? id with
      | none => exact ⟨_, .missing hc (Nat.le_refl captureCount)⟩
      | some c =>
          cases hcasing : c.casing with
          | exact => exact ⟨_, .exact hc hcasing⟩
          | folded => exact ⟨_, .folded hc hcasing (Nat.le_refl captureCount)⟩
  | _ =>
      refine ⟨_, .leaf ?_⟩
      intro id h
      cases h

theorem exists_spelledOut (n : Node) :
  ∃ m, Node.SpelledOut lexicon n m
  := by
  induction n using Node.ind with
  | leaf content reps => apply exists_spelledOut_leaf
  | group number branches reps ih =>
      obtain ⟨branches', h⟩ := exists_spelledOut_of_branches ih
      use .group number branches' reps, .group h

end Exists

/-! ### The steps are equal -/

namespace Path

theorem leaveBranch_advance (p : Path) (n : Nat) (text : Bytes) {number : Nat}
    (hnumber : captureCount ≤ number) :
  (p.advance n text).leaveBranch p.given number none = p.advance n text
  := by
  have hput : p.captures.put number text = p.captures :=
    Vector.setIfInBounds_eq_of_size_le hnumber
  simp [leaveBranch, advance, hput]

end Path

namespace Search

variable (s : Search)

/-- A step that is to be repeated exactly once is a try of it. -/
theorem downFromMost_once (step? : Path → Option Path) (k : Continuation) (p : Path) :
  s.downFromMost step? .once k p = (step? p).elim .fail k
  := by
  have hpaths : (Path.iterates step? 1 p).drop 1 = (step? p).toList := by
    rw [Path.iterates]
    cases step? p with
    | none => rfl
    | some q => rfl
  have hdown : s.downFromMost step? .once k p =
      explore s.enough k ((Path.iterates step? 1 p).drop 1).reverse .fail := rfl
  rw [hdown, hpaths]
  cases step? p with
  | none => rfl
  | some q =>
      have hfail : Outcome.fail.orElse (k q) = k q := rfl
      rw [Option.toList_some, List.reverse_singleton, explore, explore, hfail]
      exact ite_self _

/-- The branch of a member is the same step as the member itself. -/
theorem branchStep_branch (m : Member) {number : Nat} (hnumber : captureCount ≤ number) :
  s.branchStep number m.branch = memberStep .folded m
  := by
  funext k p
  rw [branchStep_eq]
  simp only [Member.branch, chain, node, leaf, replaceText]
  split
  · next h =>
    have hlead : Casing.folded.leads m.text p.rest = true := by
      rw [List.isEmpty_iff.mp h]
      rfl
    dsimp only
    rw [Path.leaveBranch_advance p 0 m.replacement hnumber, memberStep, if_pos hlead,
      List.isEmpty_iff.mp h]
    rfl
  · rw [downFromMost_once, memberStep, Path.replaceText?]
    split
    · rw [Option.elim_some, Path.leaveBranch_advance p _ m.replacement hnumber]
    · rfl

theorem chain_eq_of_nodes {nodes nodes' : List Node}
    (h : ∀ n ∈ nodes, ∀ m, Node.SpelledOut s.lexicon n m → s.node n = s.node m)
    (hs : List.Forall₂ (Node.SpelledOut s.lexicon) nodes nodes') :
  s.chain nodes = s.chain nodes'
  := by
  induction hs with
  | nil => rfl
  | @cons n m ns ms hn _ ih =>
      rw [chain, chain, h n List.mem_cons_self m hn,
        ih (fun n hn => h n (List.mem_cons_of_mem _ hn))]

theorem branchSteps_eq_of_branches {number : Nat} {branches branches' : List (Branch Node)}
    (h : ∀ b ∈ branches, ∀ n ∈ b.nodes, ∀ m, Node.SpelledOut s.lexicon n m →
      s.node n = s.node m)
    (hs : List.Forall₂ (Branch.SpelledOut s.lexicon) branches branches') :
  s.branchSteps number branches = s.branchSteps number branches'
  := by
  induction hs with
  | nil => rfl
  | @cons b c bs cs hb _ ih =>
      obtain ⟨hnodes⟩ := hb
      have hchain := s.chain_eq_of_nodes (h _ List.mem_cons_self) hnodes
      rw [branchSteps, branchSteps, branchStep_eq, branchStep_eq,
        ih (fun b hb => h b (List.mem_cons_of_mem _ hb)), hchain]

/-- A node and what it is spelled out as are the same step. -/
theorem node_eq_of_spelledOut (n : Node) :
  ∀ m, Node.SpelledOut s.lexicon n m → s.node n = s.node m
  := by
  induction n using Node.ind with
  | leaf content reps =>
      intro m h
      cases h with
      | @folded id _ number c hc hcasing hnumber =>
          have hsteps : s.branchSteps number (c.members.map Member.branch) = s.classSteps id := by
            rw [branchSteps_eq_map, List.map_map, classSteps, hc]
            dsimp only
            rw [hcasing]
            apply List.map_congr_left
            intro m _
            apply s.branchStep_branch m hnumber
          rw [node, node, leaf, hsteps]
      | missing hc => rw [node, node, leaf, classSteps, hc, branchSteps]
      | exact => rfl
      | leaf => rfl
  | group number branches reps ih =>
      intro m h
      cases h with
      | group h => rw [node, node, s.branchSteps_eq_of_branches ih h]

theorem chain_eq_of_spelledOut {nodes nodes' : List Node}
    (h : List.Forall₂ (Node.SpelledOut s.lexicon) nodes nodes') :
  s.chain nodes = s.chain nodes'
  := s.chain_eq_of_nodes (fun n _ => s.node_eq_of_spelledOut n) h

end Search

namespace Pattern

/-- The class references of every pattern can be spelled out, and whichever numbers the
groups in their places get, the pattern matches the same words in the same way. -/
theorem longestMatch?_eq_of_spelledOut (lexicon : Lexicon) (pattern : Pattern) :
  (∃ nodes, List.Forall₂ (Node.SpelledOut lexicon) pattern.nodes nodes) ∧
    ∀ pattern' : Pattern,
      List.Forall₂ (Node.SpelledOut lexicon) pattern.nodes pattern'.nodes →
        ∀ word, pattern'.longestMatch? lexicon word = pattern.longestMatch? lexicon word
  := by
  use exists_spelledOut_of_nodes fun n _ => exists_spelledOut n
  intro pattern' h word
  have hchain := (Search.untilWordEnd lexicon).chain_eq_of_spelledOut h
  rw [longestMatch?, longestMatch?, longestPath?, longestPath?, Search.longest?,
    Search.longest?, hchain]

/-- A repeated class within a repeated group. -/
theorem longestMatch?_eq_of_repeated_class :
  let r := Reading.ofSource (Utf8.encode "(<v:a,ab|x>+,b)*") .empty
  let word := Utf8.encode "abAbab"
  let members : List (Branch Node) := [⟨[.leaf (.literal [97, 98] [120]) .once], none⟩,
    ⟨[.leaf (.literal [97] [97]) .once], none⟩]
  let spelledOut : Pattern := .ofNodes [.group 1 [⟨[.group 10 members .oneOrMore], none⟩,
    ⟨[.leaf (.byte 98) .once], none⟩] .anyNumber]
  List.Forall₂ (Node.SpelledOut r.lexicon) r.pattern.nodes spelledOut.nodes ∧
    spelledOut.longestMatch? r.lexicon word = r.pattern.longestMatch? r.lexicon word ∧
    (r.pattern.longestMatch? r.lexicon word).map Match.output = some "xxx"
  := by
  intro r word members spelledOut
  have hnodes : r.pattern.nodes = [.group 1 [⟨[.leaf (.memberOf ⟨0⟩) .oneOrMore], none⟩,
      ⟨[.leaf (.byte 98) .once], none⟩] .anyNumber] := by
    decide +kernel
  have hclass : r.lexicon.get? ⟨0⟩ =
      some ⟨[118], .folded, [⟨[97, 98], [120]⟩, ⟨[97], [97]⟩]⟩ := by
    decide +kernel
  have h : List.Forall₂ (Node.SpelledOut r.lexicon) r.pattern.nodes spelledOut.nodes := by
    rw [hnodes]
    have hmember : Node.SpelledOut r.lexicon (.leaf (.memberOf ⟨0⟩) .oneOrMore)
        (.group 10 members .oneOrMore) := .folded hclass rfl (by decide)
    have hbyte : Node.SpelledOut r.lexicon (.leaf (.byte 98) .once) (.leaf (.byte 98) .once) :=
      .leaf fun id h => by cases h
    exact .cons (.group (.cons (.mk (.cons hmember .nil)) (.cons (.mk (.cons hbyte .nil)) .nil)))
      .nil
  use h, (longestMatch?_eq_of_spelledOut r.lexicon r.pattern).2 spelledOut h word
  decide +kernel

end Pattern

end Respell
