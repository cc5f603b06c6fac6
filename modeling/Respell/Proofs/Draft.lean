import Mathlib.Data.List.Chain
import Respell.Proofs.Lexicon
import Respell.Reading
import Respell.Text.Utf8

/-!
# Drafts of patterns

A draft is a pattern before it is written.  It is a chain of nodes, but a class is referred to
by its name and together with members that it is to have, sets keep the items that describe
them, bounds are those of a quantifier, and groups have no numbers yet.

The source of a draft is printed piece by piece from left to right, where an opening
parenthesis, the end of a branch and the end of a group are pieces of their own.  Every ASCII
byte of a text stands behind an escape mark.  In normal form a byte has a quantifier, however
often it is to be repeated, since without one it would become part of a text.
-/

namespace Respell

namespace Draft

/-- A member that a class is to have, with its replacement if it is not replaced by itself. -/
structure Declaration where
  text : Bytes
  replacement : Option Bytes

/-- How bounds of repetition are written. -/
inductive Quantifier where
  /-- Not at all. -/
  | omitted
  | optional
  | anyNumber
  | oneOrMore
  | exactly (n : Nat)
  | atLeast (n : Nat)
  | between (least most : Nat)
  deriving DecidableEq

/-- What may be repeated, apart from groups. -/
inductive Atom where
  /-- A byte. -/
  | byte (b : UInt8)
  /-- Any byte. -/
  | wildcard
  /-- A set that is described by one or more items, or its complement. -/
  | set (negated : Bool) (first : SetItem) (more : List SetItem)
  /-- A class with the given name, which may get members here. -/
  | reference (name : Bytes) (declared : Option (List Declaration))

end Draft

/-- An element of a pattern before it is written.  A group has one or more branches. -/
inductive Draft where
  | literal (text : Bytes)
  | atom (content : Draft.Atom) (quantifier : Draft.Quantifier)
  | group (first : Branch Draft) (more : List (Branch Draft)) (quantifier : Draft.Quantifier)

namespace Draft

/-- What is printed at one place. -/
inductive Piece where
  | literal (text : Bytes)
  | atom (content : Atom) (quantifier : Quantifier)
  | groupOpen
  | branchEnd (replacement : Option Bytes)
  | groupClose (replacement : Option Bytes) (quantifier : Quantifier)

mutual

/-- The pieces of an element. -/
def pieces : Draft → List Piece
  | literal text => [.literal text]
  | atom content q => [.atom content q]
  | group first more q =>
    .groupOpen :: (piecesOfBranch first ++ piecesFromEnd q first.replacement more)

/-- The pieces of a chain. -/
def piecesOfChain : List Draft → List Piece
  | [] => []
  | d :: ds => d.pieces ++ piecesOfChain ds

/-- The pieces of a branch without its end. -/
def piecesOfBranch : Branch Draft → List Piece
  | ⟨nodes, _⟩ => piecesOfChain nodes

/-- The pieces of a group from the end of a branch on, given the replacement of that branch
and the branches behind it. -/
def piecesFromEnd (q : Quantifier) (replacement : Option Bytes) :
    List (Branch Draft) → List Piece
  | [] => [.groupClose replacement q]
  | b :: bs => .branchEnd replacement :: (piecesOfBranch b ++ piecesFromEnd q b.replacement bs)

end

/-! ### Printing -/

/-- A byte of a text, behind an escape mark if it is an ASCII byte. -/
def printByte (b : UInt8) : Bytes := if b < 0x80 then [Mark.escape, b] else [b]

/-- A text. -/
def printText (text : Bytes) : Bytes := text.flatMap printByte

/-- A replacement behind its mark, if there is one. -/
def printReplacement : Option Bytes → Bytes
  | none => []
  | some text => Mark.replace :: printText text

/-- A number in decimal form. -/
def printNumber (n : Nat) : Bytes := Utf8.encode (toString n)

/-- A quantifier: one of the marks for it, or a count. -/
def Quantifier.print : Quantifier → Bytes
  | omitted => []
  | optional => [Mark.optional]
  | anyNumber => [Mark.star]
  | oneOrMore => [Mark.plus]
  | exactly n => Mark.countOpen :: (printNumber n ++ [Mark.countClose])
  | atLeast n => Mark.countOpen :: (printNumber n ++ [Mark.comma, Mark.countClose])
  | between least most =>
    Mark.countOpen :: (printNumber least ++
      Mark.comma :: (printNumber most ++ [Mark.countClose]))

/-- An item of a set. -/
def printItem : SetItem → Bytes
  | .single b => printByte b
  | .interval one other => printByte one ++ Mark.range :: printByte other

/-- A member. -/
def Declaration.print (d : Declaration) : Bytes :=
  printText d.text ++ printReplacement d.replacement

/-- Members behind their mark with commas between them. -/
def printDeclared : Option (List Declaration) → Bytes
  | none => []
  | some declared =>
    Mark.declare :: [Mark.comma].intercalate (declared.map Declaration.print)

/-- An atom without its quantifier. -/
def Atom.print : Atom → Bytes
  | byte b => printByte b
  | wildcard => [Mark.wildcard]
  | set negated first more =>
    Mark.setOpen :: ((if negated then [Mark.negate] else []) ++
      ((first :: more).flatMap printItem ++ [Mark.setClose]))
  | reference name declared =>
    Mark.classOpen :: (name ++ (printDeclared declared ++ [Mark.classClose]))

/-- A piece. -/
def Piece.print : Piece → Bytes
  | literal text => printText text
  | atom content q => content.print ++ q.print
  | groupOpen => [Mark.groupOpen]
  | branchEnd replacement => printReplacement replacement ++ [Mark.comma]
  | groupClose replacement q =>
    printReplacement replacement ++ Mark.groupClose :: q.print

/-- Some pieces in order. -/
def printPieces (ps : List Piece) : Bytes := ps.flatMap Piece.print

theorem printPieces_cons (p : Piece) (ps : List Piece) :
  printPieces (p :: ps) = p.print ++ printPieces ps
  := List.flatMap_cons

theorem printPieces_append (ps qs : List Piece) :
  printPieces (ps ++ qs) = printPieces ps ++ printPieces qs
  := List.flatMap_append

/-- The source of a draft. -/
def print (ds : List Draft) : Bytes := printPieces (piecesOfChain ds)

/-! ### Drafts in normal form -/

/-- The numbers of a count are below the limit. -/
def Quantifier.Normal : Quantifier → Prop
  | exactly n => n < Source.countLimit
  | atLeast n => n < Source.countLimit
  | between least most => least < Source.countLimit ∧ most < Source.countLimit
  | _ => True

instance : (q : Quantifier) → Decidable q.Normal
  | .omitted => inferInstanceAs (Decidable True)
  | .optional => inferInstanceAs (Decidable True)
  | .anyNumber => inferInstanceAs (Decidable True)
  | .oneOrMore => inferInstanceAs (Decidable True)
  | .exactly _ => inferInstanceAs (Decidable (_ < _))
  | .atLeast _ => inferInstanceAs (Decidable (_ < _))
  | .between _ _ => inferInstanceAs (Decidable (_ ∧ _))

/-- The quantifier of a byte is not omitted, the name of a class is without the marks that
would end it, and members are not empty. -/
def Atom.Normal (q : Quantifier) : Atom → Prop
  | byte _ => q ≠ .omitted
  | reference name declared =>
    (∀ b ∈ name, Mark.endsName b = false) ∧ ∀ d ∈ declared.getD [], d.text ≠ []
  | _ => True

instance (q : Quantifier) : (content : Atom) → Decidable (content.Normal q)
  | .byte _ => inferInstanceAs (Decidable (_ ≠ _))
  | .wildcard => inferInstanceAs (Decidable True)
  | .set _ _ _ => inferInstanceAs (Decidable True)
  | .reference _ _ => inferInstanceAs (Decidable (_ ∧ _))

/-- Literals have two or more bytes. -/
def Piece.Normal : Piece → Prop
  | literal text => 2 ≤ text.length
  | atom content q => content.Normal q ∧ q.Normal
  | groupClose _ q => q.Normal
  | _ => True

instance : (p : Piece) → Decidable p.Normal
  | .literal text => inferInstanceAs (Decidable (2 ≤ text.length))
  | .atom _ _ => inferInstanceAs (Decidable (_ ∧ _))
  | .groupOpen => inferInstanceAs (Decidable True)
  | .branchEnd _ => inferInstanceAs (Decidable True)
  | .groupClose _ q => inferInstanceAs (Decidable q.Normal)

/-- The piece is a literal. -/
def Piece.isLiteral : Piece → Bool
  | literal _ => true
  | _ => false

/-- All pieces are in normal form, and no literal follows another one. -/
def NormalPieces (ps : List Piece) : Prop :=
  (∀ p ∈ ps, p.Normal) ∧ ps.IsChain fun p q => (p.isLiteral && q.isLiteral) = false

instance (ps : List Piece) : Decidable (NormalPieces ps) :=
  inferInstanceAs (Decidable (_ ∧ _))

theorem NormalPieces.tail {p : Piece} {ps : List Piece} (h : NormalPieces (p :: ps)) :
  NormalPieces ps
  := ⟨(List.forall_mem_cons.mp h.1).2, h.2.tail⟩

/-- The draft is in normal form. -/
def Normal (ds : List Draft) : Prop := NormalPieces (piecesOfChain ds)

instance (ds : List Draft) : Decidable (Normal ds) :=
  inferInstanceAs (Decidable (NormalPieces _))

/-! ### What a draft stands for -/

/-- The bounds that a quantifier gives. -/
def Quantifier.reps : Quantifier → Reps
  | omitted => .once
  | optional => .optional
  | anyNumber => .anyNumber
  | oneOrMore => .oneOrMore
  | exactly n => .between n (some n)
  | atLeast n => .between n none
  | between least most => .between least (some most)

/-- The piece begins a group. -/
def Piece.opens : Piece → Bool
  | groupOpen => true
  | _ => false

theorem Piece.eq_groupOpen {p : Piece} (h : p.opens = true) :
  p = groupOpen
  := by
  cases p with
  | groupOpen => rfl
  | _ => cases h

/-- The positions where groups begin, when the pieces are printed from the position `pos`
on. -/
def openings (pos : Nat) : List Piece → List Nat
  | [] => []
  | p :: ps =>
    let more := openings (pos + p.print.length) ps
    if p.opens then pos :: more else more

/-- The number of groups in some pieces. -/
def countGroups (ps : List Piece) : Nat := ps.countP Piece.opens

/-- The warnings about groups that begin at the given positions and are numbered from
`number` on. -/
def beyondCaptures (number : Nat) : List Nat → List Warning
  | [] => []
  | pos :: more =>
    (if number < captureCount then [] else [.groupBeyondCaptures number pos]) ++
      beyondCaptures (number + 1) more

/-- The member that is declared. -/
def Declaration.member (d : Declaration) : Member := .ofText d.text d.replacement

/-- The class that a piece refers to, with the members it is to have. -/
def Piece.reference? : Piece → Option Source.Reference
  | atom (.reference name declared) _ =>
    some ⟨name, (declared.getD []).map Declaration.member⟩
  | _ => none

/-- The references in some pieces. -/
def references (ps : List Piece) : List Source.Reference := ps.filterMap Piece.reference?

/-- The leaf that an atom stands for, given the ids of the classes. -/
def Atom.leaf (idOf : Bytes → ClassId) : Atom → Leaf
  | byte b => .byte b
  | wildcard => .set .full
  | set negated first more => .set (.ofItems negated (first :: more))
  | reference name _ => .memberOf (idOf name)

mutual

/-- The node that an element stands for, given the ids of the classes and the number of
groups in front. -/
def node (idOf : Bytes → ClassId) (groups : Nat) : Draft → Node
  | literal text => .leaf (.literal text text) .once
  | atom content q => .leaf (content.leaf idOf) q.reps
  | group first more q =>
    let number := groups + 1
    .group number
      (branch idOf number first ::
        branches idOf (number + countGroups (piecesOfBranch first)) more)
      q.reps

/-- The nodes of a chain. -/
def nodes (idOf : Bytes → ClassId) (groups : Nat) : List Draft → List Node
  | [] => []
  | d :: ds => d.node idOf groups :: nodes idOf (groups + countGroups d.pieces) ds

/-- A branch with its nodes. -/
def branch (idOf : Bytes → ClassId) (groups : Nat) : Branch Draft → Branch Node
  | ⟨ds, replacement⟩ => ⟨nodes idOf groups ds, replacement⟩

/-- Branches with their nodes. -/
def branches (idOf : Bytes → ClassId) (groups : Nat) : List (Branch Draft) → List (Branch Node)
  | [] => []
  | b :: bs =>
    branch idOf groups b :: branches idOf (groups + countGroups (piecesOfBranch b)) bs

end

theorem branch_eq (idOf : Bytes → ClassId) (groups : Nat) (b : Branch Draft) :
  branch idOf groups b = ⟨nodes idOf groups b.nodes, b.replacement⟩
  := by
  rw [branch]

/-! ### The numbers of groups -/

theorem countGroups_append (ps qs : List Piece) :
  countGroups (ps ++ qs) = countGroups ps + countGroups qs
  := List.countP_append

mutual

theorem groupNumbers_node (idOf : Bytes → ClassId) (groups : Nat) (d : Draft) :
  (d.node idOf groups).groupNumbers = List.range' (groups + 1) (countGroups d.pieces)
  := by
  match d with
  | literal text => rfl
  | atom content q => rfl
  | group first more q =>
      have hcount : countGroups (group first more q).pieces =
          countGroups (piecesOfBranch first) +
            countGroups (piecesFromEnd q first.replacement more) + 1 := by
        rw [pieces, countGroups, List.countP_cons_of_pos rfl, ← countGroups_append]
        rfl
      rw [hcount, List.range'_succ, ← List.range'_append_1, node, Node.groupNumbers,
        Node.groupNumbersOfBranches, groupNumbers_branch,
        groupNumbers_branches idOf _ q first.replacement more,
        Nat.add_right_comm (groups + 1)]

/-- The groups of a chain are numbered in their order, from the number of groups in front
on. -/
theorem groupNumbers_nodes (idOf : Bytes → ClassId) (groups : Nat) (ds : List Draft) :
  Node.groupNumbersOfChain (nodes idOf groups ds) =
    List.range' (groups + 1) (countGroups (piecesOfChain ds))
  := by
  match ds with
  | [] => rfl
  | d :: ds =>
      rw [piecesOfChain, countGroups_append, ← List.range'_append_1, nodes,
        Node.groupNumbersOfChain, groupNumbers_node, groupNumbers_nodes, Nat.add_right_comm]

theorem groupNumbers_branch (idOf : Bytes → ClassId) (groups : Nat) (b : Branch Draft) :
  Node.groupNumbersOfBranch (branch idOf groups b) =
    List.range' (groups + 1) (countGroups (piecesOfBranch b))
  := by
  match b with
  | ⟨ds, replacement⟩ => exact groupNumbers_nodes idOf groups ds

theorem groupNumbers_branches (idOf : Bytes → ClassId) (groups : Nat) (q : Quantifier)
    (replacement : Option Bytes) (bs : List (Branch Draft)) :
  Node.groupNumbersOfBranches (branches idOf groups bs) =
    List.range' (groups + 1) (countGroups (piecesFromEnd q replacement bs))
  := by
  match bs with
  | [] => rfl
  | b :: bs =>
      have hcount : countGroups (piecesFromEnd q replacement (b :: bs)) =
          countGroups (piecesOfBranch b) +
            countGroups (piecesFromEnd q b.replacement bs) := by
        rw [piecesFromEnd, countGroups, List.countP_cons_of_neg Bool.false_ne_true,
          ← countGroups_append]
        rfl
      rw [hcount, ← List.range'_append_1, branches, Node.groupNumbersOfBranches,
        groupNumbers_branch, groupNumbers_branches idOf _ q b.replacement bs,
        Nat.add_right_comm]

end

end Draft

/-- What is understood of a draft: its nodes, the warnings about groups beyond the captures,
and the classes it refers to. -/
def Reading.ofDraft (ds : List Draft) (lexicon : Lexicon) : Reading :=
  let ps := Draft.piecesOfChain ds
  let lexicon := (Draft.references ps).foldl Lexicon.declare lexicon
  ⟨⟨Draft.nodes lexicon.idOf 0 ds, Draft.countGroups ps⟩,
    Draft.beyondCaptures 1 (Draft.openings 0 ps), lexicon⟩

end Respell
