import Respell.Proofs.Source.PrintedItems
import Respell.Proofs.Source.Reader

/-!
# Taking the pieces of a draft

When a reader has taken the pieces of a chain one by one, it is where it was before, with the
nodes of the chain behind those that it had.  For a group this holds since the reader goes
through its branches with the group on top of the open ones, and puts each branch into it.
The numbers of groups and the ids of classes depend on what was taken before: what the pieces
do to the number of groups, to the classes and to the warnings is therefore shown first, for
any list of pieces.
-/

namespace Respell

namespace Source

open Draft

namespace Reader

/-- After some pieces, the first of which begins at the position `pos`. -/
def takeAll (r : Reader) (pos : Nat) : List Piece → Reader
  | [] => r
  | p :: ps => (r.take pos (pieceItem p)).takeAll (pos + p.print.length) ps

theorem takeAll_append (r : Reader) (pos : Nat) (ps qs : List Piece) :
  r.takeAll pos (ps ++ qs) =
    (r.takeAll pos ps).takeAll (pos + (printPieces ps).length) qs
  := by
  induction ps generalizing r pos with
  | nil => rfl
  | cons p ps ih =>
      rw [List.cons_append, takeAll, ih, takeAll, printPieces_cons, List.length_append,
        Nat.add_assoc]

/-! ### Groups, classes and warnings -/

/-- A piece that begins no group changes the chain and the open groups, and the classes if it
refers to one. -/
theorem exists_take (r : Reader) (pos : Nat) {p : Piece} (h : p.opens = false) :
  ∃ chain opened, r.take pos (pieceItem p) =
    { r with chain, opened, lexicon := p.reference?.toList.foldl Lexicon.declare r.lexicon }
  := by
  cases p with
  | literal text => exact ⟨_, _, rfl⟩
  | atom content q =>
      cases content with
      | byte b => exact ⟨_, _, rfl⟩
      | wildcard => exact ⟨_, _, rfl⟩
      | set negated first more => exact ⟨_, _, rfl⟩
      | reference name declared => exact ⟨_, _, rfl⟩
  | groupOpen => cases h
  | branchEnd replacement => exact r.exists_endBranch replacement
  | groupClose replacement q =>
      obtain ⟨chain, opened, hend⟩ := r.exists_endBranch replacement
      obtain ⟨chain', opened', hclose⟩ := (r.endBranch replacement).exists_closeGroup q.reps
      use chain', opened'
      rw [hend] at hclose
      rw [pieceItem, take, hend, hclose]
      rfl

theorem lexicon_takeAll (r : Reader) (pos : Nat) (ps : List Piece) :
  (r.takeAll pos ps).lexicon = (references ps).foldl Lexicon.declare r.lexicon
  := by
  induction ps generalizing r pos with
  | nil => rfl
  | cons p ps ih =>
      rw [takeAll, ih]
      cases hp : p.opens with
      | true =>
          rw [Piece.eq_groupOpen hp]
          rfl
      | false =>
          obtain ⟨chain, opened, htake⟩ := r.exists_take pos hp
          rw [htake, references, references, List.filterMap_cons]
          cases p.reference? with
          | none => rfl
          | some ref => rfl

theorem groups_takeAll (r : Reader) (pos : Nat) (ps : List Piece) :
  (r.takeAll pos ps).groups = r.groups + countGroups ps
  := by
  induction ps generalizing r pos with
  | nil => rfl
  | cons p ps ih =>
      rw [takeAll, ih, countGroups, countGroups, List.countP_cons]
      cases hp : p.opens with
      | true =>
          rw [Piece.eq_groupOpen hp]
          exact Nat.add_right_comm r.groups 1 _
      | false =>
          obtain ⟨chain, opened, htake⟩ := r.exists_take pos hp
          rw [htake]
          rfl

theorem warnings_takeAll (r : Reader) (pos : Nat) (ps : List Piece) :
  (r.takeAll pos ps).warnings =
    r.warnings ++ beyondCaptures (r.groups + 1) (openings pos ps)
  := by
  induction ps generalizing r pos with
  | nil => exact (List.append_nil r.warnings).symm
  | cons p ps ih =>
      rw [takeAll, ih]
      cases hp : p.opens with
      | true =>
          rw [Piece.eq_groupOpen hp]
          exact List.append_assoc r.warnings _ _
      | false =>
          obtain ⟨chain, opened, htake⟩ := r.exists_take pos hp
          rw [htake, openings, hp]
          rfl

/-! ### Chains and open groups -/

/-- Classes stay where they are while pieces are taken. -/
theorem names_prefix_takeAll (r : Reader) (pos : Nat) (ps : List Piece) :
  r.lexicon.names <+: (r.takeAll pos ps).lexicon.names
  := by
  rw [lexicon_takeAll]
  apply Lexicon.names_prefix_foldl_declare

section Chain

variable {l : Lexicon}

/-- An atom becomes one more node, whose class has the id that it has in the end. -/
theorem take_atom (r : Reader) (pos : Nat) (content : Atom) (q : Quantifier)
    (hl : (r.take pos (pieceItem (.atom content q))).lexicon.names <+: l.names) :
  (r.take pos (pieceItem (.atom content q))).chain =
      r.chain ++ [.leaf (content.leaf l.idOf) q.reps] ∧
    (r.take pos (pieceItem (.atom content q))).opened = r.opened
  := by
  cases content with
  | byte b => exact ⟨rfl, rfl⟩
  | wildcard => exact ⟨rfl, rfl⟩
  | set negated first more => exact ⟨rfl, rfl⟩
  | reference name declared =>
      have hnames := (r.lexicon.names_prefix_declare ⟨name, _⟩).trans hl
      rw [Atom.leaf, Lexicon.idOf_of_more hnames]
      exact ⟨rfl, rfl⟩

mutual

/-- After the pieces of an element its node is at the end of the chain, and the open groups are
the same as before. -/
theorem takeAll_pieces (r : Reader) (pos : Nat) (d : Draft)
    (hl : (r.takeAll pos d.pieces).lexicon.names <+: l.names) :
  (r.takeAll pos d.pieces).chain = r.chain ++ [d.node l.idOf r.groups] ∧
    (r.takeAll pos d.pieces).opened = r.opened
  := by
  match d with
  | .literal text => exact ⟨rfl, rfl⟩
  | .atom content q => exact r.take_atom pos content q hl
  | .group first more q =>
      rw [pieces, takeAll, takeAll_append] at hl ⊢
      obtain ⟨hchain, hopened⟩ := (r.openGroup pos).takeAll_piecesOfBranch _ first
        ((names_prefix_takeAll _ _ _).trans hl)
      obtain ⟨hchain', hopened'⟩ := takeAll_piecesFromEnd _ _ _ _ hopened q _ more hl
      rw [hchain, groups_takeAll] at hchain'
      rw [node, branch_eq]
      use hchain', hopened'

theorem takeAll_piecesOfChain (r : Reader) (pos : Nat) (ds : List Draft)
    (hl : (r.takeAll pos (piecesOfChain ds)).lexicon.names <+: l.names) :
  (r.takeAll pos (piecesOfChain ds)).chain = r.chain ++ nodes l.idOf r.groups ds ∧
    (r.takeAll pos (piecesOfChain ds)).opened = r.opened
  := by
  match ds with
  | [] => exact ⟨(List.append_nil r.chain).symm, rfl⟩
  | d :: ds =>
      rw [piecesOfChain, takeAll_append] at hl ⊢
      obtain ⟨hchain, hopened⟩ :=
        r.takeAll_pieces pos d ((names_prefix_takeAll _ _ _).trans hl)
      obtain ⟨hchain', hopened'⟩ := (r.takeAll pos d.pieces).takeAll_piecesOfChain _ ds hl
      rw [hchain', hopened', hchain, hopened, groups_takeAll, List.append_assoc]
      exact ⟨rfl, rfl⟩

theorem takeAll_piecesOfBranch (r : Reader) (pos : Nat) (b : Branch Draft)
    (hl : (r.takeAll pos (piecesOfBranch b)).lexicon.names <+: l.names) :
  (r.takeAll pos (piecesOfBranch b)).chain = r.chain ++ nodes l.idOf r.groups b.nodes ∧
    (r.takeAll pos (piecesOfBranch b)).opened = r.opened
  := by
  match b with
  | ⟨ds, replacement⟩ => exact r.takeAll_piecesOfChain pos ds hl

/-- After the pieces from the end of a branch on the innermost group, which has got this branch
and all others, is at the end of the chain around it. -/
theorem takeAll_piecesFromEnd (r : Reader) (pos : Nat) (g : OpenGroup) (outer : List OpenGroup)
    (hg : r.opened = g :: outer) (q : Quantifier) (replacement : Option Bytes)
    (bs : List (Branch Draft))
    (hl : (r.takeAll pos (piecesFromEnd q replacement bs)).lexicon.names <+: l.names) :
  (r.takeAll pos (piecesFromEnd q replacement bs)).chain = g.before ++ [.group g.number
      (g.branches ++ ⟨r.chain, replacement⟩ :: branches l.idOf r.groups bs) q.reps] ∧
    (r.takeAll pos (piecesFromEnd q replacement bs)).opened = outer
  := by
  match bs with
  | [] =>
      have htake : r.take pos (.groupClose replacement q.reps) = { r with
          chain := g.before ++ [.group g.number (g.branches ++ [⟨r.chain, replacement⟩]) q.reps]
          opened := outer } := by
        rw [take, r.endBranch_of_opened hg]
        rfl
      rw [piecesFromEnd, takeAll, pieceItem, htake]
      exact ⟨rfl, rfl⟩
  | b :: bs =>
      rw [piecesFromEnd, takeAll, takeAll_append, pieceItem, take, r.endBranch_of_opened hg]
        at hl ⊢
      obtain ⟨hchain, hopened⟩ := takeAll_piecesOfBranch _ _ b
        ((names_prefix_takeAll _ _ _).trans hl)
      obtain ⟨hchain', hopened'⟩ := takeAll_piecesFromEnd _ _ _ _ hopened q _ bs hl
      rw [hchain, groups_takeAll] at hchain'
      rw [hchain', hopened', branches, branch_eq, List.append_assoc]
      exact ⟨rfl, rfl⟩

end

end Chain

end Reader

end Source

end Respell
