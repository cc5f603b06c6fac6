import Respell.Proofs.Source.Taking

/-!
# Drafts are read back

Reading the source of a draft in normal form gives the draft again.  The pieces of the source
are what the reader takes, by induction on their list: it is in a group wherever a piece needs
one, since the pieces of a draft close the groups that they open.
-/

namespace Respell

namespace Source

open Draft

/-! ### Pieces within groups -/

/-- The number of open groups after a piece. -/
def depthAfter (depth : Nat) : Piece → Nat
  | .groupOpen => depth + 1
  | .groupClose _ _ => depth - 1
  | _ => depth

/-- The pieces may stand within `depth` groups: all ends of branches among them belong to a
group. -/
def Nested (depth : Nat) : List Piece → Prop
  | [] => True
  | p :: ps => (endsBranch p = true → 0 < depth) ∧ Nested (depthAfter depth p) ps

mutual

/-- An element closes the groups that it opens. -/
theorem nested_pieces (depth : Nat) (d : Draft) (ps : List Piece) :
  Nested depth (d.pieces ++ ps) ↔ Nested depth ps
  := by
  match d with
  | .literal text => exact and_iff_right nofun
  | .atom content q => exact and_iff_right nofun
  | .group first more q =>
      rw [pieces, List.cons_append, List.append_assoc]
      apply (and_iff_right nofun).trans
      exact (nested_piecesOfBranch _ first _).trans (nested_piecesFromEnd depth q _ more ps)

theorem nested_piecesOfChain (depth : Nat) (ds : List Draft) (ps : List Piece) :
  Nested depth (piecesOfChain ds ++ ps) ↔ Nested depth ps
  := by
  match ds with
  | [] => exact Iff.rfl
  | d :: ds =>
      rw [piecesOfChain, List.append_assoc]
      exact (nested_pieces depth d _).trans (nested_piecesOfChain depth ds ps)

theorem nested_piecesOfBranch (depth : Nat) (b : Branch Draft) (ps : List Piece) :
  Nested depth (piecesOfBranch b ++ ps) ↔ Nested depth ps
  := by
  match b with
  | ⟨ds, replacement⟩ => exact nested_piecesOfChain depth ds ps

theorem nested_piecesFromEnd (depth : Nat) (q : Quantifier) (replacement : Option Bytes)
    (bs : List (Branch Draft)) (ps : List Piece) :
  Nested (depth + 1) (piecesFromEnd q replacement bs ++ ps) ↔ Nested depth ps
  := by
  match bs with
  | [] => exact and_iff_right fun _ => Nat.succ_pos depth
  | b :: bs =>
      rw [piecesFromEnd, List.cons_append, List.append_assoc]
      apply (and_iff_right fun _ => Nat.succ_pos depth).trans
      exact (nested_piecesOfBranch _ b _).trans (nested_piecesFromEnd depth q _ bs ps)

end

/-- In a draft all ends of branches belong to a group of it. -/
theorem nested_draft (ds : List Draft) :
  Nested 0 (piecesOfChain ds)
  := by
  rw [← List.append_nil (piecesOfChain ds)]
  apply (nested_piecesOfChain 0 ds []).mpr trivial

/-- A piece leads to as many groups around it as the item that it is. -/
theorem depthBehind_pieceItem (depth : Nat) (p : Piece) :
  (pieceItem p).depthBehind depth = depthAfter depth p
  := by
  cases p with
  | atom content q =>
      cases content with
      | _ => rfl
  | _ => rfl

namespace Reader

/-! ### Reading -/

/-- The reader takes an item about which there are no warnings. -/
theorem read_of_begins (r : Reader) (pos : Nat) {s rest : Bytes} {i : Item}
    (h : ∀ total, Begins total r.inGroup s i rest) :
  r.read (pos + s.length) s = (r.take pos i).read (pos + s.length) rest
  := by
  obtain ⟨c, t, rfl, hitem⟩ := h (pos + s.length)
  have hwarn : r.warn [] = r := by
    rw [warn, List.append_nil]
  rw [read, hitem, position, Nat.add_sub_cancel]
  dsimp only
  rw [hwarn]

/-- In front of pieces that may stand where the reader is, it is in a group if the first one
needs one. -/
theorem inGroup_of_nested {r : Reader} {p : Piece} {ps : List Piece}
    (h : Nested r.opened.length (p :: ps)) (hends : endsBranch p = true) :
  r.inGroup = true
  := by
  have hpos : 0 < r.opened.length := h.1 hends
  rw [inGroup, Bool.not_eq_true', List.isEmpty_eq_false_iff]
  exact List.length_pos_iff.mp hpos

/-- A piece is read back together with those behind it, unless it is a literal and the next
piece is a byte. -/
theorem begins_pieces {r : Reader} {p : Piece} {ps : List Piece} (h : NormalPieces (p :: ps))
    (hn : Nested r.opened.length (p :: ps))
    (hbyte : ∀ text b q qs, p :: ps ≠ [.literal text, .atom (.byte b) q] ++ qs) (total : Nat) :
  Begins total r.inGroup (p.print ++ printPieces ps) (pieceItem p) (printPieces ps)
  := by
  have hp := h.1 p List.mem_cons_self
  have hrest := unquantified_printPieces h.tail
  cases p with
  | literal text =>
      apply begins_literal hp _ hrest
      cases ps with
      | nil => exact .inl rfl
      | cons p' ps =>
          have hliteral : p'.isLiteral = false := (List.isChain_cons_cons.mp h.2).1
          have htext : isText p' = false := by
            cases p' with
            | literal text' => exact hliteral
            | atom content q =>
                cases content with
                | byte b => exact absurd rfl (hbyte text b q ps)
                | _ => rfl
            | _ => rfl
          rw [printPieces_cons]
          apply halts_print (h.tail.1 p' List.mem_cons_self) htext (inGroup_of_nested hn.2)
  | _ => exact begins_piece hp rfl (inGroup_of_nested hn) hrest

/-- A literal and a byte behind it are one item, of which the nodes are appended at once. -/
theorem read_literal_byte (r : Reader) (pos : Nat) {text : Bytes} (ht : 2 ≤ text.length)
    (b : UInt8) {q : Quantifier} (hq : q ≠ .omitted) (h : q.Normal) {s : Bytes}
    (hs : Unquantified s) :
  let pair := printPieces [.literal text, .atom (.byte b) q]
  r.read (pos + (pair ++ s).length) (pair ++ s) =
    (r.takeAll pos [.literal text, .atom (.byte b) q]).read (pos + pair.length + s.length) s
  := by
  intro pair
  have hpair : pair ++ s = printText text ++ (printByte b ++ (q.print ++ s)) := by
    simp only [pair, printPieces_cons, Piece.print, Atom.print, List.append_assoc]
    rfl
  have htake : r.take pos (.nodes [.leaf (.literal text text) .once, .leaf (.byte b) q.reps]) =
      r.takeAll pos [.literal text, .atom (.byte b) q] := by
    simp only [takeAll, take, pieceItem, atomItem, append, List.append_assoc,
      List.cons_append, List.nil_append]
  have hread := r.read_of_begins pos fun total => begins_literal_byte ht b hq h hs
  rw [← hpair, htake, List.length_append, ← Nat.add_assoc] at hread
  rw [List.length_append, ← Nat.add_assoc, hread]

/-- The pieces of a draft are taken one by one, up to the end of the source. -/
theorem read_printPieces (r : Reader) (pos : Nat) (ps : List Piece) (h : NormalPieces ps)
    (hn : Nested r.opened.length ps) :
  r.read (pos + (printPieces ps).length) (printPieces ps) = (r.takeAll pos ps).finish
  := by
  by_cases hpair : ∃ text b q qs, ps = [.literal text, .atom (.byte b) q] ++ qs
  · obtain ⟨text, b, q, qs, rfl⟩ := hpair
    have hliteral : 2 ≤ text.length := h.1 (.literal text) List.mem_cons_self
    have hatom := h.tail.1 (.atom (.byte b) q) List.mem_cons_self
    have htail : NormalPieces qs := h.tail.tail
    have hrest := unquantified_printPieces htail
    rw [printPieces_append, read_literal_byte r pos hliteral b hatom.1 hatom.2 hrest,
      takeAll_append]
    apply read_printPieces _ _ qs htail
    exact hn.2.2
  · cases ps with
    | nil =>
        rw [printPieces, List.flatMap_nil, read]
        rfl
    | cons p ps =>
        have hbegins := begins_pieces h hn fun text b q qs he => hpair ⟨text, b, q, qs, he⟩
        rw [printPieces_cons, read_of_begins r pos hbegins, takeAll, List.length_append,
          ← Nat.add_assoc]
        apply read_printPieces _ _ ps h.tail
        rw [length_opened_take, depthBehind_pieceItem]
        exact hn.2
  termination_by ps.length

/-- At the end of the source of a draft no group is open. -/
theorem read_print (lexicon : Lexicon) {ds : List Draft} (h : Normal ds) :
  (start lexicon).read (print ds).length (print ds) =
    (start lexicon).takeAll 0 (piecesOfChain ds)
  := by
  have hread := (start lexicon).read_printPieces 0 _ h (nested_draft ds)
  obtain ⟨-, hopened⟩ := (start lexicon).takeAll_piecesOfChain 0 ds (List.prefix_refl _)
  rw [Nat.zero_add, finish, hopened] at hread
  exact hread

end Reader

end Source

namespace Reading

open Draft Source

/-- Reading undoes printing.  The source of a draft in normal form is read as this draft: as
its nodes, whose groups are numbered in their order, and its classes, each of which is there
under its name, and without warnings but those about groups beyond the captures. -/
theorem ofSource_print {ds : List Draft} (h : Normal ds) (lexicon : Lexicon) :
  ofSource (print ds) lexicon = ofDraft ds lexicon ∧
    Node.groupNumbersOfChain (ofDraft ds lexicon).pattern.nodes =
      List.range' 1 (ofDraft ds lexicon).pattern.groups ∧
    ∀ ref ∈ references (piecesOfChain ds),
      ∃ c, (ofDraft ds lexicon).lexicon.find? ref.name = some c ∧ c.name = ref.name
  := by
  refine ⟨?_, groupNumbers_nodes _ 0 ds, fun ref => lexicon.exists_class_of_declared⟩
  obtain ⟨hchain, -⟩ := (Reader.start lexicon).takeAll_piecesOfChain 0 ds (List.prefix_refl _)
  rw [ofSource, Reader.read_print lexicon h, hchain, Reader.groups_takeAll,
    Reader.warnings_takeAll, Reader.lexicon_takeAll, ofDraft]
  simp only [Reader.start, List.nil_append, Nat.zero_add]

/-- A literal in front of a byte, a group within a group, marks in a replacement, a set and a
class with members. -/
theorem ofSource_print_of_groups :
  let ds : List Draft := [.literal [40, 195, 169], .atom (.byte 65) (.between 0 12),
    .group ⟨[.literal [44, 124], .group ⟨[], some [120, 41, 124]⟩ [] .optional], none⟩
      [⟨[.atom (.set true (.single 93) [.interval 45 94]) .omitted], some []⟩] (.atLeast 1),
    .atom (.reference [118] (some [⟨[97, 62], none⟩, ⟨[98], some [44]⟩])) (.exactly 3)]
  Normal ds ∧
    print ds = Utf8.encode ("%(é%A\x7b0,12\x7d(%,%|(|%x%)%|)?,[^%]%--%^]|)\x7b1,\x7d" ++
      "<v:%a%>,%b|%,>\x7b3\x7d") ∧
    ofSource (print ds) .empty = ofDraft ds .empty ∧
    Node.groupNumbersOfChain (ofDraft ds .empty).pattern.nodes =
      List.range' 1 (ofDraft ds .empty).pattern.groups ∧
    ∀ ref ∈ references (piecesOfChain ds),
      ∃ c, (ofDraft ds .empty).lexicon.find? ref.name = some c ∧ c.name = ref.name
  := by
  intro ds
  have h : Normal ds := by decide +kernel
  use h, by decide +kernel
  exact ofSource_print h .empty

end Reading

end Respell
