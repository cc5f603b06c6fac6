import Respell.Proofs.Source.Closing
import Respell.Proofs.Source.Reader
import Respell.Text.Utf8

/-!
# Missing marks are understood

What is not closed in a pattern is closed where the pattern ends.  So it makes no difference to
the reading whether the missing marks are put there, from the inside out, but that the warnings
about them are gone.
-/

namespace Respell

namespace Source

namespace Reader

/-- The warnings that are added when an item is taken. -/
def added (r : Reader) (pos : Nat) : Item → List Warning
  | .groupOpen =>
    if r.groups + 1 < captureCount then [] else [.groupBeyondCaptures (r.groups + 1) pos]
  | .cutOff _ => r.opened.head?.toList.map (.unclosedGroup ·.pos)
  | _ => []

variable (r : Reader) (ws : List Warning)

/-! ### Taking items with other warnings -/

theorem endBranch_withWarnings (replacement : Option Bytes) :
  (r.withWarnings ws).endBranch replacement = (r.endBranch replacement).withWarnings ws
  := by
  rw [endBranch, endBranch]
  dsimp only [withWarnings]
  split
  · rfl
  · rfl

theorem closeGroup_withWarnings (reps : Reps) :
  (r.withWarnings ws).closeGroup reps = (r.closeGroup reps).withWarnings ws
  := by
  rw [closeGroup, closeGroup]
  dsimp only [withWarnings]
  split
  · rfl
  · rfl

/-- What an item does, and what it adds to the warnings, does not depend on the warnings. -/
theorem take_withWarnings (pos : Nat) (i : Item) :
  (r.withWarnings ws).take pos i = (r.take pos i).withWarnings (ws ++ r.added pos i)
  := by
  cases i with
  | groupOpen => rfl
  | branchEnd replacement =>
      dsimp only [take, added]
      rw [endBranch_withWarnings, List.append_nil]
  | groupClose replacement reps =>
      dsimp only [take, added]
      rw [endBranch_withWarnings, closeGroup_withWarnings, List.append_nil]
  | cutOff replacement =>
      dsimp only [take, added]
      cases hg : r.opened with
      | nil =>
          rw [r.endBranch_of_nil hg, r.abandonGroup_of_nil hg,
            (r.withWarnings ws).endBranch_of_nil hg, (r.withWarnings ws).abandonGroup_of_nil hg]
          exact congrArg r.withWarnings (List.append_nil ws).symm
      | cons g outer =>
          rw [r.abandonGroup_of_opened hg, (r.withWarnings ws).abandonGroup_of_opened hg,
            endBranch_withWarnings, closeGroup_withWarnings]
          rfl
  | reference ref reps => exact congrArg (r.refer ref reps).withWarnings (List.append_nil ws).symm
  | nodes ns => exact congrArg (r.append ns).withWarnings (List.append_nil ws).symm

theorem warnings_take (pos : Nat) (i : Item) :
  (r.take pos i).warnings = r.warnings ++ r.added pos i
  := congrArg warnings (r.take_withWarnings r.warnings pos i)

variable {r}

/-- The warning about a group that an item adds is about the mark that the item lacks. -/
theorem closers_added {i : Item} (h : i.closers ≠ [] → r.opened ≠ []) (pos : Nat) :
  closers (r.added pos i) = i.closers
  := by
  cases i with
  | groupOpen =>
      rw [added]
      split
      · rfl
      · rfl
  | cutOff replacement =>
      obtain ⟨g, outer, hg⟩ := List.exists_cons_of_ne_nil (h (List.cons_ne_nil _ _))
      rw [added, hg]
      rfl
  | _ => rfl

/-- An item with the mark that it lacks is taken without the warning about it. -/
theorem take_closed {i : Item} (h : i.closers ≠ [] → r.opened ≠ []) (pos : Nat) :
  (r.withWarnings ws).take pos i.closed =
    (r.take pos i).withWarnings (ws ++ others (r.added pos i))
  := by
  have hadded := closers_added h pos
  cases i with
  | cutOff replacement =>
      obtain ⟨g, outer, hg⟩ := List.exists_cons_of_ne_nil (h (List.cons_ne_nil _ _))
      dsimp only [Item.closed, take]
      rw [r.abandonGroup_of_opened hg, endBranch_withWarnings, closeGroup_withWarnings, added, hg]
      exact congrArg ((r.endBranch replacement).closeGroup .once).withWarnings
        (List.append_nil ws).symm
  | _ =>
      rw [others_of_closed hadded, ← take_withWarnings]
      rfl

/-! ### The end of the pattern -/

/-- The warnings about the groups that are open. -/
def unclosed (r : Reader) : List Warning := r.opened.map (.unclosedGroup ·.pos)

theorem others_unclosed (r : Reader) :
  others r.unclosed = []
  := by
  apply List.filter_eq_nil_iff.mpr
  intro w hw
  obtain ⟨g, -, rfl⟩ := List.mem_map.mp hw
  exact Bool.false_ne_true

theorem warnings_finish (r : Reader) :
  r.finish.warnings = r.warnings ++ r.unclosed
  := by
  rw [unclosed]
  generalize hg : r.opened = opened
  induction opened generalizing r with
  | nil =>
      rw [r.finish_of_nil hg]
      exact (List.append_nil _).symm
  | cons g outer ih =>
      obtain ⟨hopened, hfinish⟩ := finish_of_opened hg
      rw [hfinish, ih _ hopened, r.abandonGroup_of_opened hg, List.map_cons]
      exact List.append_assoc _ _ _

/-- Where the pattern ends, the marks that the open groups lack are read as their ends. -/
theorem read_unclosed (r : Reader) (t : Nat) :
  (r.withWarnings ws).read t (closers r.unclosed) = r.finish.withWarnings ws
  := by
  rw [unclosed]
  generalize hg : r.opened = opened
  induction opened generalizing r with
  | nil =>
      change (r.withWarnings ws).read t [] = _
      rw [read, r.finish_of_nil hg]
      exact (r.withWarnings ws).finish_of_nil hg
  | cons g outer ih =>
      obtain ⟨hopened, hfinish⟩ := finish_of_opened hg
      have hmissing : closers (List.map (.unclosedGroup ·.pos) (g :: outer)) =
          Mark.groupClose :: closers (outer.map (.unclosedGroup ·.pos)) := rfl
      have hin : (r.withWarnings ws).inGroup = true := by
        change (!r.opened.isEmpty) = true
        rw [hg]
        rfl
      -- To a reader the end of a group is what the end of the pattern is, but for the warning.
      have hclosed : ∀ pos, (r.withWarnings ws).take pos (.groupClose none .once) =
          ((r.endBranch none).abandonGroup).withWarnings ws := by
        intro pos
        have htake := take_closed ws (i := .cutOff none) (r := r)
          (fun _ => by rw [hg]; apply List.cons_ne_nil) pos
        rw [added, hg] at htake
        exact htake.trans (congrArg _ (List.append_nil ws))
      have hwarn : (r.withWarnings ws).warn [] = r.withWarnings ws :=
        congrArg r.withWarnings (List.append_nil ws)
      rw [hmissing, read, hin, item_groupClose (closing_closers _)]
      dsimp only
      rw [hwarn, hclosed, ih _ hopened, hfinish]

/-- A run of text at the end of the pattern ends where the open groups do, if they are what the
warnings after it are about. -/
theorem halts_of_finish {r' : Reader} (hopened : r'.opened = r.opened) {new : List Warning}
    (hnew : r'.finish.warnings = r'.warnings ++ new) :
  Halts r.inGroup (closers new)
  := by
  have hnew : new = r'.unclosed :=
    List.append_cancel_left (hnew.symm.trans (warnings_finish r'))
  rw [hnew, inGroup, unclosed, hopened]
  cases r.opened with
  | nil => exact .inl rfl
  | cons g outer => exact .inr (Bool.or_eq_true_iff.mpr (.inl rfl))

/-! ### Reading -/

/-- An item lacks the mark of a group only if there is one. -/
theorem opened_of_item {r : Reader} {total : Nat} {b : UInt8} {rest : Bytes} {scan : Scan Item}
    (hscan : item total r.inGroup b rest = scan) (h : scan.value.closers ≠ []) :
  r.opened ≠ []
  := by
  have hends : (item total r.inGroup b rest).value.endsBranch = true := by
    rw [hscan]
    cases hvalue : scan.value with
    | cutOff replacement => rfl
    | _ =>
        rw [hvalue] at h
        exact absurd rfl h
  have hin := inGroup_of_item _ hends
  intro hnil
  rw [inGroup, hnil] at hin
  cases hin

/-- The item in front is read and taken as before when the mark that it lacks is behind the
pattern, without the warning about this mark. -/
theorem read_cons_append {total t : Nat} {b : UInt8} {rest c : Bytes} {scan : Scan Item}
    (hscan : item total r.inGroup b rest = scan) (hescape : NoEscape scan.warnings)
    (hset : .unclosedSet (position total (b :: rest)) ∈ scan.warnings →
      b :: rest ≠ [Mark.setOpen] ∧ b :: rest ≠ [Mark.setOpen, Mark.negate])
    (hc : Closing c)
    (hhalts : ∀ ns, scan.value = .nodes ns → scan.rest = [] → Halts r.inGroup c)
    (ht : t = total + (closers scan.warnings ++ scan.value.closers ++ c).length) :
  let r' := r.warn scan.warnings
  let pos := position total (b :: rest)
  (r.withWarnings ws).read t
      (b :: (rest ++ (closers scan.warnings ++ scan.value.closers ++ c))) =
    ((r'.take pos scan.value).withWarnings
      (ws ++ others scan.warnings ++ others (r'.added pos scan.value))).read t (scan.rest ++ c)
  := by
  intro r' pos
  have hopened : scan.value.closers ≠ [] → r'.opened ≠ [] := opened_of_item hscan
  have hitem := item_append hc hscan hescape hset hhalts
  have htake := take_closed (ws ++ others scan.warnings) hopened pos
  subst ht
  rw [read]
  change (((r.withWarnings ws).warn (item _ r.inGroup b _).warnings).take _
    (item _ r.inGroup b _).value).read _ (item _ r.inGroup b _).rest = _
  rw [hitem, ← List.cons_append, position_append]
  exact congrArg (fun r => read _ r (scan.rest ++ c)) htake

end Reader

/-- The sets that are not closed have a member. -/
def SetsBegun (source : Bytes) (ws : List Warning) : Prop :=
  ∀ w ∈ ws, ∀ pos, w = .unclosedSet pos →
    source.drop pos ≠ [Mark.setOpen] ∧ source.drop pos ≠ [Mark.setOpen, Mark.negate]

theorem setsBegun_append {source : Bytes} {ws ws' : List Warning} :
  SetsBegun source (ws ++ ws') ↔ SetsBegun source ws ∧ SetsBegun source ws'
  := List.forall_mem_append

namespace Reader

/-- Reading adds some warnings.  When the marks are behind the pattern that these warnings say
are missing, the reader gets to the same end without the warnings about them.  The length of the
pattern matters to positions only, so it may be any where nothing of the pattern is left. -/
theorem exists_warnings_read {source : Bytes} (r : Reader) {s : Bytes} (hs : s <:+ source) :
  ∃ new, (r.read source.length s).warnings = r.warnings ++ new ∧
    (NoEscape new → SetsBegun source new →
      ∀ t ws, (s ≠ [] → t = source.length + (closers new).length) →
        (r.withWarnings ws).read t (s ++ closers new) =
          (r.read source.length s).withWarnings (ws ++ others new))
  := by
  fun_induction read source.length r s with
  | case1 r =>
      use r.unclosed, r.warnings_finish
      intro _ _ t ws _
      rw [List.nil_append, read_unclosed, others_unclosed, List.append_nil]
  | case2 r b rest scan ih =>
      have hrest : scan.rest <:+ source := by
        apply (suffix_item source.length r.inGroup b rest).trans
        apply (List.suffix_cons b rest).trans hs
      obtain ⟨new, hnew, hread⟩ := ih hrest
      generalize hpos : position source.length (b :: rest) = pos at hnew hread
      use scan.warnings ++ ((r.warn scan.warnings).added pos scan.value ++ new)
      constructor
      · rw [hnew, warnings_take, List.append_assoc]
        exact List.append_assoc r.warnings _ _
      · intro hescape hset t ws ht
        obtain ⟨hescape, hescape'⟩ := (noEscape_append _ _).mp hescape
        obtain ⟨hset, hset'⟩ := setsBegun_append.mp hset
        have hadded : closers ((r.warn scan.warnings).added pos scan.value) =
            scan.value.closers := closers_added (r := r.warn scan.warnings) (opened_of_item rfl) pos
        have hmissing : closers (scan.warnings ++
            ((r.warn scan.warnings).added pos scan.value ++ new)) =
            closers scan.warnings ++ scan.value.closers ++ closers new := by
          rw [closers_append, closers_append, hadded, List.append_assoc]
        have hhalts : ∀ ns, scan.value = .nodes ns → scan.rest = [] →
            Halts r.inGroup (closers new) := by
          intro ns hns hnil
          rw [hnil, read, hns] at hnew
          have hopened : ((r.warn scan.warnings).take pos (.nodes ns)).opened = r.opened := rfl
          exact halts_of_finish hopened hnew
        have hstart : .unclosedSet (position source.length (b :: rest)) ∈ scan.warnings →
            b :: rest ≠ [Mark.setOpen] ∧ b :: rest ≠ [Mark.setOpen, Mark.negate] := by
          intro hmem
          have hbegun := hset _ hmem _ rfl
          rwa [drop_position hs] at hbegun
        -- While something is left no mark was read yet that is not part of the pattern.
        have hrest' : scan.rest ≠ [] → t = source.length + (closers new).length := by
          intro hne
          have hnone : closers scan.warnings ++ scan.value.closers = [] := by
            by_contra hne'
            exact hne (rest_of_item rfl hne')
          rw [ht (List.cons_ne_nil b rest), hmissing, hnone, List.nil_append]
        have hstep := read_cons_append ws (t := t) rfl hescape hstart (closing_closers new)
          hhalts (by rw [ht (List.cons_ne_nil b rest), hmissing])
        rw [hpos] at hstep
        rw [hmissing, List.cons_append, hstep,
          hread ((noEscape_append _ _).mp hescape').2 (setsBegun_append.mp hset').2 t _ hrest',
          others_append, others_append, List.append_assoc, List.append_assoc]

end Reader

end Source

/-! ### The pattern with its missing marks -/

namespace Reading

/-- Putting the marks behind a pattern that are missing there, as its warnings tell, leaves
everything as it was read, and only the warnings about these marks are gone.  Two patterns are
left out: one that ends with an escape mark, which would take the first of them literally, and one
that ends in a set without any member, in which the closing bracket would be the first. -/
theorem ofSource_append_closers (source : Bytes) (lexicon : Lexicon)
    (hescape : ∀ pos, .finalEscape pos ∉ (ofSource source lexicon).warnings)
    (hset : ∀ pos, .unclosedSet pos ∈ (ofSource source lexicon).warnings →
      source.drop pos ≠ [Mark.setOpen] ∧ source.drop pos ≠ [Mark.setOpen, Mark.negate]) :
  let r := ofSource source lexicon
  ofSource (source ++ r.warnings.filterMap Warning.closer?) lexicon =
    { r with warnings := r.warnings.filter (·.closer?.isNone) }
  := by
  intro r
  obtain ⟨new, hnew, hread⟩ :=
    (Source.Reader.start lexicon).exists_warnings_read (List.suffix_refl source)
  have hwarnings : r.warnings = new := hnew
  have hlength : source ≠ [] →
      (source ++ Source.closers new).length = source.length + (Source.closers new).length :=
    fun _ => List.length_append
  have hescape : Source.NoEscape new := fun w hw pos hpos =>
    hescape pos (hwarnings ▸ hpos ▸ hw)
  have hset : Source.SetsBegun source new := fun w hw pos hpos =>
    hset pos (hwarnings ▸ hpos ▸ hw)
  have h := hread hescape hset _ [] hlength
  rw [hwarnings]
  exact congrArg (fun r => (⟨⟨r.chain, r.groups⟩, r.warnings, r.lexicon⟩ : Reading)) h

/-- A group within another one, and in it a set that ends with a range mark.  The brace that
begins no count stays what it is. -/
theorem ofSource_append_closers_of_nested_set :
  let source := Utf8.encode "(a\x7b1,([^x-"
  let r := ofSource source .empty
  (∀ pos, .finalEscape pos ∉ r.warnings) ∧
    (∀ pos, .unclosedSet pos ∈ r.warnings →
      source.drop pos ≠ [Mark.setOpen] ∧ source.drop pos ≠ [Mark.setOpen, Mark.negate]) ∧
    r.warnings = [.malformedCount 2, .unclosedSet 6, .unclosedGroup 5, .unclosedGroup 0] ∧
    ofSource (Utf8.encode "(a\x7b1,([^x-]))") .empty = { r with warnings := [.malformedCount 2] }
  := by
  intro source r
  have hwarnings : r.warnings =
      [.malformedCount 2, .unclosedSet 6, .unclosedGroup 5, .unclosedGroup 0] := by
    decide +kernel
  have hescape : ∀ pos, .finalEscape pos ∉ r.warnings := by
    rw [hwarnings]
    intro pos
    simp
  have hset : ∀ pos, .unclosedSet pos ∈ r.warnings →
      source.drop pos ≠ [Mark.setOpen] ∧ source.drop pos ≠ [Mark.setOpen, Mark.negate] := by
    rw [hwarnings]
    intro pos hpos
    obtain rfl : pos = 6 := by simpa using hpos
    decide +kernel
  have h := ofSource_append_closers source .empty hescape hset
  have hmissing : source ++ r.warnings.filterMap Warning.closer? =
      Utf8.encode "(a\x7b1,([^x-]))" := by
    decide +kernel
  have hothers : r.warnings.filter (·.closer?.isNone) = [.malformedCount 2] := by
    decide +kernel
  dsimp only at h
  rw [hmissing, hothers] at h
  exact ⟨hescape, hset, hwarnings, h⟩

end Reading

end Respell
