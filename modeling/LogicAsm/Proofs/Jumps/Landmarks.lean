import LogicAsm.Proofs.Chaining

/-!
# What jumps depend on

Of all that a program says, jumps depend on two things alone: the names of its labels and the
destinations of its instructions (`Landmarks`).  Both are lists, so that the landmarks of two parts
of a program are put behind each other.

Landmarks are kept where the nodes are not.  Labels that stand in front of a statement give their
names and leave all else alone (`ofNodes_append_labels`), even though a name of old may be read as
another one behind them; and redirecting a stretch redirects its destinations, whatever word is put
in (`ofNodes_redirect`).
-/

namespace LogicAsm

theorem Node.isLabel_of_isInstruction {n : Node} (h : n.isInstruction = true) :
    n.isLabel = false := by
  cases hl : n.isLabel with
  | false => rfl
  | true =>
    rw [isInstruction_of_isLabel hl] at h
    cases h

/-- The names that a program declares, and the destinations of its instructions: one for each, and
none if it is no jump to anything. -/
@[ext]
structure Landmarks where
  names : List Text
  destinations : List (Option Lexeme)
deriving DecidableEq

/-- What a destination says once it may be another word. -/
def Lexeme.redirect (f : Lexeme → Option Text) (x : Lexeme) : Lexeme := (f x).elim x .ofOperand

namespace Landmarks

instance : Append Landmarks :=
  ⟨fun m m' => ⟨m.names ++ m'.names, m.destinations ++ m'.destinations⟩⟩

@[simp] theorem names_append (m m' : Landmarks) : (m ++ m').names = m.names ++ m'.names := rfl

@[simp] theorem destinations_append (m m' : Landmarks) :
    (m ++ m').destinations = m.destinations ++ m'.destinations := rfl

/-- The landmarks of nodes. -/
def ofNodes (ns : List Node) : Landmarks :=
  ⟨(ns.filter (·.isLabel)).map (·.labelName),
    (ns.filter (·.isInstruction)).map fun n => n.destination?.map Token.lexeme⟩

/-- The landmarks of what nodes say. -/
def ofOutlines (os : List Outline) : Landmarks :=
  ⟨os.filterMap fun o => if o.kind = .label then o.lexemes.head?.map (·.2.dropLast) else none,
    (os.filter (·.isInstruction)).map Outline.destination?⟩

/-- The landmarks with other words for destinations. -/
def redirect (f : Lexeme → Option Text) (m : Landmarks) : Landmarks :=
  { m with destinations := m.destinations.map (Option.map (Lexeme.redirect f)) }

theorem ofNodes_append (ns ms : List Node) : ofNodes (ns ++ ms) = ofNodes ns ++ ofNodes ms := by
  ext1 <;> simp [ofNodes]

theorem ofOutlines_cons (o : Outline) (os : List Outline) :
    ofOutlines (o :: os) = ofOutlines [o] ++ ofOutlines os := by
  ext1
  · simp only [ofOutlines, names_append, ← List.filterMap_append, List.singleton_append]
  · simp only [ofOutlines, destinations_append, ← List.map_append, ← List.filter_append,
      List.singleton_append]

/-- Landmarks are said by the outlines. -/
theorem ofOutlines_map_outline (ns : List Node) :
    ofOutlines (ns.map Node.outline) = ofNodes ns := by
  induction ns with
  | nil => rfl
  | cons n ns ih =>
    have hone : ofOutlines [n.outline] = ofNodes [n] := by
      have hdestination := n.map_lexeme_destination?
      have hhead : n.outline.lexemes.head?.map (·.2.dropLast) = some n.labelName := rfl
      cases hkind : n.kind <;>
        simp [ofOutlines, ofNodes, Node.isLabel, Node.isInstruction, Outline.isInstruction,
          show n.outline.kind = n.kind from rfl, hkind, hdestination, hhead]
    rw [List.map_cons, ofOutlines_cons, hone, ih, ← ofNodes_append, List.singleton_append]

/-- Landmarks do not depend on where nodes stand. -/
theorem ofNodes_nodesAt_congr (here there : Position) (ps : List Piece) :
    ofNodes (Piece.nodesAt here ps) = ofNodes (Piece.nodesAt there ps) := by
  rw [← ofOutlines_map_outline, ← ofOutlines_map_outline,
    Piece.map_outline_nodesAt_congr here there ps]

theorem ofNodes_of_stretch (here : Position) {s : List Piece} (hs : Piece.Stretch s) :
    ofNodes (Piece.nodesAt here s) = ofOutlines (Piece.outlines s) := by
  rw [← ofOutlines_map_outline, Piece.map_outline_nodesAt_of_stretch here hs, Piece.outlines]

/-! ### Labels in front of a statement -/

/-- A statement has the same landmarks behind a label, where its first name is read as an operand
and its second one is no operation. -/
theorem ofOutlines_map_renamedOperand (xs : List Lexeme) :
    ofOutlines (Outline.ofLexemes (xs.map (Prod.map id renamedOperand))) =
      ofOutlines (Outline.ofLexemes (Lexeme.rename xs)) := by
  cases xs with
  | nil => rfl
  | cons x xs =>
    have hcomment : Lexeme.isComment (Prod.map id renamedOperand x) = x.isComment := rfl
    by_cases hlabel : x.isLabel = true
    · have hself : Prod.map id renamedOperand x = x :=
        Prod.ext rfl (Lexeme.renamedOperand_of_isLabel hlabel)
      rw [Jumps.rename_cons_of_ne_op (Lexeme.ne_of_isLabel hlabel (by decide)), List.map_cons,
        hself]
    · have hlabel' : ¬ Lexeme.isLabel (Prod.map id renamedOperand x) = true := by
        rwa [Lexeme.isLabel_map_renamedOperand]
      rw [List.map_cons, Lexeme.rename, Outline.ofLexemes.eq_def, Outline.ofLexemes.eq_def]
      simp only [hcomment, hlabel, hlabel', Bool.false_eq_true, if_false]
      split
      · rfl
      -- Only a jump has a destination, and `jump` is neither renamed nor the name of an operation.
      · have hdestination (y : Lexeme) (ys : List Lexeme) :
            ofOutlines [⟨.instruction, y :: ys⟩] =
              ⟨[], [if y.2 == "jump".toList then Outline.firstOperand? ys else none]⟩ := rfl
        rw [hdestination, hdestination]
        by_cases hjump : x.2 = "jump".toList
        · have hname : (Prod.map id renamedOperand x).2 = "jump".toList := by
            rw [Prod.map_snd, hjump]
            decide
          have hop : x.2 ≠ "op".toList := by
            rw [hjump]
            decide
          rw [if_pos (beq_iff_eq.2 hname), if_pos (beq_iff_eq.2 hjump), Lexeme.renameTail,
            if_neg hop]
        · have hname : (Prod.map id renamedOperand x).2 ≠ "jump".toList := fun h =>
            hjump (eq_of_renamedOperand h (by decide) (by decide))
          rw [if_neg (mt beq_iff_eq.1 hname), if_neg (mt beq_iff_eq.1 hjump)]

/-- Labels in front of a statement give their names, and leave all else alone. -/
theorem ofOutlines_append_labels {ls : List Lexeme} (hls : ∀ l ∈ ls, l.isLabel = true)
    (xs : List Lexeme) :
    ofOutlines (Outline.ofLexemes (Lexeme.rename (ls ++ xs))) =
      ⟨ls.map (·.2.dropLast), []⟩ ++ ofOutlines (Outline.ofLexemes (Lexeme.rename xs)) := by
  induction ls with
  | nil => rfl
  | cons l ls ih =>
    obtain ⟨hl, hls⟩ := List.forall_mem_cons.1 hls
    by_cases hcomment : ∀ x ∈ (ls ++ xs).head?, x.isComment = false
    · rw [List.cons_append, Outline.ofLexemes_rename_label hl hcomment, ofOutlines_cons,
        ofOutlines_map_renamedOperand, ih hls]
      rfl
    · -- A comment behind a label belongs to it, and labels are no comments.
      obtain ⟨x, hx, hx'⟩ : ∃ x ∈ (ls ++ xs).head?, x.isComment = true := by
        simpa using hcomment
      obtain rfl : ls = [] := by
        cases ls with
        | nil => rfl
        | cons m ls =>
          obtain rfl : m = x := Option.some.inj hx
          rw [Lexeme.isComment, Lexeme.kind_of_isLabel (hls m List.mem_cons_self)] at hx'
          cases hx'
      obtain ⟨ys, rfl⟩ := List.head?_eq_some_iff.1 hx
      have hl' : l.isComment = false := by
        rw [Lexeme.isComment, Lexeme.kind_of_isLabel hl]
        rfl
      have hcommented : Outline.ofLexemes (Lexeme.rename (l :: x :: ys)) =
          [⟨.label, l :: Prod.map id renamedOperand x :: ys.map (Prod.map id renamedOperand)⟩] := by
        have hrenamed : Lexeme.isComment (Prod.map id renamedOperand x) = true := hx'
        rw [Jumps.rename_cons_of_ne_op (Lexeme.ne_of_isLabel hl (by decide))]
        simp [Outline.ofLexemes, hl, hl', hrenamed]
      have halone : Outline.ofLexemes (Lexeme.rename (x :: ys)) =
          [⟨.comment, x :: x.renameTail ys⟩] := by
        rw [Lexeme.rename, Outline.ofLexemes.eq_def]
        simp [hx']
      rw [List.singleton_append, hcommented, halone]
      rfl

/-- A statement that starts with neither a label nor a comment is an instruction. -/
theorem exists_ofOutlines_instruction {first : Lexeme} (hcomment : first.isComment = false)
    (hlabel : first.isLabel = false) (rest : List Lexeme) :
    ∃ d, ofOutlines (Outline.ofLexemes (Lexeme.rename (first :: rest))) = ⟨[], [d]⟩ := by
  rw [Lexeme.rename, Outline.ofLexemes.eq_def]
  simp only [hcomment, hlabel, Bool.false_eq_true, if_false]
  exact ⟨_, rfl⟩

/-- A statement with an instruction starts with labels, and the instruction stands behind them. -/
theorem exists_labels_of_destinations {xs : List Lexeme}
    (h : (ofOutlines (Outline.ofLexemes (Lexeme.rename xs))).destinations ≠ []) :
    ∃ labels first rest, xs = labels ++ first :: rest ∧ (∀ l ∈ labels, l.isLabel = true) ∧
      first.isComment = false ∧ first.isLabel = false := by
  -- By induction on the tokens: labels are passed over, and a comment ends the statement.
  induction xs with
  | nil => exact absurd rfl h
  | cons x xs ih =>
    cases hcomment : x.isComment with
    | true =>
      rw [Lexeme.rename, Outline.ofLexemes.eq_def] at h
      simp only [hcomment, if_true] at h
      exact absurd rfl h
    | false =>
      cases hlabel : x.isLabel with
      | true =>
        have hlabels : ∀ l ∈ [x], l.isLabel = true := List.forall_mem_singleton.2 hlabel
        have hsplit := ofOutlines_append_labels hlabels xs
        rw [List.singleton_append] at hsplit
        rw [hsplit] at h
        obtain ⟨labels, first, rest, rfl, hall, hfirst⟩ := ih h
        exact ⟨x :: labels, first, rest, rfl, List.forall_mem_cons.2 ⟨hlabel, hall⟩, hfirst⟩
      | false => exact ⟨[], x, xs, rfl, by simp, hcomment, hlabel⟩

/-- Labels in front of a statement give their names, and leave all else alone. -/
theorem ofNodes_append_labels (here there : Position) {u v : List Piece} (hu : Piece.Stretch u)
    (hlabels : ∀ x ∈ u.filterMap Piece.lexeme?, x.isLabel = true) (hv : Piece.Stretch v) :
    ofNodes (Piece.nodesAt here (u ++ v)) =
      ⟨(u.filterMap Piece.lexeme?).map (·.2.dropLast), []⟩ ++ ofNodes (Piece.nodesAt there v) := by
  rw [ofNodes_of_stretch here (hu.append hv), ofNodes_of_stretch there hv, Piece.outlines,
    List.filterMap_append]
  exact ofOutlines_append_labels hlabels _

/-! ### Redirecting a statement -/

theorem ofNodes_map_ofLabel (labels : List Token) :
    ofNodes (labels.map Node.ofLabel) = ⟨labels.map (·.content.dropLast), []⟩ := by
  induction labels with
  | nil => rfl
  | cons l labels ih =>
    rw [List.map_cons, ← List.singleton_append, ofNodes_append, ih]
    rfl

/-- The landmarks of a jump to a word. -/
theorem ofNodes_of_leadsJump (here : Position) {front : List Piece} (hfront : Piece.LeadsJump front)
    {w : Text} (hw : (Piece.word w).WellFormed) {back : List Piece} (hback : Piece.Stretch back) :
    ofNodes (Piece.nodesAt here (front ++ .word w :: back)) =
      ⟨(front.filterMap Piece.lexeme?).dropLast.map (·.2.dropLast), [some (.ofOperand w)]⟩ := by
  obtain ⟨labels, n, d, hnodes, hlabels, -, hd, hlexeme, -⟩ :=
    @Piece.exists_nodesAt_of_leadsJump .origin (Int.le_refl 0) front hfront w hw back hback
  have hn : n.isInstruction = true := Node.isInstruction_of_destination? hd
  have hnot := Node.isLabel_of_isInstruction hn
  have hone : ofNodes [n] = ⟨[], [some (.ofOperand w)]⟩ := by
    simp [ofNodes, hn, hnot, hd, hlexeme]
  rw [ofNodes_nodesAt_congr here .origin, hnodes, ofNodes_append, ofNodes_map_ofLabel, hone,
    ← hlabels, List.dropLast_concat, List.map_map]
  exact Landmarks.ext (List.append_nil _) rfl

/-- Redirecting a stretch redirects its destinations, and leaves all else alone. -/
theorem ofNodes_redirect {f : Lexeme → Option Text} (hf : Piece.Rewords f) (here there : Position)
    {s : List Piece} (hs : Piece.Stretch s) (hwf : ∀ p ∈ s, p.WellFormed) :
    ofNodes (Piece.nodesAt there (Piece.redirect f s)) =
      (ofNodes (Piece.nodesAt here s)).redirect f := by
  rcases Piece.redirect_cases hf hs with ⟨hsame, hnone⟩ | ⟨front, w, back, v, rfl, hfront, hv, hnew⟩
  · rw [hsame, ofNodes_nodesAt_congr there here]
    refine Landmarks.ext rfl ((List.map_congr_left ?_).trans (List.map_id _)).symm
    intro x hx
    obtain ⟨n, hn, rfl⟩ := List.mem_map.1 hx
    cases hd : n.destination? with
    | none => rfl
    | some d =>
      have hkept := hnone here n (List.mem_filter.1 hn).1 d hd
      rw [Option.map_some, Option.map_some, Lexeme.redirect, hkept]
      rfl
  · have hredirected : Lexeme.redirect f (.ofOperand w) = .ofOperand v := by
      rw [Lexeme.redirect, hv]
      rfl
    rw [hnew, ofNodes_of_leadsJump there hfront (hf.word _ _ hv) hs.right.tail,
      ofNodes_of_leadsJump here hfront (hwf (.word w) (by simp)) hs.right.tail, redirect,
      List.map_singleton, Option.map_some, hredirected]

/-! ### Landmarks of a document -/

/-- A name is declared if it is that of a label. -/
theorem isSome_find?_iff (uri : String) (t name : Text) :
    ((Document.ofText uri t).labels.find? name).isSome = true ↔
      name ∈ (ofNodes (Node.ofText t)).names := by
  rw [show (Document.ofText uri t).labels = LabelTable.ofNodes (Node.ofText t) from rfl,
    LabelTable.find?_ofNodes, List.findIdx?_isSome, List.any_eq_true]
  simp [ofNodes, LabelTable.declares, and_assoc]

theorem length_destinations (ns : List Node) :
    (ofNodes ns).destinations.length = ns.countP (·.isInstruction) := by
  rw [ofNodes, List.length_map, List.countP_eq_length_filter]

theorem length_destinations_ofText (t : Text) :
    (ofNodes (Node.ofText t)).destinations.length =
      (instructionIndices (Node.ofText t)).length := by
  rw [length_destinations, instructionIndices, length_instructionIndicesFrom]

/-- An instruction has its destination. -/
theorem getElem?_destinations (uri : String) (t : Text) (k : Nat) :
    (ofNodes (Node.ofText t)).destinations[k]? =
      ((Document.ofText uri t).instruction? k).map fun n => n.destination?.map Token.lexeme := by
  rw [Document.instruction?_ofText, ofNodes, List.getElem?_map]

end Landmarks

end LogicAsm
