import LogicAsm.Proofs.Jumps.Destinations
import LogicAsm.Proofs.Jumps.Rewriting

/-!
# Numbering jumps, stretch by stretch

In each stretch `Jumps.toNumbers` puts a number in the place of the destination, and it deletes a
label in front with the blanks around it; a label that stands alone may take the line break behind
it along (`exists_revision`).  None of this makes two pieces meet that would be read as one: a
number stands where a word stood, and behind a deletion the text goes on as at the start of a
statement.

So the edits can be made, and the new text is read as the nodes of the old one, where some labels
are missing and some destinations are numbers (`exists_applyAll_toNumbers`).
-/

namespace LogicAsm.Jumps

open Piece Edit

variable {uri : String} {t : Text}

/-! ### A label in front -/

/-- A label in front of other tokens is deleted up to the next token. -/
theorem exists_labelPart {a : Text} {s : List Piece} (hs : Stretch s)
    (hwf : ∀ p ∈ s, p.WellFormed) {label second : Token} {rest : List Token}
    (htokens : tokensAt (Position.origin.advance a) s = label :: second :: rest) (b : Text) :
    ∃ u v, s = u ++ v ∧ u.flatMap text ≠ [] ∧ u.filterMap lexeme? = [label.lexeme] ∧
      tokensAt ((Position.origin.advance a).advance (u.flatMap text)) v = second :: rest ∧
      ∀ n : Node, n.stop = label.stop →
        lineEnd (.ofText uri (a ++ (s.flatMap text ++ b))) n =
          (Position.origin.advance a).advance (u.flatMap text) := by
  have hpos := Position.character_origin_advance a
  obtain ⟨bs, p, bs', q, v, rfl, -, hbs', hp, hq, -, hstop, -, hv⟩ :=
    exists_of_tokensAt_eq_cons_cons hpos hs hwf htokens
  have htext := flatMap_text_padded bs bs' p
  -- The blanks on both sides of the label go with it.
  refine ⟨bs.map .blank ++ p :: bs'.map .blank, q :: v, by simp, ?_, ?_, ?_, ?_⟩
  · obtain ⟨c, hc⟩ := (hwf p (by simp)).exists_head
    rw [htext]
    intro hnil
    have : p.text = [] := by simp_all
    simp [this] at hc
  · exact filterMap_lexeme?_padded bs bs' hp
  · rw [htext]
    exact hv
  · intro n hn
    have hplace : n.stop = Position.origin.advance (a ++ (bs ++ p.text)) := by
      rw [hn, hstop, ← Position.advance_append]
    have hline := @lineEnd_of_token uri (a ++ (bs ++ p.text)) bs' hbs' q (hwf q (by simp)) _ hq n
      hplace (v.flatMap text ++ b)
    rw [htext, ← Position.advance_append]
    simpa only [List.flatMap_append, List.flatMap_cons, flatMap_text_map_blank,
      List.append_assoc] using hline

/-! ### Statements that can be numbered -/

/-- Whether a node starts, in the source, with a name that means another thing at the start of a
statement than behind a label: an operand or an operation of old. -/
def StartsWithOldName (doc : Document) (n : Node) : Prop :=
  doc.source n.head = "configure".toList ∨ doc.source n.head = "@configure".toList ∨
    doc.source n.head = "op".toList ∧ ∃ second ∈ n.tail.head?,
      doc.source second = "atan2".toList ∨ doc.source second = "dst".toList

instance (doc : Document) (n : Node) : Decidable (StartsWithOldName doc n) :=
  inferInstanceAs (Decidable (_ ∨ _ ∨ _ ∧ ∃ second ∈ n.tail.head?, _ ∨ _))

/-- A statement with at most one label, and with no name of old right behind it. -/
structure Numberable (doc : Document) (s : Statement) : Prop where
  labels : ((Node.ofStatement s).filter (·.isLabel)).length ≤ 1
  names : ∀ before label n after, Node.ofStatement s = before ++ label :: n :: after →
    label.isLabel = true → n.isInstruction = true → ¬ StartsWithOldName doc n

/-- A stretch and what becomes of it once its nodes are numbered. -/
abbrev Revision (doc : Document) := Revised (Renumbered doc) doc

/-- A stretch is left alone if its nodes are. -/
theorem Revision.kept {doc : Document} {here : Position} {k : Nat} {s : List Piece}
    (hs : Stretch s) (hnodes : ∀ n ∈ nodesAt here s, labelled? doc n = none)
    (hedits : editsFrom doc k (nodesAt here s) = []) :
    Revision doc here k s s := by
  have hkept {ns : List Node} (h : ∀ n ∈ ns, labelled? doc n = none) :
      Renumbered doc ns (ns.map Node.outline) := by
    induction ns with
    | nil => exact .nil
    | cons n ns ih =>
      have hn : revised doc n = n.outline := by
        rw [revised, renumber, h n (by simp)]
        rfl
      rw [List.map_cons, ← hn]
      exact .keep n (ih fun m hm => h m (by simp [hm]))
  refine ⟨hs, fun _ h => h, ?_, ?_⟩
  · rw [hedits]
    exact .kept here _
  · rw [← map_outline_nodesAt_of_stretch here hs]
    exact hkept hnodes

/-- A stretch that is one instruction has its destination revised. -/
theorem exists_revision_instruction {here : Position} (hpos : 0 ≤ here.character) (k : Nat)
    {s : List Piece} (hs : Stretch s) (hwf : ∀ p ∈ s, p.WellFormed) {first : Token}
    {rest : List Token} (htokens : tokensAt here s = first :: rest)
    (hcomment : first.isComment = false) (hlabel : first.isLabel = false) :
    ∃ s', Revision (.ofText uri t) here k s s' := by
  obtain ⟨n, hn⟩ : ∃ n : Node,
      n = ⟨.instruction, first, renameTail first rest, here.advance (s.flatMap text)⟩ := ⟨_, rfl⟩
  have hkind : n.isInstruction = true ∧ n.isLabel = false := by
    rw [hn]
    exact ⟨rfl, rfl⟩
  have hopcode : n.opcode = first.lexeme.2 := by
    rw [hn]
    rfl
  have hnodes : nodesAt here s = [n] := by
    rw [nodesAt_of_tokensAt hpos hs htokens, Node.ofTokens.eq_def]
    simp [hcomment, hlabel, hn]
  -- Only the operation of `op` has names of its own, and a jump is none.
  have htail : n.opcode = "jump".toList → n.tail = rest.map (Token.rename renamedOperand) := by
    intro hjump
    have hop : ¬ first.content = "op".toList := by
      rw [show first.content = n.opcode from hopcode.symm, hjump]
      decide
    rw [hn]
    show renameTail first rest = _
    rw [renameTail, if_neg hop]
  have hlexemes : s.filterMap lexeme? = first.lexeme :: rest.map Token.lexeme := by
    rw [← map_lexeme_tokensAt here, htokens, List.map_cons]
  have houtline : n.outline.lexemes = Lexeme.rename (first.lexeme :: rest.map Token.lexeme) := by
    rw [hn, Lexeme.rename, ← map_lexeme_renameTail]
    rfl
  obtain ⟨s', hs'⟩ := @exists_partRevision uri t here hpos s hs hwf n first rest htokens htail
  refine ⟨s', hs'.stretch, fun tail => hs'.row [] tail, ?_, ?_⟩
  · rw [hnodes, editsFrom, editsFrom, nodeEdits_of_not_label hkind.2, List.append_nil]
    exact hs'.rewrites
  · rw [hnodes, hs'.lexemes, hlexemes, rename_renumber hopcode, Lexeme.rename,
      ofLexemes_renumber _ hkind.1 houtline hcomment hlabel]
    exact .keep n .nil

/-- Behind a label all names are those of operands; at the start of a statement they are the same,
unless the statement starts with a name of old. -/
theorem rename_eq_map {x : Lexeme} {xs : List Lexeme} (hx : renamedOperand x.2 = x.2)
    (hop : x.2 = "op".toList → ∀ y ∈ xs.head?, renamedOperation y.2 = y.2) :
    Lexeme.rename (x :: xs) = (x :: xs).map (Prod.map id renamedOperand) := by
  have hself : Prod.map id renamedOperand x = x := Prod.ext rfl hx
  rw [Lexeme.rename, Lexeme.renameTail, List.map_cons, hself]
  split
  · next h =>
    cases xs with
    | nil => rfl
    | cons y ys =>
      have hy : Prod.map id renamedOperation y = y := Prod.ext rfl (hop h y rfl)
      rw [List.modifyHead_cons, hy]
  · rfl

/-- A label in front of other tokens is a node of its own, and they are read with all operands under
their new names. -/
theorem nodesAt_of_label_cons {here : Position} (hpos : 0 ≤ here.character) {s : List Piece}
    (hs : Stretch s) {label second : Token} {rest : List Token}
    (htokens : tokensAt here s = label :: second :: rest) (hcomment : label.isComment = false)
    (hlabel : label.isLabel = true) (hsecond : second.isComment = false) :
    nodesAt here s = ⟨.label, label, [], label.stop⟩ ::
      Node.ofTokens (here.advance (s.flatMap text))
        (second.rename renamedOperand :: rest.map (Token.rename renamedOperand)) := by
  have hcomment' : (second.rename renamedOperand).isComment = false := hsecond
  rw [nodesAt_of_tokensAt hpos hs htokens, renameTail, if_neg (ne_op_of_isLabel hlabel),
    List.map_cons, Node.ofTokens]
  simp [hcomment, hlabel, hcomment']

/-- A label in front of an instruction: the two nodes, where the instruction has its operands under
their new names. -/
theorem nodesAt_of_label {here : Position} (hpos : 0 ≤ here.character) {s : List Piece}
    (hs : Stretch s) {label second : Token} {rest : List Token}
    (htokens : tokensAt here s = label :: second :: rest) (hcomment : label.isComment = false)
    (hlabel : label.isLabel = true) (hsecond : second.isComment = false)
    (hone : ((nodesAt here s).filter (·.isLabel)).length ≤ 1) :
    nodesAt here s = [⟨.label, label, [], label.stop⟩,
      ⟨.instruction, second.rename renamedOperand, rest.map (Token.rename renamedOperand),
        here.advance (s.flatMap text)⟩] ∧ (second.rename renamedOperand).isLabel = false := by
  have hcomment' : (second.rename renamedOperand).isComment = false := hsecond
  have hnodes := nodesAt_of_label_cons hpos hs htokens hcomment hlabel hsecond
  rw [hnodes] at hone ⊢
  cases hl : (second.rename renamedOperand).isLabel with
  | false =>
    rw [Node.ofTokens.eq_def]
    simp [hcomment', hl]
  | true =>
    -- A second label would be one too many.
    have hfirst (stop : Position) (tail : List Token) : ∃ n ns,
        Node.ofTokens stop (second.rename renamedOperand :: tail) = n :: ns ∧ n.isLabel = true := by
      cases tail with
      | nil => exact ⟨_, _, by rw [Node.ofTokens, hcomment', hl]; rfl, rfl⟩
      | cons third tail =>
        cases hthird : third.isComment with
        | true => exact ⟨_, _, by rw [Node.ofTokens, hcomment', hl, hthird]; rfl, rfl⟩
        | false => exact ⟨_, _, by rw [Node.ofTokens, hcomment', hl, hthird]; rfl, rfl⟩
    obtain ⟨n, ns, hns, hn⟩ := hfirst (here.advance (s.flatMap text))
      (rest.map (Token.rename renamedOperand))
    rw [hns, List.filter_cons_of_pos rfl, List.filter_cons_of_pos hn] at hone
    simp at hone

/-- Without a name of old, the instruction behind a label reads the same without the label. -/
theorem rename_of_not_startsWithOldName {a b : Text} {v : List Piece}
    (hwf : ∀ p ∈ v, p.WellFormed) {second : Token} {rest : List Token}
    (htokens : tokensAt (Position.origin.advance a) v = second :: rest) {n : Node}
    (hhead : n.head = second.rename renamedOperand)
    (htail : n.tail = rest.map (Token.rename renamedOperand))
    (hold : ¬ StartsWithOldName (.ofText uri (a ++ (v.flatMap text ++ b))) n) :
    Lexeme.rename (v.filterMap lexeme?) =
      (v.filterMap lexeme?).map (Prod.map id renamedOperand) ∧
      renamedOperand second.content = second.content := by
  have hsource := @source_of_mem_tokensAt uri a b v hwf
  rw [htokens] at hsource
  simp only [StartsWithOldName, not_or, not_and, hhead, htail] at hold
  obtain ⟨hconfigure, hatConfigure, hop⟩ := hold
  have hfirst : (Document.ofText uri (a ++ (v.flatMap text ++ b))).source
      (second.rename renamedOperand) = second.content := hsource second List.mem_cons_self
  rw [hfirst] at hconfigure hatConfigure hop
  have hself : renamedOperand second.content = second.content := by
    rw [renamedOperand, if_neg hconfigure, if_neg hatConfigure]
  refine ⟨?_, hself⟩
  rw [← map_lexeme_tokensAt (Position.origin.advance a), htokens, List.map_cons]
  -- What is left is the name behind `op`, which is an operation once the label is gone.
  apply rename_eq_map hself
  intro hname y hy
  cases rest with
  | nil => cases hy
  | cons third rest =>
    obtain rfl : third.lexeme = y := Option.some.inj hy
    have hthird : (Document.ofText uri (a ++ (v.flatMap text ++ b))).source
        (third.rename renamedOperand) = third.content := hsource third (by simp)
    have hnone : ¬ (third.content = "atan2".toList ∨ third.content = "dst".toList) := by
      rw [← hthird]
      exact fun h => hop hname ⟨_, rfl, h⟩
    rw [not_or] at hnone
    show renamedOperation third.content = third.content
    rw [renamedOperation, if_neg hnone.1, if_neg hnone.2]

/-- A label in front of an instruction is deleted. -/
theorem Revision.drop_label {doc : Document} {here : Position} {k : Nat} {u v v' : List Piece}
    {l n : Node} (hnodes : nodesAt here (u ++ v) = [l, n]) (hl : l.isLabel = true)
    (hname : isNumbered doc l.labelName = true) (hu : u.flatMap text ≠ [])
    (hv : PartRevision doc (here.advance (u.flatMap text)) n v v')
    (hedits : editsFrom doc k [l, n] =
      .delete ⟨here, here.advance (u.flatMap text)⟩ :: (replacement? doc n).toList)
    (hout : Outline.ofLexemes (Lexeme.rename (v'.filterMap lexeme?)) = [revised doc n]) :
    Revision doc here k (u ++ v) v' := by
  refine ⟨hv.stretch, fun tail h => ?_, ?_, ?_⟩
  · rw [List.append_assoc] at h
    exact (hv.row u tail h).right
  · rw [hnodes, hedits, List.flatMap_append]
    exact .change hu [] hv.rewrites
  · rw [hnodes, hout]
    exact .drop hl hname (.keep n .nil)

/-- A label in front of an instruction stays there. -/
theorem Revision.keep_label {doc : Document} {here : Position} {k : Nat} {u v v' : List Piece}
    {l n : Node} (hnodes : nodesAt here (u ++ v) = [l, n]) (hu : Stretch u)
    (hv : PartRevision doc (here.advance (u.flatMap text)) n v v')
    (hedits : editsFrom doc k [l, n] = (replacement? doc n).toList)
    (hout : Outline.ofLexemes (Lexeme.rename ((u ++ v').filterMap lexeme?)) =
      [revised doc l, revised doc n]) :
    Revision doc here k (u ++ v) (u ++ v') := by
  refine ⟨?_, fun tail h => ?_, ?_, ?_⟩
  · intro p hp
    rcases List.mem_append.1 hp with hp | hp
    · exact hu p hp
    · exact hv.stretch p hp
  · rw [List.append_assoc] at h ⊢
    exact hv.row u tail h
  · rw [hnodes, hedits, List.flatMap_append, List.flatMap_append]
    exact .keep _ hv.rewrites
  · rw [hnodes, hout]
    exact .keep l (.keep n .nil)

/-- A label in front of an instruction is deleted or not, and the instruction has its destination
revised. -/
theorem exists_revision_chained {a b : Text} (ha : ∀ c ∈ a.getLast?, isBlank c = false) (k : Nat)
    {s : List Piece} (hs : Stretch s) (hwf : ∀ p ∈ s, p.WellFormed) {label second : Token}
    {rest : List Token}
    (htokens : tokensAt (Position.origin.advance a) s = label :: second :: rest)
    (hcomment : label.isComment = false) (hlabel : label.isLabel = true)
    (hsecond : second.isComment = false)
    (hone : ((nodesAt (Position.origin.advance a) s).filter (·.isLabel)).length ≤ 1)
    (hnames : ∀ l n, nodesAt (Position.origin.advance a) s = [l, n] → l.isLabel = true →
      n.isInstruction = true → ¬ StartsWithOldName (.ofText uri (a ++ (s.flatMap text ++ b))) n) :
    ∃ s', Revision (.ofText uri (a ++ (s.flatMap text ++ b))) (Position.origin.advance a) k
      s s' := by
  have hpos := Position.character_origin_advance a
  obtain ⟨hnodes, hinstruction⟩ :=
    nodesAt_of_label hpos hs htokens hcomment hlabel hsecond hone
  have hstart := fun n hn => @lineStart_of_stretch uri a ha s hs hwf _ _ htokens n hn b
  obtain ⟨u, v, rfl, hu, hulex, hvtokens, hend⟩ := @exists_labelPart uri a s hs hwf _ _ _ htokens b
  have hvwf : ∀ p ∈ v, p.WellFormed := fun p hp => hwf p (by simp [hp])
  obtain ⟨doc, hdoc⟩ : ∃ doc, doc = Document.ofText uri (a ++ ((u ++ v).flatMap text ++ b)) :=
    ⟨_, rfl⟩
  obtain ⟨l, hl⟩ : ∃ l : Node, l = ⟨.label, label, [], label.stop⟩ := ⟨_, rfl⟩
  obtain ⟨n, hn⟩ : ∃ n : Node, n = ⟨.instruction, second.rename renamedOperand,
      rest.map (Token.rename renamedOperand),
      (Position.origin.advance a).advance ((u ++ v).flatMap text)⟩ := ⟨_, rfl⟩
  rw [← hl, ← hn] at hnodes
  have hkind : n.isInstruction = true ∧ n.isLabel = false ∧ l.isLabel = true := by
    rw [hn, hl]
    exact ⟨rfl, rfl, rfl⟩
  -- The instruction with its destination revised, whatever becomes of the label.
  obtain ⟨v', hv'⟩ := @exists_partRevision uri (a ++ ((u ++ v).flatMap text ++ b)) _
    (Position.character_advance_nonneg hpos _) v (fun p hp => hs p (by simp [hp])) hvwf n
    second rest hvtokens (fun _ => by rw [hn])
  rw [← hdoc] at hv' hnames hstart hend ⊢
  have hlexemes : v.filterMap lexeme? = second.lexeme :: rest.map Token.lexeme := by
    rw [← map_lexeme_tokensAt, hvtokens, List.map_cons]
  have houtline : n.outline.lexemes = Prod.map id renamedOperand second.lexeme ::
      (rest.map Token.lexeme).map (Prod.map id renamedOperand) := by
    rw [hn]
    simp [Node.outline, Node.tokens, Token.lexeme, Token.rename]
  have hrevised := ofLexemes_renumber doc hkind.1 houtline hsecond hinstruction
  rw [← List.map_cons, ← hlexemes] at hrevised
  have hedits : editsFrom doc k [l, n] =
      (if isDropped doc l k then [.delete ⟨Position.origin.advance a,
        (Position.origin.advance a).advance (u.flatMap text)⟩] else []) ++
        (replacement? doc n).toList := by
    rw [editsFrom, editsFrom, editsFrom, nodeEdits_of_label hkind.2.2,
      nodeEdits_of_not_label hkind.2.1, hstart l (by rw [hl]; rfl), hend l (by rw [hl]),
      List.append_nil]
  by_cases hdropped : isDropped doc l k = true
  · rw [if_pos hdropped] at hedits
    refine ⟨v', .drop_label hnodes hkind.2.2 (Bool.and_eq_true_iff.1 hdropped).2 hu hv' hedits ?_⟩
    have hold : ¬ StartsWithOldName doc n := hnames l n hnodes hkind.2.2 hkind.1
    rw [hdoc, List.flatMap_append, List.append_assoc (u.flatMap text),
      ← List.append_assoc a] at hold
    rw [← Position.advance_append] at hvtokens
    obtain ⟨hrename, hself⟩ := rename_of_not_startsWithOldName hvwf hvtokens (by rw [hn])
      (by rw [hn]) hold
    have hopcode : n.opcode = second.lexeme.2 := by
      rw [hn]
      exact hself
    rw [hv'.lexemes, hlexemes, rename_renumber hopcode, ← hlexemes, hrename, hrevised]
  · rw [if_neg hdropped] at hedits
    refine ⟨u ++ v', .keep_label hnodes (fun p hp => hs p (by simp [hp])) hv' hedits ?_⟩
    have hlrevised : revised doc l = ⟨.label, [label.lexeme]⟩ := by
      rw [revised, renumber,
        labelled?_of_not_instruction (Node.isInstruction_of_isLabel hkind.2.2), hl]
      rfl
    rw [List.filterMap_append, hulex, hv'.lexemes, List.singleton_append,
      rename_cons_of_ne_op (ne_op_of_isLabel hlabel), map_renumber, hlrevised, ← hrevised]
    obtain ⟨ys, hys⟩ := exists_renumber_cons doc n (Prod.map id renamedOperand second.lexeme)
      ((rest.map Token.lexeme).map (Prod.map id renamedOperand))
    rw [hlexemes, List.map_cons, hys]
    exact ofLexemes_label (by exact hcomment) (by exact hlabel) (by exact hsecond) ys

/-- A stretch of which the only node is a label that is deleted, with the line break behind it. -/
abbrev TakesLine (doc : Document) := LineDeleted (Renumbered doc) doc

/-- A label alone is deleted or not. -/
theorem exists_revision_label {a b : Text} (ha : ∀ c ∈ a.getLast?, isBlank c = false)
    (hb : ∀ c ∈ b.head?, isBlank c = false) (k : Nat) {s : List Piece} (hs : Stretch s)
    (hwf : ∀ p ∈ s, p.WellFormed) {label : Token} {rest : List Token}
    (htokens : tokensAt (Position.origin.advance a) s = label :: rest) {n : Node}
    (hnodes : nodesAt (Position.origin.advance a) s = [n]) (hlabel : n.isLabel = true)
    (hhead : n.head = label)
    (hstop : n.stop = (Position.origin.advance a).advance (s.flatMap text)) :
    (∃ s', Revision (.ofText uri (a ++ (s.flatMap text ++ b))) (Position.origin.advance a) k
        s s') ∨
      ∃ returns more, b = returns ++ '\n' :: more ∧
        TakesLine (.ofText uri (a ++ (s.flatMap text ++ b))) (Position.origin.advance a) k s
          returns := by
  have hpos := Position.character_origin_advance a
  have hinstruction := Node.isInstruction_of_isLabel hlabel
  have hstart := @lineStart_of_stretch uri a ha s hs hwf _ _ htokens n (by rw [← hhead]; rfl) b
  rw [← Position.advance_append] at hstop
  have hend := @lineEnd_eq_or uri (a ++ s.flatMap text) [] b (by simp) hb n hstop
  simp only [List.nil_append, List.append_nil, List.append_assoc] at hend
  obtain ⟨doc, hdoc⟩ : ∃ doc, doc = Document.ofText uri (a ++ (s.flatMap text ++ b)) := ⟨_, rfl⟩
  rw [← hdoc] at hstart hend ⊢
  have hedits : editsFrom doc k (nodesAt (Position.origin.advance a) s) =
      if isDropped doc n k then [.delete ⟨lineStart doc n, lineEnd doc n⟩] else [] := by
    rw [hnodes, editsFrom, editsFrom, nodeEdits_of_label hlabel, List.append_nil]
  by_cases hdropped : isDropped doc n k = true
  · rw [if_pos hdropped, hstart] at hedits
    have hname := hdropped
    simp only [isDropped, Bool.and_eq_true] at hname
    have hnone : Renumbered doc (nodesAt (Position.origin.advance a) s) [] := by
      rw [hnodes]
      exact .drop hlabel hname.2 .nil
    have htext := text_ne_nil_of_tokensAt hpos hs hwf htokens
    -- The deletion ends at the end of the stretch, or takes the line break along.
    rcases hend with hend | ⟨returns, more, hmore, hreturns, hend⟩
    · left
      refine ⟨[], by simp [Stretch], fun tail h => h.right, ?_, hnone⟩
      rw [hedits, hend, Position.advance_append]
      exact .changed _ htext []
    · right
      refine ⟨returns, more, hmore, hreturns, hnone, ?_⟩
      rw [hedits, hend, Position.advance_append]
      exact .changed _ (by simp) []
  · rw [if_neg hdropped] at hedits
    refine .inl ⟨s, .kept hs ?_ hedits⟩
    rw [hnodes]
    intro m hm
    obtain rfl := List.mem_singleton.1 hm
    exact labelled?_of_not_instruction hinstruction

/-- A label with nothing but a comment behind it is one node. -/
theorem nodesAt_of_label_alone {here : Position} (hpos : 0 ≤ here.character) {s : List Piece}
    (hs : Stretch s) {label : Token} {rest : List Token}
    (htokens : tokensAt here s = label :: rest) (hcomment : label.isComment = false)
    (hlabel : label.isLabel = true) (halone : ∀ second ∈ rest.head?, second.isComment = true) :
    nodesAt here s =
      [⟨.label, label, renameTail label rest, here.advance (s.flatMap text)⟩] := by
  rw [nodesAt_of_tokensAt hpos hs htokens, renameTail, if_neg (ne_op_of_isLabel hlabel)]
  cases rest with
  | nil =>
    rw [List.map_nil, Node.ofTokens]
    simp [hcomment, hlabel]
  | cons second rest =>
    have hsecond : (second.rename renamedOperand).isComment = true := halone second rfl
    rw [List.map_cons, Node.ofTokens]
    simp [hcomment, hlabel, hsecond]

/-- A stretch that is a comment is left alone. -/
theorem Revision.comment {doc : Document} {here : Position} (hpos : 0 ≤ here.character) (k : Nat)
    {s : List Piece} (hs : Stretch s) {first : Token} {rest : List Token}
    (htokens : tokensAt here s = first :: rest) (hcomment : first.isComment = true) :
    Revision doc here k s s := by
  have hnodes : nodesAt here s =
      [⟨.comment, first, renameTail first rest, here.advance (s.flatMap text)⟩] := by
    rw [nodesAt_of_tokensAt hpos hs htokens, Node.ofTokens.eq_def]
    simp [hcomment]
  refine .kept hs ?_ ?_
  · rw [hnodes]
    intro n hn
    obtain rfl := List.mem_singleton.1 hn
    exact labelled?_of_not_instruction rfl
  · rw [hnodes, editsFrom, editsFrom, nodeEdits_of_not_label rfl, replacement?,
      labelled?_of_not_instruction rfl]
    rfl

/-- Every stretch that can be numbered is revised, or is deleted with the line break behind it. -/
theorem exists_revision {a b : Text} (ha : ∀ c ∈ a.getLast?, isBlank c = false)
    (hb : ∀ c ∈ b.head?, isBlank c = false) (k : Nat) {s : List Piece} (hs : Stretch s)
    (hwf : ∀ p ∈ s, p.WellFormed)
    (hstatement : ∀ st ∈ statementsAt (Position.origin.advance a) [] s,
      Numberable (.ofText uri (a ++ (s.flatMap text ++ b))) st) :
    (∃ s', Revision (.ofText uri (a ++ (s.flatMap text ++ b))) (Position.origin.advance a) k
        s s') ∨
      ∃ returns more, b = returns ++ '\n' :: more ∧
        TakesLine (.ofText uri (a ++ (s.flatMap text ++ b))) (Position.origin.advance a) k s
          returns := by
  have hpos := Position.character_origin_advance a
  cases htokens : tokensAt (Position.origin.advance a) s with
  | nil =>
    have hnone : nodesAt (Position.origin.advance a) s = [] := by
      rw [nodesAt_of_stretch _ hs, htokens]
      rfl
    exact .inl ⟨s, .kept hs (by simp [hnone]) (by rw [hnone]; rfl)⟩
  | cons head tail =>
    -- By the first token: a comment, an instruction, or a label with what follows it.
    cases hcomment : head.isComment with
    | true => exact .inl ⟨s, .comment hpos k hs htokens hcomment⟩
    | false =>
    cases hlabel : head.isLabel with
    | false => exact .inl (exists_revision_instruction hpos k hs hwf htokens hcomment hlabel)
    | true =>
    by_cases halone : ∀ second ∈ tail.head?, second.isComment = true
    · have hnode := nodesAt_of_label_alone hpos hs htokens hcomment hlabel halone
      exact exists_revision_label ha hb k hs hwf htokens hnode rfl rfl rfl
    · -- Something else follows the label, so it is in front of an instruction.
      obtain ⟨second, rest, rfl, hsecond⟩ : ∃ second rest, tail = second :: rest ∧
          second.isComment = false := by
        cases tail with
        | nil => simp at halone
        | cons second rest => exact ⟨second, rest, rfl, by simpa using halone⟩
      have hnodes := nodesAt_of_tokensAt hpos hs htokens
      rw [statementsAt_of_stretch _ _ hs, List.nil_append, htokens,
        closeAt_cons (Position.character_advance_nonneg hpos _)] at hstatement
      have hnumberable := hstatement _ List.mem_cons_self
      refine .inl (exists_revision_chained ha k hs hwf htokens hcomment hlabel hsecond ?_ ?_)
      · rw [hnodes]
        exact hnumberable.labels
      · intro l n hln hl hn
        exact hnumberable.names [] l n [] (hnodes.symm.trans hln) hl hn

/-! ### The whole text -/

/-- The edits of a text in which all statements can be numbered are made, and the new text is read
as the nodes of the old one, where they are numbered. -/
theorem exists_applyAll_toNumbers
    (hstatements : ∀ s ∈ Statement.ofText t, Numberable (.ofText uri t) s) :
    ∃ out, Edit.applyAll (.ofText uri t) (toNumbers (.ofText uri t)).edits = .ok out ∧
      Renumbered (.ofText uri t) (Node.ofText t) ((Node.ofText out).map Node.outline) := by
  refine exists_applyAll_of_revisable (fun _ _ _ _ h h' => h.append h') ?_ hstatements
  rintro a b k s ha hb hs hwf rfl -
  exact exists_revision ha hb k hs hwf

end LogicAsm.Jumps
