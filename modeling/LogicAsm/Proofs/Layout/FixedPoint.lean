import LogicAsm.Proofs.Layout.Rereading

/-!
# A second layout

The nodes of a layout stand where the layout put them, so that a second layout finds the same blocks
and the same distances, and puts them there again (`settled_canonical`).  What it may still change
is what the nodes say.

## Names of old in a layout

A statement is read under its new names, but the operation of `op` is looked for behind the first
token only.  Behind a label it is not the first: `loop: op atan2 …` keeps the old name.  The layout
puts the instruction on a line of its own, where the name changes when it is read again.  These are
all texts with a second layout unlike the first one (`canonical_idempotent_iff`), and as no label
stands in front of an instruction then, there is no third one.
-/

namespace LogicAsm.Layout

open Piece

/-! ### Places are kept -/

/-- A placed node that was placed before: at the same place, with its tokens under their new
names. -/
structure Settled (p q : Placement) : Prop where
  breaks : q.breaks = p.breaks
  indented : q.indented = p.indented
  outline : q.node.outline = ⟨p.node.kind, Lexeme.rename p.node.outline.lexemes⟩

/-- A unit of indentation that is not empty shows which nodes are indented. -/
theorem Options.unit_ne_nil {o : Options} (h : o.insertSpaces = false ∨ 1 ≤ o.tabSize) :
    o.unit ≠ [] := by
  unfold unit
  split
  · next hspaces =>
    have htab : 1 ≤ o.tabSize := h.resolve_left (by simp [hspaces])
    intro hnil
    have hlength := congrArg List.length hnil
    rw [List.length_replicate, List.length_nil] at hlength
    omega
  · simp

theorem atMargin_eq_not_indented {o : Options} (hunit : o.unit ≠ []) {p : Placement} {n : Node}
    {line : Int} (hstart : n.start = ⟨line, (p.indentation o).length⟩) :
    atMargin n = !p.indented := by
  rw [atMargin, hstart, Placement.indentation]
  cases p.indented with
  | false => rfl
  | true =>
    have hlength : o.unit.length ≠ 0 := fun h => hunit (List.eq_nil_of_length_eq_zero h)
    simp [hlength]

theorem isComment_eq_of_kind {n m : Node} (h : m.kind = n.kind) : m.isComment = n.isComment := by
  rw [Node.isComment, Node.isComment, h]

/-- Reading a layout again and placing its nodes with the same marks keeps their places. -/
theorem settled_placeMarked {o : Options} (hunit : o.unit ≠ []) {line there : Int}
    {nodes : List Node} {ms : List (Nat × Block)} {ss : List Statement}
    (h : Rereads o there (placeMarked line nodes ms) ss) :
    List.Forall₂ Settled (placeMarked line nodes ms)
      (placeMarked there (ss.flatMap Node.ofStatement) ms) := by
  induction nodes generalizing line there ms ss with
  | nil =>
    have hnil : placeMarked line [] ms = [] := by simp [placeMarked]
    rw [hnil] at h ⊢
    cases h
    simp [placeMarked]
  | cons n ns ih =>
    cases ms with
    | nil =>
      cases h
      exact .nil
    | cons m ms =>
      obtain ⟨i, b⟩ := m
      rw [placeMarked] at h ⊢
      cases h with
      | @cons _ _ _ s ss m node outline start rest =>
        have hkind : m.kind = n.kind := congrArg Outline.kind outline
        have hline : m.line = there + (place b i line n).breaks := congrArg Position.line start
        rw [List.flatMap_cons, node, List.singleton_append, placeMarked, hline]
        refine .cons ⟨?_, ?_, outline⟩ (ih rest)
        · -- The distance is the number of breaks, which was between the bounds before.
          obtain ⟨hlow, hhigh⟩ := place_breaks b i line n
          have hgap : m.line - there = (place b i line n).breaks := by omega
          show (clamp (m.line - there) (gapBounds i b).1 (gapBounds i b).2).toNat = _
          rw [hgap, clamp_eq_self hlow hhigh, Int.toNat_natCast]
        -- A comment is at the margin of the layout if and only if it was not indented.
        · show (b.indented || (m.isComment && !atMargin m)) = _
          rw [atMargin_eq_not_indented hunit start, isComment_eq_of_kind hkind, Bool.not_not]
          show (b.indented || (n.isComment && (b.indented || (n.isComment && !atMargin n)))) =
            (b.indented || (n.isComment && !atMargin n))
          cases b.indented <;> cases n.isComment <;> rfl

/-- A placed node lies in the block that it is marked with. -/
theorem getElem?_placeMarked {line : Int} {nodes : List Node} {ms : List (Nat × Block)} {k : Nat}
    {p : Placement} (h : (placeMarked line nodes ms)[k]? = some p) :
    ∃ n m, nodes[k]? = some n ∧ ms[k]? = some m ∧
      p.indented = (m.2.indented || (n.isComment && !atMargin n)) := by
  induction nodes generalizing line ms k with
  | nil => simp [placeMarked] at h
  | cons n ns ih =>
    cases ms with
    | nil => simp [placeMarked] at h
    | cons m ms =>
      rw [placeMarked] at h
      cases k with
      | zero =>
        obtain rfl := Option.some.inj h
        exact ⟨n, m, rfl, rfl, rfl⟩
      | succ k => exact ih h

/-- A node that is read where another one was placed. -/
def ReadAt (o : Options) (p : Placement) (m : Node) : Prop :=
  m.kind = p.node.kind ∧ ∃ line, m.start = ⟨line, (p.indentation o).length⟩

/-- The nodes of a layout, one by one. -/
theorem Rereads.forall₂_readAt {o : Options} {line : Int} {ps : List Placement}
    {ss : List Statement} (h : Rereads o line ps ss) :
    List.Forall₂ (ReadAt o) ps (ss.flatMap Node.ofStatement) := by
  induction h with
  | nil => exact .nil
  | cons node outline start _ ih =>
    rw [List.flatMap_cons, node]
    exact .cons ⟨congrArg Outline.kind outline, _, start⟩ ih

theorem rel_of_getElem? {α β : Type} {r : α → β → Prop} {l : List α} {l' : List β}
    (h : List.Forall₂ r l l') {i : Nat} {a : α} {b : β} (ha : l[i]? = some a)
    (hb : l'[i]? = some b) : r a b := by
  obtain ⟨hi, rfl⟩ := List.getElem?_eq_some_iff.1 ha
  obtain ⟨hi', rfl⟩ := List.getElem?_eq_some_iff.1 hb
  exact h.get hi hi'

/-- A node that is read from a layout is at the margin, unless its block or itself is indented. -/
theorem atMargin_of_readAt {o : Options} (hunit : o.unit ≠ []) {nodes others : List Node}
    (h : List.Forall₂ (ReadAt o) (placements nodes) others) {i : Nat} {n m : Node}
    (hn : nodes[i]? = some n) (hm : others[i]? = some m) :
    ∃ b, (marks (blocks nodes))[i]? = some b ∧ m.kind = n.kind ∧
      atMargin m = !(b.2.indented || (n.isComment && !atMargin n)) := by
  have hnode : ((placements nodes).map Placement.node)[i]? = some n := by
    rwa [map_node_placements]
  rw [List.getElem?_map, Option.map_eq_some_iff] at hnode
  obtain ⟨p, hp, rfl⟩ := hnode
  obtain ⟨hkind, line, hstart⟩ := rel_of_getElem? h hp hm
  rw [placements_eq] at hp
  obtain ⟨n, b, hn', hb, hindented⟩ := getElem?_placeMarked hp
  obtain rfl : n = p.node := Option.some.inj (hn'.symm.trans hn)
  refine ⟨b, hb, hkind, ?_⟩
  rw [atMargin_eq_not_indented hunit hstart, hindented]

/-- A layout has the blocks of the nodes that it was made of. -/
theorem blocks_of_readAt {o : Options} (hunit : o.unit ≠ []) {nodes others : List Node}
    (h : List.Forall₂ (ReadAt o) (placements nodes) others) : blocks others = blocks nodes := by
  have hlength : nodes.length = others.length := by
    rw [← h.length_eq, ← List.length_map Placement.node, map_node_placements]
  refine blocks_congr (List.forall₂_of_length_eq_of_get hlength ?_) ?_
  · intro i h₁ h₂
    obtain ⟨b, -, hkind, hmargin⟩ := @atMargin_of_readAt o hunit nodes others h i
      (nodes.get ⟨i, h₁⟩) (others.get ⟨i, h₂⟩) (List.getElem?_eq_getElem h₁)
      (List.getElem?_eq_getElem h₂)
    refine ⟨isComment_eq_of_kind hkind, ?_, ?_⟩
    · rw [Node.isLabel, Node.isLabel, hkind]
    · intro hcomment hat
      -- A comment off the margin is always indented, so this one stood there before.
      rw [hat, hcomment] at hmargin
      cases hn : atMargin (nodes.get ⟨i, h₁⟩) with
      | true => rfl
      | false =>
        rw [hn] at hmargin
        simp at hmargin
  · intro i n m b hn hm hb hflat hcomment hat
    obtain ⟨b', hb', -, hmargin⟩ := atMargin_of_readAt hunit h hn hm
    obtain rfl : (i, b) = b' := Option.some.inj (hb.symm.trans hb')
    rw [hmargin, hflat, hcomment, hat]
    rfl

/-- A second layout puts all nodes where the first one put them. -/
theorem settled_canonical {o : Options} (hunit : o.unit ≠ []) (t : Text) :
    List.Forall₂ Settled (placements (Node.ofText t))
      (placements (Node.ofText (canonical o t))) := by
  have hreread := rereads_canonical o t
  have hblocks := blocks_of_readAt hunit hreread.forall₂_readAt
  have hnodes : Node.ofText (canonical o t) =
      (Statement.ofText (canonical o t)).flatMap Node.ofStatement := rfl
  rw [placements_eq] at hreread
  rw [placements_eq, placements_eq, hnodes, hblocks]
  exact settled_placeMarked hunit hreread

/-! ### What a second layout changes -/

theorem nodeText_eq (n : Node) :
    nodeText n = List.intercalate [' '] (n.outline.lexemes.map Prod.snd) := by
  rw [nodeText, Node.outline, List.map_map]
  rfl

/-- Nodes that keep their names keep the layout. -/
theorem flatMap_text_of_settled {o : Options} {ps qs : List Placement}
    (h : List.Forall₂ Settled ps qs)
    (hnames : ∀ p ∈ ps, Lexeme.rename p.node.outline.lexemes = p.node.outline.lexemes) :
    qs.flatMap (·.text o) = ps.flatMap (·.text o) := by
  induction h with
  | nil => rfl
  | @cons p q ps qs hpq _ ih =>
    have hlexemes : q.node.outline.lexemes = p.node.outline.lexemes :=
      (congrArg Outline.lexemes hpq.outline).trans (hnames p (by simp))
    have htext : q.text o = p.text o := by
      rw [Placement.text, Placement.text, hpq.breaks, hpq.indented, nodeText_eq, nodeText_eq,
        hlexemes]
    rw [List.flatMap_cons, List.flatMap_cons, htext, ih fun p' hp' => hnames p' (by simp [hp'])]

/-- What the pieces of a placed node say is what the node says. -/
theorem filterMap_lexeme?_pieces (o : Options) {p : Placement}
    (h : Lexeme.Writable p.node.outline.lexemes) :
    (p.pieces o).filterMap lexeme? = p.node.outline.lexemes := by
  have hnewlines : (List.replicate p.breaks (Piece.separator '\n')).filterMap lexeme? = [] := by
    simp [lexeme?]
  have hblanks : ((p.indentation o).map Piece.blank).filterMap lexeme? = [] := by
    simp [lexeme?]
  rw [Placement.pieces, Placement.written, List.filterMap_append, List.filterMap_append, hnewlines,
    hblanks, filterMap_lexeme?_joined h]
  rfl

/-- What a layout says is what its nodes say. -/
theorem filterMap_lexeme?_ofText_canonical (o : Options) (t : Text) :
    (Piece.ofText (canonical o t)).filterMap lexeme? =
      (placements (Node.ofText t)).flatMap fun p => p.node.outline.lexemes := by
  have hfinal : o.finalPieces.filterMap lexeme? = [] := by
    unfold Options.finalPieces
    split <;> rfl
  rw [ofText_canonical, List.filterMap_append, hfinal, List.append_nil, List.filterMap_flatMap]
  apply List.flatMap_congr
  intro p hp
  exact filterMap_lexeme?_pieces o ((placed_placements t).writable p hp)

theorem length_rename (xs : List Lexeme) : (Lexeme.rename xs).length = xs.length := by
  cases xs with
  | nil => rfl
  | cons head tail =>
    have hlength := congrArg List.length (Lexeme.map_fst_renameTail head tail)
    simpa [Lexeme.rename] using hlength

/-- If all nodes together say the same under their new names, then each one does. -/
theorem rename_eq_self_of_settled {ps qs : List Placement} (h : List.Forall₂ Settled ps qs)
    (hsame : (qs.flatMap fun q => q.node.outline.lexemes) =
      ps.flatMap fun p => p.node.outline.lexemes) :
    ∀ p ∈ ps, Lexeme.rename p.node.outline.lexemes = p.node.outline.lexemes := by
  induction h with
  | nil => simp
  | @cons p q ps qs hpq _ ih =>
    have hlexemes : q.node.outline.lexemes = Lexeme.rename p.node.outline.lexemes :=
      congrArg Outline.lexemes hpq.outline
    rw [List.flatMap_cons, List.flatMap_cons, hlexemes] at hsame
    obtain ⟨hfirst, hrest⟩ := List.append_inj hsame (length_rename _)
    intro p' hp'
    rcases List.mem_cons.1 hp' with rfl | hp'
    · exact hfirst
    · exact ih hrest p' hp'

/-- A second layout is the first one if and only if no node has a new name any more. -/
theorem canonical_canonical_eq_iff {o : Options} (hunit : o.unit ≠ []) (t : Text) :
    canonical o (canonical o t) = canonical o t ↔
      ∀ n ∈ Node.ofText t, Lexeme.rename n.outline.lexemes = n.outline.lexemes := by
  have hsettled := settled_canonical hunit t
  have hnodes := map_node_placements (Node.ofText t)
  constructor
  · intro hsame n hn
    have hlexemes := filterMap_lexeme?_ofText_canonical o (canonical o t)
    rw [hsame, filterMap_lexeme?_ofText_canonical o t] at hlexemes
    rw [← hnodes] at hn
    obtain ⟨p, hp, rfl⟩ := List.mem_map.1 hn
    exact rename_eq_self_of_settled hsettled hlexemes.symm p hp
  · intro hnames
    rw [canonical, render, flatMap_text_of_settled hsettled]
    · rfl
    · intro p hp
      apply hnames
      rw [← hnodes]
      exact List.mem_map_of_mem hp

end LogicAsm.Layout

/-! ### Names that a statement keeps -/

namespace LogicAsm.Lexeme

/-- The lexemes of an instruction `op` with an operation under its old name. -/
def IsOldOperation (xs : List Lexeme) : Prop :=
  ∃ head second rest, xs = head :: second :: rest ∧ head.2 = "op".toList ∧
    (second.2 = "atan2".toList ∨ second.2 = "dst".toList)

theorem renamedOperand_renamedOperand (w : Text) :
    renamedOperand (renamedOperand w) = renamedOperand w := by
  by_cases h₁ : w = "configure".toList
  · subst h₁
    decide
  by_cases h₂ : w = "@configure".toList
  · subst h₂
    decide
  have hself : renamedOperand w = w := by simp only [renamedOperand, h₁, h₂, if_false]
  rw [hself, hself]

/-- A new name of an operation is neither an old one nor an operand with another name. -/
theorem renamedOperand_renamedOperation {w : Text} (h : renamedOperand w = w) :
    renamedOperand (renamedOperation w) = renamedOperation w := by
  rcases renamedOperation_eq_or w with hself | hmem
  · rw [hself, h]
  · have hnew : ∀ r ∈ newNames, renamedOperand r.2 = r.2 := by decide
    exact hnew _ hmem

theorem not_old_renamed (w : Text) :
    ¬ (renamedOperand (renamedOperation w) = "atan2".toList ∨
      renamedOperand (renamedOperation w) = "dst".toList) := by
  have hnew : ∀ r ∈ newNames, ¬ (r.2 = "atan2".toList ∨ r.2 = "dst".toList) := by decide
  rcases renamedOperand_eq_or (renamedOperation w) with hself | hmem
  · rw [hself]
    rcases renamedOperation_eq_or w with hsame | hmem
    · rw [hsame]
      exact (renamedOperation_eq_self_iff w).1 hsame
    · exact hnew _ hmem
  · exact hnew _ hmem

theorem map_renamedOperand_eq_self {xs : List Lexeme} (h : ∀ x ∈ xs, renamedOperand x.2 = x.2) :
    xs.map (Prod.map id renamedOperand) = xs := by
  calc xs.map (Prod.map id renamedOperand) = xs.map id :=
        List.map_congr_left fun x hx => Prod.ext rfl (h x hx)
    _ = xs := List.map_id xs

/-- Lexemes whose operands have their new names change only if an operation has its old one. -/
theorem rename_eq_self_iff {xs : List Lexeme} (h : ∀ x ∈ xs.tail, renamedOperand x.2 = x.2) :
    rename xs = xs ↔ ¬ IsOldOperation xs := by
  cases xs with
  | nil => exact iff_of_true rfl (by rintro ⟨_, _, _, hxs, _⟩; cases hxs)
  | cons head tail =>
    cases tail with
    | nil =>
      refine iff_of_true ?_ (by rintro ⟨_, _, _, hxs, _⟩; cases hxs)
      simp [rename, renameTail]
    | cons second rest =>
      have hold : IsOldOperation (head :: second :: rest) ↔
          head.2 = "op".toList ∧ ¬ renamedOperation second.2 = second.2 := by
        rw [renamedOperation_eq_self_iff, not_not]
        constructor
        · rintro ⟨_, _, _, hxs, hop, hname⟩
          cases hxs
          exact ⟨hop, hname⟩
        · rintro ⟨hop, hname⟩
          exact ⟨head, second, rest, rfl, hop, hname⟩
      have hsecond : renamedOperand second.2 = second.2 := h second (by simp)
      have hrest : rest.map (Prod.map id renamedOperand) = rest :=
        map_renamedOperand_eq_self fun x hx => h x (by simp [hx])
      rw [hold]
      -- The operands are new, so `op` changes its second lexeme at most, and others change nothing.
      by_cases hop : head.2 = "op".toList
      · have hrename : rename (head :: second :: rest) =
            head :: (second.1, renamedOperation second.2) :: rest := by
          rw [rename, renameTail, if_pos hop, List.modifyHead_cons, List.map_cons, hrest]
          simp [Prod.map, renamedOperand_renamedOperation hsecond]
        rw [hrename]
        constructor
        · rintro hsame ⟨-, hchanged⟩
          rw [List.cons.injEq, List.cons.injEq] at hsame
          exact hchanged (congrArg Prod.snd hsame.2.1)
        · intro hkept
          have hsame : renamedOperation second.2 = second.2 := by
            by_contra hchanged
            exact hkept ⟨hop, hchanged⟩
          rw [hsame]
      · refine iff_of_true ?_ fun hold => hop hold.1
        rw [rename, renameTail, if_neg hop]
        exact congrArg (head :: ·) (map_renamedOperand_eq_self h)

/-- Behind the first lexeme of a statement, operands have their new names. -/
theorem renamedOperand_of_mem_rename {xs : List Lexeme} :
    ∀ x ∈ (rename xs).tail, renamedOperand x.2 = x.2 := by
  intro x hx
  cases xs with
  | nil => cases hx
  | cons head tail =>
    obtain ⟨y, -, rfl⟩ := List.mem_map.1 hx
    exact renamedOperand_renamedOperand y.2

theorem lexemes_of_head? {x : Lexeme} {xs : List Lexeme} :
    ∀ o ∈ (Outline.ofLexemes (x :: xs)).head?,
      o.lexemes.head? = some x ∧ (x.isLabel = false → o.lexemes = x :: xs) := by
  intro o ho
  rw [Outline.ofLexemes.eq_def] at ho
  simp only at ho
  split at ho
  · cases ho
    simp
  split at ho
  · next hlabel =>
    refine ⟨?_, fun h => absurd hlabel (by simp [h])⟩
    split at ho
    · cases ho
      rfl
    · split at ho <;> cases ho <;> rfl
  · cases ho
    simp

/-- The first node of a statement has its new names. -/
theorem not_isOldOperation_of_head? {xs : List Lexeme} :
    ∀ o ∈ (Outline.ofLexemes (rename xs)).head?, ¬ IsOldOperation o.lexemes := by
  rintro o ho ⟨head, second, rest, hlexemes, hop, hname⟩
  cases xs with
  | nil => cases ho
  | cons first tail =>
    obtain ⟨hfirst, hall⟩ := lexemes_of_head? o ho
    obtain rfl : head = first := by simpa [hlexemes] using hfirst
    -- `op` is no label, so the node is all of the statement.
    have hlabel : head.isLabel = false := by
      rw [isLabel, hop]
      simp [Text.endsWith]
    have hstatement := hall hlabel
    rw [hlexemes, List.cons.injEq, renameTail, if_pos hop] at hstatement
    cases tail with
    | nil => cases hstatement.2
    | cons x xs =>
      obtain rfl : second = (x.1, renamedOperand (renamedOperation x.2)) := by
        have hsecond := hstatement.2
        rw [List.modifyHead_cons, List.map_cons, List.cons.injEq] at hsecond
        exact hsecond.1
      exact not_old_renamed x.2 hname

end LogicAsm.Lexeme

namespace LogicAsm.Layout

open Piece

/-! ### Instructions behind a label -/

/-- A node of a statement is the first one, or it stands behind a label. -/
theorem head?_or_behind_label {stop : Position} {ts : List Token} :
    ∀ n ∈ Node.ofTokens stop ts, n ∈ (Node.ofTokens stop ts).head? ∨
      ∃ before label after, Node.ofTokens stop ts = before ++ label :: n :: after ∧
        label.isLabel = true := by
  fun_induction Node.ofTokens stop ts with
  | case5 head hc hl second rest hs ih =>
    intro n hn
    rcases List.mem_cons.1 hn with rfl | hn
    · exact .inl rfl
    right
    rcases ih n hn with hfirst | ⟨before, label, after, hnodes, hlabel⟩
    · obtain ⟨after, hafter⟩ := List.head?_eq_some_iff.1 hfirst
      exact ⟨[], _, after, by rw [hafter]; rfl, rfl⟩
    · exact ⟨_ :: before, label, after, by rw [hnodes]; rfl, hlabel⟩
  | case1 => simp
  | _ =>
    intro n hn
    exact .inl (List.mem_singleton.1 hn ▸ rfl)

/-- Whether a text has an instruction `op` behind a label that names its operation as of old. -/
def HasChainedOldOperation (t : Text) : Prop :=
  ∃ s ∈ Statement.ofText t, ∃ before label n after,
    Node.ofStatement s = before ++ label :: n :: after ∧ label.isLabel = true ∧
      n.isInstruction = true ∧ n.opcode = "op".toList ∧
      ∃ second ∈ n.tail.head?,
        second.content = "atan2".toList ∨ second.content = "dst".toList

/-- The nodes of a statement of a text are those of lexemes under their new names. -/
theorem exists_map_outline_ofStatement {t : Text} {s : Statement} (hs : s ∈ Statement.ofText t) :
    ∃ xs, (Node.ofStatement s).map Node.outline = Outline.ofLexemes (Lexeme.rename xs) := by
  rw [Statement.ofText_eq] at hs
  obtain ⟨tail, htail, -⟩ := exists_of_mem_statementsAt s hs
  refine ⟨(s.head :: tail).map Token.lexeme, ?_⟩
  rw [Node.ofStatement, Node.map_outline_ofTokens, Statement.tokens, htail, List.map_cons,
    map_lexeme_renameTail]
  rfl

/-- An `op` is an instruction. -/
theorem isInstruction_of_opcode {t : Text} {n : Node} (hn : n ∈ Node.ofText t)
    (hop : n.opcode = "op".toList) : n.isInstruction = true := by
  obtain ⟨hwritable, xs, hxs⟩ := Node.writable_ofText t n hn
  have hself := Outline.ofLexemes_lexemes _ hxs
  have hlexemes : n.outline.lexemes = n.head.lexeme :: n.tail.map Token.lexeme := rfl
  -- The word `op` is an identifier: no string, comment or literal is written so.
  have hhead : n.head.lexeme = (.identifier, "op".toList) := by
    have hcontent : n.head.lexeme.2 = "op".toList := hop
    obtain ⟨p, -, hlex⟩ := hwritable.wellFormed n.head.lexeme (by simp [hlexemes])
    have htext := (text_of_lexeme? hlex).trans hcontent
    cases p with
    | word w =>
      obtain rfl : w = "op".toList := htext
      rw [lexeme?] at hlex
      rw [← Option.some.inj hlex]
      decide
    | quoted body closed => cases htext
    | comment body => cases htext
    | blank c => cases htext
    | separator c => cases htext
  rw [hlexemes, hhead, Outline.ofLexemes.eq_def] at hself
  have hkind : NodeKind.instruction = n.kind := by
    have hone :
      [(⟨.instruction, (.identifier, "op".toList) :: n.tail.map Token.lexeme⟩ : Outline)] =
      [n.outline] := hself
    exact congrArg Outline.kind (List.cons.inj hone).1
  rw [Node.isInstruction, ← hkind]
  rfl

/-- Names change in a second layout if and only if a label stands in front of an old one. -/
theorem forall_rename_eq_self_iff (t : Text) :
    (∀ n ∈ Node.ofText t, Lexeme.rename n.outline.lexemes = n.outline.lexemes) ↔
      ¬ HasChainedOldOperation t := by
  -- Behind the first token of a statement all operands are new, so one name is left.
  have hself {s : Statement} (hs : s ∈ Statement.ofText t) {n : Node}
      (hn : n ∈ Node.ofStatement s) :
      Lexeme.rename n.outline.lexemes = n.outline.lexemes ↔
        ¬ Lexeme.IsOldOperation n.outline.lexemes := by
    obtain ⟨xs, hxs⟩ := exists_map_outline_ofStatement hs
    have ho : n.outline ∈ Outline.ofLexemes (Lexeme.rename xs) := hxs ▸ List.mem_map_of_mem hn
    obtain ⟨before, after, hinfix⟩ := Outline.isInfix_of_mem_ofLexemes _ ho
    refine Lexeme.rename_eq_self_iff fun x hx => @Lexeme.renamedOperand_of_mem_rename xs x ?_
    rw [← hinfix]
    cases before with
    | nil => exact List.mem_append_left after hx
    | cons b before => simp [List.mem_of_mem_tail hx]
  constructor
  · rintro hnames ⟨s, hs, before, label, n, after, hnodes, -, -, hop, second, hsecond, hold⟩
    have hn : n ∈ Node.ofStatement s := by simp [hnodes]
    refine (hself hs hn).1 (hnames n (List.mem_flatMap.2 ⟨s, hs, hn⟩)) ?_
    obtain ⟨rest, hrest⟩ := List.head?_eq_some_iff.1 hsecond
    refine ⟨n.head.lexeme, second.lexeme, rest.map Token.lexeme, ?_, hop, hold⟩
    rw [Node.outline, Node.tokens, hrest]
    rfl
  · intro hnone n hn
    obtain ⟨s, hs, hns⟩ := List.mem_flatMap.1 hn
    rw [hself hs hns]
    intro hold
    obtain ⟨xs, hxs⟩ := exists_map_outline_ofStatement hs
    rcases head?_or_behind_label n hns with hfirst | ⟨before, label, after, hnodes, hlabel⟩
    · refine @Lexeme.not_isOldOperation_of_head? xs n.outline ?_ hold
      rw [← hxs, List.head?_map]
      exact Option.mem_map_of_mem _ hfirst
    · obtain ⟨head, second, rest, hlexemes, hop, hname⟩ := hold
      rw [Node.outline, Node.tokens, List.map_cons, List.cons.injEq] at hlexemes
      obtain ⟨rfl, htail⟩ := hlexemes
      obtain ⟨token, tail, htokens, rfl, -⟩ := List.map_eq_cons_iff.1 htail
      refine hnone ⟨s, hs, before, label, n, after, hnodes, hlabel,
        isInstruction_of_opcode hn hop, hop, token, ?_, hname⟩
      rw [htokens]
      rfl

/-! ### Layout, again and again -/

/-- No label stands in front of an instruction in a layout. -/
theorem not_hasChainedOldOperation_canonical (o : Options) (t : Text) :
    ¬ HasChainedOldOperation (canonical o t) := by
  rintro ⟨s, hs, before, label, n, after, hnodes, -⟩
  have hsingle {line : Int} {ps : List Placement} {ss : List Statement}
      (h : Rereads o line ps ss) : ∀ s ∈ ss, (Node.ofStatement s).length = 1 := by
    induction h with
    | nil => simp
    | cons node _ _ _ ih =>
      intro s hs
      rcases List.mem_cons.1 hs with rfl | hs
      · rw [node]
        rfl
      · exact ih s hs
  have hlength := hsingle (rereads_canonical o t) s hs
  rw [hnodes, List.length_append, List.length_cons, List.length_cons] at hlength
  omega

/-- Layout is idempotent but for one kind of text: with an operation of old behind a label, it takes
a second layout to bring in the new name.  After that nothing changes any more. -/
theorem canonical_idempotent_iff {o : Options} (h : o.insertSpaces = false ∨ 1 ≤ o.tabSize)
    (t : Text) :
    (∀ u, formatText o u = o.check.map fun _ => canonical o u) ∧
    (canonical o (canonical o t) = canonical o t ↔ ¬ HasChainedOldOperation t) ∧
    canonical o (canonical o (canonical o t)) = canonical o (canonical o t) := by
  have hiff (u : Text) :
      canonical o (canonical o u) = canonical o u ↔ ¬ HasChainedOldOperation u :=
    (canonical_canonical_eq_iff (Options.unit_ne_nil h) u).trans (forall_rename_eq_self_iff u)
  exact ⟨fun _ => rfl, hiff t, (hiff _).2 (not_hasChainedOldOperation_canonical o t)⟩

/-- The text for which the second layout is another one, and the third one is not. -/
theorem canonical_idempotent_iff_loop :
    HasChainedOldOperation "loop: op atan2 a b c".toList ∧
      canonical {} (canonical {} (canonical {} "loop: op atan2 a b c".toList)) =
        canonical {} (canonical {} "loop: op atan2 a b c".toList) := by
  obtain ⟨-, hiff, hthird⟩ :=
    @canonical_idempotent_iff {} (.inr (by decide)) "loop: op atan2 a b c".toList
  refine ⟨?_, hthird⟩
  by_contra hnone
  exact absurd (hiff.2 hnone) (by decide +kernel)

end LogicAsm.Layout
