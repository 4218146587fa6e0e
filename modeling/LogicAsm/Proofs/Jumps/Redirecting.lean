import LogicAsm.Proofs.Jumps.Destinations
import LogicAsm.Proofs.Jumps.Targets

/-!
# Other words for destinations

Both conversions of jumps put a word in the place of a destination and leave all else in the
statement as it is.  Here this is said about a stretch of pieces, for any function `f` that may give
another word for what a destination says: `Piece.redirect f`.

A stretch is cut at the destination (`cutJump`), if it is a jump and its destination is a word.  The
cut is found by going over labels to the word `jump`, and there is only one such cut
(`cutJump_eq_some_iff`).  So redirecting can be done in turn (`redirect_redirect`), and it is

* the edit of the destinations of the nodes (`rewrites_redirect`),
* a row wherever the stretch is one (`row_redirect`), and
* a change of the outlines in their destinations alone (`map_outline_redirect`).
-/

namespace LogicAsm

/-- What a word says as an operand: an old name is a new one. -/
def Lexeme.ofOperand (w : Text) : Lexeme := ((classifyWord w).1, renamedOperand w)

/-- What a word says in all other places. -/
def Lexeme.ofWord (w : Text) : Lexeme := ((classifyWord w).1, w)

theorem Lexeme.kind_of_isLabel {x : Lexeme} (h : x.isLabel = true) : x.1 = .identifier := by
  simp only [isLabel, Bool.and_eq_true, beq_iff_eq] at h
  exact h.1.1

/-- Names that have changed are no labels, and neither are the new ones. -/
theorem Lexeme.isLabel_map_renamedOperand (x : Lexeme) :
    isLabel (Prod.map id renamedOperand x) = x.isLabel := by
  obtain ⟨kind, content⟩ := x
  show isLabel (kind, renamedOperand content) = _
  unfold renamedOperand
  split
  · next h => simp [h, isLabel, Text.endsWith]
  split
  · next h => simp [h, isLabel, Text.endsWith]
  · rfl

namespace Piece

/-! ### Cutting a jump at its destination -/

/-- The first operand of an instruction that is a word, with what stands in front of it and behind
it. -/
def cutOperand : List Piece → Option (List Piece × Text × List Piece)
  | .blank c :: ps => (cutOperand ps).map fun (front, w, back) => (.blank c :: front, w, back)
  | .word w :: ps => some ([], w, ps)
  | _ => none

/-- The destination of a jump that is a word, with what stands in front of it and behind it. -/
def cutJump : List Piece → Option (List Piece × Text × List Piece)
  | .blank c :: ps => (cutJump ps).map fun (front, w, back) => (.blank c :: front, w, back)
  | .word u :: ps =>
    if (Lexeme.ofWord u).isLabel then
      (cutJump ps).map fun (front, w, back) => (.word u :: front, w, back)
    else if u = "jump".toList then
      (cutOperand ps).map fun (front, w, back) => (.word u :: front, w, back)
    else none
  | _ => none

/-- The pieces in front of the destination of a jump: labels, the word `jump`, and blanks. -/
structure LeadsJump (front : List Piece) : Prop where
  stretch : Stretch front
  lexemes : ∃ labels, front.filterMap lexeme? = labels ++ [Lexeme.ofWord "jump".toList] ∧
    ∀ x ∈ labels, x.isLabel = true

theorem lexeme?_word (w : Text) : (word w).lexeme? = some (Lexeme.ofWord w) := rfl

/-- Within a stretch only a blank says nothing. -/
theorem exists_blank_of_lexeme? {p : Piece} (hp : p.endsStatement = false)
    (h : p.lexeme? = none) : ∃ c, p = .blank c := by
  cases p with
  | blank c => exact ⟨c, rfl⟩
  | separator c => cases hp
  | _ => cases h

/-- Only a word says what a word can say. -/
theorem eq_word_of_lexeme? {p : Piece} {x : Lexeme} (h : p.lexeme? = some x)
    (hstring : x.1 ≠ .string) (hcomment : x.1 ≠ .comment) :
    p = .word x.2 ∧ x = Lexeme.ofWord x.2 := by
  cases p with
  | word w =>
    obtain rfl := Option.some.inj h
    exact ⟨rfl, rfl⟩
  | blank c => cases h
  | separator c => cases h
  | comment body => cases h; exact absurd rfl hcomment
  | quoted body closed => cases h; exact absurd rfl hstring

theorem eq_jump_of_lexeme? {p : Piece} {x : Lexeme} (h : p.lexeme? = some x)
    (hx : x.2 = "jump".toList) : x = Lexeme.ofWord "jump".toList := by
  cases p with
  | word w =>
    cases h
    obtain rfl : w = "jump".toList := hx
    rfl
  | blank c => cases h
  | separator c => cases h
  | comment body => cases h; cases hx
  | quoted body closed => cases h; cases hx

/-- What leads a jump is not empty: it holds the word `jump`. -/
theorem LeadsJump.text_ne_nil {front back : List Piece} (h : LeadsJump front)
    (hwf : ∀ p ∈ front ++ back, p.WellFormed) : front.flatMap text ≠ [] := by
  obtain ⟨labels, hlexemes, -⟩ := h.lexemes
  have hjump : Lexeme.ofWord "jump".toList ∈ front.filterMap lexeme? := by simp [hlexemes]
  obtain ⟨p, hp, -⟩ := List.mem_filterMap.1 hjump
  obtain ⟨c, hc⟩ := (hwf p (List.mem_append_left back hp)).exists_head
  exact List.ne_nil_of_mem (List.mem_flatMap.2 ⟨p, hp, List.mem_of_mem_head? hc⟩)

theorem cutOperand_eq_some_iff {s front back : List Piece} {w : Text} :
    cutOperand s = some (front, w, back) ↔
      s = front ++ .word w :: back ∧ Stretch front ∧ front.filterMap lexeme? = [] := by
  constructor
  · fun_induction cutOperand s generalizing front with
    | case1 c ps ih =>
      intro h
      obtain ⟨⟨front, v, back⟩, hcut, ⟨⟩⟩ := Option.map_eq_some_iff.1 h
      obtain ⟨rfl, hfront, hlexemes⟩ := ih hcut
      exact ⟨rfl, hfront.cons rfl, hlexemes⟩
    | case2 v ps =>
      rintro ⟨⟩
      exact ⟨rfl, by simp [Stretch], rfl⟩
    | case3 => rintro ⟨⟩
  · rintro ⟨rfl, hfront, hlexemes⟩
    -- Back again by induction on the blanks in front of the word.
    induction front with
    | nil => rfl
    | cons p front ih =>
      rw [List.filterMap_cons] at hlexemes
      cases hp : p.lexeme? with
      | some x => simp [hp] at hlexemes
      | none =>
        obtain ⟨c, rfl⟩ := exists_blank_of_lexeme? (hfront p List.mem_cons_self) hp
        rw [List.cons_append, cutOperand, ih hfront.tail hlexemes]
        rfl

/-- Labels are passed over. -/
theorem cutJump_append {u : List Piece} (hu : Stretch u)
    (hlabels : ∀ x ∈ u.filterMap lexeme?, x.isLabel = true) (v : List Piece) :
    cutJump (u ++ v) = (cutJump v).map fun (front, w, back) => (u ++ front, w, back) := by
  induction u with
  | nil => simp
  | cons p u ih =>
    cases hp : p.lexeme? with
    | none =>
      obtain ⟨c, rfl⟩ := exists_blank_of_lexeme? (hu p List.mem_cons_self) hp
      rw [List.cons_append, cutJump, ih hu.tail hlabels, Option.map_map]
      rfl
    | some x =>
      rw [List.filterMap_cons_some hp, List.forall_mem_cons] at hlabels
      have hkind := Lexeme.kind_of_isLabel hlabels.1
      obtain ⟨rfl, hx⟩ := eq_word_of_lexeme? hp (by simp [hkind]) (by simp [hkind])
      rw [List.cons_append, cutJump, ← hx, if_pos hlabels.1, ih hu.tail hlabels.2, Option.map_map]
      rfl

/-- The destination stands where it is found, and it is found where it stands. -/
theorem cutJump_eq_some_iff {s front back : List Piece} {w : Text} :
    cutJump s = some (front, w, back) ↔ s = front ++ .word w :: back ∧ LeadsJump front := by
  constructor
  · fun_induction cutJump s generalizing front with
    | case1 c ps ih =>
      intro h
      obtain ⟨⟨front, v, back⟩, hcut, ⟨⟩⟩ := Option.map_eq_some_iff.1 h
      obtain ⟨rfl, hfront, hlexemes⟩ := ih hcut
      exact ⟨rfl, hfront.cons rfl, hlexemes⟩
    | case2 u ps hlabel ih =>
      intro h
      obtain ⟨⟨front, v, back⟩, hcut, ⟨⟩⟩ := Option.map_eq_some_iff.1 h
      obtain ⟨rfl, hfront, labels, hlexemes, hlabels⟩ := ih hcut
      refine ⟨rfl, hfront.cons rfl, Lexeme.ofWord u :: labels, ?_, ?_⟩
      · rw [List.filterMap_cons_some (lexeme?_word u), hlexemes, List.cons_append]
      · exact List.forall_mem_cons.2 ⟨hlabel, hlabels⟩
    | case3 ps hlabel =>
      intro h
      obtain ⟨⟨front, v, back⟩, hcut, ⟨⟩⟩ := Option.map_eq_some_iff.1 h
      obtain ⟨rfl, hfront, hlexemes⟩ := cutOperand_eq_some_iff.1 hcut
      refine ⟨rfl, hfront.cons rfl, [], ?_, by simp⟩
      rw [List.filterMap_cons_some (lexeme?_word _), hlexemes, List.nil_append]
    | case4 => rintro ⟨⟩
    | case5 => rintro ⟨⟩
  · rintro ⟨rfl, hfront, labels, hlexemes, hlabels⟩
    -- The front holds the labels and the opcode, with blanks anywhere between them.
    induction front generalizing labels with
    | nil => simp at hlexemes
    | cons p front ih =>
      cases hp : p.lexeme? with
      | none =>
        obtain ⟨c, rfl⟩ := exists_blank_of_lexeme? (hfront p List.mem_cons_self) hp
        rw [List.cons_append, cutJump, ih hfront.tail labels hlexemes hlabels]
        rfl
      | some x =>
        rw [List.filterMap_cons_some hp] at hlexemes
        cases labels with
        | nil =>
          obtain ⟨rfl, hnone⟩ := List.cons.inj hlexemes
          obtain ⟨rfl, -⟩ := eq_word_of_lexeme? hp (by decide) (by decide)
          have hcut : cutOperand (front ++ .word w :: back) = some (front, w, back) :=
            cutOperand_eq_some_iff.2 ⟨rfl, hfront.tail, hnone⟩
          show Option.map _ (cutOperand (front ++ .word w :: back)) = _
          rw [hcut]
          rfl
        | cons l labels =>
          obtain ⟨rfl, hrest⟩ : x = l ∧ _ := List.cons.inj hlexemes
          obtain ⟨hlabel, hlabels⟩ := List.forall_mem_cons.1 hlabels
          have hkind := Lexeme.kind_of_isLabel hlabel
          obtain ⟨rfl, hx⟩ := eq_word_of_lexeme? hp (by simp [hkind]) (by simp [hkind])
          rw [List.cons_append, cutJump, ← hx, if_pos hlabel, ih hfront.tail labels hrest hlabels]
          rfl

end Piece

/-! ### The nodes of a jump -/

/-- The node of a label that has something else behind it. -/
def Node.ofLabel (l : Token) : Node := ⟨.label, l, [], l.stop⟩

theorem Token.isComment_of_isLabel {t : Token} (h : t.isLabel = true) : t.isComment = false := by
  rw [isComment, show t.kind = .identifier from @Lexeme.kind_of_isLabel t.lexeme h]
  rfl

/-- Labels in front of an instruction are nodes of their own. -/
theorem Node.ofTokens_of_labels (stop : Position) {labels : List Token}
    (hlabels : ∀ l ∈ labels, l.isLabel = true) {first : Token}
    (hcomment : first.isComment = false) (hlabel : first.isLabel = false) (rest : List Token) :
    ofTokens stop (labels ++ first :: rest) =
      labels.map ofLabel ++ [⟨.instruction, first, rest, stop⟩] := by
  induction labels with
  | nil =>
    rw [List.nil_append, ofTokens.eq_def]
    simp [hcomment, hlabel]
  | cons l labels ih =>
    obtain ⟨hl, hlabels⟩ := List.forall_mem_cons.1 hlabels
    have hkind := Token.isComment_of_isLabel hl
    -- Neither a label nor the instruction is a comment, so the label ends here.
    obtain ⟨second, more, hmore, hsecond⟩ : ∃ second more,
        labels ++ first :: rest = second :: more ∧ second.isComment = false := by
      cases labels with
      | nil => exact ⟨first, rest, rfl, hcomment⟩
      | cons m labels =>
        exact ⟨m, _, rfl, Token.isComment_of_isLabel (hlabels m List.mem_cons_self)⟩
    have hrest := ih hlabels
    rw [hmore] at hrest
    rw [List.cons_append, hmore, ofTokens, hkind, hl, hsecond, List.map_cons, List.cons_append,
      ← hrest]
    rfl

/-- Behind a first token that is not an operation all tokens are operands. -/
theorem cons_renameTail {first : Token} (hop : first.content ≠ "op".toList)
    (hself : first.rename renamedOperand = first) (rest : List Token) :
    first :: renameTail first rest = (first :: rest).map (Token.rename renamedOperand) := by
  rw [renameTail, if_neg hop, List.map_cons, hself]

/-- A label has no other name. -/
theorem Lexeme.renamedOperand_of_isLabel {x : Lexeme} (h : x.isLabel = true) :
    renamedOperand x.2 = x.2 := by
  rw [renamedOperand, if_neg (ne_of_isLabel h (by decide)), if_neg (ne_of_isLabel h (by decide))]

theorem Token.rename_of_isLabel {t : Token} (h : t.isLabel = true) :
    t.rename renamedOperand = t := by
  have hname : renamedOperand t.content = t.content := @Lexeme.renamedOperand_of_isLabel t.lexeme h
  rw [rename, hname]

theorem Node.destination?_of_tail {n : Node} (hn : n.isJump = true) {d : Token} {rest : List Token}
    (htail : n.tail = d :: rest) (hd : d.isComment = false) : n.destination? = some d := by
  rw [destination?, if_pos hn, operands, htail]
  cases rest with
  | nil => simp [hd]
  | cons second rest =>
    rw [List.getLast?_cons_cons, List.getLast?_cons]
    simp only
    split <;> rfl

namespace Piece

/-- The nodes of a statement with labels in front, or with none if what it starts with is neither an
operation nor a name of old: the labels, and the instruction with all else as its operands. -/
theorem nodesAt_of_labels {here : Position} (hpos : 0 ≤ here.character) {s : List Piece}
    (hs : Stretch s) {labels : List Token} (hlabels : ∀ l ∈ labels, l.isLabel = true)
    {first : Token} (hcomment : first.isComment = false) (hlabel : first.isLabel = false)
    (hfirst : labels = [] →
      first.content ≠ "op".toList ∧ first.rename renamedOperand = first)
    {rest : List Token} (htokens : tokensAt here s = labels ++ first :: rest) :
    nodesAt here s = labels.map .ofLabel ++ [⟨.instruction, first.rename renamedOperand,
      rest.map (Token.rename renamedOperand), here.advance (s.flatMap text)⟩] := by
  have hnodes : nodesAt here s = Node.ofTokens (here.advance (s.flatMap text))
      ((labels ++ first :: rest).map (Token.rename renamedOperand)) := by
    cases labels with
    | nil =>
      obtain ⟨hop, hself⟩ := hfirst rfl
      rw [nodesAt_of_tokensAt hpos hs htokens, cons_renameTail hop hself, List.nil_append]
    | cons l labels =>
      have hl := hlabels l List.mem_cons_self
      rw [nodesAt_of_tokensAt hpos hs htokens,
        cons_renameTail (Jumps.ne_op_of_isLabel hl) (Token.rename_of_isLabel hl)]
      rfl
  -- Renaming leaves labels alone, as their colon keeps them off the old names.
  have hself : labels.map (Token.rename renamedOperand) = labels :=
    (List.map_congr_left fun l hl => Token.rename_of_isLabel (hlabels l hl)).trans
      (List.map_id labels)
  have hcomment' : (first.rename renamedOperand).isComment = false := hcomment
  have hlabel' : (first.rename renamedOperand).isLabel = false := by
    rw [← hlabel]
    exact Lexeme.isLabel_map_renamedOperand first.lexeme
  rw [hnodes, List.map_append, hself, List.map_cons,
    Node.ofTokens_of_labels _ hlabels hcomment' hlabel']

/-- The nodes of a jump with a word as its destination: its labels, and itself. -/
theorem exists_nodesAt_of_leadsJump {here : Position} (hpos : 0 ≤ here.character)
    {front : List Piece} (hfront : LeadsJump front) {w : Text} (hw : (word w).WellFormed)
    {back : List Piece} (hback : Stretch back) :
    ∃ (labels : List Token) (n : Node) (d : Token),
      nodesAt here (front ++ .word w :: back) = labels.map .ofLabel ++ [n] ∧
      labels.map Token.lexeme ++ [Lexeme.ofWord "jump".toList] = front.filterMap lexeme? ∧
      n.outline = ⟨.instruction, .ofWord "jump".toList :: .ofOperand w ::
        (back.filterMap lexeme?).map (Prod.map id renamedOperand)⟩ ∧
      n.destination? = some d ∧ d.lexeme = .ofOperand w ∧
      d.range =
        ⟨here.advance (front.flatMap text), (here.advance (front.flatMap text)).advance w⟩ := by
  obtain ⟨hstretch, xs, hlexemes, hxs⟩ := hfront
  have hpos' := here.character_advance_nonneg hpos (front.flatMap text)
  rw [← map_lexeme_tokensAt here] at hlexemes
  obtain ⟨labels, last, htokens, hlabels, hlast⟩ := List.map_eq_append_iff.1 hlexemes
  obtain ⟨first, rfl, hfirst⟩ := List.map_eq_singleton_iff.1 hlast
  obtain ⟨d, hd⟩ : ∃ d, (word w).tokenAt? (here.advance (front.flatMap text)) = some d := ⟨_, rfl⟩
  obtain ⟨rest, hrest⟩ : ∃ rest, rest =
      tokensAt ((here.advance (front.flatMap text)).advance w) back := ⟨_, rfl⟩
  have hall : tokensAt here (front ++ .word w :: back) = labels ++ first :: d :: rest := by
    rw [tokensAt_append, htokens, tokensAt, hd, List.append_assoc, hrest]
    rfl
  have hisLabel : ∀ l ∈ labels, l.isLabel = true := by
    intro l hl
    exact hxs l.lexeme (hlabels ▸ List.mem_map_of_mem hl)
  have hcontent : first.content = "jump".toList := congrArg Prod.snd hfirst
  -- `jump` is none of the old names, with or without a label in front of it.
  have hself : first.rename renamedOperand = first := by
    have hname : renamedOperand "jump".toList = "jump".toList := by decide
    rw [Token.rename, hcontent, hname, ← hcontent]
  have hkind : first.isComment = false ∧ first.isLabel = false := by
    have hcomment : first.lexeme.isComment = false := by rw [hfirst]; decide
    have hlabel : first.lexeme.isLabel = false := by rw [hfirst]; decide
    exact ⟨hcomment, hlabel⟩
  have hnodes := nodesAt_of_labels hpos (hstretch.append (hback.cons rfl)) hisLabel hkind.1 hkind.2
    (fun _ => ⟨by rw [hcontent]; decide, hself⟩) hall
  rw [hself] at hnodes
  have hdlexeme : (d.rename renamedOperand).lexeme = .ofOperand w := by
    cases hd
    rfl
  have hdcomment : (d.rename renamedOperand).isComment = false := by
    cases hd
    rcases classifyWord_kind w with h | h | h <;> simp [Token.isComment, Token.rename, h]
  refine ⟨labels, _, d.rename renamedOperand, hnodes, ?_, ?_,
    Node.destination?_of_tail ?_ rfl hdcomment, hdlexeme, ?_⟩
  · rw [← map_lexeme_tokensAt here, htokens, List.map_append, ← hfirst]
    rfl
  · rw [Node.outline, Node.tokens, List.map_cons, List.map_cons, List.map_cons, hdlexeme, hfirst,
      hrest, ← map_lexeme_tokensAt, List.map_map, List.map_map]
    rfl
  · rw [Node.isJump, Node.opcode, hcontent]
    rfl
  · have hstart := start_of_tokenAt? hpos' hd
    have hstop := stop_of_tokenAt? hpos' hw hd
    exact congrArg₂ Range.mk hstart hstop

end Piece

/-- Only an operand of old has another name. -/
theorem eq_of_renamedOperand {w v : Text} (h : renamedOperand w = v) (hv : v ≠ "config".toList)
    (hv' : v ≠ "@config".toList) : w = v := by
  unfold renamedOperand at h
  split at h
  · exact absurd h.symm hv
  split at h
  · exact absurd h.symm hv'
  · exact h

theorem Outline.exists_of_firstOperand? {xs : List Lexeme} {x : Lexeme}
    (h : firstOperand? xs = some x) : ∃ rest, xs = x :: rest := by
  match xs with
  | [] => cases h
  | [y] =>
    rw [firstOperand?] at h
    split at h
    · cases h
    · exact ⟨[], by rw [Option.some.inj h]⟩
  | y :: z :: rest => exact ⟨z :: rest, by rw [Option.some.inj h]⟩

/-- A destination stands behind labels and the word `jump`. -/
theorem Outline.exists_of_destination? {xs : List Lexeme} : ∀ o ∈ ofLexemes xs,
    ∀ x ∈ o.destination?, ∃ labels first rest, xs = labels ++ first :: x :: rest ∧
      (∀ l ∈ labels, l.isLabel = true) ∧ first.2 = "jump".toList := by
  -- Only an instruction has a destination; behind a label the search goes on.
  fun_induction ofLexemes xs with
  | case1 => simp
  | case2 head tail => simp [destination?, isInstruction]
  | case3 head => simp [destination?, isInstruction]
  | case4 head _ _ second rest => simp [destination?, isInstruction]
  | case5 head _ hlabel second rest _ ih =>
    intro o ho x hx
    rcases List.mem_cons.1 ho with rfl | ho
    · simp [destination?, isInstruction] at hx
    · obtain ⟨labels, first, more, hmore, hlabels, hfirst⟩ := ih o ho x hx
      exact ⟨head :: labels, first, more, by rw [hmore, List.cons_append],
        List.forall_mem_cons.2 ⟨hlabel, hlabels⟩, hfirst⟩
  | case6 head tail =>
    intro o ho x hx
    obtain rfl := List.mem_singleton.1 ho
    simp only [destination?] at hx
    split at hx
    · next hjump =>
      have hfirst : head.2 = "jump".toList := by
        simp only [Bool.and_eq_true, beq_iff_eq] at hjump
        exact hjump.2
      obtain ⟨rest, rfl⟩ := exists_of_firstOperand? hx
      exact ⟨[], head, rest, rfl, by simp, hfirst⟩
    · cases hx

/-- A destination stands behind labels and the word `jump` in the source too, under a name that it
may have changed. -/
theorem Outline.exists_source_of_destination? {xs : List Lexeme} {o : Outline}
    (ho : o ∈ ofLexemes (Lexeme.rename xs)) {x : Lexeme} (hx : o.destination? = some x) :
    ∃ (labels : List Lexeme) (first y : Lexeme) (rest : List Lexeme),
      xs = labels ++ first :: y :: rest ∧ (∀ l ∈ labels, l.isLabel = true) ∧
      first.2 = "jump".toList ∧ x = Prod.map id renamedOperand y := by
  obtain ⟨labels, first, rest, hlexemes, hlabels, hfirst⟩ := exists_of_destination? o ho x hx
  cases xs with
  | nil => simp [Lexeme.rename] at hlexemes
  | cons head tail =>
    -- The name in front of `op` decides on renaming, and neither a jump nor a label is `op`.
    cases labels with
    | nil =>
      obtain ⟨rfl, htail⟩ := List.cons.inj hlexemes
      have hop : head.2 ≠ "op".toList := by rw [hfirst]; decide
      rw [Lexeme.renameTail, if_neg hop] at htail
      obtain ⟨y, ys, rfl, hy, -⟩ := List.map_eq_cons_iff.1 htail
      exact ⟨[], head, y, ys, rfl, by simp, hfirst, hy.symm⟩
    | cons l labels =>
      obtain ⟨rfl, htail⟩ : head = l ∧ _ := List.cons.inj hlexemes
      obtain ⟨hhead, hlabels⟩ := List.forall_mem_cons.1 hlabels
      have hop : head.2 ≠ "op".toList := Lexeme.ne_of_isLabel hhead (by decide)
      rw [Lexeme.renameTail, if_neg hop] at htail
      obtain ⟨ls, zs, rfl, hls, hzs⟩ := List.map_eq_append_iff.1 htail
      obtain ⟨j, ys, rfl, hj, hys⟩ := List.map_eq_cons_iff.1 hzs
      obtain ⟨y, ys, rfl, hy, -⟩ := List.map_eq_cons_iff.1 hys
      refine ⟨head :: ls, j, y, ys, rfl, List.forall_mem_cons.2 ⟨hhead, ?_⟩, ?_, hy.symm⟩
      · intro m hm
        rw [← Lexeme.isLabel_map_renamedOperand]
        exact hlabels _ (hls ▸ List.mem_map_of_mem hm)
      · exact eq_of_renamedOperand (congrArg Prod.snd hj |>.trans hfirst) (by decide) (by decide)

namespace Piece

/-- A destination that is no string is where the jump is cut. -/
theorem exists_cutJump {here : Position} {s : List Piece} (hs : Stretch s) {n : Node}
    (hn : n ∈ nodesAt here s) {d : Token} (hd : n.destination? = some d)
    (hstring : d.kind ≠ .string) (hcomment : d.kind ≠ .comment) :
    ∃ front w back, cutJump s = some (front, w, back) ∧ d.lexeme = .ofOperand w := by
  have houtline : n.outline ∈ Outline.ofLexemes (Lexeme.rename (s.filterMap lexeme?)) := by
    rw [← map_outline_nodesAt_of_stretch here hs]
    exact List.mem_map_of_mem hn
  have hdestination : n.outline.destination? = some d.lexeme := by
    rw [← n.map_lexeme_destination?, hd]
    rfl
  obtain ⟨labels, first, x, rest, hlexemes, hlabels, hfirst, hx⟩ :=
    Outline.exists_source_of_destination? houtline hdestination
  have hkind : d.kind = x.1 := congrArg Prod.fst hx
  rw [List.append_cons] at hlexemes
  -- The pieces follow the tokens: labels and opcode, then blanks, then the destination.
  obtain ⟨front, more, rfl, hfront, hmore⟩ := List.filterMap_eq_append_iff.1 hlexemes
  obtain ⟨blanks, p, back, rfl, hblanks, hp, -⟩ := List.filterMap_eq_cons_iff.1 hmore
  obtain ⟨rfl, hword⟩ := eq_word_of_lexeme? hp (hkind ▸ hstring) (hkind ▸ hcomment)
  refine ⟨front ++ blanks, x.2, back, cutJump_eq_some_iff.2 ⟨by simp, ?_, ?_⟩, ?_⟩
  · exact hs.left.append hs.right.left
  · refine ⟨labels, ?_, hlabels⟩
    have hjump : first ∈ front.filterMap lexeme? := by simp [hfront]
    obtain ⟨q, -, hq⟩ := List.mem_filterMap.1 hjump
    rw [List.filterMap_append, List.filterMap_eq_nil_iff.2 hblanks, hfront, List.append_nil,
      eq_jump_of_lexeme? hq hfirst]
  · rw [hx, hword]
    rfl

/-! ### Redirecting -/

/-- The stretch with another word for its destination, if there is one. -/
def redirect (f : Lexeme → Option Text) (s : List Piece) : List Piece :=
  match cutJump s with
  | none => s
  | some (front, w, back) => front ++ .word ((f (.ofOperand w)).getD w) :: back

/-- Other words for what destinations say, and only for words. -/
structure Rewords (f : Lexeme → Option Text) : Prop where
  source : ∀ x v, f x = some v → x.1 ≠ .string ∧ x.1 ≠ .comment
  word : ∀ x v, f x = some v → (word v).WellFormed

/-- Other words for what destinations say: only for words, and such that they have no new name. -/
structure Substitutes (f : Lexeme → Option Text) : Prop where
  source : ∀ x v, f x = some v → x.1 ≠ .string ∧ x.1 ≠ .comment
  word : ∀ x v, f x = some v → (word v).WellFormed
  name : ∀ x v, f x = some v → renamedOperand v = v

theorem Substitutes.rewords {f : Lexeme → Option Text} (hf : Substitutes f) : Rewords f :=
  ⟨hf.source, hf.word⟩

/-- Redirecting in turn gives the stretch back if the second time gives back the word. -/
theorem redirect_redirect {f g : Lexeme → Option Text} {s : List Piece}
    (h : ∀ front w back, cutJump s = some (front, w, back) →
      (g (.ofOperand ((f (.ofOperand w)).getD w))).getD ((f (.ofOperand w)).getD w) = w) :
    redirect g (redirect f s) = s := by
  cases hcut : cutJump s with
  | none =>
    rw [redirect, redirect, hcut]
    simp only [hcut]
  | some parts =>
    obtain ⟨front, w, back⟩ := parts
    obtain ⟨rfl, hfront⟩ := cutJump_eq_some_iff.1 hcut
    have hagain : cutJump (front ++ .word ((f (.ofOperand w)).getD w) :: back) =
        some (front, (f (.ofOperand w)).getD w, back) :=
      cutJump_eq_some_iff.2 ⟨rfl, hfront⟩
    rw [redirect, redirect, hcut]
    simp only [hagain, h front w back hcut]

variable {f : Lexeme → Option Text}

/-- A stretch is left alone, and then nothing else is said for its destinations, or it has another
word for its destination. -/
theorem redirect_cases (hf : Rewords f) {s : List Piece} (hs : Stretch s) :
    (redirect f s = s ∧ ∀ here, ∀ n ∈ nodesAt here s, ∀ d ∈ n.destination?, f d.lexeme = none) ∨
      ∃ front w back v, s = front ++ .word w :: back ∧ LeadsJump front ∧
        f (.ofOperand w) = some v ∧ redirect f s = front ++ .word v :: back := by
  -- A destination that is no word has no other word, and one that is a word is where the jump is
  -- cut.
  have hnone (h : ∀ front w back, cutJump s = some (front, w, back) → f (.ofOperand w) = none) :
      ∀ here, ∀ n ∈ nodesAt here s, ∀ d ∈ n.destination?, f d.lexeme = none := by
    intro here n hn d hd
    cases hfd : f d.lexeme with
    | none => rfl
    | some v =>
      obtain ⟨hstring, hcomment⟩ := hf.source _ _ hfd
      obtain ⟨front, w, back, hcut, hlexeme⟩ := exists_cutJump hs hn hd hstring hcomment
      rw [← hfd, hlexeme, h front w back hcut]
  cases hcut : cutJump s with
  | none =>
    refine .inl ⟨by rw [redirect, hcut], hnone fun front w back h => ?_⟩
    rw [hcut] at h
    cases h
  | some parts =>
    obtain ⟨front, w, back⟩ := parts
    obtain ⟨rfl, hfront⟩ := cutJump_eq_some_iff.1 hcut
    cases hv : f (.ofOperand w) with
    | none =>
      refine .inl ⟨by simp only [redirect, hcut, hv, Option.getD_none], hnone ?_⟩
      intro front' w' back' h
      rw [hcut] at h
      cases h
      exact hv
    | some v =>
      exact .inr ⟨front, w, back, v, rfl, hfront, hv,
        by simp only [redirect, hcut, hv, Option.getD_some]⟩

theorem stretch_redirect {s : List Piece} (hs : Stretch s) : Stretch (redirect f s) := by
  unfold redirect
  split
  · exact hs
  · next front w back hcut =>
    obtain ⟨rfl, hfront⟩ := cutJump_eq_some_iff.1 hcut
    exact hfront.stretch.append (hs.right.tail.cons rfl)

/-- Another word may stand wherever the first one does. -/
theorem row_redirect (hf : Rewords f) {before s tail : List Piece} (hs : Stretch s)
    (h : Row (before ++ (s ++ tail))) : Row (before ++ (redirect f s ++ tail)) := by
  rcases redirect_cases hf hs with ⟨hsame, -⟩ | ⟨front, w, back, v, rfl, -, hv, hredirect⟩
  · rwa [hsame]
  · rw [List.append_assoc, ← List.append_assoc] at h
    rw [hredirect, List.append_assoc, ← List.append_assoc]
    exact h.replace_word (hf.word _ _ hv)

end Piece

/-- The edit that puts another word in the place of a destination. -/
def Jumps.redirection? (f : Lexeme → Option Text) (n : Node) : Option Edit :=
  n.destination?.bind fun d => (f d.lexeme).map (.replace d.range)

/-- What a node says once it has another word for its destination. -/
def Outline.redirect (f : Lexeme → Option Text) (o : Outline) : Outline :=
  match o.destination?.bind f with
  | none => o
  | some v => { o with lexemes := o.lexemes.set 1 (.ofWord v) }

namespace Outline

variable {f : Lexeme → Option Text}

theorem redirect_of_none {o : Outline} (h : o.destination?.bind f = none) : o.redirect f = o := by
  rw [redirect, h]

theorem kind_redirect (o : Outline) : (o.redirect f).kind = o.kind := by
  unfold redirect
  split <;> rfl

theorem head?_redirect (o : Outline) : (o.redirect f).lexemes.head? = o.lexemes.head? := by
  unfold redirect
  split
  · rfl
  · cases o with
    | mk kind lexemes => cases lexemes <;> rfl

theorem isInstruction_redirect (o : Outline) : (o.redirect f).isInstruction = o.isInstruction := by
  rw [isInstruction, kind_redirect, isInstruction]

theorem declares_redirect (name : Text) (o : Outline) :
    (o.redirect f).declares name = o.declares name := by
  rw [declares, kind_redirect, head?_redirect, declares]

end Outline

namespace Piece

variable {f : Lexeme → Option Text}

/-- The edit that puts another word in the place of the destination where the stretch is cut. -/
def redirections (f : Lexeme → Option Text) (here : Position) (s : List Piece) : List Edit :=
  match cutJump s with
  | none => []
  | some (front, w, _) => ((f (.ofOperand w)).map (.replace ⟨here.advance (front.flatMap text),
      (here.advance (front.flatMap text)).advance w⟩)).toList

theorem redirections_append {u : List Piece} (hu : Stretch u)
    (hlabels : ∀ x ∈ u.filterMap lexeme?, x.isLabel = true) (here : Position) (v : List Piece) :
    redirections f here (u ++ v) = redirections f (here.advance (u.flatMap text)) v := by
  rw [redirections, redirections, cutJump_append hu hlabels]
  cases cutJump v with
  | none => rfl
  | some parts => simp only [Option.map_some, List.flatMap_append, Position.advance_append]

/-- The edits of the destinations of the nodes are those of the stretch. -/
theorem filterMap_redirection? (hf : Rewords f) {here : Position} (hpos : 0 ≤ here.character)
    {s : List Piece} (hs : Stretch s) (hwf : ∀ p ∈ s, p.WellFormed) :
    (nodesAt here s).filterMap (Jumps.redirection? f) = redirections f here s := by
  rw [redirections]
  cases hcut : cutJump s with
  | none =>
    refine List.filterMap_eq_nil_iff.2 fun n hn => Option.bind_eq_none_iff.2 fun d hd => ?_
    cases hv : f d.lexeme with
    | none => rfl
    | some v =>
      -- A destination that is changed is a word, so the cut would have found it.
      obtain ⟨hstring, hcomment⟩ := hf.source _ _ hv
      obtain ⟨front, w, back, hsome, -⟩ := exists_cutJump hs hn hd hstring hcomment
      rw [hcut] at hsome
      cases hsome
  | some parts =>
    obtain ⟨front, w, back⟩ := parts
    obtain ⟨rfl, hfront⟩ := cutJump_eq_some_iff.1 hcut
    obtain ⟨labels, n, d, hnodes, -, -, hd, hlexeme, hrange⟩ :=
      exists_nodesAt_of_leadsJump hpos hfront (hwf (.word w) (by simp)) hs.right.tail
    have hlabels : (labels.map Node.ofLabel).filterMap (Jumps.redirection? f) = [] := by
      rw [List.filterMap_map]
      exact List.filterMap_eq_nil_iff.2 fun _ _ => rfl
    rw [hnodes, List.filterMap_append, hlabels, List.nil_append,
      List.filterMap_eq_flatMap_toList, List.flatMap_singleton, Jumps.redirection?, hd,
      Option.bind_some, hlexeme, hrange]

/-- A stretch is redirected by its edits. -/
theorem rewrites_redirections (here : Position) {s : List Piece} (hwf : ∀ p ∈ s, p.WellFormed) :
    Edit.Rewrites here (s.flatMap text) ((redirect f s).flatMap text) (redirections f here s) := by
  rw [redirect, redirections]
  cases hcut : cutJump s with
  | none => exact .kept here _
  | some parts =>
    obtain ⟨front, w, back⟩ := parts
    obtain ⟨rfl, -⟩ := cutJump_eq_some_iff.1 hcut
    dsimp only
    cases f (.ofOperand w) with
    | none => exact .kept here _
    | some v =>
      rw [List.flatMap_append, List.flatMap_append, List.flatMap_cons, List.flatMap_cons]
      exact .keep _ (.change (hwf (.word w) (by simp)).1 _ (.kept _ _))

/-- A stretch is redirected by the edits of the destinations of its nodes. -/
theorem rewrites_redirect (hf : Rewords f) {here : Position} (hpos : 0 ≤ here.character)
    {s : List Piece} (hs : Stretch s) (hwf : ∀ p ∈ s, p.WellFormed) :
    Edit.Rewrites here (s.flatMap text) ((redirect f s).flatMap text)
      ((nodesAt here s).filterMap (Jumps.redirection? f)) := by
  rw [filterMap_redirection? hf hpos hs hwf]
  exact rewrites_redirections here hwf

/-- What is redirected stands behind the word `jump`, and so behind the start of the stretch. -/
theorem lt_start_of_redirections (hf : Rewords f) {here : Position} (hpos : 0 ≤ here.character)
    {s : List Piece} (hs : Stretch s) (hwf : ∀ p ∈ s, p.WellFormed) :
    ∀ e ∈ (nodesAt here s).filterMap (Jumps.redirection? f), here < e.range.start := by
  rw [filterMap_redirection? hf hpos hs hwf, redirections]
  cases hcut : cutJump s with
  | none => simp
  | some parts =>
    obtain ⟨front, w, back⟩ := parts
    obtain ⟨rfl, hfront⟩ := cutJump_eq_some_iff.1 hcut
    intro e he
    obtain ⟨v, -, rfl⟩ := Option.map_eq_some_iff.1 (Option.mem_toList.1 he)
    exact here.lt_advance (hfront.text_ne_nil hwf)

/-- Redirecting changes what nodes say in their destinations alone. -/
theorem map_outline_redirect (hf : Substitutes f) (here there : Position) {s : List Piece}
    (hs : Stretch s) (hwf : ∀ p ∈ s, p.WellFormed) :
    (nodesAt there (redirect f s)).map Node.outline =
      (nodesAt here s).map fun n => n.outline.redirect f := by
  have hplace (there : Position) {s : List Piece} (hs : Stretch s) :
      (nodesAt there s).map Node.outline = (nodesAt .origin s).map Node.outline := by
    rw [map_outline_nodesAt_of_stretch _ hs, map_outline_nodesAt_of_stretch _ hs]
  have hmap (here : Position) : (nodesAt here s).map (fun n => n.outline.redirect f) =
      ((nodesAt here s).map Node.outline).map (Outline.redirect f) := by
    rw [List.map_map]
    rfl
  rw [hmap, hplace here hs, hplace there (stretch_redirect hs)]
  -- No destination to change, or one word replaced between the same labels and operands.
  rcases redirect_cases hf.rewords hs with
    ⟨hsame, hnone⟩ | ⟨front, w, back, v, rfl, hfront, hv, hredirect⟩
  · rw [hsame, List.map_map]
    refine List.map_congr_left fun n hn => (Outline.redirect_of_none ?_).symm
    rw [← n.map_lexeme_destination?, Option.bind_map, Option.bind_eq_none_iff]
    exact hnone .origin n hn
  · have hback : Stretch back := hs.right.tail
    obtain ⟨labels, n, d, hnodes, hlabels, houtline, hd, hlexeme, -⟩ :=
      @exists_nodesAt_of_leadsJump .origin (Int.le_refl 0) front hfront w
        (hwf (.word w) (by simp)) back hback
    obtain ⟨labels', n', d', hnodes', hlabels', houtline', -, -, -⟩ :=
      @exists_nodesAt_of_leadsJump .origin (Int.le_refl 0) front hfront v (hf.word _ _ hv) back
        hback
    have hname : Lexeme.ofOperand v = .ofWord v := by
      rw [Lexeme.ofOperand, hf.name _ _ hv]
      rfl
    have hn : n.outline.redirect f = n'.outline := by
      rw [Outline.redirect, ← n.map_lexeme_destination?, hd, Option.map_some, Option.bind_some,
        hlexeme, hv, houtline, houtline', hname]
      rfl
    have hlexemes : labels'.map Token.lexeme = labels.map Token.lexeme :=
      List.append_cancel_right (hlabels'.trans hlabels.symm)
    have hself : ((labels.map Node.ofLabel).map Node.outline).map (Outline.redirect f) =
        (labels.map Token.lexeme).map fun x => ⟨.label, [x]⟩ := by
      rw [List.map_map, List.map_map, List.map_map]
      rfl
    have hself' : (labels'.map Node.ofLabel).map Node.outline =
        (labels'.map Token.lexeme).map fun x => ⟨.label, [x]⟩ := by
      rw [List.map_map, List.map_map]
      rfl
    rw [hredirect, hnodes, hnodes', List.map_append, List.map_append, List.map_append, hself,
      hself', hlexemes, List.map_singleton, List.map_singleton, List.map_singleton, hn]

end Piece

end LogicAsm
