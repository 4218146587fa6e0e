import LogicAsm.Proofs.Jumps.Applicable
import LogicAsm.Proofs.Jumps.NumberEdits
import LogicAsm.Proofs.Jumps.Numbering

/-!
# Opcodes of numbered programs

A label is deleted with the blanks on both sides of it.  At the start of a statement nothing is
glued by this, and all instructions keep their opcodes (`toNumbers_keeps_opcodes`), with one
exception: an opcode with a name of old has its new name only behind a label.

Behind another label the blank in front is that between two words, and the label in front is glued
to what follows the one that is deleted: `a: b: print x` becomes `a:print x` if `b` is numbered and
`a` is not (`not_toNumbers_keeps_opcodes`).
-/

namespace LogicAsm

open Piece

namespace Outline

/-- The opcodes of instructions that say this. -/
def opcodes (os : List Outline) : List (Option Text) :=
  (os.filter isInstruction).map fun o => o.lexemes.head?.map Prod.snd

theorem opcodes_append (os os' : List Outline) :
    opcodes (os ++ os') = opcodes os ++ opcodes os' := by
  rw [opcodes, List.filter_append, List.map_append]
  rfl

theorem opcodes_map_outline (ns : List Node) :
    opcodes (ns.map Node.outline) = (ns.filter (·.isInstruction)).map fun n => some n.opcode := by
  rw [opcodes, List.filter_map, List.map_map]
  rfl

theorem opcodes_map_redirect (f : Lexeme → Option Text) (os : List Outline) :
    opcodes (os.map (redirect f)) = opcodes os := by
  have hsame : isInstruction ∘ redirect f = isInstruction := funext isInstruction_redirect
  rw [opcodes, List.filter_map, hsame, List.map_map, opcodes]
  refine List.map_congr_left fun o _ => ?_
  rw [Function.comp_apply, head?_redirect]

/-- What starts with no name of old has the same opcodes at the start of a statement and behind a
label. -/
theorem opcodes_rename {x : Lexeme} {xs : List Lexeme} (hcomment : x.isComment = false)
    (hname : renamedOperand x.2 = x.2) :
    opcodes (ofLexemes (Lexeme.rename (x :: xs))) =
      opcodes (ofLexemes ((x :: xs).map (Prod.map id renamedOperand))) := by
  have hself : Prod.map id renamedOperand x = x := Prod.ext rfl hname
  cases hlabel : x.isLabel with
  | true =>
    rw [Jumps.rename_cons_of_ne_op (Lexeme.ne_of_isLabel hlabel (by decide)), List.map_cons, hself]
  | false =>
    have hinstruction (ys : List Lexeme) : opcodes (ofLexemes (x :: ys)) = [some x.2] := by
      rw [ofLexemes.eq_def]
      simp [hcomment, hlabel, opcodes, isInstruction]
    rw [Lexeme.rename, List.map_cons, hself, hinstruction, hinstruction]

/-- A label in front of what starts with no name of old adds no opcode and changes none. -/
theorem opcodes_rename_label {l x : Lexeme} {xs : List Lexeme} (hl : l.isLabel = true)
    (hcomment : x.isComment = false) (hname : renamedOperand x.2 = x.2) :
    opcodes (ofLexemes (Lexeme.rename (l :: x :: xs))) =
      opcodes (ofLexemes (Lexeme.rename (x :: xs))) := by
  have hlcomment : l.isComment = false := by
    rw [Lexeme.isComment, Lexeme.kind_of_isLabel hl]
    rfl
  have hxcomment : Lexeme.isComment (Prod.map id renamedOperand x) = false := hcomment
  rw [opcodes_rename hcomment hname,
    Jumps.rename_cons_of_ne_op (Lexeme.ne_of_isLabel hl (by decide)), List.map_cons,
    Jumps.ofLexemes_label hlcomment hl hxcomment]
  rfl

end Outline

namespace Jumps

open Outline

/-- Nodes and what is said once they are edited, if the opcodes are the same. -/
def SameOpcodes (ns : List Node) (os : List Outline) : Prop :=
  opcodes os = opcodes (ns.map Node.outline)

theorem sameOpcodes_of_renumbered {doc : Document} (ns : List Node) (os : List Outline)
    (h : Renumbered doc ns os) : SameOpcodes ns os := by
  rw [SameOpcodes, opcodes_map_outline, opcodes, h.filter_isInstruction, List.map_map]
  refine List.map_congr_left fun n _ => ?_
  obtain ⟨ys, hys⟩ := exists_renumber_cons doc n n.head.lexeme (n.tail.map Token.lexeme)
  have hlexemes : (revised doc n).lexemes = n.head.lexeme :: ys := hys
  rw [Function.comp_apply, hlexemes]
  rfl

/-- Redirecting a stretch changes no opcode. -/
theorem opcodes_redirect {f : Lexeme → Option Text} (hf : Substitutes f) {s : List Piece}
    (hs : Stretch s) (hwf : ∀ p ∈ s, p.WellFormed) :
    opcodes (ofLexemes (Lexeme.rename ((redirect f s).filterMap lexeme?))) =
      opcodes (ofLexemes (Lexeme.rename (s.filterMap lexeme?))) := by
  have hsame := opcodes_map_redirect f ((nodesAt .origin s).map Node.outline)
  rw [List.map_map] at hsame
  rw [← map_outline_nodesAt_of_stretch .origin (stretch_redirect hs),
    map_outline_redirect hf .origin .origin hs hwf, ← map_outline_nodesAt_of_stretch .origin hs]
  exact hsame

/-! ### Statements whose opcodes are kept -/

/-- Nodes of a statement of which none but the first one is deleted, and that one only in front of
what is no instruction with a name of old. -/
structure DeletesFirst (doc : Document) (ns : List Node) : Prop where
  first : ∀ n ∈ ns.tail, isDeleted doc n = false
  name : ∀ l n rest, ns = l :: n :: rest → isDeleted doc l = true → n.isInstruction = true →
    renamedOperand (doc.source n.head) = doc.source n.head

section

variable {uri : String} {t : Text}

/-- A stretch of which no node is dropped is redirected only. -/
theorem revised_redirect {here : Position} (hpos : 0 ≤ here.character) {k : Nat} {s : List Piece}
    (hs : Stretch s) (hwf : ∀ p ∈ s, p.WellFormed)
    (h : ∀ i n, (nodesAt here s)[i]? = some n →
      n ∈ Node.ofText t ∧ isDropped (.ofText uri t) n (k + i) = false) :
    Revised SameOpcodes (.ofText uri t) here k s (redirect (numeral? (.ofText uri t)) s) := by
  have hf := substitutes_numeral? (.ofText uri t)
  refine ⟨stretch_redirect hs, fun tail h => @row_redirect _ hf.rewords [] s tail hs h, ?_, ?_⟩
  · rw [editsFrom_of_not_dropped h]
    exact rewrites_redirect hf.rewords hpos hs hwf
  · rw [SameOpcodes, opcodes_redirect hf hs hwf, map_outline_nodesAt_of_stretch here hs]

/-- A label in front of other tokens is deleted, and all else is redirected only. -/
theorem exists_revised_drop {a b : Text} (ha : ∀ c ∈ a.getLast?, isBlank c = false) {k : Nat}
    {s : List Piece} (hs : Stretch s) (hwf : ∀ p ∈ s, p.WellFormed)
    (ht : t = a ++ (s.flatMap text ++ b)) {label second : Token} {rest : List Token}
    (htokens : tokensAt (Position.origin.advance a) s = label :: second :: rest)
    (hlabel : label.isLabel = true) (hsecond : second.isComment = false)
    (hname : renamedOperand second.content = second.content) {ns : List Node}
    (hnodes : nodesAt (Position.origin.advance a) s = .ofLabel label :: ns)
    (hdropped : isDropped (.ofText uri t) (.ofLabel label) k = true)
    (hlater : ∀ i n, ns[i]? = some n →
      n ∈ Node.ofText t ∧ isDropped (.ofText uri t) n (k + 1 + i) = false) :
    ∃ s', Revised SameOpcodes (.ofText uri t) (Position.origin.advance a) k s s' := by
  have hpos := Position.character_origin_advance a
  have hf := substitutes_numeral? (.ofText uri t)
  have hstart := @lineStart_of_stretch uri a ha s hs hwf _ _ htokens (.ofLabel label) rfl b
  have hfrom := filterMap_redirection? hf.rewords hpos hs hwf
  have houtlines := map_outline_nodesAt_of_stretch (Position.origin.advance a) hs
  obtain ⟨u, v, rfl, hu, hulex, hvtokens, hend⟩ := @exists_labelPart uri a s hs hwf _ _ _ htokens b
  have hend := hend (.ofLabel label) rfl
  rw [← ht] at hstart hend
  have hvwf : ∀ p ∈ v, p.WellFormed := fun p hp => hwf p (List.mem_append_right u hp)
  have hvlexemes : v.filterMap lexeme? = (second :: rest).map Token.lexeme := by
    rw [← map_lexeme_tokensAt, hvtokens]
  refine ⟨redirect (numeral? (.ofText uri t)) v, stretch_redirect hs.right, fun tail h => ?_, ?_,
    ?_⟩
  · rw [List.append_assoc] at h
    exact (row_redirect hf.rewords hs.right h).right
  · -- A label has no destination, so the other edits are those of what follows it.
    have hedits : editsFrom (.ofText uri t) (k + 1) ns = redirections (numeral? (.ofText uri t))
        ((Position.origin.advance a).advance (u.flatMap text)) v := by
      have hnone : redirection? (numeral? (.ofText uri t)) (.ofLabel label) = none := rfl
      rw [editsFrom_of_not_dropped hlater, ← redirections_append hs.left (by
        rw [hulex]
        exact List.forall_mem_singleton.2 hlabel), ← hfrom, hnodes,
        List.filterMap_cons_none hnone]
    rw [hnodes, editsFrom, nodeEdits_of_label rfl, if_pos hdropped, hstart, hend, hedits,
      List.flatMap_append]
    exact .change hu [] (rewrites_redirections _ hvwf)
  · have hsame : opcodes (ofLexemes (Lexeme.rename ((label :: second :: rest).map Token.lexeme))) =
        opcodes (ofLexemes (Lexeme.rename ((second :: rest).map Token.lexeme))) :=
      opcodes_rename_label hlabel hsecond hname
    rw [SameOpcodes, opcodes_redirect hf hs.right hvwf, hvlexemes, houtlines,
      List.filterMap_append, hulex, hvlexemes, ← hsame]
    rfl

/-- A node that declares a label starts with it. -/
theorem isLabel_of_ofTokens {stop : Position} {head : Token} {tail : List Token} {n : Node}
    {ns : List Node} (h : Node.ofTokens stop (head :: tail) = n :: ns) (hn : n.isLabel = true) :
    head.isLabel = true := by
  rw [Node.ofTokens.eq_def] at h
  cases hlabel : head.isLabel with
  | true => rfl
  | false =>
    simp only [hlabel] at h
    split at h <;> cases h <;> cases hn

/-- What stands behind a label has no other name, if this is so for an instruction. -/
theorem renamedOperand_of_instruction {doc : Document} {stop : Position} {second : Token}
    {rest : List Token} (hsecond : second.isComment = false)
    (hsource : doc.source second = second.content) {ns : List Node}
    (hns : ns = Node.ofTokens stop (second.rename renamedOperand :: rest))
    (hname : ∀ n ms, ns = n :: ms → n.isInstruction = true →
      renamedOperand (doc.source n.head) = doc.source n.head) :
    renamedOperand second.content = second.content := by
  cases hlabel : second.isLabel with
  | true => exact @Lexeme.renamedOperand_of_isLabel second.lexeme hlabel
  | false =>
    have hlabel' : (second.rename renamedOperand).isLabel = false :=
      (Lexeme.isLabel_map_renamedOperand second.lexeme).trans hlabel
    have hcomment' : (second.rename renamedOperand).isComment = false := hsecond
    rw [Node.ofTokens.eq_def] at hns
    simp only [hlabel', hcomment'] at hns
    have hrenamed : doc.source (second.rename renamedOperand) = second.content := hsource
    rw [← hrenamed]
    exact hname _ _ hns rfl

/-- The nodes of a stretch are those of a statement, if there are any. -/
theorem DeletesFirst.nodesAt {doc : Document} {here : Position} {s : List Piece} (hs : Stretch s)
    (h : ∀ st ∈ statementsAt here [] s, DeletesFirst doc (Node.ofStatement st)) :
    DeletesFirst doc (nodesAt here s) := by
  rw [statementsAt_of_stretch _ _ hs, List.nil_append] at h
  rw [nodesAt_of_stretch _ hs]
  cases htokens : tokensAt here s with
  | nil => exact ⟨by simp [closeAt, close], by simp [closeAt, close]⟩
  | cons head tail =>
    rw [htokens] at h
    simpa [closeAt, close] using h

/-- No node is dropped, or the first one is and no other. -/
theorem dropped_cases {k : Nat} {ns : List Node} (hk : ns <+: (Node.ofText t).drop k)
    (hfirst : ∀ n ∈ ns.tail, isDeleted (.ofText uri t) n = false) :
    (∀ i n, ns[i]? = some n →
      n ∈ Node.ofText t ∧ isDropped (.ofText uri t) n (k + i) = false) ∨
    ∃ l ms, ns = l :: ms ∧ isDeleted (.ofText uri t) l = true ∧
      isDropped (.ofText uri t) l k = true ∧ ∀ i n, ms[i]? = some n →
        n ∈ Node.ofText t ∧ isDropped (.ofText uri t) n (k + 1 + i) = false := by
  have hindex : ∀ i n, ns[i]? = some n → (Node.ofText t)[k + i]? = some n := by
    intro i n hi
    obtain ⟨later, hlater⟩ := hk
    rw [← List.getElem?_drop, ← hlater,
      List.getElem?_append_left (List.getElem?_eq_some_iff.1 hi).1, hi]
  cases ns with
  | nil => exact .inl (by simp)
  | cons l ms =>
    have hlater : ∀ i n, ms[i]? = some n →
        n ∈ Node.ofText t ∧ isDropped (.ofText uri t) n (k + (i + 1)) = false := by
      intro i n hi
      have hn := hindex (i + 1) n hi
      refine ⟨List.mem_of_getElem? hn, eq_false_of_ne_true fun hdropped => ?_⟩
      have hdeleted := isDeleted_of_isDropped hn hdropped
      rw [hfirst n (List.mem_of_getElem? hi)] at hdeleted
      cases hdeleted
    have hl := hindex 0 l rfl
    -- Only the first node can be deleted, so its own bit decides between the two cases.
    cases hdropped : isDropped (.ofText uri t) l k with
    | false =>
      refine .inl fun i n hi => ?_
      cases i with
      | zero =>
        obtain rfl := Option.some.inj hi
        exact ⟨List.mem_of_getElem? hl, hdropped⟩
      | succ i => exact hlater i n hi
    | true =>
      refine .inr ⟨l, ms, rfl, isDeleted_of_isDropped hl hdropped, hdropped, fun i n hi => ?_⟩
      rw [Nat.add_assoc, Nat.add_comm 1]
      exact hlater i n hi

/-- Every stretch of which no node but the first one is deleted keeps its opcodes, or is deleted
with the line break behind it. -/
theorem revisable_sameOpcodes :
    Revisable SameOpcodes uri t fun st => DeletesFirst (.ofText uri t) (Node.ofStatement st) := by
  intro a b k s ha hb hs hwf ht hk hstatements
  have hpos := Position.character_origin_advance a
  obtain ⟨hfirst, hname⟩ := DeletesFirst.nodesAt hs hstatements
  rcases @dropped_cases uri t k _ hk hfirst with hnone | ⟨l, ns, hnodes, hdeleted, hdropped, hlater⟩
  · exact .inl ⟨_, revised_redirect hpos hs hwf hnone⟩
  cases htokens : tokensAt (Position.origin.advance a) s with
  | nil =>
    rw [nodesAt_of_stretch _ hs, htokens] at hnodes
    cases hnodes
  | cons head tail =>
    have hl : l.isLabel = true := by
      simp only [isDropped, Bool.and_eq_true] at hdropped
      exact hdropped.1.1
    have hlabel := isLabel_of_ofTokens
      ((nodesAt_of_tokensAt hpos hs htokens).symm.trans hnodes) hl
    have hcomment := Token.isComment_of_isLabel hlabel
    -- A label on its own goes with its line break; one in front of more leaves the rest in place.
    by_cases halone : ∀ second ∈ tail.head?, second.isComment = true
    · have hnode := nodesAt_of_label_alone hpos hs htokens hcomment hlabel halone
      subst ht
      rcases @exists_revision_label uri a b ha hb k s hs hwf _ _ htokens _ hnode rfl rfl rfl with
        ⟨s', hs'⟩ | ⟨returns, more, hmore, hline⟩
      · exact .inl ⟨s', hs'.imp sameOpcodes_of_renumbered⟩
      · exact .inr ⟨returns, more, hmore, hline.imp sameOpcodes_of_renumbered⟩
    · obtain ⟨second, rest, rfl, hsecond⟩ : ∃ second rest, tail = second :: rest ∧
          second.isComment = false := by
        cases tail with
        | nil => simp at halone
        | cons second rest => exact ⟨second, rest, rfl, by simpa using halone⟩
      have hcons := nodesAt_of_label_cons hpos hs htokens hcomment hlabel hsecond
      obtain ⟨rfl, hns⟩ : l = .ofLabel head ∧ _ := List.cons.inj (hnodes.symm.trans hcons)
      have hsource : (Document.ofText uri t).source second = second.content := by
        rw [ht]
        exact source_of_mem_tokensAt uri hwf second (by simp [htokens])
      have hown := renamedOperand_of_instruction hsecond hsource hns fun n ms hms =>
        hname (.ofLabel head) n ms (hms ▸ hnodes) hdeleted
      exact .inl
        (exists_revised_drop ha hs hwf ht htokens hlabel hsecond hown hnodes hdropped hlater)

end

/-- Numbering jumps keeps all opcodes if no label is deleted but at the start of a statement, and
there only if the instruction behind it has no name of old.  Then the edits can be made, and the new
text has as many instructions with the same opcodes. -/
theorem toNumbers_keeps_opcodes (uri : String) (t : Text)
    (hstatements : ∀ s ∈ Statement.ofText t, DeletesFirst (.ofText uri t) (Node.ofStatement s)) :
    ∃ out, Edit.applyAll (.ofText uri t) (toNumbers (.ofText uri t)).edits = .ok out ∧
      (Document.ofText uri out).instructions.length =
        (Document.ofText uri t).instructions.length ∧
      ∀ k, ((Document.ofText uri out).instruction? k).map Node.opcode =
        ((Document.ofText uri t).instruction? k).map Node.opcode := by
  obtain ⟨out, hout, hsame⟩ := exists_applyAll_of_revisable
    (fun ns ms os os' h h' => by
      rw [SameOpcodes, opcodes_append, h, h', List.map_append, opcodes_append])
    revisable_sameOpcodes hstatements
  rw [SameOpcodes, opcodes_map_outline, opcodes_map_outline] at hsame
  -- Every instruction has an opcode, so equal optional ones are equal.
  have hopcodes : ((Node.ofText out).filter (·.isInstruction)).map Node.opcode =
      ((Node.ofText t).filter (·.isInstruction)).map Node.opcode := by
    refine List.map_injective_iff.2 (Option.some_injective Text) ?_
    rw [List.map_map, List.map_map]
    exact hsame
  refine ⟨out, hout, ?_, fun k => ?_⟩
  · have hlength := congrArg List.length hopcodes
    rw [List.length_map, List.length_map, ← List.countP_eq_length_filter,
      ← List.countP_eq_length_filter] at hlength
    exact (length_instructionIndicesFrom 0 _).trans
      (hlength.trans (length_instructionIndicesFrom 0 _).symm)
  · rw [Document.instruction?_ofText, Document.instruction?_ofText, ← List.getElem?_map,
      ← List.getElem?_map, hopcodes]

/-- Two labels in front of an instruction, and one on a line of its own.  There are jumps to the
first one and to the last one. -/
def leadingText : Text := "a: b: print x\nc:\n jump a always; jump c always".toList

/-- Both labels are deleted at the start of their statements, and all opcodes are kept. -/
theorem toNumbers_keeps_opcodes_leading :
    ∃ out, Edit.applyAll (.ofText "" leadingText) (toNumbers (.ofText "" leadingText)).edits =
        .ok out ∧ out = "b: print x\n jump 0 always; jump 1 always".toList ∧
      ∀ k, ((Document.ofText "" out).instruction? k).map Node.opcode =
        ((Document.ofText "" leadingText).instruction? k).map Node.opcode := by
  have happlied : Edit.applyAll (.ofText "" leadingText)
      (toNumbers (.ofText "" leadingText)).edits =
        .ok "b: print x\n jump 0 always; jump 1 always".toList := by decide +kernel
  have hstatements : ∀ s ∈ Statement.ofText leadingText,
      DeletesFirst (.ofText "" leadingText) (Node.ofStatement s) := by
    have hfirst : ∀ s ∈ Statement.ofText leadingText, ∀ n ∈ (Node.ofStatement s).tail,
        isDeleted (.ofText "" leadingText) n = false := by decide +kernel
    have hnames : ∀ s ∈ Statement.ofText leadingText, ∀ n ∈ Node.ofStatement s,
        renamedOperand ((Document.ofText "" leadingText).source n.head) =
          (Document.ofText "" leadingText).source n.head := by decide +kernel
    intro s hs
    refine ⟨hfirst s hs, fun l n rest hnodes _ _ => hnames s hs n ?_⟩
    rw [hnodes]
    simp
  obtain ⟨out, hout, -, hopcodes⟩ := toNumbers_keeps_opcodes "" leadingText hstatements
  rw [happlied] at hout
  exact ⟨out, hout ▸ happlied, (Except.ok.inj hout).symm, hopcodes⟩

/-- Two labels in front of an instruction, where there is a jump to the second one only. -/
def trailingText : Text := "a: b: print x\njump b always".toList

/-- The second label is deleted with the blank behind the first one, which becomes a part of the
opcode. -/
theorem not_toNumbers_keeps_opcodes :
    ¬ ∀ out, Edit.applyAll (.ofText "" trailingText) (toNumbers (.ofText "" trailingText)).edits =
        .ok out →
      ∀ k, ((Document.ofText "" out).instruction? k).map Node.opcode =
        ((Document.ofText "" trailingText).instruction? k).map Node.opcode := by
  have happlied : Edit.applyAll (.ofText "" trailingText)
      (toNumbers (.ofText "" trailingText)).edits = .ok "a:print x\njump 0 always".toList := by
    decide +kernel
  intro h
  have hfirst := h _ happlied 0
  revert hfirst
  decide +kernel

end Jumps

end LogicAsm
