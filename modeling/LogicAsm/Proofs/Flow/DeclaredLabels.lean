import LogicAsm.Proofs.Jumps.Arrangement
import LogicAsm.Proofs.Jumps.Redirecting

/-!
# Jumping to a declared label

A name is read in two places: in a declaration, as a word without its colon, and in a jump, as an
operand.  Here a text gets one more line, `jump … always`, with a name that it declares
(`Jumps.withJump`).  The line is one more node behind those of the text (`exists_jump_node`), so
that the declarations are found where they were.

The jump goes to the first declaration of the name (`declared_label_resolves_iff`) unless the name
is one of old, for that is renamed as an operand, but not in a declaration: the label `configure:`
is declared, and `jump configure` goes to `config`.
-/

namespace LogicAsm

/-! ### One more line -/

/-- A line break in a text is a separator between the pieces of its parts. -/
theorem Piece.ofText_append_newline (t u : Text) :
    ofText (t ++ '\n' :: u) = ofText t ++ .separator '\n' :: ofText u := by
  have hline : Row (.separator '\n' :: ofText u) :=
    (row_ofText u).cons (.inr rfl) fun _ _ => rfl
  have hrow : Row (ofText t ++ .separator '\n' :: ofText u) := by
    apply (row_ofText t).append hline
    rintro p - q ⟨⟩
    exact mayPrecede_newline p
  have htext : (ofText t ++ .separator '\n' :: ofText u).flatMap text = t ++ '\n' :: u := by
    rw [List.flatMap_append, List.flatMap_cons, flatMap_text_ofText, flatMap_text_ofText]
    rfl
  rw [← htext, ofText_flatMap_text hrow]

/-- New lines leave the nodes in front of them as they are. -/
theorem Node.ofText_append_newline (t u : Text) :
    Node.ofText (t ++ '\n' :: u) =
      Node.ofText t ++ Piece.nodesAt (Position.origin.advance (t ++ ['\n'])) (Piece.ofText u) := by
  rw [Node.ofText_eq, Piece.ofText_append_newline, Piece.nodesAt_append_separator,
    Piece.flatMap_text_ofText, ← Node.ofText_eq]

namespace FlowGraph

/-! ### A jump behind all other nodes -/

/-- A jump behind all other nodes goes to the first declaration of a name among them, and no label
is reported as not declared at its place. -/
structure ResolvesTo (g : FlowGraph) (nodes : List Node) (jump : Node) (name : Text) : Prop where
  target : ∃ first, nodes.findIdx? (LabelTable.declares name) = some first ∧
    g.jumpTarget? nodes.length = some first
  unreported : ∀ p ∈ g.problems, p.code = .undefinedLabel → p.range ≠ jump.range

section

variable {uri : String} {nodes : List Node} {jump : Node} {d : Token} {g : FlowGraph}
  (hd : jump.destination? = some d)

include hd

/-- A jump declares nothing. -/
theorem findIdx?_append_jump (name : Text) :
    (nodes ++ [jump]).findIdx? (LabelTable.declares name) =
      nodes.findIdx? (LabelTable.declares name) := by
  have hdeclares : LabelTable.declares name jump = false := by
    rw [LabelTable.declares, Bool.and_eq_false_iff]
    left
    cases hlabel : jump.isLabel with
    | false => rfl
    | true =>
      have hinstruction := Node.isInstruction_of_isLabel hlabel
      rw [Node.isInstruction_of_destination? hd] at hinstruction
      cases hinstruction
  simp [List.findIdx?_append, hdeclares]

/-- One more jump by a name leaves a program as readable as it was. -/
theorem exists_ofNodes_append_jump (hnumber : d.isNumber = false) :
    (∃ g, ofNodes uri (nodes ++ [jump]) = .ok g) ↔ ∃ g, ofNodes uri nodes = .ok g := by
  constructor
  · rintro ⟨g, hg⟩
    apply exists_ofNodes
    intro n hn
    exact address_of_ofNodes hg n (List.mem_append_left _ hn)
  · rintro ⟨g, hg⟩
    apply exists_ofNodes
    intro n hn x hx
    rcases List.mem_append.1 hn with hn | hn
    · exact address_of_ofNodes hg n hn x hx
    · obtain rfl := List.mem_singleton.1 hn
      rw [← n.map_lexeme_destination?, hd] at hx
      obtain rfl : d.lexeme = x := Option.some.inj hx
      exact ⟨none, Token.address_of_not_isNumber hnumber⟩

variable (h : ofNodes uri (nodes ++ [jump]) = .ok g)

include h

/-- A jump by a name goes to the first declaration of the name. -/
theorem jumpTarget?_append_jump (hnumber : d.isNumber = false) :
    g.jumpTarget? nodes.length = nodes.findIdx? (LabelTable.declares d.content) := by
  have hlast : (nodes ++ [jump])[nodes.length]? = some jump := List.getElem?_concat_length
  rw [jumpTarget?_eq h hlast hd, hnumber, if_neg Bool.false_ne_true, findIdx?_append_jump hd]

/-- If a label is reported as not declared at the place of the jump, then the name of the jump is
not declared. -/
theorem findIdx?_of_reported (hstart : ∀ n ∈ nodes, n.start < jump.start) {p : Diagnostic}
    (hp : p ∈ g.problems) (hcode : p.code = .undefinedLabel) (hrange : p.range = jump.range) :
    nodes.findIdx? (LabelTable.declares d.content) = none := by
  obtain ⟨-, hlabels, -, -⟩ := exits_of_ofNodes h
  rcases exists_of_mem_problems h p hp with
    ⟨again, first, rfl⟩ | ⟨n, hn, e, he, rfl | ⟨rfl, hnone⟩⟩
  · cases hcode
  · cases hcode
  -- The report is at the place of its node, and there is no other node at that of the jump.
  have hsame : n.start = jump.start := congrArg Range.start hrange
  rcases List.mem_append.1 hn with hn | hn
  · exact absurd hsame (Position.ne_of_lt (hstart n hn))
  · obtain rfl := List.mem_singleton.1 hn
    obtain rfl : d = e := Option.some.inj (hd.symm.trans he)
    rwa [hlabels, LabelTable.find?_ofNodes, findIdx?_append_jump hd] at hnone

/-- The jump finds a label that is declared in front of it if and only if the name is read as an
operand as it is declared. -/
theorem resolvesTo_iff (hnumber : d.isNumber = false) (hstart : ∀ n ∈ nodes, n.start < jump.start)
    {name : Text} (hname : d.content = renamedOperand name)
    (hdeclared : ∃ n ∈ nodes, LabelTable.declares name n = true) :
    g.ResolvesTo nodes jump name ↔ renamedOperand name = name := by
  obtain ⟨first, hfirst⟩ : ∃ first, nodes.findIdx? (LabelTable.declares name) = some first := by
    rw [← Option.isSome_iff_exists, List.findIdx?_isSome, List.any_eq_true]
    exact hdeclared
  constructor
  · rintro ⟨⟨i, hi, htarget⟩, -⟩
    rw [jumpTarget?_append_jump hd h hnumber, hname] at htarget
    -- The node that is found declares both names, so they are the same.
    obtain ⟨_, hsame, -⟩ := List.findIdx?_eq_some_iff_getElem.1 hi
    obtain ⟨_, hrenamed, -⟩ := List.findIdx?_eq_some_iff_getElem.1 htarget
    simp only [LabelTable.declares, Bool.and_eq_true, beq_iff_eq] at hsame hrenamed
    rw [← hrenamed.2, hsame.2]
  · intro hself
    rw [hself] at hname
    refine ⟨⟨first, hfirst, ?_⟩, ?_⟩
    · rw [jumpTarget?_append_jump hd h hnumber, hname, hfirst]
    · intro p hp hcode hrange
      have hnone := findIdx?_of_reported hd h hstart hp hcode hrange
      rw [hname, hfirst] at hnone
      cases hnone

end

end FlowGraph

/-! ### A jump to a name of the text -/

namespace Jumps

open Piece

/-- The text with one more line, which jumps to a name. -/
def withJump (t name : Text) : Text := t ++ '\n' :: ("jump ".toList ++ (name ++ " always".toList))

/-- The pieces of the new line. -/
theorem ofText_jump {name : Text} (h : (word name).WellFormed) :
    Piece.ofText ("jump ".toList ++ (name ++ " always".toList)) =
      [.word "jump".toList, .blank ' '] ++ .word name :: [.blank ' ', .word "always".toList] := by
  have hrow : Row ([.word "jump".toList, .blank ' '] ++
      .word name :: [.blank ' ', .word "always".toList]) := by
    refine ⟨?_, by simp [mayPrecede]⟩
    intro p hp
    simp only [List.cons_append, List.nil_append, List.mem_cons, List.not_mem_nil, or_false] at hp
    rcases hp with rfl | rfl | rfl | rfl | rfl
    · exact wellFormed_word_iff.2 (by decide)
    · rfl
    · exact h
    · rfl
    · exact wellFormed_word_iff.2 (by decide)
  rw [← ofText_flatMap_text hrow]
  simp [text]

/-- The new line is one node behind those of the text: a jump to the name as an operand. -/
theorem exists_jump_node (t : Text) {name : Text} (h : (word name).WellFormed) :
    ∃ jump d, Node.ofText (withJump t name) = Node.ofText t ++ [jump] ∧
      jump.destination? = some d ∧ d.lexeme = .ofOperand name := by
  have hfront : LeadsJump [.word "jump".toList, .blank ' '] :=
    ⟨by simp [Stretch, endsStatement], [], rfl, by simp⟩
  have hback : Stretch [.blank ' ', .word "always".toList] := by simp [Stretch, endsStatement]
  obtain ⟨labels, jump, d, hnodes, hlabels, -, hd, hlexeme, -⟩ := exists_nodesAt_of_leadsJump
    (Position.character_origin_advance (t ++ ['\n'])) hfront h hback
  -- In front of the jump there is no label, as there is no other lexeme.
  obtain rfl : labels = [] := List.map_eq_nil_iff.1 (List.append_left_eq_self.1 hlabels)
  refine ⟨jump, d, ?_, hd, hlexeme⟩
  rw [withJump, Node.ofText_append_newline, ofText_jump h, hnodes]
  rfl

/-- A jump to a declared label, on a line of its own behind the text, can be read if the text can,
and it goes to the first declaration without a report if and only if the name is not one of old. -/
theorem declared_label_resolves_iff {uri : String} {t : Text} {n : Node} (hn : n ∈ Node.ofText t)
    (hlabel : n.isLabel = true) (hnumber : Number.isLiteral n.labelName = false) :
    ((∃ g, FlowGraph.ofNodes uri (Node.ofText (withJump t n.labelName)) = .ok g) ↔
        ∃ g, FlowGraph.ofNodes uri (Node.ofText t) = .ok g) ∧
      ∃ jump, Node.ofText (withJump t n.labelName) = Node.ofText t ++ [jump] ∧
        ∀ g, FlowGraph.ofNodes uri (Node.ofText (withJump t n.labelName)) = .ok g →
          (g.ResolvesTo (Node.ofText t) jump n.labelName ↔
            n.labelName ≠ "configure".toList ∧ n.labelName ≠ "@configure".toList) := by
  obtain ⟨jump, d, hnodes, hd, hlexeme⟩ := exists_jump_node t (Node.wellFormed_labelName hn hlabel)
  have hname : d.isNumber = false := by
    have hkind : d.kind = (classifyWord n.labelName).1 := congrArg Prod.fst hlexeme
    rw [Token.isNumber, hkind, beq_eq_false_iff_ne]
    exact classifyWord_of_not_isLiteral hnumber
  -- The jump stands last, so the first declaration of its name is one of the text's own.
  have hstart : ∀ m ∈ Node.ofText t, m.start < jump.start := by
    have hpairwise := pairwise_start_ofText (withJump t n.labelName)
    rw [hnodes] at hpairwise
    intro m hm
    exact (List.pairwise_append.1 hpairwise).2.2 m hm jump (List.mem_singleton_self jump)
  have hdeclared : ∃ m ∈ Node.ofText t, LabelTable.declares n.labelName m = true :=
    ⟨n, hn, by simp [LabelTable.declares, hlabel]⟩
  rw [hnodes]
  refine ⟨FlowGraph.exists_ofNodes_append_jump hd hname, jump, rfl, fun g hg => ?_⟩
  rw [← not_or, ← Lexeme.renamedOperand_eq_self_iff]
  apply FlowGraph.resolvesTo_iff hd hg hname hstart
  · exact congrArg Prod.snd hlexeme
  · exact hdeclared

/-- A name with a quote and a colon that is declared twice. -/
theorem declared_label_resolves_iff_twice : ∃ g,
    FlowGraph.ofNodes "" (Node.ofText
      (withJump "print x\na\"::\na\"::".toList "a\":".toList)) = .ok g ∧
      g.jumpTarget? 3 = some 1 := by
  obtain ⟨n, hn, hlabel, hname⟩ : ∃ n ∈ Node.ofText "print x\na\"::\na\"::".toList,
      n.isLabel = true ∧ n.labelName = "a\":".toList := by
    decide +kernel
  have hresolves := @declared_label_resolves_iff "" _ n hn hlabel (by rw [hname]; decide +kernel)
  rw [hname] at hresolves
  obtain ⟨hbuilt, jump, -, hgraph⟩ := hresolves
  have hcomputed : (Node.ofText "print x\na\"::\na\"::".toList).length = 3 ∧
      (Node.ofText "print x\na\"::\na\"::".toList).findIdx?
        (LabelTable.declares "a\":".toList) = some 1 := by
    decide +kernel
  have hok : (FlowGraph.ofNodes "" (Node.ofText "print x\na\"::\na\"::".toList)).isOk = true := by
    decide +kernel
  obtain ⟨g, hg⟩ : ∃ g, FlowGraph.ofNodes "" (Node.ofText
      (withJump "print x\na\"::\na\"::".toList "a\":".toList)) = .ok g := by
    apply hbuilt.2
    cases hold : FlowGraph.ofNodes "" (Node.ofText "print x\na\"::\na\"::".toList) with
    | ok g => exact ⟨g, rfl⟩
    | error e =>
      rw [hold] at hok
      cases hok
  obtain ⟨first, hfirst, htarget⟩ := ((hgraph g hg).2 (by decide)).target
  refine ⟨g, hg, ?_⟩
  rw [hcomputed.1] at htarget
  rw [htarget, ← hfirst, hcomputed.2]

/-- The label `configure` is declared, but a jump to it goes nowhere and is reported. -/
theorem not_declared_label_resolves :
    (FlowGraph.ofNodes "" (Node.ofText
        (withJump "configure:".toList "configure".toList))).toOption.map (fun g =>
      (g.labels.find? "configure".toList, g.jumpTarget? 1, g.problems.map (·.code))) =
    some (some 0, none, [.undefinedLabel]) := by
  decide +kernel

end Jumps

end LogicAsm
