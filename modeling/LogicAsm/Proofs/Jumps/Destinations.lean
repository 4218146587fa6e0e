import LogicAsm.Proofs.Edits
import LogicAsm.Proofs.Jumps.NodeEdits
import LogicAsm.Proofs.Numerals
import LogicAsm.Proofs.Sources
import Mathlib.Tactic.IntervalCases

/-!
# Numbered destinations

A jump to a label that is numbered has a word as its destination (`exists_word_of_labelled`): the
name of a label starts as neither a string nor a comment does.  So a number can be put in its place
without touching what stands around it (`exists_partRevision`), and it is read as the number again.

What a program says once its jumps are numbered is said by `Renumbered`: every node is revised, and
some labels are missing.
-/

namespace LogicAsm

namespace Piece

/-! ### Numbers in the place of words -/

/-- What may stand next to a word may stand next to every other one. -/
theorem Row.replace_word {ps qs : List Piece} {w : Text} (h : Row (ps ++ .word w :: qs)) {v : Text}
    (hv : (word v).WellFormed) : Row (ps ++ .word v :: qs) := by
  -- What may stand beside a word does not depend on which word it is.
  have hsame (p : Piece) : p.mayPrecede (.word w) = p.mayPrecede (.word v) := by
    cases p with
    | quoted body closed => cases closed <;> rfl
    | _ => rfl
  have hsame' (q : Piece) : (word w).mayPrecede q = (word v).mayPrecede q := by
    cases q <;> rfl
  refine ⟨?_, ?_⟩
  · intro p hp
    rcases List.mem_append.1 hp with hp | hp
    · exact h.wellFormed p (by simp [hp])
    · rcases List.mem_cons.1 hp with rfl | hp
      · exact hv
      · exact h.wellFormed p (by simp [hp])
  · have hchain := h.chain
    simp only [List.isChain_append, List.isChain_cons, List.head?_cons, Option.mem_some_iff,
      forall_eq'] at hchain ⊢
    simpa only [hsame, hsame'] using hchain

/-- A numeral is a word. -/
theorem wellFormed_word_ofNat (n : Nat) : (word (Text.ofNat n)).WellFormed := by
  have hdigit : ∀ c ∈ Text.ofNat n, c ≠ '"' ∧ inWord c = true ∧ c ≠ '\n' := by
    intro c hc
    obtain ⟨d, hd, rfl⟩ := Text.mem_ofNat c hc
    interval_cases d <;> decide
  refine ⟨Text.ofNat_ne_nil n, ?_, fun c hc => (hdigit c hc).2⟩
  intro hhead
  exact (hdigit _ (List.mem_of_mem_head? hhead)).1 rfl

theorem lexeme?_word_ofNat (n : Nat) :
    (word (Text.ofNat n)).lexeme? = some (.number, Text.ofNat n) := by
  rw [lexeme?, classifyWord_ofNat]

end Piece

/-! ### Names of labels -/

/-- A label is no word without a colon at its end. -/
theorem Lexeme.ne_of_isLabel {x : Lexeme} (h : x.isLabel = true) {name : Text}
    (hname : name.getLast? ≠ some ':') : x.2 ≠ name := by
  simp only [isLabel, Text.endsWith, Bool.and_eq_true, beq_iff_eq] at h
  rintro rfl
  exact hname h.2

/-- What declares a label starts with the label. -/
theorem Outline.exists_of_label {xs : List Lexeme} : ∀ o ∈ ofLexemes xs, o.kind = .label →
    ∃ head tail, o.lexemes = head :: tail ∧ head.isLabel = true := by
  fun_induction ofLexemes xs with
  | case1 => simp
  | case2 head tail => simp
  | case3 head hc hl =>
    intro o ho _
    obtain rfl := List.mem_singleton.1 ho
    exact ⟨head, [], rfl, hl⟩
  | case4 head hc hl second rest =>
    intro o ho _
    obtain rfl := List.mem_singleton.1 ho
    exact ⟨head, second :: rest, rfl, hl⟩
  | case5 head hc hl second rest hs ih =>
    intro o ho hkind
    rcases List.mem_cons.1 ho with rfl | ho
    · exact ⟨head, [], rfl, hl⟩
    · exact ih o ho hkind
  | case6 head tail => simp

/-- The name of a label is a word. -/
theorem Node.wellFormed_labelName {t : Text} {n : Node} (hn : n ∈ Node.ofText t)
    (hl : n.isLabel = true) : (Piece.word n.labelName).WellFormed := by
  obtain ⟨hwritable, xs, hxs⟩ := Node.writable_ofText t n hn
  obtain ⟨head, tail, hlexemes, hlabel⟩ := Outline.exists_of_label _ hxs (beq_iff_eq.1 hl)
  obtain rfl : n.head.lexeme = head := (List.cons.inj hlexemes).1
  obtain ⟨p, hp, hlex⟩ := hwritable.wellFormed n.head.lexeme (by simp [hlexemes])
  simp only [Lexeme.isLabel, Token.lexeme, Bool.and_eq_true, beq_iff_eq] at hlabel
  obtain ⟨⟨hkind, hlength⟩, -⟩ := hlabel
  have hne : n.labelName ≠ [] := by
    have hlong : 1 < n.head.content.length := of_decide_eq_true hlength
    rw [labelName, ← List.length_pos_iff, List.length_dropLast]
    omega
  cases p with
  | blank d => cases hlex
  | separator d => cases hlex
  | comment body => simp [Piece.lexeme?, Token.lexeme, hkind] at hlex
  | quoted body closed => simp [Piece.lexeme?, Token.lexeme, hkind] at hlex
  | word w =>
    obtain rfl : w = n.head.content := congrArg Prod.snd (Option.some.inj hlex)
    refine ⟨hne, fun hhead => hp.2.1 ?_, fun c hc => hp.2.2 c (List.dropLast_subset _ hc)⟩
    -- The name is the token without the colon, so that they start alike.
    obtain ⟨cs, hcs⟩ := List.head?_eq_some_iff.1 hhead
    have hcontent : n.head.content ≠ [] := by
      intro hnil
      simp [labelName, hnil] at hcs
    rw [← List.dropLast_append_getLast hcontent, ← labelName, hcs]
    rfl

/-- The name of a label starts as neither a string nor a comment does. -/
theorem Node.head?_labelName {t : Text} {n : Node} (hn : n ∈ Node.ofText t)
    (hl : n.isLabel = true) : ∀ c ∈ n.labelName.head?, c ≠ '"' ∧ c ≠ '#' := by
  obtain ⟨-, hquote, hword⟩ := Node.wellFormed_labelName hn hl
  intro c hc
  refine ⟨?_, ?_⟩
  · rintro rfl
    exact hquote hc
  · rintro rfl
    exact absurd (hword _ (List.mem_of_mem_head? hc)).1 (by decide)

/-- The first operand is the second token. -/
theorem Node.head?_tail_of_operands {n : Node} {d : Token} (h : n.operands[0]? = some d) :
    n.tail.head? = some d := by
  unfold operands at h
  split at h
  · next hlast =>
    cases htail : n.tail with
    | nil => simp [htail] at hlast
    | cons first rest =>
      rw [htail] at h
      split at h
      · cases rest with
        | nil => cases h
        | cons second rest => exact h
      · exact h
  · cases h

namespace Jumps

open Piece Edit

variable {uri : String} {t : Text}

/-- A jump that is numbered, its destination and the counter of its label. -/
structure Labelled (doc : Document) (n : Node) (d : Token) (counter : Nat) : Prop where
  instruction : n.isInstruction = true
  opcode : n.opcode = "jump".toList
  destination : n.destination? = some d
  second : n.tail.head? = some d
  notNumber : d.isNumber = false
  lookup : (labelCounters doc).lookup d.content = some counter

theorem labelled_of_eq_some {doc : Document} {n : Node} {d : Token} {counter : Nat}
    (h : labelled? doc n = some (d, counter)) : Labelled doc n d counter := by
  obtain ⟨t, ht, hlookup⟩ := Option.bind_eq_some_iff.1 h
  obtain ⟨c, hc, heq⟩ := Option.map_eq_some_iff.1 hlookup
  cases heq
  obtain ⟨hdestination, hnumber⟩ := Option.filter_eq_some_iff.1 ht
  have hoperand := hdestination
  unfold Node.destination? at hoperand
  split at hoperand
  · next hjump =>
    simp only [Node.isJump, Bool.and_eq_true, beq_iff_eq] at hjump
    exact ⟨hjump.1, hjump.2, hdestination, Node.head?_tail_of_operands hoperand,
      by simpa using hnumber, hc⟩
  · cases hoperand

/-- The destination of a jump that is numbered is a word. -/
theorem exists_word_of_labelled {n : Node} {d : Token} {counter : Nat}
    (h : Labelled (.ofText uri t) n d counter) {p : Piece} {x : Lexeme} (hx : p.lexeme? = some x)
    (hname : d.content = renamedOperand x.2) : ∃ w, p = .word w := by
  have hlookup := h.lookup
  rw [lookup_labelCounters] at hlookup
  obtain ⟨index, hindex, -⟩ := Option.bind_eq_some_iff.1 hlookup
  obtain ⟨hlt, hdeclares, -⟩ := List.findIdx?_eq_some_iff_getElem.1 hindex
  simp only [LabelTable.declares, Bool.and_eq_true, beq_iff_eq] at hdeclares
  -- A declared name starts with neither `#` nor a quote.
  have hhead := Node.head?_labelName (List.getElem_mem hlt) hdeclares.1
  rw [hdeclares.2, hname] at hhead
  cases p with
  | blank c => cases hx
  | separator c => cases hx
  | comment body =>
    cases hx
    exact absurd rfl (hhead '#' rfl).2
  | quoted body closed =>
    cases hx
    exact absurd rfl (hhead '"' rfl).1
  | word w => exact ⟨w, rfl⟩

/-! ### Revised nodes -/

/-- What the tokens of a node say once the node is numbered. -/
def renumber (doc : Document) (n : Node) (xs : List Lexeme) : List Lexeme :=
  match labelled? doc n with
  | none => xs
  | some (_, counter) => xs.set 1 (.number, Text.ofNat counter)

/-- What a node says once it is numbered. -/
def revised (doc : Document) (n : Node) : Outline := ⟨n.kind, renumber doc n n.outline.lexemes⟩

/-- Nodes, and what is said once they are numbered: some declarations of labels that are numbered
are missing. -/
inductive Renumbered (doc : Document) : List Node → List Outline → Prop where
  | nil : Renumbered doc [] []
  | drop {n : Node} {ns : List Node} {os : List Outline} (label : n.isLabel = true)
      (numbered : isNumbered doc n.labelName = true) (rest : Renumbered doc ns os) :
      Renumbered doc (n :: ns) os
  | keep (n : Node) {ns : List Node} {os : List Outline} (rest : Renumbered doc ns os) :
      Renumbered doc (n :: ns) (revised doc n :: os)

theorem Renumbered.append {doc : Document} {ns ms : List Node} {os ps : List Outline}
    (h : Renumbered doc ns os) (h' : Renumbered doc ms ps) :
    Renumbered doc (ns ++ ms) (os ++ ps) := by
  induction h with
  | nil => exact h'
  | drop label numbered _ ih => exact .drop label numbered ih
  | keep n _ ih => exact .keep n ih

theorem labelled?_of_not_instruction {doc : Document} {n : Node} (h : n.isInstruction = false) :
    labelled? doc n = none := by
  cases hlabelled : labelled? doc n with
  | none => rfl
  | some found =>
    have := (labelled_of_eq_some hlabelled).instruction
    rw [h] at this
    cases this

/-- Labels are not numbered, and nothing but labels is dropped. -/
theorem nodeEdits_of_label {doc : Document} {n : Node} (h : n.isLabel = true) (i : Nat) :
    nodeEdits doc n i = if isDropped doc n i then [.delete ⟨lineStart doc n, lineEnd doc n⟩]
      else [] := by
  have hinstruction := Node.isInstruction_of_isLabel h
  rw [nodeEdits, replacement?, labelled?_of_not_instruction hinstruction, deletion?]
  split <;> rfl

theorem nodeEdits_of_not_label {doc : Document} {n : Node} (h : n.isLabel = false) (i : Nat) :
    nodeEdits doc n i = (replacement? doc n).toList := by
  rw [nodeEdits, deletion?, isDropped, h]
  rfl

/-! ### The destination of an instruction -/

/-- The pieces of an instruction, and what becomes of them: they stay pieces of one statement, and
they may stand wherever the old ones do. -/
structure PartRevision (doc : Document) (here : Position) (n : Node) (v v' : List Piece) :
    Prop where
  rewrites : Rewrites here (v.flatMap text) (v'.flatMap text) (replacement? doc n).toList
  stretch : Stretch v'
  row : ∀ front tail, Row (front ++ (v ++ tail)) → Row (front ++ (v' ++ tail))
  lexemes : v'.filterMap lexeme? = renumber doc n (v.filterMap lexeme?)

/-- The pieces of an instruction are revised by putting a number in the place of a word. -/
theorem exists_partRevision {here : Position} (hpos : 0 ≤ here.character) {v : List Piece}
    (hv : Stretch v) (hwf : ∀ p ∈ v, p.WellFormed) {n : Node} {first : Token} {rest : List Token}
    (htokens : tokensAt here v = first :: rest)
    (htail : n.opcode = "jump".toList → n.tail = rest.map (Token.rename renamedOperand)) :
    ∃ v', PartRevision (.ofText uri t) here n v v' := by
  cases hlabelled : labelled? (.ofText uri t) n with
  | none =>
    refine ⟨v, ?_, hv, fun _ _ h => h, by rw [renumber, hlabelled]⟩
    rw [replacement?, hlabelled]
    exact .kept here _
  | some found =>
    obtain ⟨d, counter⟩ := found
    have hd := labelled_of_eq_some hlabelled
    -- The destination is the second token, and it stands in the place of a word.
    obtain ⟨second, more, rfl⟩ : ∃ second more, rest = second :: more := by
      cases rest with
      | nil =>
        have hsecond := hd.second
        rw [htail hd.opcode] at hsecond
        cases hsecond
      | cons second more => exact ⟨second, more, rfl⟩
    obtain rfl : Token.rename renamedOperand second = d := by
      have hsecond := hd.second
      rw [htail hd.opcode] at hsecond
      exact Option.some.inj hsecond
    obtain ⟨bs, p, v₁, rfl, -, hp, -, -, hv₁⟩ := exists_of_tokensAt_eq_cons hpos hv hwf htokens
    have hstretch : Stretch v₁ := fun q hq => hv q (by simp [hq])
    obtain ⟨bs', q, v₂, rfl, -, hq, hstart, hstop, -⟩ := exists_of_tokensAt_eq_cons
      (here.character_advance_nonneg hpos _) hstretch (fun q hq => hwf q (by simp [hq])) hv₁.symm
    obtain ⟨w, rfl⟩ := exists_word_of_labelled hd hq rfl
    have hw : (word w).WellFormed := hwf _ (by simp)
    obtain ⟨front, hpieces⟩ : ∃ front, front = bs.map .blank ++ p :: bs'.map .blank := ⟨_, rfl⟩
    have hsplit (u : Text) : bs.map .blank ++ p :: (bs'.map .blank ++ .word u :: v₂) =
        front ++ .word u :: v₂ := by
      simp [hpieces]
    have htext (u : Text) : (front ++ .word u :: v₂).flatMap text =
        front.flatMap text ++ (u ++ v₂.flatMap text) := by
      rw [List.flatMap_append, List.flatMap_cons]
      rfl
    have hfront : front.flatMap text = bs ++ p.text ++ bs' := by
      rw [hpieces, flatMap_text_padded]
    have hlexemes : front.filterMap lexeme? = [first.lexeme] := by
      rw [hpieces, filterMap_lexeme?_padded bs bs' hp]
    refine ⟨front ++ .word (Text.ofNat counter) :: v₂, ?_, ?_, ?_, ?_⟩
    · rw [hsplit, htext, htext, replacement?, hlabelled]
      have hrange : (Token.rename renamedOperand second).range =
          ⟨here.advance (front.flatMap text), (here.advance (front.flatMap text)).advance w⟩ := by
        rw [hfront, here.advance_append, ← Position.advance_append _ bs' w, ← hstart]
        exact congrArg (Range.mk second.start) hstop
      refine .keep _ ?_
      show Rewrites _ _ _ [Edit.replace (Token.rename renamedOperand second).range _]
      rw [hrange]
      exact .change hw.1 _ (.kept _ _)
    · intro r hr
      rw [hsplit] at hv
      rcases List.mem_append.1 hr with hr | hr
      · exact hv r (by simp [hr])
      · rcases List.mem_cons.1 hr with rfl | hr
        · rfl
        · exact hv r (by simp [hr])
    · intro before tail hrow
      rw [hsplit, List.append_assoc, ← List.append_assoc] at hrow
      rw [List.append_assoc, ← List.append_assoc]
      exact hrow.replace_word (wellFormed_word_ofNat counter)
    · rw [hsplit, renumber, hlabelled, List.filterMap_append, List.filterMap_append, hlexemes,
        List.filterMap_cons_some hq, List.filterMap_cons_some (lexeme?_word_ofNat counter)]
      rfl

/-! ### Renaming numbered nodes -/

/-- What stands behind the first token is renamed as an operand, unless it is an operation. -/
theorem rename_cons_of_ne_op {x : Lexeme} (h : x.2 ≠ "op".toList) (xs : List Lexeme) :
    Lexeme.rename (x :: xs) = x :: xs.map (Prod.map id renamedOperand) := by
  rw [Lexeme.rename, Lexeme.renameTail, if_neg h]

/-- A numeral holds no letter of a name that has changed. -/
theorem not_mem_ofNat (n : Nat) : 'c' ∉ Text.ofNat n ∧ '@' ∉ Text.ofNat n := by
  have hdigit : ∀ c ∈ Text.ofNat n, c ≠ 'c' ∧ c ≠ '@' := by
    intro c hc
    obtain ⟨d, hd, rfl⟩ := Text.mem_ofNat c hc
    interval_cases d <;> decide
  exact ⟨fun h => (hdigit _ h).1 rfl, fun h => (hdigit _ h).2 rfl⟩

theorem renamedOperand_ofNat (n : Nat) : renamedOperand (Text.ofNat n) = Text.ofNat n := by
  unfold renamedOperand
  split
  · next h => exact absurd (by rw [h]; decide) (not_mem_ofNat n).1
  split
  · next h => exact absurd (by rw [h]; decide) (not_mem_ofNat n).2
  · rfl

/-- Numbers and operands can be put in in any order. -/
theorem map_renumber (doc : Document) (n : Node) (xs : List Lexeme) :
    (renumber doc n xs).map (Prod.map id renamedOperand) =
      renumber doc n (xs.map (Prod.map id renamedOperand)) := by
  unfold renumber
  split
  · rfl
  · rw [List.map_set, Prod.map, renamedOperand_ofNat]
    rfl

/-- The first token of a node is left alone. -/
theorem exists_renumber_cons (doc : Document) (n : Node) (x : Lexeme) (xs : List Lexeme) :
    ∃ ys, renumber doc n (x :: xs) = x :: ys := by
  unfold renumber
  split
  · exact ⟨xs, rfl⟩
  · exact ⟨_, rfl⟩

/-- A numbered jump is renamed like the jump itself. -/
theorem rename_renumber {doc : Document} {n : Node} {x : Lexeme} (hx : n.opcode = x.2)
    (xs : List Lexeme) :
    Lexeme.rename (renumber doc n (x :: xs)) = renumber doc n (Lexeme.rename (x :: xs)) := by
  cases hlabelled : labelled? doc n with
  | none => simp only [renumber, hlabelled]
  | some found =>
    obtain ⟨d, counter⟩ := found
    -- An instruction that is renumbered is a jump, hence no `op`.
    have hop : x.2 ≠ "op".toList := by
      rw [← hx, (labelled_of_eq_some hlabelled).opcode]
      decide
    obtain ⟨ys, hys⟩ := exists_renumber_cons doc n x xs
    have hmap := map_renumber doc n (x :: xs)
    have hjump : Prod.map id renamedOperand x = x := by
      have hname : x.2 = "jump".toList := by rw [← hx, (labelled_of_eq_some hlabelled).opcode]
      exact Prod.ext rfl (by rw [Prod.map_snd, hname]; decide)
    rw [hys, rename_cons_of_ne_op hop, rename_cons_of_ne_op hop]
    rwa [hys, List.map_cons, List.map_cons, hjump] at hmap

/-- What a numbered instruction says is read as that instruction. -/
theorem ofLexemes_renumber (doc : Document) {n : Node} (hn : n.isInstruction = true) {x : Lexeme}
    {xs : List Lexeme} (hlexemes : n.outline.lexemes = x :: xs) (hc : x.isComment = false)
    (hl : x.isLabel = false) : Outline.ofLexemes (renumber doc n (x :: xs)) = [revised doc n] := by
  obtain ⟨ys, hys⟩ := exists_renumber_cons doc n x xs
  rw [revised, hlexemes, beq_iff_eq.1 hn, hys, Outline.ofLexemes.eq_def]
  simp [hc, hl]

/-- A label in front of what is no comment is a node of its own. -/
theorem ofLexemes_label {x y : Lexeme} (hc : x.isComment = false) (hl : x.isLabel = true)
    (hy : y.isComment = false) (ys : List Lexeme) :
    Outline.ofLexemes (x :: y :: ys) = ⟨.label, [x]⟩ :: Outline.ofLexemes (y :: ys) := by
  rw [Outline.ofLexemes]
  simp [hc, hl, hy]

theorem ne_op_of_isLabel {t : Token} (h : t.isLabel = true) : t.content ≠ "op".toList :=
  @Lexeme.ne_of_isLabel t.lexeme h _ (by decide)

end Jumps

end LogicAsm
