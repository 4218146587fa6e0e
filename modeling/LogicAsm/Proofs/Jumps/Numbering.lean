import LogicAsm.Proofs.Jumps.Renumbering
import LogicAsm.Proofs.Jumps.Targets

/-!
# Numbering jumps keeps the program

Once jumps are numbered, the program has the same instructions but for the destinations, and every
jump leads to the same instruction (`toNumbers_keeps_program`).  A destination that became a number
is read as that number again; one that is left alone names a label that is still where it was, since
only labels that were numbered are missing.  No destination is left that a second conversion would
number.
-/

namespace LogicAsm.Jumps

/-! ### What revising leaves alone -/

theorem revised_eq_outline {doc : Document} {n : Node} (h : labelled? doc n = none) :
    revised doc n = n.outline := by
  rw [revised, renumber, h]
  rfl

theorem isInstruction_revised (doc : Document) (n : Node) :
    (revised doc n).isInstruction = n.isInstruction := rfl

theorem declares_revised (doc : Document) (name : Text) (n : Node) :
    (revised doc n).declares name = LabelTable.declares name n := by
  obtain ⟨ys, hys⟩ := exists_renumber_cons doc n n.head.lexeme (n.tail.map Token.lexeme)
  have hlexemes : (revised doc n).lexemes = n.head.lexeme :: ys := hys
  rw [Outline.declares, hlexemes]
  rfl

namespace Renumbered

variable {doc : Document} {ns : List Node} {os : List Outline}

/-- The instructions are all there, and revised. -/
theorem filter_isInstruction (h : Renumbered doc ns os) :
    os.filter Outline.isInstruction = (ns.filter (·.isInstruction)).map (revised doc) := by
  induction h with
  | nil => rfl
  | @drop n _ _ label _ _ ih =>
    have hn := Node.isInstruction_of_isLabel label
    rw [ih, List.filter_cons_of_neg (by simp [hn])]
  | keep n _ ih =>
    rw [List.filter_cons, List.filter_cons, isInstruction_revised, ih]
    split
    · rw [List.map_cons]
    · rfl

theorem countP_isInstruction (h : Renumbered doc ns os) :
    os.countP Outline.isInstruction = (ns.map Node.outline).countP Outline.isInstruction := by
  rw [List.countP_eq_length_filter, h.filter_isInstruction, List.length_map, List.countP_map,
    List.countP_eq_length_filter]
  rfl

theorem any_isInstruction (h : Renumbered doc ns os) :
    os.any Outline.isInstruction = (ns.map Node.outline).any Outline.isInstruction := by
  rw [Bool.eq_iff_iff, List.any_eq_true, List.any_eq_true, ← List.countP_pos_iff,
    ← List.countP_pos_iff, h.countP_isInstruction]

/-- A label that is not numbered stays where it is. -/
theorem counterFrom (h : Renumbered doc ns os) {name : Text} (hname : isNumbered doc name = false)
    (count : Nat) :
    Outline.counterFrom name count os =
      Outline.counterFrom name count (ns.map Node.outline) := by
  induction h generalizing count with
  | nil => rfl
  | @drop n _ _ label numbered _ ih =>
    have hother : ¬ LabelTable.declares name n = true := by
      intro hdeclares
      simp only [LabelTable.declares, Bool.and_eq_true, beq_iff_eq] at hdeclares
      rw [hdeclares.2, hname] at numbered
      cases numbered
    have hn := Node.isInstruction_of_isLabel label
    rw [List.map_cons, Outline.counterFrom, Node.declares_outline, if_neg hother,
      Node.isInstruction_outline, hn, ih]
    rfl
  | keep n rest ih =>
    rw [List.map_cons, Outline.counterFrom, Outline.counterFrom, declares_revised,
      Node.declares_outline, isInstruction_revised, Node.isInstruction_outline, ih,
      rest.any_isInstruction]

/-- Every node that is left is a revised one. -/
theorem exists_of_mem (h : Renumbered doc ns os) : ∀ o ∈ os, ∃ n ∈ ns, o = revised doc n := by
  induction h with
  | nil => simp
  | drop _ _ _ ih =>
    intro o ho
    obtain ⟨m, hm, rfl⟩ := ih o ho
    exact ⟨m, List.mem_cons_of_mem _ hm, rfl⟩
  | keep n _ ih =>
    intro o ho
    rcases List.mem_cons.1 ho with rfl | ho
    · exact ⟨n, List.mem_cons_self, rfl⟩
    · obtain ⟨m, hm, rfl⟩ := ih o ho
      exact ⟨m, List.mem_cons_of_mem _ hm, rfl⟩

end Renumbered

/-! ### Destinations -/

/-- A jump that is numbered has the number as its destination. -/
theorem destination?_revised {doc : Document} {n : Node} {d : Token} {counter : Nat}
    (h : labelled? doc n = some (d, counter)) :
    (revised doc n).destination? = some (.number, Text.ofNat counter) := by
  have hd := labelled_of_eq_some h
  obtain ⟨rest, hrest⟩ := List.head?_eq_some_iff.1 hd.second
  have hlexemes : (revised doc n).lexemes =
      n.head.lexeme :: (.number, Text.ofNat counter) :: rest.map Token.lexeme := by
    rw [revised, renumber, h, Node.outline, Node.tokens, hrest]
    rfl
  have hjump : (revised doc n).isInstruction && n.head.lexeme.2 == "jump".toList := by
    rw [isInstruction_revised, hd.instruction, show n.head.lexeme.2 = "jump".toList from hd.opcode]
    rfl
  rw [Outline.destination?, hlexemes]
  simp only [hjump, if_true]
  cases rest <;> rfl

/-- A label that is left alone has no instruction behind it. -/
theorem lookup_of_not_labelled {doc : Document} {n : Node} (h : labelled? doc n = none) {d : Token}
    (hd : n.destination? = some d) (hnumber : d.isNumber = false) :
    (labelCounters doc).lookup d.content = none := by
  rw [labelled?, hd, Option.filter_some_pos (by simp [hnumber]), Option.bind_some] at h
  exact Option.map_eq_none_iff.1 h

theorem isNumbered_of_lookup {doc : Document} {name : Text}
    (h : (labelCounters doc).lookup name = none) : isNumbered doc name = false := by
  rw [isNumbered, h]
  rfl

/-- A numeral of a counter is read as the counter. -/
theorem address_numeral {n : Nat} (h : n < 2 ^ 53) :
    Lexeme.address (.number, Text.ofNat n) = .ok (some n) :=
  @address_ofNat n h ⟨.number, Text.ofNat n, .origin, .origin, [], [], []⟩ rfl rfl

section

variable {uri : String} {t : Text} {os : List Outline}

/-- The counter of a label is one of the program. -/
theorem lt_length_of_lookup {name : Text} {counter : Nat}
    (h : (labelCounters (.ofText uri t)).lookup name = some counter) :
    counter < (instructionIndices (Node.ofText t)).length := by
  rw [lookup_labelCounters] at h
  obtain ⟨index, -, hcounter⟩ := Option.bind_eq_some_iff.1 h
  simp only [counterAt?] at hcounter
  split at hcounter
  · next hlt => exact Option.some.inj hcounter ▸ hlt
  · cases hcounter

/-- A revised jump leads to the same instruction. -/
theorem target?_revised (hcount : (instructionIndices (Node.ofText t)).length ≤ 2 ^ 53)
    (h : Renumbered (.ofText uri t) (Node.ofText t) os) (n : Node) :
    Outline.target? os (revised (.ofText uri t) n) =
      Outline.target? ((Node.ofText t).map Node.outline) n.outline := by
  cases hlabelled : labelled? (.ofText uri t) n with
  | none =>
    rw [revised_eq_outline hlabelled, Outline.target?, Outline.target?, h.countP_isInstruction,
      ← n.map_lexeme_destination?]
    cases hd : n.destination? with
    | none => rfl
    | some d =>
      rw [Option.map_some, Option.bind_some, Option.bind_some]
      cases hnumber : d.isNumber with
      | true =>
        have hkind : (d.lexeme.1 == TokenKind.number) = true := hnumber
        rw [if_pos hkind, if_pos hkind]
      | false =>
        have hkind : ¬ (d.lexeme.1 == TokenKind.number) = true := ne_true_of_eq_false hnumber
        have hlookup := lookup_of_not_labelled hlabelled hd hnumber
        rw [if_neg hkind, if_neg hkind]
        exact h.counterFrom (isNumbered_of_lookup hlookup) 0
  | some found =>
    obtain ⟨d, counter⟩ := found
    have hd := labelled_of_eq_some hlabelled
    have hlt := lt_length_of_lookup hd.lookup
    have hkind : ¬ (d.lexeme.1 == TokenKind.number) = true := ne_true_of_eq_false hd.notNumber
    -- The label led to this counter before, and the numeral that replaces it is read as it: a
    -- counter below `2 ^ 53` is exact.
    have hold : Outline.target? ((Node.ofText t).map Node.outline) n.outline = some counter := by
      rw [Outline.target?, ← n.map_lexeme_destination?, hd.destination, Option.map_some,
        Option.bind_some, if_neg hkind, ← hd.lookup, lookup_labelCounters_eq]
      rfl
    have hnew : Outline.target? os (revised (.ofText uri t) n) = some counter := by
      rw [Outline.target?, destination?_revised hlabelled, Option.bind_some,
        address_numeral (Nat.lt_of_lt_of_le hlt hcount), h.countP_isInstruction, countP_outline]
      show (if 0 ≤ (counter : Int) ∧ (counter : Int) <
        ((instructionIndices (Node.ofText t)).length : Int) then some (counter : Int).toNat
        else none) = some counter
      rw [if_pos (by omega), Int.toNat_natCast]
    rw [hold, hnew]

/-- Revised destinations can be read if the destinations can. -/
theorem address_of_renumbered (hcount : (instructionIndices (Node.ofText t)).length ≤ 2 ^ 53)
    (haddress : ∀ n ∈ Node.ofText t, ∀ d ∈ n.destination?, ∃ a, d.address = .ok a)
    (h : Renumbered (.ofText uri t) (Node.ofText t) os) :
    ∀ o ∈ os, ∀ x ∈ o.destination?, ∃ a, x.address = .ok a := by
  intro o ho x hx
  obtain ⟨n, hn, rfl⟩ := h.exists_of_mem o ho
  cases hlabelled : labelled? (.ofText uri t) n with
  | none =>
    rw [revised_eq_outline hlabelled, ← n.map_lexeme_destination?] at hx
    obtain ⟨d, hd, rfl⟩ := Option.map_eq_some_iff.1 hx
    exact haddress n hn d hd
  | some found =>
    obtain ⟨d, counter⟩ := found
    have hlt := lt_length_of_lookup (labelled_of_eq_some hlabelled).lookup
    rw [destination?_revised hlabelled] at hx
    obtain rfl := Option.some.inj hx
    exact ⟨_, address_numeral (Nat.lt_of_lt_of_le hlt hcount)⟩

/-- No destination is left that could be numbered. -/
theorem labelled?_of_renumbered {out : Text}
    (h : Renumbered (.ofText uri t) (Node.ofText t) ((Node.ofText out).map Node.outline)) :
    ∀ m ∈ Node.ofText out, labelled? (.ofText uri out) m = none := by
  intro m hm
  cases hlabelled : labelled? (.ofText uri out) m with
  | none => rfl
  | some found =>
    obtain ⟨d, counter⟩ := found
    have hd := labelled_of_eq_some hlabelled
    have hdestination := m.map_lexeme_destination?
    rw [hd.destination] at hdestination
    obtain ⟨n, -, hn⟩ := h.exists_of_mem m.outline (List.mem_map_of_mem hm)
    rw [hn] at hdestination
    cases hold : labelled? (.ofText uri t) n with
    | some found =>
      obtain ⟨e, c⟩ := found
      rw [destination?_revised hold] at hdestination
      have hkind : d.kind = .number := congrArg Prod.fst (Option.some.inj hdestination)
      have hnumber := hd.notNumber
      rw [Token.isNumber, hkind] at hnumber
      cases hnumber
    | none =>
      -- The label was left alone, so it is where it was.
      rw [revised_eq_outline hold, ← n.map_lexeme_destination?] at hdestination
      obtain ⟨e, he, hlexeme⟩ := Option.map_eq_some_iff.1 hdestination.symm
      have hkind : e.kind = d.kind := congrArg Prod.fst hlexeme
      have hcontent : e.content = d.content := congrArg Prod.snd hlexeme
      have hnumber : e.isNumber = false := by
        rw [Token.isNumber, hkind]
        exact hd.notNumber
      have hlookup := lookup_of_not_labelled hold he hnumber
      have hsame := h.counterFrom (isNumbered_of_lookup hlookup) 0
      rw [← lookup_labelCounters_eq, ← lookup_labelCounters_eq, hlookup, hcontent,
        hd.lookup] at hsame
      cases hsame

/-- Without a destination that could be numbered there is nothing to do. -/
theorem edits_toNumbers_eq_nil
    (h : ∀ n ∈ Node.ofText t, labelled? (.ofText uri t) n = none) :
    (toNumbers (.ofText uri t)).edits = [] := by
  -- A name is numbered only when some jump leads to it, and no jump has a name left.
  have hnumbered (name : Text) : isNumbered (.ofText uri t) name = false := by
    cases hlookup : (labelCounters (.ofText uri t)).lookup name with
    | none => exact isNumbered_of_lookup hlookup
    | some counter =>
      rw [isNumbered, hlookup, Option.isSome_some, Bool.true_and, List.any_eq_false]
      intro d hd
      obtain ⟨hd, hnumber⟩ := List.mem_filter.1 hd
      obtain ⟨n, hn, hdestination⟩ := List.mem_filterMap.1 hd
      intro hname
      have hnone := lookup_of_not_labelled (h n hn) hdestination (by simpa using hnumber)
      rw [beq_iff_eq.1 hname, hlookup] at hnone
      cases hnone
  have hnone {ns : List Node} (hns : ∀ n ∈ ns, labelled? (.ofText uri t) n = none) (k : Nat) :
      editsFrom (.ofText uri t) k ns = [] := by
    induction ns generalizing k with
    | nil => rfl
    | cons n ns ih =>
      rw [editsFrom, ih (fun m hm => hns m (List.mem_cons_of_mem n hm)), nodeEdits, deletion?,
        isDropped, hnumbered, replacement?, hns n List.mem_cons_self, Bool.and_false]
      rfl
  have hperm := edits_toNumbers_perm uri t
  rw [hnone h] at hperm
  exact hperm.eq_nil

end

/-! ### The program is kept -/

/-- What the tokens of a node hold. -/
def contents (n : Node) : List Text := n.tokens.map Token.content

/-- What the tokens of a node hold once it is numbered: a jump to a label with an instruction behind
it has the counter of the instruction as its destination, and all else is the same. -/
def numberedContents (doc : Document) (n : Node) : List Text :=
  match labelled? doc n with
  | none => contents n
  | some (_, counter) => (contents n).set 1 (Text.ofNat counter)

theorem contents_eq (n : Node) : contents n = n.outline.lexemes.map Prod.snd := by
  rw [contents, Node.outline, List.map_map]
  rfl

theorem numberedContents_eq (doc : Document) (n : Node) :
    numberedContents doc n = (revised doc n).lexemes.map Prod.snd := by
  rw [revised, renumber, numberedContents]
  cases labelled? doc n with
  | none => exact contents_eq n
  | some found =>
    simp only [List.map_set, contents_eq]

/-- Numbering jumps keeps the program.  If no statement has two labels or an old name right behind a
label, if all destinations can be read and if counters are numbers that can be written exactly, then
the edits can be made.  The new text has as many instructions, they hold the same but for the
destinations that are numbered, every jump leads to the same instruction as before, and numbering
jumps once more changes nothing. -/
theorem toNumbers_keeps_program (uri : String) (t : Text)
    (hcount : (Document.ofText uri t).instructions.length ≤ 2 ^ 53)
    (haddress : ∀ n ∈ (Document.ofText uri t).nodes, ∀ d ∈ n.destination?, ∃ a, d.address = .ok a)
    (hstatements : ∀ s ∈ Statement.ofText t, Numberable (.ofText uri t) s) :
    ∃ out, Edit.applyAll (.ofText uri t) (toNumbers (.ofText uri t)).edits = .ok out ∧
      (Document.ofText uri out).instructions.length =
        (Document.ofText uri t).instructions.length ∧
      (∀ k, ((Document.ofText uri out).instruction? k).map contents =
        ((Document.ofText uri t).instruction? k).map (numberedContents (.ofText uri t))) ∧
      (∃ g g', FlowGraph.ofNodes uri (Document.ofText uri t).nodes = .ok g ∧
        FlowGraph.ofNodes uri (Document.ofText uri out).nodes = .ok g' ∧
        ∀ k, g'.targetCounter? k = g.targetCounter? k) ∧
      (toNumbers (.ofText uri out)).edits = [] := by
  obtain ⟨out, hout, hnodes⟩ := exists_applyAll_toNumbers hstatements
  have hfilter : ((Node.ofText out).filter (·.isInstruction)).map Node.outline =
      ((Node.ofText t).filter (·.isInstruction)).map (revised (.ofText uri t)) := by
    rw [← hnodes.filter_isInstruction, List.filter_map]
    rfl
  refine ⟨out, hout, ?_, fun k => ?_, ?_, ?_⟩
  · have hlength := hnodes.countP_isInstruction
    rwa [countP_outline, countP_outline] at hlength
  · have hcontents : ((Node.ofText out).filter (·.isInstruction)).map contents =
        ((Node.ofText t).filter (·.isInstruction)).map (numberedContents (.ofText uri t)) := by
      have hlexemes := congrArg (List.map fun o => o.lexemes.map Prod.snd) hfilter
      rw [List.map_map, List.map_map] at hlexemes
      rw [funext contents_eq, funext (numberedContents_eq _)]
      exact hlexemes
    rw [Document.instruction?_ofText, Document.instruction?_ofText, ← List.getElem?_map,
      ← List.getElem?_map, hcontents]
  · obtain ⟨g, hg⟩ := @FlowGraph.exists_ofNodes uri (Node.ofText t) (by
      intro n hn x hx
      rw [← n.map_lexeme_destination?] at hx
      obtain ⟨d, hd, rfl⟩ := Option.map_eq_some_iff.1 hx
      exact haddress n hn d hd)
    obtain ⟨g', hg'⟩ := @FlowGraph.exists_ofNodes uri (Node.ofText out) fun n hn =>
      address_of_renumbered hcount haddress hnodes n.outline (List.mem_map_of_mem hn)
    refine ⟨g, g', hg, hg', fun k => ?_⟩
    -- Indices of nodes have moved, so both graphs are compared by what their nodes say.
    rw [FlowGraph.targetCounter?_eq hg, FlowGraph.targetCounter?_eq hg', ← List.getElem?_map,
      hfilter, List.getElem?_map]
    cases ((Node.ofText t).filter (·.isInstruction))[k]? with
    | none => rfl
    | some n => exact target?_revised hcount hnodes n
  · exact edits_toNumbers_eq_nil (labelled?_of_renumbered hnodes)

/-- A program with a label on a line of its own and one in front of an instruction. -/
def loopText : Text := "loop:\r\n print x; jump loop always\nend: jump end equal x 1".toList

/-- Both labels are numbered, and the program that is left has nothing more to number. -/
theorem toNumbers_keeps_program_loop :
    ∃ out, Edit.applyAll (.ofText "" loopText) (toNumbers (.ofText "" loopText)).edits = .ok out ∧
      out = " print x; jump 0 always\njump 2 equal x 1".toList ∧
      (toNumbers (.ofText "" out)).edits = [] := by
  have happlied : Edit.applyAll (.ofText "" loopText) (toNumbers (.ofText "" loopText)).edits =
      .ok " print x; jump 0 always\njump 2 equal x 1".toList := by decide +kernel
  have haddress : ∀ n ∈ (Document.ofText "" loopText).nodes, ∀ d ∈ n.destination?,
      ∃ a, d.address = .ok a := by
    have hnames : ∀ n ∈ (Document.ofText "" loopText).nodes, ∀ d ∈ n.destination?,
        d.isNumber = false := by decide +kernel
    intro n hn d hd
    refine ⟨none, ?_⟩
    rw [Token.address, Token.number?, hnames n hn d hd]
    rfl
  have hstatements : ∀ s ∈ Statement.ofText loopText, Numberable (.ofText "" loopText) s := by
    have hlabels : ∀ s ∈ Statement.ofText loopText,
        ((Node.ofStatement s).filter (·.isLabel)).length ≤ 1 := by decide +kernel
    have hnames : ∀ s ∈ Statement.ofText loopText, ∀ n ∈ Node.ofStatement s,
        ¬ StartsWithOldName (.ofText "" loopText) n := by decide +kernel
    intro s hs
    refine ⟨hlabels s hs, fun before label n after hnodes _ _ => hnames s hs n ?_⟩
    rw [hnodes]
    simp
  obtain ⟨out, hout, -, -, -, hnone⟩ :=
    toNumbers_keeps_program "" loopText (by decide +kernel) haddress hstatements
  rw [happlied] at hout
  exact ⟨out, hout ▸ happlied, (Except.ok.inj hout).symm, hnone⟩

end LogicAsm.Jumps
