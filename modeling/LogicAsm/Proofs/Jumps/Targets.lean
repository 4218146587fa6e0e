import LogicAsm.Proofs.Flow.Edges
import LogicAsm.Proofs.Outlines

/-!
# Targets of jumps by what a program says

Where a jump goes is said in the flow graph by indices of nodes.  Deleting a label moves all of
them, so here it is said by instruction counters, and read off from what the nodes say
(`Outline.target?`): a number is the counter itself, and a label has the number of instructions in
front of its first declaration (`Outline.counterFrom`), if one follows.  A label with nothing but
labels behind it leads nowhere, but it is known: `Outline.resolves` says whether a jump has a target
in the graph at all.

`targetCounter?_eq` and `resolves_eq` show that this is what the flow graph says, and
`exists_ofNodes` that there is a graph whenever all destinations can be read.
-/

namespace LogicAsm

/-! ### Instructions and their indices -/

theorem le_of_mem_instructionIndicesFrom {index i : Nat} {nodes : List Node}
    (h : i ∈ instructionIndicesFrom index nodes) : index ≤ i := by
  obtain ⟨k, -, -, -, rfl⟩ := mem_instructionIndicesFrom.1 h
  exact Nat.le_add_right index k

theorem length_instructionIndicesFrom (index : Nat) (nodes : List Node) :
    (instructionIndicesFrom index nodes).length = nodes.countP (·.isInstruction) := by
  induction nodes generalizing index with
  | nil => rfl
  | cons n ns ih =>
    rw [instructionIndicesFrom, List.length_append, ih, List.countP_cons]
    cases n.isInstruction <;> simp [Nat.add_comm]

theorem pairwise_instructionIndicesFrom (index : Nat) (nodes : List Node) :
    (instructionIndicesFrom index nodes).Pairwise (· < ·) := by
  induction nodes generalizing index with
  | nil => exact .nil
  | cons n ns ih =>
    rw [instructionIndicesFrom]
    cases n.isInstruction with
    | false => exact ih (index + 1)
    | true =>
      refine List.pairwise_cons.2 ⟨fun i hi => ?_, ih (index + 1)⟩
      exact Nat.lt_of_succ_le (le_of_mem_instructionIndicesFrom hi)

/-- Instruction `k` is the node that index `k` of the instructions leads to. -/
theorem getElem?_instructionIndicesFrom {index : Nat} {nodes : List Node} (k : Nat) :
    (instructionIndicesFrom index nodes)[k]?.bind (fun i => nodes[i - index]?) =
      (nodes.filter (·.isInstruction))[k]? := by
  induction nodes generalizing index k with
  | nil => rfl
  | cons n ns ih =>
    -- A later index points one node further than in the list without the first node.
    have hshift (k : Nat) : (instructionIndicesFrom (index + 1) ns)[k]?.bind
        (fun i => (n :: ns)[i - index]?) = (ns.filter (·.isInstruction))[k]? := by
      rw [← @ih (index + 1) k]
      cases hk : (instructionIndicesFrom (index + 1) ns)[k]? with
      | none => rfl
      | some i =>
        have hle := le_of_mem_instructionIndicesFrom (List.mem_of_getElem? hk)
        obtain ⟨j, rfl⟩ := Nat.exists_eq_add_of_le hle
        have hj : index + 1 + j - index = j + 1 := by omega
        rw [Option.bind_some, Option.bind_some, hj, Nat.add_sub_cancel_left,
          List.getElem?_cons_succ]
    rw [instructionIndicesFrom]
    cases hn : n.isInstruction with
    | false =>
      rw [List.filter_cons_of_neg (by simp [hn])]
      exact hshift k
    | true =>
      rw [List.filter_cons_of_pos hn]
      cases k with
      | zero => simp
      | succ k => exact hshift k

/-- The instruction with a counter. -/
def Document.instruction? (doc : Document) (counter : Nat) : Option Node :=
  doc.instructions[counter]?.bind (doc.nodes[·]?)

theorem Document.instruction?_ofText (uri : String) (t : Text) (counter : Nat) :
    (ofText uri t).instruction? counter =
      ((Node.ofText t).filter (·.isInstruction))[counter]? := by
  rw [← @getElem?_instructionIndicesFrom 0]
  rfl

/-- The counter of an instruction is its place among the instructions. -/
theorem counterAt?_of_getElem? {instructions : List Nat} (h : instructions.Pairwise (· < ·))
    {k i : Nat} (hk : instructions[k]? = some i) : counterAt? instructions i = some k := by
  obtain ⟨hlt, hget⟩ := List.getElem?_eq_some_iff.1 hk
  have hsplit : instructions = instructions.take k ++ i :: instructions.drop (k + 1) := by
    rw [← hget, List.getElem_cons_drop, List.take_append_drop]
  have hbefore : ∀ j ∈ instructions.take k, j < i := by
    rw [hsplit] at h
    exact fun j hj => (List.pairwise_append.1 h).2.2 j hj i List.mem_cons_self
  have hcounter : (instructions.takeWhile (· < i)).length = k := by
    rw [hsplit, List.takeWhile_append_of_pos (by simpa using hbefore),
      List.takeWhile_cons_of_neg (by simp), List.append_nil, List.length_take,
      Nat.min_eq_left (Nat.le_of_lt hlt)]
  simp only [counterAt?, hcounter, if_pos hlt]

namespace Outline

/-! ### What outlines say about jumps -/

/-- Whether a node that says this is an instruction. -/
def isInstruction (o : Outline) : Bool := o.kind == .instruction

/-- Whether a node that says this declares a name. -/
def declares (name : Text) (o : Outline) : Bool :=
  o.kind == .label && o.lexemes.head?.map (fun x => x.2.dropLast) == some name

/-- The first of some lexemes that is not a comment at their end. -/
def firstOperand? : List Lexeme → Option Lexeme
  | [] => none
  | [x] => if x.isComment then none else some x
  | x :: _ :: _ => some x

/-- The destination of a jump that says this. -/
def destination? (o : Outline) : Option Lexeme :=
  match o.lexemes with
  | [] => none
  | head :: tail =>
    if o.isInstruction && head.2 == "jump".toList then firstOperand? tail else none

/-- The counter of a label, where `count` instructions stand in front: that of the first instruction
behind its first declaration. -/
def counterFrom (name : Text) (count : Nat) : List Outline → Option Nat
  | [] => none
  | o :: os =>
    if o.declares name then if os.any isInstruction then some count else none
    else counterFrom name (if o.isInstruction then count + 1 else count) os

/-- What is said in front of the first declaration of a name is passed over. -/
theorem counterFrom_append_of_not_declares {name : Text} {os : List Outline}
    (h : ∀ o ∈ os, o.declares name = false) (count : Nat) (os' : List Outline) :
    counterFrom name count (os ++ os') =
      counterFrom name (count + os.countP isInstruction) os' := by
  induction os generalizing count with
  | nil => rfl
  | cons o os ih =>
    obtain ⟨ho, hos⟩ := List.forall_mem_cons.1 h
    rw [List.cons_append, counterFrom, ho, if_neg Bool.false_ne_true, ih hos, List.countP_cons]
    cases o.isInstruction <;> simp [Nat.add_comm, Nat.add_left_comm]

/-- A label leads to the instruction behind it, if only labels stand in between. -/
theorem counterFrom_of_labels {name : Text} {labels : List Outline}
    (hlabels : ∀ o ∈ labels, o.isInstruction = false)
    (hdeclares : labels.any (declares name) = true)
    (count : Nat) {os : List Outline} (hos : os.any isInstruction = true) :
    counterFrom name count (labels ++ os) = some count := by
  induction labels with
  | nil => cases hdeclares
  | cons o labels ih =>
    obtain ⟨ho, hlabels⟩ := List.forall_mem_cons.1 hlabels
    rw [List.cons_append, counterFrom]
    split
    · rw [if_pos]
      rw [List.any_append, hos, Bool.or_true]
    · next hnot =>
      rw [List.any_cons, eq_false_of_ne_true hnot, Bool.false_or] at hdeclares
      rw [ho]
      exact ih hlabels hdeclares

end Outline

theorem Node.declares_outline (name : Text) (n : Node) :
    n.outline.declares name = LabelTable.declares name n := rfl

theorem Node.isInstruction_outline (n : Node) : n.outline.isInstruction = n.isInstruction := rfl

theorem countP_outline (nodes : List Node) :
    (nodes.map Node.outline).countP Outline.isInstruction = (instructionIndices nodes).length := by
  rw [instructionIndices, length_instructionIndicesFrom, List.countP_map]
  rfl

/-- The counter of a label, where instructions with smaller indices stand in front. -/
theorem findIdx?_bind_counterAt? (name : Text) {index : Nat} {before : List Nat}
    (hbefore : ∀ i ∈ before, i < index) (nodes : List Node) :
    (nodes.findIdx? (LabelTable.declares name)).bind
        (fun j => counterAt? (before ++ instructionIndicesFrom index nodes) (index + j)) =
      Outline.counterFrom name before.length (nodes.map Node.outline) := by
  induction nodes generalizing index before with
  | nil => rfl
  | cons n ns ih =>
    rw [List.findIdx?_cons, List.map_cons, Outline.counterFrom, Node.declares_outline]
    -- At the declaration the count is that of the instructions in front of it.
    by_cases hdeclares : LabelTable.declares name n = true
    · have hlabel : n.isInstruction = false :=
        Node.isInstruction_of_isLabel (Bool.and_eq_true_iff.1 hdeclares).1
      have htake : (before ++ instructionIndicesFrom (index + 1) ns).takeWhile (· < index) =
          before := by
        rw [List.takeWhile_append_of_pos (by simpa using hbefore)]
        cases hrest : instructionIndicesFrom (index + 1) ns with
        | nil => rw [List.takeWhile_nil, List.append_nil]
        | cons i is =>
          have hle := le_of_mem_instructionIndicesFrom (hrest ▸ List.mem_cons_self)
          have hnot : ¬ i < index := by omega
          rw [List.takeWhile_cons_of_neg (by simpa using hnot), List.append_nil]
      have hany : (ns.map Node.outline).any Outline.isInstruction = true ↔
          0 < (instructionIndicesFrom (index + 1) ns).length := by
        rw [length_instructionIndicesFrom, List.countP_pos_iff, List.any_map, List.any_eq_true]
        rfl
      have hsame : before.length < (before ++ instructionIndicesFrom (index + 1) ns).length ↔
          (ns.map Node.outline).any Outline.isInstruction = true := by
        rw [hany, List.length_append, Nat.lt_add_right_iff_pos]
      rw [if_pos hdeclares, if_pos hdeclares, instructionIndicesFrom, hlabel, Option.bind_some,
        Nat.add_zero]
      show counterAt? (before ++ instructionIndicesFrom (index + 1) ns) index = _
      simp only [counterAt?, htake, hsame]
    · -- One node further, the instructions in front are one more if this is one.
      have hmore : before ++ instructionIndicesFrom index (n :: ns) =
          (before ++ if n.isInstruction then [index] else []) ++
            instructionIndicesFrom (index + 1) ns := by
        rw [instructionIndicesFrom, List.append_assoc]
      have hlength : (before ++ if n.isInstruction then [index] else []).length =
          if n.isInstruction then before.length + 1 else before.length := by
        split <;> simp
      have hsmaller : ∀ i ∈ before ++ (if n.isInstruction then [index] else []), i < index + 1 := by
        intro i hi
        rcases List.mem_append.1 hi with hi | hi
        · exact Nat.lt_succ_of_lt (hbefore i hi)
        · split at hi
          · exact Nat.lt_succ_of_le (Nat.le_of_eq (List.mem_singleton.1 hi))
          · cases hi
      rw [if_neg hdeclares, if_neg hdeclares, hmore, Node.isInstruction_outline, ← hlength,
        ← ih hsmaller, Option.bind_map]
      congr 1
      funext j
      rw [Function.comp_apply, Nat.add_right_comm, Nat.add_assoc]

/-- The counter of a label is said by the outlines. -/
theorem bind_counterAt?_eq (name : Text) (nodes : List Node) :
    (nodes.findIdx? (LabelTable.declares name)).bind (counterAt? (instructionIndices nodes)) =
      Outline.counterFrom name 0 (nodes.map Node.outline) := by
  have h := @findIdx?_bind_counterAt? name 0 [] (by simp) nodes
  simp only [List.nil_append, Nat.zero_add] at h
  exact h

/-- A name that is declared is the name of a label. -/
theorem exists_label_of_counterFrom {name : Text} {count c : Nat} {ns : List Node}
    (h : Outline.counterFrom name count (ns.map Node.outline) = some c) :
    ∃ n ∈ ns, n.isLabel = true ∧ n.labelName = name := by
  induction ns generalizing count with
  | nil => cases h
  | cons n ns ih =>
    rw [List.map_cons, Outline.counterFrom, Node.declares_outline] at h
    split at h
    · next hdeclares =>
      simp only [LabelTable.declares, Bool.and_eq_true, beq_iff_eq] at hdeclares
      exact ⟨n, List.mem_cons_self, hdeclares⟩
    · obtain ⟨m, hm, hlabel⟩ := ih h
      exact ⟨m, List.mem_cons_of_mem n hm, hlabel⟩

/-- Whether a label is declared is said by the outlines. -/
theorem LabelTable.isSome_find?_ofText (uri : String) (t name : Text) :
    ((Document.ofText uri t).labels.find? name).isSome =
      ((Node.ofText t).map Node.outline).any (Outline.declares name) := by
  rw [show (Document.ofText uri t).labels = ofNodes (Node.ofText t) from rfl, find?_ofNodes,
    List.findIdx?_isSome, List.any_map]
  rfl

/-! ### Destinations -/

/-- The instruction counter that a lexeme names, if it is an integral number. -/
def Lexeme.address (x : Lexeme) : Except Fault (Option Int) :=
  match if x.1 == .number then Number.read? x.2 else none with
  | none => .ok none
  | some n => n.address

theorem Token.address_eq (t : Token) : t.address = t.lexeme.address := rfl

theorem Token.address_of_not_isNumber {t : Token} (h : t.isNumber = false) :
    t.address = .ok none := by
  rw [address, number?, h]
  rfl

/-- The counter of the instruction that a lexeme names by its number, in a program with so many
instructions. -/
def Lexeme.counter? (count : Nat) (x : Lexeme) : Option Nat :=
  (x.address.toOption.bind id).bind fun a => if 0 ≤ a ∧ a < count then some a.toNat else none

theorem Lexeme.counter?_of_ne_number {x : Lexeme} (h : x.1 ≠ .number) (count : Nat) :
    x.counter? count = none := by
  have hnone : x.address = .ok none := by simp [address, h]
  rw [counter?, hnone]
  rfl

theorem Lexeme.lt_of_counter? {x : Lexeme} {count c : Nat} (h : x.counter? count = some c) :
    c < count := by
  obtain ⟨a, -, ha⟩ := Option.bind_eq_some_iff.1 h
  split at ha
  · cases ha
    omega
  · cases ha

theorem Token.counter_eq {t : Token} {a : Option Int} (h : t.address = .ok a) (count : Nat) :
    t.counter count = .ok (t.lexeme.counter? count) := by
  rw [counter, h, Lexeme.counter?, ← t.address_eq, h]
  rfl

theorem Token.counter_eq_ok {t : Token} {count : Nat} {c : Option Nat}
    (h : t.counter count = .ok c) : (∃ a, t.address = .ok a) ∧ c = t.lexeme.counter? count := by
  obtain ⟨a, ha, -⟩ := bind_eq_ok.1 h
  rw [counter_eq ha] at h
  exact ⟨⟨a, ha⟩, (Except.ok.inj h).symm⟩

/-- The destination of a node is said by its outline. -/
theorem Node.map_lexeme_destination? (n : Node) :
    n.destination?.map Token.lexeme = n.outline.destination? := by
  have hoperand : n.operands[0]?.map Token.lexeme =
      Outline.firstOperand? (n.tail.map Token.lexeme) := by
    unfold operands
    match n.tail with
    | [] => rfl
    | [t] =>
      show (if t.isComment = true then [] else [t])[0]?.map Token.lexeme =
        if t.isComment = true then none else some t.lexeme
      cases t.isComment <;> rfl
    | first :: second :: rest =>
      cases hlast : (first :: second :: rest).getLast? with
      | none => simp at hlast
      | some last =>
        simp only
        cases last.isComment <;> rfl
  have houtline : n.outline.destination? =
      if n.isJump then Outline.firstOperand? (n.tail.map Token.lexeme) else none := rfl
  rw [houtline, destination?]
  split
  · exact hoperand
  · rfl

/-! ### Jumps write nothing -/

/-- An operand has the role of a parameter, or none. -/
theorem Operand.role_of_mem_assign {ts : List Token} {params : List Parameter} :
    ∀ o ∈ assign ts params, o.role = .ignored ∨ ∃ p ∈ params, o.role = p.role := by
  fun_induction assign ts params with
  | case1 => simp
  | case2 t ts ih =>
    intro o ho
    rcases List.mem_cons.1 ho with rfl | ho
    · exact .inl rfl
    · exact ih o ho
  | case3 t ts p ps ih =>
    intro o ho
    rcases List.mem_cons.1 ho with rfl | ho
    · exact .inr ⟨p, List.mem_cons_self, rfl⟩
    · refine (ih o ho).imp_right ?_
      rintro ⟨q, hq, hrole⟩
      exact ⟨q, List.mem_cons_of_mem p hq, hrole⟩

/-- The parameters of an instruction with a selector. -/
theorem Operand.mem_parametersFor_selected {operands : List Token} {pre : List Parameter}
    {variants : List (Text × List Parameter)} {p : Parameter}
    (h : p ∈ parametersFor operands (.selected pre variants)) :
    p ∈ pre ∨ p.role = .keyword ∨ ∃ v ∈ variants, p ∈ v.2 := by
  rw [parametersFor] at h
  split at h
  · exact .inl h
  · next selector _ =>
    rcases List.mem_append.1 h with h | h
    · exact .inl h
    rcases List.mem_cons.1 h with rfl | h
    · exact .inr (.inl rfl)
    cases hlookup : variants.lookup selector.content with
    | none => simp [hlookup] at h
    | some params =>
      rw [hlookup, Option.getD_some] at h
      obtain ⟨front, back, hvariants, -⟩ := List.lookup_eq_some_iff.1 hlookup
      exact .inr (.inr ⟨(selector.content, params), by simp [hvariants], h⟩)

/-- The parameters of `jump`: a destination, and operands of the condition, all of them read. -/
theorem Instruction.exists_shape?_jump : ∃ shape pre variants,
    shape? "jump".toList = some shape ∧ shape.signature = .selected pre variants ∧
      (∀ p ∈ pre, p.role ≠ .write) ∧ ∀ v ∈ variants, ∀ p ∈ v.2, p.role ≠ .write := by
  refine ⟨.selected "jump" ":destination" jumpVariants, _, _, ?_, rfl, ?_, ?_⟩ <;>
    decide +kernel

/-- A jump does not write the program counter. -/
theorem Node.writesCounter_of_isJump {n : Node} (h : n.isJump = true) :
    n.writesCounter = false := by
  simp only [isJump, Bool.and_eq_true, beq_iff_eq] at h
  obtain ⟨shape, pre, variants, hshape, hsignature, hpre, hvariants⟩ :=
    Instruction.exists_shape?_jump
  have hoperands : n.resolvedOperands = Operand.assign n.operands
      (Operand.parametersFor n.operands (.selected pre variants)) := by
    rw [resolvedOperands, h.2, hshape, ← hsignature]
  rw [writesCounter, h.1, Bool.true_and, hoperands, List.any_eq_false]
  intro o ho
  have hrole : o.role ≠ .write := by
    rcases Operand.role_of_mem_assign o ho with hrole | ⟨p, hp, hrole⟩
    · rw [hrole]
      decide
    · rw [hrole]
      rcases Operand.mem_parametersFor_selected hp with hp | hp | ⟨v, hv, hp⟩
      · exact hpre p hp
      · rw [hp]
        decide
      · exact hvariants v hv p hp
  simp [hrole]

namespace Outline

/-- The counter of the instruction that a jump which says this leads to, in a program that says the
given outlines. -/
def target? (os : List Outline) (o : Outline) : Option Nat :=
  o.destination?.bind fun x =>
    if x.1 == .number then
      (x.address.toOption.bind id).bind fun a =>
        if 0 ≤ a ∧ a < os.countP isInstruction then some a.toNat else none
    else counterFrom x.2 0 os

/-- Whether the destination of a jump which says this is found, in a program that says the given
outlines. -/
def resolves (os : List Outline) (o : Outline) : Bool :=
  o.destination?.any fun x =>
    if x.1 == .number then (x.counter? (os.countP isInstruction)).isSome else os.any (declares x.2)

section

variable {os : List Outline} {o : Outline} {x : Lexeme} (hx : o.destination? = some x)

include hx

theorem target?_of_number (h : x.1 = .number) :
    target? os o = x.counter? (os.countP isInstruction) := by
  rw [target?, hx, Option.bind_some, if_pos (beq_iff_eq.2 h)]
  rfl

theorem target?_of_ne_number (h : x.1 ≠ .number) : target? os o = counterFrom x.2 0 os := by
  rw [target?, hx, Option.bind_some, if_neg (by simp [h])]

theorem resolves_of_number (h : x.1 = .number) :
    resolves os o = (x.counter? (os.countP isInstruction)).isSome := by
  rw [resolves, hx, Option.any_some, if_pos (beq_iff_eq.2 h)]

theorem resolves_of_ne_number (h : x.1 ≠ .number) : resolves os o = os.any (declares x.2) := by
  rw [resolves, hx, Option.any_some, if_neg (by simp [h])]

end

end Outline

namespace FlowGraph

/-- A destination is resolved to an instruction by its counter or to a declaration by its name. -/
theorem resolve_eq_ok {nodes : List Node} {n : Node} {d : Token} {target : Option Nat}
    {problems : List Diagnostic}
    (h : resolve (LabelTable.ofNodes nodes) (instructionIndices nodes) n d =
      .ok (target, problems)) :
    target = if d.isNumber then
        (d.lexeme.counter? (instructionIndices nodes).length).bind ((instructionIndices nodes)[·]?)
      else nodes.findIdx? (LabelTable.declares d.content) := by
  unfold resolve at h
  split at h
  · next hnumber =>
    obtain ⟨counter, hcounter, h⟩ := bind_eq_ok.1 h
    obtain ⟨-, rfl⟩ := Token.counter_eq_ok hcounter
    rw [if_pos hnumber]
    split at h
    · next found hfound =>
      cases h
      exact hfound.symm
    · next hnone =>
      cases h
      exact hnone.symm
  · next hnumber =>
    rw [if_neg hnumber, ← LabelTable.find?_ofNodes]
    split at h
    · next found hfound =>
      cases h
      exact hfound.symm
    · next hnone =>
      cases h
      exact hnone.symm

/-- The instruction with the counter that a number names. -/
theorem getElem?_of_counter? {nodes : List Node} {x : Lexeme} {c : Nat}
    (h : x.counter? (instructionIndices nodes).length = some c) :
    ∃ i, (instructionIndices nodes)[c]? = some i ∧
      counterAt? (instructionIndices nodes) i = some c := by
  have hget := List.getElem?_eq_getElem (Lexeme.lt_of_counter? h)
  exact ⟨_, hget, counterAt?_of_getElem? (pairwise_instructionIndicesFrom 0 nodes) hget⟩

/-- A destination is resolved to the instruction that its lexeme says. -/
theorem bind_counterAt?_of_resolve {nodes : List Node} {n : Node} {d : Token} {target : Option Nat}
    {problems : List Diagnostic} (hd : n.outline.destination? = some d.lexeme)
    (h : resolve (LabelTable.ofNodes nodes) (instructionIndices nodes) n d =
      .ok (target, problems)) :
    target.bind (counterAt? (instructionIndices nodes)) =
      Outline.target? (nodes.map Node.outline) n.outline := by
  rw [Outline.target?, hd, Option.bind_some, resolve_eq_ok h, countP_outline]
  show _ = if d.isNumber then d.lexeme.counter? (instructionIndices nodes).length else _
  split
  · cases hcounter : d.lexeme.counter? (instructionIndices nodes).length with
    | none => rfl
    | some c =>
      obtain ⟨i, hi, hc⟩ := getElem?_of_counter? hcounter
      rw [Option.bind_some, hi, Option.bind_some, hc]
  · exact bind_counterAt?_eq d.content nodes

/-- A destination is resolved if its lexeme is said to be. -/
theorem isSome_of_resolve {nodes : List Node} {n : Node} {d : Token} {target : Option Nat}
    {problems : List Diagnostic} (hd : n.outline.destination? = some d.lexeme)
    (h : resolve (LabelTable.ofNodes nodes) (instructionIndices nodes) n d =
      .ok (target, problems)) :
    target.isSome = Outline.resolves (nodes.map Node.outline) n.outline := by
  rw [Outline.resolves, hd, Option.any_some, resolve_eq_ok h, countP_outline]
  show _ = if d.isNumber then (d.lexeme.counter? (instructionIndices nodes).length).isSome else _
  split
  · cases hcounter : d.lexeme.counter? (instructionIndices nodes).length with
    | none => rfl
    | some c =>
      obtain ⟨i, hi, -⟩ := getElem?_of_counter? hcounter
      rw [Option.bind_some, hi]
      rfl
  · rw [List.findIdx?_isSome, List.any_map]
    rfl

/-- Where a jump of a graph leads to is what its destination is resolved to, and without a
destination it leads nowhere. -/
theorem jumpTarget?_cases {uri : String} {nodes : List Node} {g : FlowGraph}
    (h : ofNodes uri nodes = .ok g) {i : Nat} {n : Node} (hn : nodes[i]? = some n) :
    (n.outline.destination? = none ∧ g.jumpTarget? i = none) ∨
      ∃ (d : Token) (problems : List Diagnostic), n.outline.destination? = some d.lexeme ∧
        resolve (LabelTable.ofNodes nodes) (instructionIndices nodes) n d =
          .ok (g.jumpTarget? i, problems) := by
  obtain ⟨-, -, -, hexits⟩ := exits_of_ofNodes h
  obtain ⟨exit, hexit, problems, hof⟩ := exists_getElem?_of_forall₂ hexits hn
  rw [Array.getElem?_toList] at hexit
  rw [← n.map_lexeme_destination?, jumpTarget?, hexit]
  unfold exitOf at hof
  -- An instruction that writes the counter leads anywhere; it is no jump, so the outlines say
  -- nothing of it either.
  split at hof
  · next hwrites =>
    cases hof
    have hnone : n.destination? = none := by
      rw [Node.destination?, if_neg]
      intro hjump
      rw [Node.writesCounter_of_isJump hjump] at hwrites
      cases hwrites
    exact .inl ⟨by rw [hnone]; rfl, rfl⟩
  split at hof
  · next hnone =>
    cases hof
    exact .inl ⟨by rw [hnone]; rfl, rfl⟩
  · next d hd =>
    obtain ⟨⟨target, found⟩, hresolve, hof⟩ := bind_eq_ok.1 hof
    refine .inr ⟨d, found, by rw [hd]; rfl, ?_⟩
    rw [hresolve]
    cases target with
    | none =>
      cases hof
      rfl
    | some target =>
      cases hof
      rfl

/-- A jump by a number leads to the instruction with that counter, and one by a name to the first
declaration of the name. -/
theorem jumpTarget?_eq {uri : String} {nodes : List Node} {g : FlowGraph}
    (h : ofNodes uri nodes = .ok g) {i : Nat} {n : Node} (hn : nodes[i]? = some n) {d : Token}
    (hd : n.destination? = some d) :
    g.jumpTarget? i = if d.isNumber then
        (d.lexeme.counter? (instructionIndices nodes).length).bind ((instructionIndices nodes)[·]?)
      else nodes.findIdx? (LabelTable.declares d.content) := by
  have houtline : n.outline.destination? = some d.lexeme := by
    rw [← n.map_lexeme_destination?, hd]
    rfl
  rcases jumpTarget?_cases h hn with ⟨hnone, -⟩ | ⟨e, problems, he, hresolve⟩
  · rw [houtline] at hnone
    cases hnone
  have hlexeme : d.lexeme = e.lexeme := Option.some.inj (houtline.symm.trans he)
  rw [resolve_eq_ok hresolve, hlexeme, Token.isNumber, Token.isNumber,
    show d.kind = e.kind from congrArg Prod.fst hlexeme,
    show d.content = e.content from congrArg Prod.snd hlexeme]

/-- The jump of a graph leads to the instruction that the outlines say. -/
theorem jumpTarget?_bind_counterAt? {uri : String} {nodes : List Node} {g : FlowGraph}
    (h : ofNodes uri nodes = .ok g) {i : Nat} {n : Node} (hn : nodes[i]? = some n) :
    (g.jumpTarget? i).bind (counterAt? (instructionIndices nodes)) =
      Outline.target? (nodes.map Node.outline) n.outline := by
  rcases jumpTarget?_cases h hn with ⟨hnone, htarget⟩ | ⟨d, problems, hd, hresolve⟩
  · rw [htarget, Outline.target?, hnone]
    rfl
  · exact bind_counterAt?_of_resolve hd hresolve

/-- The jump of a graph leads anywhere if the outlines say so. -/
theorem isSome_jumpTarget? {uri : String} {nodes : List Node} {g : FlowGraph}
    (h : ofNodes uri nodes = .ok g) {i : Nat} {n : Node} (hn : nodes[i]? = some n) :
    (g.jumpTarget? i).isSome = Outline.resolves (nodes.map Node.outline) n.outline := by
  rcases jumpTarget?_cases h hn with ⟨hnone, htarget⟩ | ⟨d, problems, hd, hresolve⟩
  · rw [htarget, Outline.resolves, hnone]
    rfl
  · exact isSome_of_resolve hd hresolve

/-- The counter that instruction `k` jumps to: that of the first instruction at or behind the node
that is the target. -/
def targetCounter? (g : FlowGraph) (k : Nat) : Option Nat :=
  g.instructions[k]?.bind fun i => (g.jumpTarget? i).bind (counterAt? g.instructions)

/-- Where an instruction jumps to is said by the outlines of all nodes and by its own. -/
theorem targetCounter?_eq {uri : String} {nodes : List Node} {g : FlowGraph}
    (h : ofNodes uri nodes = .ok g) (k : Nat) :
    g.targetCounter? k = ((nodes.filter (·.isInstruction))[k]?.map Node.outline).bind
      (Outline.target? (nodes.map Node.outline)) := by
  obtain ⟨-, -, hinstructions, -⟩ := exits_of_ofNodes h
  have hfilter := @getElem?_instructionIndicesFrom 0 nodes k
  rw [targetCounter?, hinstructions, ← hfilter, instructionIndices]
  cases hk : (instructionIndicesFrom 0 nodes)[k]? with
  | none => rfl
  | some i =>
    obtain ⟨n, hn, -⟩ := mem_instructionIndices.1 (List.mem_of_getElem? hk)
    rw [Option.bind_some, Option.bind_some, Nat.sub_zero, hn]
    exact jumpTarget?_bind_counterAt? h hn

/-- Whether instruction `k` is a jump whose destination is found. -/
def resolves (g : FlowGraph) (k : Nat) : Bool := (g.instructions[k]?.bind g.jumpTarget?).isSome

/-- Whether the destination of an instruction is found is said by the outlines of all nodes and by
its own. -/
theorem resolves_eq {uri : String} {nodes : List Node} {g : FlowGraph}
    (h : ofNodes uri nodes = .ok g) (k : Nat) :
    g.resolves k = ((nodes.filter (·.isInstruction))[k]?.map Node.outline).any
      (Outline.resolves (nodes.map Node.outline)) := by
  obtain ⟨-, -, hinstructions, -⟩ := exits_of_ofNodes h
  have hfilter := @getElem?_instructionIndicesFrom 0 nodes k
  rw [resolves, hinstructions, ← hfilter, instructionIndices]
  cases hk : (instructionIndicesFrom 0 nodes)[k]? with
  | none => rfl
  | some i =>
    obtain ⟨n, hn, -⟩ := mem_instructionIndices.1 (List.mem_of_getElem? hk)
    rw [Option.bind_some, Option.bind_some, Nat.sub_zero, hn]
    exact isSome_jumpTarget? h hn

/-- A destination that can be read is resolved, to a node or to none. -/
theorem exists_resolve (labels : LabelTable) (instructions : List Nat) (n : Node) {d : Token}
    (h : ∃ a, d.address = .ok a) :
    ∃ target problems, resolve labels instructions n d = .ok (target, problems) := by
  obtain ⟨a, ha⟩ := h
  unfold resolve
  split
  · rw [Token.counter, ha]
    simp only [bind, Except.bind, pure, Except.pure]
    split
    · exact ⟨_, _, rfl⟩
    · exact ⟨_, _, rfl⟩
  · split
    · exact ⟨_, _, rfl⟩
    · exact ⟨_, _, rfl⟩

/-- There is a graph if every destination can be read. -/
theorem exists_ofNodes (uri : String) {nodes : List Node}
    (h : ∀ n ∈ nodes, ∀ x ∈ n.outline.destination?, ∃ a, x.address = .ok a) :
    ∃ g, ofNodes uri nodes = .ok g := by
  -- Only reading an address can fail, and only of a jump that has one.
  have hexits : ∀ n ∈ nodes, ∃ result,
      exitOf (LabelTable.ofNodes nodes) (instructionIndices nodes) n = .ok result := by
    intro n hn
    unfold exitOf
    split
    · exact ⟨_, rfl⟩
    split
    · exact ⟨_, rfl⟩
    · next d hd =>
      have hdestination := n.map_lexeme_destination?
      rw [hd] at hdestination
      obtain ⟨target, problems, hresolve⟩ := exists_resolve (LabelTable.ofNodes nodes)
        (instructionIndices nodes) n (h n hn d.lexeme hdestination.symm)
      rw [hresolve]
      cases target with
      | none => exact ⟨_, rfl⟩
      | some target => exact ⟨_, rfl⟩
  obtain ⟨exits, hexits⟩ := exists_mapM_eq_ok hexits
  exact ⟨_, bind_eq_ok.2 ⟨exits, hexits, rfl⟩⟩

/-- In a graph every destination was read. -/
theorem address_of_ofNodes {uri : String} {nodes : List Node} {g : FlowGraph}
    (h : ofNodes uri nodes = .ok g) :
    ∀ n ∈ nodes, ∀ x ∈ n.outline.destination?, ∃ a, x.address = .ok a := by
  intro n hn x hx
  obtain ⟨i, hi⟩ := List.mem_iff_getElem?.1 hn
  rcases jumpTarget?_cases h hi with ⟨hnone, -⟩ | ⟨d, problems, hd, hresolve⟩
  · rw [hnone] at hx
    cases hx
  obtain rfl : d.lexeme = x := Option.some.inj (hd.symm.trans hx)
  cases hnumber : d.isNumber with
  | false => exact ⟨none, Token.address_of_not_isNumber hnumber⟩
  | true =>
    rw [resolve, if_pos hnumber] at hresolve
    obtain ⟨counter, hcounter, -⟩ := bind_eq_ok.1 hresolve
    exact (Token.counter_eq_ok hcounter).1

end FlowGraph

end LogicAsm
