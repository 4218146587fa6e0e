import LogicAsm.Proofs.Edits
import LogicAsm.Proofs.Jumps.Margins

/-!
# How nodes lie in the text

Nodes come in the order of the text, and so do their margins, but margins are wider than nodes.  Two
nodes of one statement *touch* (`Touches`): the blanks between them are in the margin of both, and
there is at least one.  Nodes of different statements lie apart: where one has its margin, the other
has none, even if that of the first takes the line break along.

All of it is said about the statements of a text by `Arranged`, and holds of every text
(`arranged_ofText`).
-/

namespace LogicAsm

namespace Position

theorem lt_of_le_of_lt {a b c : Position} (hab : a ≤ b) (hbc : b < c) : a < c := by
  simp only [le_iff, lt_iff] at *
  omega

theorem line_nonneg_of_le {a b : Position} (ha : 0 ≤ a.line) (h : a ≤ b) : 0 ≤ b.line := by
  simp only [le_iff] at h
  omega

theorem line_origin_advance (t : Text) : 0 ≤ (origin.advance t).line :=
  line_nonneg_of_le (Int.le_refl 0) (le_advance origin t)

end Position

/-- A node goes from its first token to its end, and its other tokens lie in between. -/
structure Node.Ordered (n : Node) : Prop where
  line : 0 ≤ n.start.line
  start_lt_stop : n.start < n.stop
  tail : ∀ d ∈ n.tail, n.start < d.start ∧ d.start ≤ d.stop ∧ d.stop ≤ n.stop

namespace Piece

open Position

/-! ### Tokens in the order of the text -/

/-- A token lies between the ends of the pieces that it was found in. -/
theorem bounds_of_mem_tokensAt {here : Position} (hpos : 0 ≤ here.character) {ps : List Piece}
    (hwf : ∀ p ∈ ps, p.WellFormed) : ∀ t ∈ tokensAt here ps,
      here ≤ t.start ∧ t.start < t.stop ∧ t.stop ≤ here.advance (ps.flatMap text) := by
  induction ps generalizing here with
  | nil => simp [tokensAt]
  | cons p ps ih =>
    intro t ht
    rw [List.flatMap_cons, advance_append]
    rcases List.mem_append.1 ht with ht | ht
    · have htoken : p.tokenAt? here = some t := Option.mem_toList.1 ht
      have hp := hwf p List.mem_cons_self
      have hne : p.text ≠ [] := by
        obtain ⟨c, hc⟩ := hp.exists_head
        exact List.ne_nil_of_mem (List.mem_of_mem_head? hc)
      rw [start_of_tokenAt? hpos htoken, stop_of_tokenAt? hpos hp htoken]
      exact ⟨le_refl _, lt_advance _ hne, le_advance _ _⟩
    · obtain ⟨hstart, hlt, hstop⟩ := ih (here.character_advance_nonneg hpos _)
        (fun q hq => hwf q (List.mem_cons_of_mem p hq)) t ht
      exact ⟨le_trans (le_advance _ _) hstart, hlt, hstop⟩

/-- A word ends in no blank. -/
theorem getLast?_of_word {w : Text} (hw : (word w).WellFormed) :
    ∀ c ∈ w.getLast?, isBlank c = false := by
  intro c hc
  have hin := (hw.2.2 c (List.mem_of_mem_getLast? hc)).1
  simp only [inWord, Bool.and_eq_true, Bool.not_eq_true'] at hin
  exact hin.1.1

/-- Only a comment stands right behind a word. -/
theorem mayPrecede_word {w : Text} {q : Piece} {x : Lexeme} (hq : q.lexeme? = some x)
    (hx : x.isComment = false) : (word w).mayPrecede q = false := by
  cases q with
  | blank c => cases hq
  | separator c => cases hq
  | comment body => cases hq; cases hx
  | quoted body closed => rfl
  | word v => rfl

end Piece

namespace Jumps

open Piece Position

/-! ### Nodes of one statement -/

theorem lineStart_le (doc : Document) (n : Node) : lineStart doc n ≤ n.start := by
  refine .inr ⟨rfl, ?_⟩
  show n.start.character - _ ≤ n.start.character
  omega

theorem le_lineEnd (doc : Document) (n : Node) : n.stop ≤ lineEnd doc n := by
  simp only [lineEnd]
  split
  · exact .inl (Int.lt_succ _)
  · exact .inr ⟨rfl, Int.le_add_of_nonneg_right (Int.natCast_nonneg _)⟩

/-- The second node stands right behind the first one, and the blanks between them, of which there
is at least one, are in the margin of both. -/
structure Touches (doc : Document) (n m : Node) : Prop where
  lineStart_eq : lineStart doc m = n.stop
  lineEnd_eq : lineEnd doc n = m.start
  offset_lt : doc.offsetAt n.stop < doc.offsetAt m.start

/-- The nodes of a statement that goes from one position to another. -/
structure Joined (doc : Document) (here there : Position) (ns : List Node) : Prop where
  ordered : ∀ n ∈ ns, n.Ordered
  le_lineStart : ∀ n ∈ ns, here ≤ lineStart doc n
  head : ∀ n ∈ ns.head?, lineStart doc n = here
  chain : ns.IsChain (Touches doc)
  last : ∀ n ∈ ns, lineEnd doc n ≤ there ∨ n.stop = there

variable {uri : String}

/-- A node of all tokens of a stretch, under whatever names. -/
theorem ordered_of_tokensAt {a : Text} {s : List Piece} (hs : Stretch s)
    (hwf : ∀ p ∈ s, p.WellFormed) {first : Token} {rest : List Token}
    (htokens : tokensAt (origin.advance a) s = first :: rest) {n : Node}
    (hstart : n.start = first.start) (htail : n.tail.map Token.place = rest.map Token.place)
    (hstop : n.stop = (origin.advance a).advance (s.flatMap text)) : n.Ordered := by
  have hpos := character_origin_advance a
  have hbounds := bounds_of_mem_tokensAt hpos hwf
  rw [htokens] at hbounds
  obtain ⟨hle, hlt, hfirst⟩ := hbounds first List.mem_cons_self
  refine ⟨?_, ?_, fun d hd => ?_⟩
  · rw [hstart]
    exact line_nonneg_of_le (line_origin_advance a) hle
  · rw [hstart, hstop]
    exact lt_of_lt_of_le hlt hfirst
  · have hplace : d.place ∈ rest.map Token.place := htail ▸ List.mem_map_of_mem hd
    obtain ⟨u, hu, hplace⟩ := List.mem_map.1 hplace
    have hdstart : u.start = d.start := congrArg (·.2.start) hplace
    have hdstop : u.stop = d.stop := congrArg (·.2.stop) hplace
    obtain ⟨-, hult, hustop⟩ := hbounds u (List.mem_cons_of_mem _ hu)
    -- The first token ends where the others begin to be found.
    obtain ⟨bs, p, r, rfl, -, -, -, hfirstStop, rfl⟩ :=
      exists_of_tokensAt_eq_cons hpos hs hwf htokens
    obtain ⟨hustart, -, -⟩ := bounds_of_mem_tokensAt
      (character_advance_nonneg hpos _) (fun q hq => hwf q (by simp [hq])) u hu
    rw [← hfirstStop] at hustart
    rw [hstart, hstop, ← hdstart, ← hdstop]
    exact ⟨lt_of_lt_of_le hlt hustart, le_of_lt hult, hustop⟩

/-- The only node of a statement. -/
theorem Joined.singleton {a b : Text} (ha : ∀ c ∈ a.getLast?, isBlank c = false) {s : List Piece}
    (hs : Stretch s) (hwf : ∀ p ∈ s, p.WellFormed) {head : Token} {tail : List Token}
    (hplaces : (head :: tail).map Token.place =
      (tokensAt (origin.advance a) s).map Token.place)
    {stop : Position} (hstop : stop = (origin.advance a).advance (s.flatMap text))
    (kind : NodeKind) :
    Joined (.ofText uri (a ++ (s.flatMap text ++ b))) (origin.advance a) stop
      [⟨kind, head, tail, stop⟩] := by
  obtain ⟨first, rest, htokens, hhead, htail⟩ := List.map_eq_cons_iff.1 hplaces.symm
  have hstart : Node.start ⟨kind, head, tail, stop⟩ = first.start :=
    (congrArg (·.2.start) hhead).symm
  have hordered := ordered_of_tokensAt hs hwf htokens hstart htail.symm hstop
  have hlineStart := lineStart_of_stretch uri ha hs hwf htokens hstart b
  refine ⟨List.forall_mem_singleton.2 hordered, List.forall_mem_singleton.2 ?_, ?_, .singleton _,
    List.forall_mem_singleton.2 (.inr rfl)⟩
  · rw [hlineStart]
    exact le_refl _
  · rintro n ⟨⟩
    exact hlineStart

/-- A node in front of others that it touches. -/
theorem Joined.cons {doc : Document} {here there : Position} {n : Node} {ns : List Node}
    (hn : n.Ordered) (hstart : lineStart doc n = here) (hend : lineEnd doc n ≤ there)
    (hnext : ∀ m ∈ ns.head?, lineEnd doc n = m.start ∧ doc.offsetAt n.stop < doc.offsetAt m.start)
    (h : Joined doc n.stop there ns) : Joined doc here there (n :: ns) := by
  have hle : here ≤ n.stop :=
    hstart ▸ le_trans (lineStart_le doc n) (le_of_lt hn.start_lt_stop)
  refine ⟨List.forall_mem_cons.2 ⟨hn, h.ordered⟩, List.forall_mem_cons.2 ⟨?_, fun m hm => ?_⟩, ?_,
    List.isChain_cons.2 ⟨fun m hm => ?_, h.chain⟩, List.forall_mem_cons.2 ⟨.inl hend, h.last⟩⟩
  · rw [hstart]
    exact le_refl _
  · exact le_trans hle (h.le_lineStart m hm)
  · rintro m ⟨⟩
    exact hstart
  · exact ⟨h.head m hm, (hnext m hm).1, (hnext m hm).2⟩

/-- A label in front of another token ends with a word and has a blank behind it, and the margin
behind the label goes up to the other token. -/
theorem exists_front_of_label {a : Text} {s : List Piece} (hs : Stretch s) (hrow : Row s)
    {t u : Token} {us : List Token} (htokens : tokensAt (origin.advance a) s = t :: u :: us)
    (ht : t.kind = .identifier) (hu : u.isComment = false) (b : Text) :
    ∃ front v, s.flatMap text = front ++ v.flatMap text ∧ Stretch v ∧ Row v ∧
      (∀ c ∈ (a ++ front).getLast?, isBlank c = false) ∧ t.stop = origin.advance (a ++ front) ∧
      tokensAt (origin.advance (a ++ front)) v = u :: us ∧
      (Document.ofText uri (a ++ (s.flatMap text ++ b))).offsetAt t.stop <
        (Document.ofText uri (a ++ (s.flatMap text ++ b))).offsetAt u.start ∧
      ∀ n : Node, n.stop = t.stop →
        lineEnd (.ofText uri (a ++ (s.flatMap text ++ b))) n = u.start := by
  obtain ⟨bs, p, bs', q, r, rfl, -, hbs', hp, hq, -, hstop, hstart, hrest⟩ :=
    exists_of_tokensAt_eq_cons_cons (character_origin_advance a) hs hrow.wellFormed htokens
  obtain rfl : .word t.content = p := by
    rw [← piece_of_lexeme? (hrow.wellFormed p (by simp)) hp, Lexeme.piece,
      show t.lexeme.1 = .identifier from ht]
    rfl
  have hword : (word t.content).WellFormed := hrow.wellFormed _ (by simp)
  have hbehind : Row (bs'.map .blank ++ q :: r) := by
    rw [List.append_cons] at hrow
    exact hrow.right
  -- A token that is no comment does not stand right behind a word.
  have hgap : bs' ≠ [] := by
    rintro rfl
    have hprecede := (List.isChain_cons_cons.1 (List.isChain_append.1 hrow.chain).2.1).1
    have hcomment : u.lexeme.isComment = false := hu
    rw [mayPrecede_word hq hcomment] at hprecede
    cases hprecede
  have hplace : t.stop = origin.advance (a ++ (bs ++ t.content)) := by
    rw [hstop, ← advance_append]
    rfl
  have hnext : origin.advance (a ++ (bs ++ t.content) ++ bs') = u.start := by
    rw [hstart, ← advance_append, List.append_assoc]
    rfl
  have htext : a ++ ((bs.map blank ++ word t.content :: (bs'.map blank ++ q :: r)).flatMap text ++
      b) = a ++ (bs ++ t.content) ++ (bs' ++ (q.text ++ (r.flatMap text ++ b))) := by
    simp only [List.flatMap_append, List.flatMap_cons, flatMap_text_map_blank, text,
      List.append_assoc]
  rw [htext]
  refine ⟨bs ++ t.content, bs'.map .blank ++ q :: r, ?_, ?_, hbehind, ?_, hplace, ?_, ?_, ?_⟩
  · rw [List.flatMap_append, flatMap_text_map_blank, List.flatMap_cons, List.append_assoc]
    rfl
  · intro v hv
    refine hs v (List.mem_append_right _ (List.mem_cons_of_mem _ hv))
  · rw [← List.append_assoc, List.getLast?_append_of_ne_nil _ hword.1]
    exact getLast?_of_word hword
  · rw [tokensAt_blanks, ← advance_append, hnext, ← hrest, hstart]
  · have hbefore := Document.offsetAt_advance uri (a ++ (bs ++ t.content))
      (bs' ++ (q.text ++ (r.flatMap text ++ b)))
    have hbehind := Document.offsetAt_advance uri (a ++ (bs ++ t.content) ++ bs')
      (q.text ++ (r.flatMap text ++ b))
    rw [List.append_assoc _ bs'] at hbehind
    rw [hplace, ← hnext, hbefore, hbehind, @List.length_append _ (a ++ (bs ++ t.content)) bs']
    exact Nat.lt_add_of_pos_right (List.length_pos_of_ne_nil hgap)
  · intro n hn
    have hline := @lineEnd_of_token uri (a ++ (bs ++ t.content)) bs' hbs' q
      (hbehind.wellFormed q (by simp)) _ hq n (hn.trans hplace) (r.flatMap text ++ b)
    rw [hline, hnext]

/-- The nodes of tokens that are the tokens of a stretch, under whatever names. -/
theorem joined_ofTokens {a b : Text} (ha : ∀ c ∈ a.getLast?, isBlank c = false) {s : List Piece}
    (hs : Stretch s) (hrow : Row s) {stop : Position} {ts : List Token}
    (hplaces : ts.map Token.place = (tokensAt (origin.advance a) s).map Token.place)
    (hstop : stop = (origin.advance a).advance (s.flatMap text)) :
    Joined (.ofText uri (a ++ (s.flatMap text ++ b))) (origin.advance a) stop
      (Node.ofTokens stop ts) := by
  -- The induction follows the labels of the statement; the text in front grows by a label each
  -- time, so that the rest is again a stretch in which the first node has its margin in front.
  fun_induction Node.ofTokens stop ts generalizing a s with
  | case1 => exact ⟨by simp, by simp, by simp, .nil, by simp⟩
  | case2 head tail _ => exact .singleton ha hs hrow.wellFormed hplaces hstop _
  | case3 head _ _ => exact .singleton ha hs hrow.wellFormed hplaces hstop _
  | case4 head _ _ second rest _ => exact .singleton ha hs hrow.wellFormed hplaces hstop _
  | case6 head tail _ _ => exact .singleton ha hs hrow.wellFormed hplaces hstop _
  | case5 head hcomment hlabel second rest hsecond ih =>
    obtain ⟨t, u, us, htokens, hhead, hu, hus⟩ : ∃ t u us,
        tokensAt (origin.advance a) s = t :: u :: us ∧ t.place = head.place ∧
          u.place = second.place ∧ us.map Token.place = rest.map Token.place := by
      obtain ⟨t, ts, htokens, hhead, hts⟩ := List.map_eq_cons_iff.1 hplaces.symm
      obtain ⟨u, us, rfl, hu, hus⟩ := List.map_eq_cons_iff.1 hts
      exact ⟨t, u, us, htokens, hhead, hu, hus⟩
    have hkind : t.kind = .identifier := by
      simp only [Token.isLabel, Bool.and_eq_true, beq_iff_eq] at hlabel
      exact (congrArg Prod.fst hhead).trans hlabel.1.1
    have hother : u.isComment = false := by
      rw [Token.isComment, show u.kind = second.kind from congrArg Prod.fst hu]
      exact Bool.eq_false_iff.2 hsecond
    have hlstart : head.start = t.start := (congrArg (·.2.start) hhead).symm
    have hlstop : head.stop = t.stop := (congrArg (·.2.stop) hhead).symm
    have hbounds := bounds_of_mem_tokensAt (character_origin_advance a) hrow.wellFormed
    rw [htokens] at hbounds
    obtain ⟨htle, htlt, -⟩ := hbounds t List.mem_cons_self
    obtain ⟨-, hult, hustop⟩ := hbounds u (by simp)
    obtain ⟨front, v, htext, hv, hvrow, hfront, htstop, hvtokens, hgap, hlineEnd⟩ :=
      @exists_front_of_label uri a s hs hrow t u us htokens hkind hother b
    have hbegin := @lineStart_of_stretch uri a ha s hs hrow.wellFormed _ _ htokens
      ⟨.label, head, [], head.stop⟩ hlstart b
    have hend := hlineEnd ⟨.label, head, [], head.stop⟩ hlstop
    have hjoined := ih hfront hv hvrow
      (by rw [hvtokens, List.map_cons, List.map_cons, hu, hus])
      (by rw [hstop, htext, advance_append, advance_append])
    rw [List.append_assoc, ← List.append_assoc front, ← htext, ← htstop, ← hlstop] at hjoined
    refine .cons ⟨?_, ?_, by simp⟩ hbegin ?_ ?_ hjoined
    · show 0 ≤ head.start.line
      rw [hlstart]
      exact line_nonneg_of_le (line_origin_advance a) htle
    · show head.start < head.stop
      rw [hlstart, hlstop]
      exact htlt
    · rw [hend, hstop]
      exact le_trans (le_of_lt hult) hustop
    · intro n hn
      obtain ⟨m, ms, hnodes, hm⟩ := Node.exists_ofTokens_cons stop second rest
      obtain rfl : m = n := by
        rw [hnodes] at hn
        exact Option.some.inj hn
      have hstart : m.start = u.start := by
        rw [Node.start, hm]
        exact (congrArg (·.2.start) hu).symm
      rw [hend, hstart, show Node.stop ⟨.label, head, [], head.stop⟩ = t.stop from hlstop]
      exact ⟨rfl, hgap⟩

/-- Nodes that touch one after the other lie apart, unless they are neighbours. -/
theorem pairwise_of_touches {doc : Document} {R : Node → Node → Prop} {ns : List Node}
    (hordered : ∀ n ∈ ns, n.Ordered) (htouches : ns.IsChain (Touches doc)) (hR : ns.IsChain R) :
    ns.Pairwise fun n m => lineEnd doc n ≤ lineStart doc m ∨ Touches doc n m ∧ R n m := by
  induction ns with
  | nil => exact .nil
  | cons n ns ih =>
    obtain ⟨htouch, htouches⟩ := List.isChain_cons.1 htouches
    obtain ⟨hnext, hR⟩ := List.isChain_cons.1 hR
    have hlater := ih (fun m hm => hordered m (List.mem_cons_of_mem n hm)) htouches hR
    refine List.pairwise_cons.2 ⟨fun m hm => ?_, hlater⟩
    cases ns with
    | nil => cases hm
    | cons next ns =>
      rcases List.mem_cons.1 hm with rfl | hm
      · exact .inr ⟨htouch m rfl, hnext m rfl⟩
      · -- The margin of the first node ends where the next one starts, and all others begin behind
        -- That one.
        left
        have hbehind : next.stop ≤ lineStart doc m := by
          rcases (List.pairwise_cons.1 hlater).1 m hm with hle | ⟨htouch, -⟩
          · exact le_trans (le_lineEnd doc next) hle
          · exact htouch.lineStart_eq ▸ le_refl _
        have hnext := hordered next (by simp)
        rw [(htouch next rfl).lineEnd_eq]
        exact le_trans (le_of_lt hnext.start_lt_stop) hbehind

/-! ### All statements -/

/-- Statements that lie in the text behind a position: the nodes of each touch, and those of
different ones lie apart. -/
structure Arranged (doc : Document) (here : Position) (sts : List Statement) : Prop where
  ordered : ∀ st ∈ sts, ∀ n ∈ Node.ofStatement st, n.Ordered
  le_lineStart : ∀ st ∈ sts, ∀ n ∈ Node.ofStatement st, here ≤ lineStart doc n
  chain : ∀ st ∈ sts, (Node.ofStatement st).IsChain (Touches doc)
  apart : sts.Pairwise fun s s' => ∀ n ∈ Node.ofStatement s, ∀ m ∈ Node.ofStatement s',
    lineEnd doc n ≤ lineStart doc m

/-- A stretch is no statement, or one whose nodes are joined. -/
theorem joined_of_stretch {a b : Text} (ha : ∀ c ∈ a.getLast?, isBlank c = false) {s : List Piece}
    (hs : Stretch s) (hrow : Row s) :
    ∀ st ∈ statementsAt (origin.advance a) [] s,
      Joined (.ofText uri (a ++ (s.flatMap text ++ b))) (origin.advance a)
        ((origin.advance a).advance (s.flatMap text)) (Node.ofStatement st) := by
  rw [statementsAt_of_stretch _ _ hs, List.nil_append]
  have hpos := character_advance_nonneg (character_origin_advance a) (s.flatMap text)
  cases htokens : tokensAt (origin.advance a) s with
  | nil => simp [closeAt, close]
  | cons head tail =>
    rw [closeAt_cons hpos]
    intro st hst
    obtain rfl := List.mem_singleton.1 hst
    refine joined_ofTokens ha hs hrow ?_ rfl
    rw [htokens, Statement.tokens, List.map_cons, List.map_cons, map_place_renameTail]

/-- The statements of a stretch are arranged, since there is at most one. -/
theorem arranged_of_stretch {a b : Text} (ha : ∀ c ∈ a.getLast?, isBlank c = false)
    {s : List Piece} (hs : Stretch s) (hrow : Row s) :
    Arranged (.ofText uri (a ++ (s.flatMap text ++ b))) (origin.advance a)
      (statementsAt (origin.advance a) [] s) := by
  have hjoined := @joined_of_stretch uri a b ha s hs hrow
  refine ⟨fun st hst => (hjoined st hst).ordered, fun st hst => (hjoined st hst).le_lineStart,
    fun st hst => (hjoined st hst).chain, ?_⟩
  rw [statementsAt_of_stretch _ _ hs, List.nil_append]
  cases tokensAt (origin.advance a) s with
  | nil => exact .nil
  | cons head tail => exact List.pairwise_singleton _ _

/-- Statements in front of others, where their nodes lie in front. -/
theorem Arranged.append {doc : Document} {here there : Position} {sts sts' : List Statement}
    (h : Arranged doc here sts) (h' : Arranged doc there sts') (hle : here ≤ there)
    (hapart : ∀ st ∈ sts, ∀ n ∈ Node.ofStatement st, ∀ st' ∈ sts', ∀ m ∈ Node.ofStatement st',
      lineEnd doc n ≤ lineStart doc m) : Arranged doc here (sts ++ sts') := by
  refine ⟨?_, ?_, ?_, List.pairwise_append.2 ⟨h.apart, h'.apart, ?_⟩⟩
  · intro st hst
    exact (List.mem_append.1 hst).elim (h.ordered st) (h'.ordered st)
  · intro st hst n hn
    rcases List.mem_append.1 hst with hst | hst
    · exact h.le_lineStart st hst n hn
    · exact le_trans hle (h'.le_lineStart st hst n hn)
  · intro st hst
    exact (List.mem_append.1 hst).elim (h.chain st) (h'.chain st)
  · exact fun st hst st' hst' n hn m hm => hapart st hst n hn st' hst' m hm

/-- Any two nodes lie apart, unless they are neighbours in a statement. -/
theorem Arranged.pairwise {doc : Document} {here : Position} {sts : List Statement}
    {R : Node → Node → Prop} (h : Arranged doc here sts)
    (hR : ∀ st ∈ sts, (Node.ofStatement st).IsChain R) :
    (sts.flatMap Node.ofStatement).Pairwise fun n m =>
      lineEnd doc n ≤ lineStart doc m ∨ Touches doc n m ∧ R n m := by
  refine List.pairwise_flatMap.2 ⟨fun st hst => ?_, h.apart.imp fun happart n hn m hm =>
    .inl (happart n hn m hm)⟩
  exact pairwise_of_touches (h.ordered st hst) (h.chain st hst) (hR st hst)

/-- The statements in the rest of a text are arranged. -/
theorem arranged_statementsAt {t a : Text} (ha : ∀ c ∈ a.getLast?, isBlank c = false)
    {ps : List Piece} (hrow : Row ps) (ht : t = a ++ ps.flatMap text) :
    Arranged (.ofText uri t) (origin.advance a) (statementsAt (origin.advance a) [] ps) := by
  induction ps using stretchInduction generalizing a with
  | last s hs =>
    have htext : t = a ++ (s.flatMap text ++ []) := by rw [ht, List.append_nil]
    rw [htext]
    exact arranged_of_stretch ha hs hrow
  | more s c rest hs ih =>
    have hrest : Row ([.separator c] ++ rest) := hrow.right
    have hblank := isBlank_of_separator (hrow.wellFormed (.separator c) (by simp))
    have htext : t = a ++ (s.flatMap text ++ c :: rest.flatMap text) := by
      rw [ht, List.flatMap_append, List.flatMap_cons]
      rfl
    have hlater := ih rest (Nat.le_refl _) (a := a ++ (s.flatMap text ++ [c]))
      (by simpa using hblank) hrest.right (by rw [htext]; simp)
    have hfirst := @arranged_of_stretch uri a (c :: rest.flatMap text) ha s hs hrow.left
    have hjoined := @joined_of_stretch uri a (c :: rest.flatMap text) ha s hs hrow.left
    rw [← htext] at hfirst hjoined
    rw [statementsAt_append_separator, ← advance_append]
    refine hfirst.append hlater (by rw [advance_append]; exact le_advance _ _) ?_
    intro st hst n hn st' hst' m hm
    have hbound := hlater.le_lineStart st' hst' m hm
    have hbefore : (origin.advance a).advance (s.flatMap text) ≤
        origin.advance (a ++ (s.flatMap text ++ [c])) := by
      rw [← advance_append, ← List.append_assoc, advance_append _ (a ++ s.flatMap text)]
      exact le_advance _ _
    rcases (hjoined st hst).last n hn with hend | hstop
    · exact le_trans hend (le_trans hbefore hbound)
    -- The last node of the statement may take the line break along, and then the other one comes
    -- behind the line break.
    rw [← advance_append] at hstop hbefore
    have hline := @lineEnd_eq_or uri (a ++ s.flatMap text) [] (c :: rest.flatMap text) (by simp)
      (by rintro d ⟨⟩; exact hblank) n hstop
    simp only [List.nil_append, List.append_nil, List.append_assoc] at hline
    rw [← htext] at hline
    rcases hline with hend | ⟨returns, more, hmore, hreturns, hend⟩
    · rw [hend]
      exact le_trans hbefore hbound
    · obtain ⟨hpieces, hshorter⟩ := pieces_of_returns hrow.right hmore hreturns
      have hread := @statementsAt_append_separators (origin.advance (a ++ s.flatMap text)) []
        (returns ++ ['\n']) (by simp) (ofText more)
      rw [← hpieces] at hread
      have hsame : statementsAt (origin.advance (a ++ (s.flatMap text ++ [c]))) [] rest =
          statementsAt (origin.advance (a ++ (s.flatMap text ++ (returns ++ ['\n'])))) []
            (ofText more) := by
        rw [← List.append_assoc, ← List.append_assoc, advance_append, advance_append _ (a ++ _)]
        exact hread
      have hbehind := ih (ofText more) hshorter
        (a := a ++ (s.flatMap text ++ (returns ++ ['\n']))) (by simp; rfl) (row_ofText more)
        (by rw [htext, hmore, flatMap_text_ofText]; simp)
      rw [hend]
      exact hbehind.le_lineStart st' (hsame ▸ hst') m hm

/-- The statements of a text are arranged. -/
theorem arranged_ofText (t : Text) :
    Arranged (.ofText uri t) .origin (Statement.ofText t) := by
  rw [Statement.ofText_eq]
  exact @arranged_statementsAt uri t [] (by simp) _ (row_ofText t) (flatMap_text_ofText t).symm

theorem ordered_of_mem_ofText {t : Text} : ∀ n ∈ Node.ofText t, n.Ordered := by
  intro n hn
  obtain ⟨st, hst, hn⟩ := List.mem_flatMap.1 hn
  exact (@arranged_ofText "" t).ordered st hst n hn

/-- Each node ends before the next one starts. -/
theorem pairwise_stop_ofText (t : Text) :
    (Node.ofText t).Pairwise fun n m => n.stop ≤ m.start := by
  have hany (ns : List Node) : ns.IsChain fun _ _ => True :=
    (List.pairwise_of_forall fun _ _ => trivial).isChain
  have hapart := (@arranged_ofText "" t).pairwise fun st _ => hany (Node.ofStatement st)
  apply hapart.imp
  intro n m happart
  rcases happart with hle | ⟨htouch, -⟩
  · exact le_trans (le_lineEnd _ n) (le_trans hle (lineStart_le _ m))
  · rw [← htouch.lineStart_eq]
    exact lineStart_le _ m

/-- Of two nodes one ends before the other one starts. -/
theorem apart_of_ne {t : Text} {n m : Node} (hn : n ∈ Node.ofText t) (hm : m ∈ Node.ofText t)
    (hne : n ≠ m) : n.stop ≤ m.start ∨ m.stop ≤ n.start := by
  have hapart : (Node.ofText t).Pairwise fun n m => n.stop ≤ m.start ∨ m.stop ≤ n.start :=
    (pairwise_stop_ofText t).imp .inl
  have hsymm : Std.Symm fun n m : Node => n.stop ≤ m.start ∨ m.stop ≤ n.start :=
    ⟨fun _ _ h => h.symm⟩
  exact hapart.forall hn hm hne

/-- No two nodes start at one place. -/
theorem pairwise_start_ofText (t : Text) :
    (Node.ofText t).Pairwise fun n m => n.start < m.start := by
  apply (pairwise_stop_ofText t).imp_of_mem
  intro n m hn _ hle
  exact lt_of_lt_of_le (ordered_of_mem_ofText n hn).start_lt_stop hle

end Jumps

end LogicAsm
