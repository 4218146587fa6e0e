import LogicAsm.Proofs.Comments
import LogicAsm.Proofs.Jumps.Landmarks
import LogicAsm.Proofs.Jumps.TargetLabels

/-!
# Labels in front of any instruction

A new label is put in front of the blanks in front of its instruction, with a line break behind it.
If a label stands there already, in the same statement, the two are glued: `a: print x` becomes
`a:label_0:` with ` print x` below it, and what is declared is neither `a` nor `label_0`, but
`a:label_0` (`Piece.glue`).

So the edits of any text can be made, and what they leave of its landmarks is known statement by
statement (`exists_applyAll_landmarks`): all destinations are redirected, and a statement whose
instruction has a new label has that behind its other names, or glued to the last of them
(`Landmarks.labelled`).  Comments stay what they are (`exists_applyAll_comments`).
-/

namespace LogicAsm

/-! ### Words that end in a colon -/

/-- No number literal holds a colon. -/
theorem IsNumeral.colon_not_mem {w : Text} (h : IsNumeral w) : ':' ∉ w := by
  obtain ⟨l, hproper, rfl⟩ := h
  intro hmem
  cases l with
  | hexadecimal digits =>
    have hdigit := hproper.2 ':' (by simpa [Literal.text] using hmem)
    revert hdigit
    decide
  | binary digits =>
    have hdigit := hproper.2 ':' (by simpa [Literal.text] using hmem)
    revert hdigit
    decide
  | decimal sign whole fraction exponent =>
    have hchar := Literal.mem_text_decimal hproper ':' hmem
    revert hchar
    decide

/-- A word that ends in a colon is an identifier. -/
theorem classifyWord_of_colon (w : Text) : classifyWord (w ++ [':']) = (.identifier, []) := by
  -- The last character of a literal is a digit, a bracket or a point, never a colon.
  have hhex : Color.isHexLiteral (w ++ [':']) = false := by
    unfold Color.isHexLiteral
    split
    · next digits hdigits =>
      have hmem : ':' ∈ '%' :: digits := by simp [← hdigits]
      have hcolon : ':' ∈ digits := (List.mem_cons.1 hmem).resolve_left (by decide)
      rw [Color.isHexDigits, Bool.and_eq_false_iff, List.all_eq_false]
      exact .inr ⟨':', hcolon, by decide⟩
    · rfl
  have hnamed : Color.isNamedLiteral (w ++ [':']) = false := by
    unfold Color.isNamedLiteral
    split
    · next rest hrest =>
      have hlast : ('%' :: '[' :: rest).getLast? = some ':' := by simp [← hrest]
      cases rest with
      | nil => cases hlast
      | cons c rest =>
        rw [List.getLast?_cons_cons, List.getLast?_cons_cons] at hlast
        rw [Text.endsWith, hlast]
        rfl
    · rfl
  have hnumber : Number.isLiteral (w ++ [':']) = false := by
    rw [← Bool.not_eq_true, Number.isLiteral_iff]
    exact fun h => h.colon_not_mem (by simp)
  simp [classifyWord, hhex, hnamed, hnumber]
namespace Landmarks

/-! ### Landmarks of what is labelled -/

/-- The name that a new label declares behind another label of its statement, or alone. -/
def glued (front : Option Text) (label : Text) : Text := front.elim label (· ++ ':' :: label)

/-- The names of a statement with a new label in front of its instruction. -/
def attach (label : Text) (names : List Text) : List Text :=
  names.dropLast ++ [glued names.getLast? label]

/-- The landmarks of a statement whose instruction, if there is one, may have a new label and whose
destination may be another word. -/
def labelled (new : Option Text) (f : Lexeme → Option Text) (m : Landmarks) : Landmarks :=
  { m.redirect f with
    names := if m.destinations = [] then m.names else new.elim m.names (attach · m.names) }

/-- The landmarks of statements that are labelled, where `counter` instructions stand in front. -/
def labelledFrom (fresh : Nat → Option Text) (f : Lexeme → Option Text) (counter : Nat) :
    List Landmarks → Landmarks
  | [] => ⟨[], []⟩
  | m :: ms =>
    m.labelled (fresh counter) f ++ labelledFrom fresh f (counter + m.destinations.length) ms

/-- The landmarks of statements, one by one. -/
def ofStatements (sts : List Statement) : List Landmarks :=
  sts.map fun s => ofNodes (Node.ofStatement s)

theorem ofStatements_append (sts sts' : List Statement) :
    ofStatements (sts ++ sts') = ofStatements sts ++ ofStatements sts' := List.map_append

theorem append_nil (m : Landmarks) : m ++ ⟨[], []⟩ = m :=
  Landmarks.ext (List.append_nil _) (List.append_nil _)

/-- A stretch is one statement at most, and if it is none it has no landmarks. -/
theorem labelledFrom_of_stretch (fresh : Nat → Option Text) (f : Lexeme → Option Text)
    (counter : Nat) (here : Position) {s : List Piece} (hs : Piece.Stretch s)
    (ms : List Landmarks) :
    labelledFrom fresh f counter (ofStatements (Piece.statementsAt here [] s) ++ ms) =
      (ofNodes (Piece.nodesAt here s)).labelled (fresh counter) f ++
        labelledFrom fresh f (counter + (Piece.nodesAt here s).countP (·.isInstruction)) ms := by
  rw [← length_destinations, Piece.nodesAt, Piece.statementsAt_of_stretch here [] hs,
    List.nil_append]
  cases Piece.tokensAt here s with
  | nil => rfl
  | cons first rest =>
    rw [Piece.closeAt, Piece.close, List.flatMap_singleton]
    rfl

end Landmarks

namespace Piece

open Landmarks

/-! ### Gluing a label to others -/

/-- Labels at the start of a statement, up to the last of them. -/
structure LeadingLabels (u : List Piece) : Prop where
  stretch : Stretch u
  isLabel : ∀ x ∈ u.filterMap lexeme?, x.isLabel = true
  last : u = [] ∨ ∃ front name, u = front ++ [.word (name ++ [':'])]

/-- One more label right behind others. -/
def glue (u : List Piece) (label : Text) : List Piece :=
  u.dropLast ++ [.word (u.getLast?.elim [] text ++ (label ++ [':']))]

theorem glue_nil (label : Text) : glue [] label = [.word (label ++ [':'])] := rfl

theorem glue_concat (front : List Piece) (name label : Text) :
    glue (front ++ [.word (name ++ [':'])]) label =
      front ++ [.word (name ++ ':' :: label ++ [':'])] := by
  rw [glue, List.dropLast_concat, List.getLast?_concat]
  simp [text]

theorem isLabel_ofWord_colon {w : Text} (h : w ≠ []) :
    (Lexeme.ofWord (w ++ [':'])).isLabel = true := by
  have hlength : 0 < w.length := List.length_pos_iff.2 h
  simp [Lexeme.isLabel, Lexeme.ofWord, classifyWord_of_colon, Text.endsWith, hlength]

section

variable {u : List Piece} (hu : LeadingLabels u) {label : Text}

include hu

theorem LeadingLabels.flatMap_text_glue :
    (Piece.glue u label).flatMap text = u.flatMap text ++ (label ++ [':']) := by
  rcases hu.last with rfl | ⟨front, name, rfl⟩
  · simp [glue_nil, text]
  · simp [glue_concat, text]

/-- A label is not glued to a blank. -/
theorem LeadingLabels.isBlank_getLast? {a : Text} (ha : ∀ c ∈ a.getLast?, isBlank c = false) :
    ∀ c ∈ (a ++ u.flatMap text).getLast?, isBlank c = false := by
  rcases hu.last with rfl | ⟨front, name, rfl⟩
  · simpa using ha
  · have hlast : (a ++ (front ++ [word (name ++ [':'])]).flatMap text).getLast? = some ':' := by
      simp [text, List.getLast?_append]
    rw [hlast]
    rintro c ⟨⟩
    decide

/-- Labels with one more behind them are labels. -/
theorem LeadingLabels.glue (hlabel : label ≠ []) : LeadingLabels (glue u label) := by
  have hone (w : Text) : Stretch [word w] := by simp [Stretch, endsStatement]
  rcases hu.last with rfl | ⟨front, name, rfl⟩
  · refine ⟨hone _, ?_, .inr ⟨[], label, rfl⟩⟩
    simpa [glue_nil, lexeme?_word] using isLabel_ofWord_colon hlabel
  · rw [glue_concat]
    refine ⟨hu.stretch.left.append (hone _), ?_, .inr ⟨front, _, rfl⟩⟩
    intro x hx
    rw [List.filterMap_append] at hx
    rcases List.mem_append.1 hx with hx | hx
    · exact hu.isLabel x (by simp [List.filterMap_append, hx])
    · obtain rfl := List.mem_singleton.1 hx
      exact isLabel_ofWord_colon (by simp)

/-- The names of labels with one more behind them. -/
theorem LeadingLabels.names_glue :
    ((Piece.glue u label).filterMap lexeme?).map (·.2.dropLast) =
      attach label ((u.filterMap lexeme?).map (·.2.dropLast)) := by
  have hname (name : Text) : (Lexeme.ofWord (name ++ [':'])).2.dropLast = name :=
    List.dropLast_concat
  rcases hu.last with rfl | ⟨front, name, rfl⟩
  · rw [glue_nil, List.filterMap_cons_some (lexeme?_word _), List.map_cons, hname]
    rfl
  · rw [glue_concat, List.filterMap_append, List.filterMap_append,
      List.filterMap_cons_some (lexeme?_word _), List.filterMap_cons_some (lexeme?_word _),
      List.map_append, List.map_append, List.map_cons, List.map_cons, hname, hname]
    simp [attach, glued]

/-- There is no comment among labels. -/
theorem LeadingLabels.comments_glue : comments (Piece.glue u label) = comments u := by
  rcases hu.last with rfl | ⟨front, name, rfl⟩
  · rfl
  · rw [glue_concat, comments_append, comments_append]
    rfl

/-- Where labels may stand in front of pieces, one more can be put behind them on the same line. -/
theorem LeadingLabels.row_glue (hlabel : Declarable label) {v v' : List Piece} (h : Row (u ++ v))
    (h' : Row v') : Row (Piece.glue u label ++ .separator '\n' :: v') := by
  have hseparator : Row (.separator '\n' :: v') := h'.cons (.inr rfl) fun q _ => by cases q <;> rfl
  apply Row.append ?_ hseparator
  · rintro p - q ⟨⟩
    exact mayPrecede_newline p
  -- Nothing in front of the new name, or a label that the name is glued to.
  rcases hu.last with rfl | ⟨front, name, rfl⟩
  · exact row_nil.cons hlabel.wellFormed (by simp)
  · rw [List.append_assoc, List.singleton_append] at h
    obtain ⟨-, hquote, hword⟩ := h.wellFormed (.word (name ++ [':'])) (by simp)
    have hlong : (word (name ++ ':' :: label ++ [':'])).WellFormed := by
      refine ⟨by simp, ?_, fun c hc => ?_⟩
      · cases name with
        | nil => exact hquote
        | cons c name => exact hquote
      · rw [List.append_assoc, List.cons_append, List.append_cons] at hc
        rcases List.mem_append.1 hc with hc | hc
        · exact hword c hc
        · exact hlabel.wellFormed.2.2 c hc
    rw [glue_concat]
    have hreplaced := h.replace_word hlong
    rw [List.append_cons] at hreplaced
    exact hreplaced.left

end

/-- A statement with an instruction starts with labels, which may be none. -/
theorem exists_leadingLabels {here : Position} {s : List Piece} (hs : Stretch s)
    (h : (ofNodes (nodesAt here s)).destinations ≠ []) :
    ∃ u v first rest, s = u ++ v ∧ LeadingLabels u ∧ v.filterMap lexeme? = first :: rest ∧
      first.isComment = false ∧ first.isLabel = false := by
  rw [ofNodes_of_stretch here hs] at h
  obtain ⟨labels, first, rest, hlexemes, hlabels, hfirst⟩ := exists_labels_of_destinations h
  rcases List.eq_nil_or_concat labels with rfl | ⟨init, l, rfl⟩
  · exact ⟨[], s, first, rest, rfl, ⟨by simp [Stretch], by simp, .inl rfl⟩, hlexemes, hfirst⟩
  -- The stretch is cut behind the word of the last label.
  · rw [List.concat_eq_append, List.append_assoc, List.singleton_append] at hlexemes
    obtain ⟨front, more, rfl, hfront, hmore⟩ := List.filterMap_eq_append_iff.1 hlexemes
    obtain ⟨blanks, p, v, rfl, hblanks, hp, hv⟩ := List.filterMap_eq_cons_iff.1 hmore
    have hl := hlabels l (by simp)
    have hkind := Lexeme.kind_of_isLabel hl
    obtain ⟨rfl, -⟩ := eq_word_of_lexeme? hp (by simp [hkind]) (by simp [hkind])
    have hcolon : l.2.getLast? = some ':' := by
      simp only [Lexeme.isLabel, Text.endsWith, Bool.and_eq_true, beq_iff_eq] at hl
      exact hl.2
    obtain ⟨name, hname⟩ := List.getLast?_eq_some_iff.1 hcolon
    refine ⟨front ++ blanks ++ [.word l.2], v, first, rest, by simp, ⟨?_, ?_, ?_⟩, hv, hfirst⟩
    · exact (hs.left.append hs.right.left).append (by simp [Stretch, endsStatement])
    · intro x hx
      rw [List.filterMap_append, List.filterMap_append, hfront,
        List.filterMap_eq_nil_iff.2 hblanks, List.append_nil,
        List.filterMap_cons_some hp] at hx
      exact hlabels x (by simpa using hx)
    · exact .inr ⟨_, name, by rw [hname]⟩

/-- The nodes of a statement are its labels and its instruction, which starts with the first token
behind the labels. -/
theorem exists_nodesAt_of_leadingLabels {here : Position} (hpos : 0 ≤ here.character)
    {u v : List Piece} (hu : LeadingLabels u) (hv : Stretch v) {first : Lexeme} {rest : List Lexeme}
    (hlexemes : v.filterMap lexeme? = first :: rest) (hcomment : first.isComment = false)
    (hlabel : first.isLabel = false) :
    ∃ labels n x xs, nodesAt here (u ++ v) = List.map Node.ofLabel labels ++ [n] ∧
      n.isInstruction = true ∧ tokensAt (here.advance (u.flatMap text)) v = x :: xs ∧
      n.start = x.start := by
  have hs := hu.stretch.append hv
  rw [← map_lexeme_tokensAt (here.advance (u.flatMap text))] at hlexemes
  obtain ⟨x, xs, htokens, rfl, -⟩ := List.map_eq_cons_iff.1 hlexemes
  have hcomment : x.isComment = false := hcomment
  have hlabel : x.isLabel = false := hlabel
  have hall : tokensAt here (u ++ v) = tokensAt here u ++ x :: xs := by
    rw [tokensAt_append, htokens]
  have hlabels : ∀ l ∈ tokensAt here u, l.isLabel = true := by
    intro l hl
    have hmem : l.lexeme ∈ u.filterMap lexeme? := by
      rw [← map_lexeme_tokensAt here]
      exact List.mem_map_of_mem hl
    exact hu.isLabel _ hmem
  cases hfront : tokensAt here u with
  | nil =>
    -- What a statement starts with has the names of an operation and its operands.
    rw [hfront, List.nil_append] at hall
    refine ⟨[], ⟨.instruction, x, renameTail x xs, here.advance ((u ++ v).flatMap text)⟩, x, xs, ?_,
      rfl, htokens, rfl⟩
    rw [nodesAt_of_tokensAt hpos hs hall, Node.ofTokens.eq_def]
    simp [hcomment, hlabel]
  | cons l labels =>
    rw [hfront] at hall hlabels
    exact ⟨l :: labels, _, x, xs,
      nodesAt_of_labels hpos hs hlabels hcomment hlabel (by rintro ⟨⟩) hall, rfl, htokens, rfl⟩

/-! ### The edits of a stretch -/

open Edit Jumps

/-- Behind labels, the edits of a node are its new label and those of all destinations. -/
theorem labelEditsFrom_concat (doc : Document) (counter : Nat) (labels : List Token)
    (n : Node) :
    labelEditsFrom doc counter (labels.map Node.ofLabel ++ [n]) =
      (insertion? doc n counter).toList ++
        (labels.map Node.ofLabel ++ [n]).filterMap (redirection? (label? doc)) := by
  have hnot : ∀ m ∈ labels.map Node.ofLabel, m.isInstruction = false := by
    intro m hm
    obtain ⟨l, -, rfl⟩ := List.mem_map.1 hm
    rfl
  have hnone : (labels.map Node.ofLabel).filterMap (redirection? (label? doc)) = [] := by
    rw [List.filterMap_map]
    exact List.filterMap_eq_nil_iff.2 fun _ _ => rfl
  have hcount : (labels.map Node.ofLabel).countP (·.isInstruction) = 0 :=
    List.countP_eq_zero.2 fun m hm => by simp [hnot m hm]
  rw [labelEditsFrom_append, labelEditsFrom_of_not_isInstruction doc hnot, List.filterMap_append,
    hnone, hcount, Nat.add_zero, List.filterMap_eq_flatMap_toList]
  simp [labelEditsFrom]

/-- A stretch, where `counter` instructions stand in front, and what becomes of it. -/
structure StretchLabelled (doc : Document) (here : Position) (counter : Nat) (s s' : List Piece) :
    Prop where
  row : ∀ tail, Row (s ++ tail) → Row (s' ++ tail)
  rewrites : Rewrites here (s.flatMap text) (s'.flatMap text)
    (labelEditsFrom doc counter (nodesAt here s))
  landmarks : ∀ there, ofNodes (nodesAt there s') =
    (ofNodes (nodesAt here s)).labelled (freshAt? doc counter) (label? doc)
  comments : comments s' = comments s

variable {uri : String} {t : Text}

/-- A stretch without a new label is redirected only. -/
theorem stretchLabelled_redirect {here : Position} (hpos : 0 ≤ here.character) {counter : Nat}
    {s : List Piece} (hs : Stretch s) (hwf : ∀ p ∈ s, p.WellFormed)
    (h : (ofNodes (nodesAt here s)).destinations = [] ∨ freshAt? (.ofText uri t) counter = none) :
    StretchLabelled (.ofText uri t) here counter s (redirect (label? (.ofText uri t)) s) := by
  have hf := @rewords_label? uri t
  refine ⟨fun tail hrow => @row_redirect _ hf [] s tail hs hrow, ?_, fun there => ?_,
    comments_redirect _ s⟩
  · rw [labelEditsFrom_of_stretch _ here hs]
    · exact rewrites_redirect hf hpos hs hwf
    · intro o ho hinstruction
      apply h.resolve_left
      rw [ofNodes_of_stretch here hs]
      exact List.ne_nil_of_mem (List.mem_map_of_mem (List.mem_filter.2 ⟨ho, hinstruction⟩))
  · rw [ofNodes_redirect hf here there hs hwf]
    refine Landmarks.ext ?_ rfl
    show _ = if _ then _ else _
    split
    · rfl
    · next hsome =>
      rw [h.resolve_left hsome]
      rfl

section glue

variable {counter : Nat} {u v : List Piece} (hu : LeadingLabels u) (hv : Stretch v)
  (hwf : ∀ p ∈ u ++ v, p.WellFormed) {first : Lexeme} {rest : List Lexeme}
  (hlexemes : v.filterMap lexeme? = first :: rest) (hcomment : first.isComment = false)
  (hlabel : first.isLabel = false) {label : Text}
  (hfresh : freshAt? (.ofText uri t) counter = some label)

include hu hv hwf hlexemes hcomment hlabel hfresh

/-- The edits put the new label behind the labels of the stretch. -/
theorem rewrites_glue {a b : Text} (ha : ∀ c ∈ a.getLast?, isBlank c = false)
    (ht : t = a ++ ((u ++ v).flatMap text ++ b)) :
    Rewrites (Position.origin.advance a) ((u ++ v).flatMap text)
      ((glue u label ++ .separator '\n' :: redirect (label? (.ofText uri t)) v).flatMap text)
      (labelEditsFrom (.ofText uri t) counter (nodesAt (Position.origin.advance a) (u ++ v))) := by
  have hf := @rewords_label? uri t
  have hpos := Position.character_origin_advance a
  have hpos' := Position.character_origin_advance (a ++ u.flatMap text)
  have hvwf : ∀ p ∈ v, p.WellFormed := fun p hp => hwf p (List.mem_append_right u hp)
  obtain ⟨labels, n, x, xs, hnodes, hn, htokens, hstart⟩ :=
    exists_nodesAt_of_leadingLabels hpos hu hv hlexemes hcomment hlabel
  rw [← Position.advance_append] at htokens
  have hline := lineStart_of_stretch uri (hu.isBlank_getLast? ha) hv hvwf htokens hstart b
  have hsplit : a ++ u.flatMap text ++ (v.flatMap text ++ b) = t := by
    rw [ht, List.flatMap_append]
    simp only [List.append_assoc]
  rw [hsplit] at hline
  -- The edits of the labels are none, so the others are those of what stands behind them.
  have hedits : labelEditsFrom (.ofText uri t) counter
      (nodesAt (Position.origin.advance a) (u ++ v)) =
      .insert (Position.origin.advance (a ++ u.flatMap text)) (label ++ [':', '\n']) ::
        (nodesAt (Position.origin.advance (a ++ u.flatMap text)) v).filterMap
          (redirection? (label? (.ofText uri t))) := by
    rw [hnodes, labelEditsFrom_concat, ← hnodes,
      filterMap_redirection? hf hpos (hu.stretch.append hv) hwf,
      redirections_append hu.stretch hu.isLabel, ← Position.advance_append,
      filterMap_redirection? hf hpos' hv hvwf, insertion?, if_pos hn, hfresh, hline]
    rfl
  have htext : (glue u label ++ .separator '\n' :: redirect (label? (.ofText uri t)) v).flatMap
      text = u.flatMap text ++ ((label ++ [':', '\n']) ++
        (redirect (label? (.ofText uri t)) v).flatMap text) := by
    rw [List.flatMap_append, hu.flatMap_text_glue]
    simp [text]
  rw [hedits, htext, List.flatMap_append, Position.advance_append]
  apply Rewrites.keep
  rw [← Position.advance_append]
  exact .insert _ (text_ne_nil_of_tokensAt hpos' hv hvwf htokens)
    (lt_start_of_redirections hf hpos' hv hvwf) (rewrites_redirect hf hpos' hv hvwf)

/-- The new label gives the stretch its name, glued to that of the last of its labels. -/
theorem landmarks_glue (here there : Position) :
    ofNodes (nodesAt there
        (glue u label ++ .separator '\n' :: redirect (label? (.ofText uri t)) v)) =
      (ofNodes (nodesAt here (u ++ v))).labelled (freshAt? (.ofText uri t) counter)
        (label? (.ofText uri t)) := by
  have hf := @rewords_label? uri t
  have hvwf : ∀ p ∈ v, p.WellFormed := fun p hp => hwf p (List.mem_append_right u hp)
  have hne : label ≠ [] := by
    obtain ⟨m, rfl⟩ := (newLabel_of_freshAt? hfresh).name
    exact List.cons_ne_nil _ _
  have hglue := hu.glue hne
  have hnames := ofNodes_append_labels there there hglue.stretch hglue.isLabel (v := [])
    (by simp [Stretch])
  obtain ⟨d, hd⟩ := exists_ofOutlines_instruction hcomment hlabel rest
  rw [← hlexemes] at hd
  have hinstruction (here : Position) : ofNodes (nodesAt here v) = ⟨[], [d]⟩ :=
    (ofNodes_of_stretch here hv).trans hd
  rw [List.append_nil, hu.names_glue] at hnames
  rw [nodesAt_append_separator, ofNodes_append, hnames,
    ofNodes_redirect hf .origin _ hv hvwf, hinstruction,
    ofNodes_append_labels _ .origin hu.stretch hu.isLabel hv, hinstruction, hfresh]
  refine Landmarks.ext ?_ rfl
  have hnone : ofNodes (nodesAt there []) = ⟨[], []⟩ := rfl
  simp [labelled, Landmarks.redirect, hnone]

/-- A stretch with a new label has it behind its labels, and all else below. -/
theorem stretchLabelled_glue {a b : Text} (ha : ∀ c ∈ a.getLast?, isBlank c = false)
    (ht : t = a ++ ((u ++ v).flatMap text ++ b)) :
    StretchLabelled (.ofText uri t) (Position.origin.advance a) counter (u ++ v)
      (glue u label ++ .separator '\n' :: redirect (label? (.ofText uri t)) v) := by
  refine ⟨fun tail hrow => ?_, ?_, ?_, ?_⟩
  · have hdeclarable := declarable_freshAt? counter label hfresh
    rw [List.append_assoc] at hrow
    rw [List.append_assoc, List.cons_append]
    apply hu.row_glue hdeclarable hrow
    exact @row_redirect _ rewords_label? [] v tail hv hrow.right
  · exact rewrites_glue hu hv hwf hlexemes hcomment hlabel hfresh ha ht
  · exact landmarks_glue hu hv hwf hlexemes hcomment hlabel hfresh _
  · have hbelow : comments (.separator '\n' :: redirect (label? (.ofText uri t)) v) = comments v :=
      comments_redirect _ v
    rw [comments_append, comments_append, hu.comments_glue, hbelow]

end glue

/-- Whatever a stretch holds, something becomes of it. -/
theorem exists_stretchLabelled {a b : Text} (ha : ∀ c ∈ a.getLast?, isBlank c = false)
    (counter : Nat) {s : List Piece} (hs : Stretch s) (hwf : ∀ p ∈ s, p.WellFormed)
    (ht : t = a ++ (s.flatMap text ++ b)) :
    ∃ s', StretchLabelled (.ofText uri t) (Position.origin.advance a) counter s s' := by
  have hpos := Position.character_origin_advance a
  by_cases hnone : (ofNodes (nodesAt (Position.origin.advance a) s)).destinations = []
  · exact ⟨_, stretchLabelled_redirect hpos hs hwf (.inl hnone)⟩
  cases hfresh : freshAt? (.ofText uri t) counter with
  | none => exact ⟨_, stretchLabelled_redirect hpos hs hwf (.inr hfresh)⟩
  | some label =>
    obtain ⟨u, v, first, rest, rfl, hu, hlexemes, hcomment, hlabel⟩ := exists_leadingLabels hs hnone
    exact ⟨_, stretchLabelled_glue hu hs.right hwf hlexemes hcomment hlabel hfresh ha ht⟩

/-! ### The edits of a text -/

/-- Pieces, where `counter` instructions stand in front, and what becomes of them. -/
structure TextLabelled (doc : Document) (here : Position) (counter : Nat) (ps qs : List Piece) :
    Prop where
  row : Row qs
  rewrites : Rewrites here (ps.flatMap text) (qs.flatMap text)
    (labelEditsFrom doc counter (nodesAt here ps))
  landmarks : ∀ there, ofNodes (nodesAt there qs) =
    labelledFrom (freshAt? doc) (label? doc) counter (ofStatements (statementsAt here [] ps))
  comments : comments qs = comments ps

/-- The pieces behind `a` are labelled stretch by stretch. -/
theorem exists_textLabelled {a : Text} (ha : ∀ c ∈ a.getLast?, isBlank c = false) (counter : Nat)
    {ps : List Piece} (hrow : Row ps) (ht : t = a ++ ps.flatMap text) :
    ∃ qs, TextLabelled (.ofText uri t) (Position.origin.advance a) counter ps qs := by
  -- Stretch by stretch: the counter moves on by the instructions of the stretch.
  induction ps using stretchInduction generalizing a counter with
  | last s hs =>
    obtain ⟨s', hs'⟩ := @exists_stretchLabelled uri t a [] ha counter s hs hrow.wellFormed
      (by rw [ht, List.append_nil])
    have hrow' := hs'.row [] (by rwa [List.append_nil])
    rw [List.append_nil] at hrow'
    refine ⟨s', hrow', hs'.rewrites, fun there => ?_, hs'.comments⟩
    have hlandmarks := labelledFrom_of_stretch (freshAt? (.ofText uri t)) (label? (.ofText uri t))
      counter (Position.origin.advance a) hs []
    rw [List.append_nil, ← hs'.landmarks there] at hlandmarks
    rw [hlandmarks]
    exact (append_nil _).symm
  | more s c rest hs ih =>
    have hrest : Row ([.separator c] ++ rest) := hrow.right
    have htext : t = a ++ (s.flatMap text ++ c :: rest.flatMap text) := by
      rw [ht, List.flatMap_append, List.flatMap_cons]
      rfl
    have hblank := isBlank_of_separator (hrow.wellFormed (.separator c) (by simp))
    obtain ⟨s', hs'⟩ := exists_stretchLabelled ha counter hs hrow.left.wellFormed htext
    obtain ⟨qs, hqs⟩ := ih rest (Nat.le_refl _) (a := a ++ (s.flatMap text ++ [c]))
      (by simpa using hblank)
      (counter + (nodesAt (Position.origin.advance a) s).countP (·.isInstruction)) hrest.right
      (by rw [htext]; simp)
    have hseparator : Row (.separator c :: qs) :=
      hqs.row.cons (hrow.wellFormed _ (by simp)) fun q _ => by cases q <;> rfl
    refine ⟨s' ++ .separator c :: qs, hs'.row _ (hrow.left.append hseparator ?_), ?_,
      fun there => ?_, ?_⟩
    · rintro p hp q ⟨⟩
      exact (List.isChain_append.1 hrow.chain).2.2 p hp _ rfl
    · have hlater := hqs.rewrites
      rw [Position.advance_append, Position.advance_append _ (s.flatMap text)] at hlater
      rw [nodesAt_append_separator, labelEditsFrom_append, List.flatMap_append,
        List.flatMap_append, Position.advance_append _ (s.flatMap text)]
      exact hs'.rewrites.append (.keep [c] hlater)
    · rw [nodesAt_append_separator, ofNodes_append, hs'.landmarks, hqs.landmarks,
        statementsAt_append_separator, ofStatements_append, Position.advance_append]
      exact (labelledFrom_of_stretch _ _ counter _ hs _).symm
    · have hlater : comments (.separator c :: qs) = comments (.separator c :: rest) := hqs.comments
      rw [comments_append, comments_append, hs'.comments, hlater]

end Piece

namespace Jumps

/-- The edits that label a text can be made, and they label it stretch by stretch. -/
theorem exists_applyAll_textLabelled {uri : String} {t : Text} {c : Conversion}
    (h : toLabels (.ofText uri t) = .ok c) :
    ∃ qs, Edit.applyAll (.ofText uri t) c.edits = .ok (qs.flatMap Piece.text) ∧
      Piece.TextLabelled (.ofText uri t) .origin 0 (Piece.ofText t) qs := by
  obtain ⟨qs, hqs⟩ := @Piece.exists_textLabelled uri t [] (by simp) 0 (Piece.ofText t)
    (Piece.row_ofText t) (Piece.flatMap_text_ofText t).symm
  have hrewrites := hqs.rewrites
  rw [Piece.flatMap_text_ofText] at hrewrites
  have hperm := edits_toLabels_perm uri t h
  rw [Node.ofText_eq] at hperm
  exact ⟨qs, Edit.applyAll_of_rewrites uri hrewrites hperm, hqs⟩

/-- The edits that label a text can be made, and what they leave of its landmarks is known statement
by statement. -/
theorem exists_applyAll_landmarks {uri : String} {t : Text} {c : Conversion}
    (h : toLabels (.ofText uri t) = .ok c) :
    ∃ out, Edit.applyAll (.ofText uri t) c.edits = .ok out ∧
      Landmarks.ofNodes (Node.ofText out) =
        Landmarks.labelledFrom (freshAt? (.ofText uri t)) (label? (.ofText uri t)) 0
          (Landmarks.ofStatements (Statement.ofText t)) := by
  obtain ⟨qs, happlied, hqs⟩ := exists_applyAll_textLabelled h
  refine ⟨_, happlied, ?_⟩
  rw [Node.ofText_eq, Piece.ofText_flatMap_text hqs.row, Statement.ofText_eq]
  exact hqs.landmarks .origin

/-- Labelling a text changes no comment. -/
theorem exists_applyAll_comments {uri : String} {t : Text} {c : Conversion}
    (h : toLabels (.ofText uri t) = .ok c) :
    ∃ out, Edit.applyAll (.ofText uri t) c.edits = .ok out ∧
      (Document.ofText uri out).comments = (Document.ofText uri t).comments := by
  obtain ⟨qs, happlied, hqs⟩ := exists_applyAll_textLabelled h
  refine ⟨_, happlied, ?_⟩
  rw [Piece.comments_ofText, Piece.ofText_flatMap_text hqs.row, Piece.comments_ofText]
  exact hqs.comments

end Jumps

end LogicAsm
