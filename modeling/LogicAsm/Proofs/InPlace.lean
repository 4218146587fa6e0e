import LogicAsm.Command.Run
import LogicAsm.Proofs.Replacement
import LogicAsm.Proofs.SourceFaults
import LogicAsm.Proofs.Stores

/-!
# Rewriting files in place

A command that rewrites files in place takes them from left to right.  What it does to one file is a
function of the bytes that the file holds then (`rewriteBytes`): it is read, and it is written if
there is a new text, or the command ends before anything is written.  So a run rewrites the files in
front of the first one that fails, and no others (`RunsInPlace`).

One step of a command does this to one file (`RewritesFile`), for the conversion of jumps
(`rewritesFile_jumpsFile`) as for the layout (`rewritesFile_formatFile`), and from this it follows
for whole runs (`RewritesFile.foldlM`).
-/

namespace LogicAsm

/-! ### What a run does to files -/

/-- What becomes of the bytes of a file whose text is rewritten: those of the new text, or the same
bytes if there is no new text. -/
def rewriteBytes (rewrite : Text → Except Fault (Option Text)) (bytes : Text.Bytes) :
    Except Fault Text.Bytes := do
  let t ← FileStore.textOf bytes
  let new ← rewrite t
  return (new.map Text.Utf8.encode).getD bytes

/-- The files with the given names are rewritten one after the other, each as it stands then. -/
inductive Rewritten (rewrite : Text → Except Fault (Option Text)) :
    (String → Option Text.Bytes) → List String → (String → Option Text.Bytes) → Prop where
  | nil (held : String → Option Text.Bytes) : Rewritten rewrite held [] held
  | cons {held after : String → Option Text.Bytes} {name : String} {names : List String}
      {bytes new : Text.Bytes} (hbytes : held name = some bytes)
      (hnew : rewriteBytes rewrite bytes = .ok new)
      (rest : Rewritten rewrite (Function.update held name (some new)) names after) :
      Rewritten rewrite held (name :: names) after

/-- All files are rewritten, or those in front of the first one that fails: that one stays as it
stands then, and so do all that were not rewritten before. -/
def RunsInPlace (rewrite : Text → Except Fault (Option Text)) (exits : Fault → Nat → Prop)
    (held : String → Option Text.Bytes) (names : List String)
    (after : String → Option Text.Bytes) (exitCode : Nat) : Prop :=
  ∃ done rest, names = done ++ rest ∧ Rewritten rewrite held done after ∧
    (∀ name, name ∉ done → after name = held name) ∧
    (rest = [] ∧ exitCode = 0 ∨
      ∃ name later bytes fault, rest = name :: later ∧ after name = some bytes ∧
        rewriteBytes rewrite bytes = .error fault ∧ exits fault exitCode)

/-- Files that are not rewritten keep what they hold. -/
theorem Rewritten.eq_of_not_mem {rewrite : Text → Except Fault (Option Text)}
    {held after : String → Option Text.Bytes} {names : List String}
    (h : Rewritten rewrite held names after) {name : String} (hname : name ∉ names) :
    after name = held name := by
  induction h with
  | nil => rfl
  | cons _ _ _ ih =>
    obtain ⟨hne, hrest⟩ := not_or.1 (List.mem_cons.not.1 hname)
    rw [ih hrest, Function.update_of_ne hne]

/-! ### One file -/

namespace Session

@[simp] theorem files_print (s : Session) (text : String) : (s.print text).files = s.files := rfl

@[simp] theorem files_say (s : Session) (line : String) : (s.say line).files = s.files := rfl

@[simp] theorem files_debug (s : Session) (record : String) : (s.debug record).files = s.files := by
  unfold debug
  split <;> rfl

@[simp] theorem files_noteDocument (s : Session) (doc : Document) :
    (s.noteDocument doc).files = s.files := by
  simp [noteDocument]

@[simp] theorem files_fail (s : Session) (f : Fault) : (s.fail f).files = s.files := rfl

theorem files_foldl_warn (s : Session) (records : List String) :
    (records.foldl warn s).files = s.files := by
  induction records generalizing s with
  | nil => rfl
  | cons record records ih => exact ih (s.warn record)

section

variable {s : Session} {path name : String} (hpath : path ≠ Arguments.standardInput)
  (hname : s.files.resolve path = .ok name) {bytes : Text.Bytes}
  (hbytes : s.files.contents name = some bytes)

include hpath hname hbytes

theorem read_eq : s.read path = (FileStore.textOf bytes).map fun t => (t, s) := by
  have hlookup : s.files.lookup name = some bytes := hbytes
  rw [read, if_neg hpath, FileStore.read, FileStore.bytesOf, hname]
  simp only [Except.map, hlookup]
  rfl

/-- A file is opened if its bytes can be read. -/
theorem openDocument_of_ok {t : Text} (ht : FileStore.textOf bytes = .ok t) :
    s.openDocument path = .ok (.ofText path t, s.noteDocument (.ofText path t)) := by
  rw [openDocument, read_eq hpath hname hbytes, ht]
  rfl

theorem openDocument_of_error {fault : Fault} (h : FileStore.textOf bytes = .error fault) :
    s.openDocument path = .error ⟨s, fault⟩ := by
  rw [openDocument, read_eq hpath hname hbytes, h]
  rfl

end

end Session

/-- A step that rewrites one file of a session, which is part of a larger state.  A failure leaves
all files as they are. -/
structure RewritesFile {σ : Type} (state : Session → σ) (step : σ → String → Except Failure σ)
    (rewrite : Text → Except Fault (Option Text)) : Prop where
  ok : ∀ {s : Session} {path name : String} {bytes new : Text.Bytes},
    path ≠ Arguments.standardInput → s.files.resolve path = .ok name →
    s.files.contents name = some bytes → rewriteBytes rewrite bytes = .ok new →
    ∃ s', step (state s) path = .ok (state s') ∧ s'.files.names = s.files.names ∧
      s'.files.contents = Function.update s.files.contents name (some new)
  error : ∀ {s : Session} {path name : String} {bytes : Text.Bytes} {fault : Fault},
    path ≠ Arguments.standardInput → s.files.resolve path = .ok name →
    s.files.contents name = some bytes → rewriteBytes rewrite bytes = .error fault →
    ∃ s', step (state s) path = .error ⟨s', fault⟩ ∧ s'.files = s.files

theorem FileStore.rewrites_kept {files files' : FileStore} (h : files' = files) {name : String}
    {bytes : Text.Bytes} (hbytes : files.contents name = some bytes) :
    files'.names = files.names ∧
      files'.contents = Function.update files.contents name (some bytes) := by
  subst h
  exact ⟨rfl, by rw [← hbytes, Function.update_eq_self]⟩

theorem FileStore.rewrites_written {files files' : FileStore} {path name : String} {t : Text}
    (h : files' = files.write path t) (hname : files.resolve path = .ok name) :
    files'.names = files.names ∧
      files'.contents = Function.update files.contents name (some (Text.Utf8.encode t)) := by
  subst h
  exact ⟨names_write hname t, contents_write hname t⟩

/-! ### Whole runs -/

/-- A run of steps that rewrite one file each rewrites files in place. -/
theorem RewritesFile.foldlM {σ : Type} {state : Session → σ}
    {step : σ → String → Except Failure σ} {rewrite : Text → Except Fault (Option Text)}
    (h : RewritesFile state step rewrite) {s : Session} {paths names : List String}
    (hnames : List.Forall₂ (fun path name => path ≠ Arguments.standardInput ∧
      s.files.resolve path = .ok name) paths names) :
    ∃ done rest s', names = done ++ rest ∧
      Rewritten rewrite s.files.contents done s'.files.contents ∧
      (rest = [] ∧ paths.foldlM step (state s) = .ok (state s') ∨
        ∃ name later bytes fault, rest = name :: later ∧ s'.files.contents name = some bytes ∧
          rewriteBytes rewrite bytes = .error fault ∧
          paths.foldlM step (state s) = .error ⟨s', fault⟩) := by
  induction paths generalizing s names with
  | nil =>
    obtain rfl := List.forall₂_nil_left_iff.1 hnames
    exact ⟨[], [], s, rfl, .nil _, .inl ⟨rfl, rfl⟩⟩
  | cons path paths ih =>
    obtain ⟨name, names, ⟨hpath, hname⟩, hrest, rfl⟩ := List.forall₂_cons_left_iff.1 hnames
    obtain ⟨bytes, hbytes⟩ := FileStore.exists_contents_of_resolve hname
    rw [List.foldlM_cons]
    cases hnew : rewriteBytes rewrite bytes with
    | error fault =>
      obtain ⟨s', hstep, hfiles⟩ := h.error hpath hname hbytes hnew
      rw [hstep]
      exact ⟨[], name :: names, s', rfl, hfiles ▸ .nil _,
        .inr ⟨name, names, bytes, fault, rfl, hfiles ▸ hbytes, hnew, rfl⟩⟩
    | ok new =>
      obtain ⟨s₁, hstep, hkept, hcontents⟩ := h.ok hpath hname hbytes hnew
      -- The names are the same, so that the other paths lead to where they led before.
      have hnames₁ : List.Forall₂ (fun path name => path ≠ Arguments.standardInput ∧
          s₁.files.resolve path = .ok name) paths names :=
        hrest.imp fun other found hother =>
          ⟨hother.1, (FileStore.resolve_congr hkept other).trans hother.2⟩
      obtain ⟨done, rest, s', rfl, hdone, hend⟩ := ih hnames₁
      refine ⟨name :: done, rest, s', rfl, .cons hbytes hnew (hcontents ▸ hdone), ?_⟩
      rw [hstep]
      exact hend

/-! ### The commands -/

/-- Documents of one text have the same edits. -/
theorem Jumps.convert_ofText (form : Form) (uri uri' : String) (t : Text) :
    convert form (.ofText uri t) = convert form (.ofText uri' t) := by
  cases form with
  | labels => rfl
  | numbers => rfl

theorem Edit.applyFrom_ofText (uri uri' : String) (t : Text) (cursor : Nat) (previous : Range)
    (edits : List Edit) : applyFrom (.ofText uri t) cursor previous edits =
      applyFrom (.ofText uri' t) cursor previous edits := by
  induction edits generalizing cursor previous with
  | nil => rfl
  | cons e es ih =>
    rw [applyFrom, applyFrom, ih]
    rfl

theorem Edit.applyAll_ofText (uri uri' : String) (t : Text) (edits : List Edit) :
    applyAll (.ofText uri t) edits = applyAll (.ofText uri' t) edits :=
  applyFrom_ofText uri uri' t 0 _ (sort edits)

namespace Command

/-- The text with its jumps converted, if there is anything to convert. -/
def converted (form : Jumps.Form) (t : Text) : Except Fault (Option Text) := do
  let conversion ← Jumps.convert form (.ofText "" t)
  let out ← Edit.applyAll (.ofText "" t) conversion.edits
  return if conversion.edits = [] then none else some out

/-- The text in canonical layout, if it is not in that already. -/
def laidOut (options : Layout.Options) (t : Text) : Except Fault (Option Text) := do
  let out ← Layout.formatText options t
  return if out = t then none else some out

theorem rewritesFile_jumpsFile {request : JumpsRequest} (h : request.inPlace = true) :
    RewritesFile id (jumpsFile request) (converted request.form) := by
  constructor
  · intro s path name bytes new hpath hname hbytes hnew
    obtain ⟨t, ht, hnew⟩ := bind_eq_ok.1 hnew
    obtain ⟨result, hresult, ⟨⟩⟩ := bind_eq_ok.1 hnew
    obtain ⟨conversion, hconversion, hresult⟩ := bind_eq_ok.1 hresult
    obtain ⟨out, hout, ⟨⟩⟩ := bind_eq_ok.1 hresult
    rw [Jumps.convert_ofText _ _ path] at hconversion
    rw [Edit.applyAll_ofText _ path] at hout
    simp only [id_eq, jumpsFile, Session.openDocument_of_ok hpath hname hbytes ht, bind,
      Except.bind, within, hconversion, hout, h, if_true, List.isEmpty_iff]
    -- Without edits the file is not written, and keeps its bytes as they are.
    by_cases hempty : conversion.edits = []
    · rw [if_pos hempty, if_pos hempty]
      refine ⟨_, rfl, FileStore.rewrites_kept ?_ hbytes⟩
      simp
    · rw [if_neg hempty, if_neg hempty]
      refine ⟨_, rfl, FileStore.rewrites_written ?_ hname⟩
      simp [Session.write]
  · intro s path name bytes fault hpath hname hbytes hfault
    rcases bind_eq_error hfault with hread | ⟨t, ht, hfault⟩
    · rw [id, jumpsFile, Session.openDocument_of_error hpath hname hbytes hread]
      exact ⟨s, rfl, rfl⟩
    rcases bind_eq_error hfault with hfault | ⟨_, -, ⟨⟩⟩
    rw [id, jumpsFile, Session.openDocument_of_ok hpath hname hbytes ht]
    rcases bind_eq_error hfault with hconvert | ⟨conversion, hconversion, hfault⟩
    · rw [Jumps.convert_ofText _ _ path] at hconvert
      simp only [bind, Except.bind, within, hconvert]
      exact ⟨_, rfl, by simp⟩
    · rcases bind_eq_error hfault with happly | ⟨_, -, ⟨⟩⟩
      rw [Jumps.convert_ofText _ _ path] at hconversion
      rw [Edit.applyAll_ofText _ path] at happly
      simp only [bind, Except.bind, within, hconversion, happly]
      exact ⟨_, rfl, by simp⟩

theorem rewritesFile_formatFile {request : FormatRequest} (h : request.inPlace = true)
    (hcheck : request.check = false) (options : Layout.Options) :
    RewritesFile (·, 0) (formatFile request options) (laidOut options) := by
  have hformat (path : String) (t : Text) :
      Layout.format options (Document.ofText path t).nodes = Layout.formatText options t := rfl
  constructor
  · intro s path name bytes new hpath hname hbytes hnew
    obtain ⟨t, ht, hnew⟩ := bind_eq_ok.1 hnew
    obtain ⟨result, hresult, ⟨⟩⟩ := bind_eq_ok.1 hnew
    obtain ⟨out, hout, ⟨⟩⟩ := bind_eq_ok.1 hresult
    have htext : (Document.ofText path t).text = t := rfl
    simp only [formatFile, Session.openDocument_of_ok hpath hname hbytes ht, bind, Except.bind,
      within, hformat, hout, h, hcheck, htext, bne_iff_ne, ite_not, if_true, Bool.false_eq_true,
      if_false]
    -- A text laid out already is not written again.
    by_cases hsame : out = t
    · rw [if_pos hsame, if_pos hsame]
      refine ⟨_, rfl, FileStore.rewrites_kept ?_ hbytes⟩
      simp
    · rw [if_neg hsame, if_neg hsame]
      refine ⟨_, rfl, FileStore.rewrites_written ?_ hname⟩
      simp [Session.write]
  · intro s path name bytes fault hpath hname hbytes hfault
    rcases bind_eq_error hfault with hread | ⟨t, ht, hfault⟩
    · simp only [formatFile, Session.openDocument_of_error hpath hname hbytes hread]
      exact ⟨s, rfl, rfl⟩
    rcases bind_eq_error hfault with hfault | ⟨_, -, ⟨⟩⟩
    rcases bind_eq_error hfault with hlayout | ⟨_, -, ⟨⟩⟩
    simp only [formatFile, Session.openDocument_of_ok hpath hname hbytes ht, bind, Except.bind,
      within, hformat, hlayout]
    exact ⟨_, rfl, by simp⟩

/-! ### How runs end -/

/-- The faults that can end a conversion of jumps, with the exit codes of the run. -/
inductive ConversionExits : Fault → Nat → Prop where
  | overlappingEdits (first second : Range) : ConversionExits (.overlappingEdits first second) 1
  | notUtf8 (fault : Text.Utf8.Fault) : ConversionExits (.notUtf8 fault) 2
  | numberTooLarge : ConversionExits .numberTooLarge 3

/-- The faults that can end a layout, with the exit codes of the run. -/
inductive LayoutExits : Fault → Nat → Prop where
  | notUtf8 (fault : Text.Utf8.Fault) : LayoutExits (.notUtf8 fault) 2
  | countTooLarge : LayoutExits .countTooLarge 3

theorem eq_notUtf8_of_textOf {bytes : Text.Bytes} {fault : Fault}
    (h : FileStore.textOf bytes = .error fault) : ∃ cause, fault = .notUtf8 cause := by
  unfold FileStore.textOf at h
  split at h
  · cases h
  · exact ⟨_, (Except.error.inj h).symm⟩

/-- A file is not rewritten because of its bytes or because of its text. -/
theorem cases_of_rewriteBytes {rewrite : Text → Except Fault (Option Text)} {bytes : Text.Bytes}
    {fault : Fault} (h : rewriteBytes rewrite bytes = .error fault) :
    (∃ cause, fault = .notUtf8 cause) ∨ ∃ t, rewrite t = .error fault := by
  rcases bind_eq_error h with hread | ⟨t, -, h⟩
  · exact .inl (eq_notUtf8_of_textOf hread)
  rcases bind_eq_error h with hrewrite | ⟨_, -, ⟨⟩⟩
  exact .inr ⟨t, hrewrite⟩

theorem conversionExits_of_rewriteBytes {form : Jumps.Form} {bytes : Text.Bytes} {fault : Fault}
    (h : rewriteBytes (converted form) bytes = .error fault) :
    ConversionExits fault fault.exitCode := by
  rcases cases_of_rewriteBytes h with ⟨cause, rfl⟩ | ⟨t, h⟩
  · exact .notUtf8 cause
  rcases bind_eq_error h with hconvert | ⟨conversion, -, h⟩
  · cases form with
    | labels =>
      obtain ⟨-, rfl⟩ := (Jumps.failsIff_toLabels "" t fault).1 hconvert
      exact .numberTooLarge
    | numbers => cases hconvert
  rcases bind_eq_error h with happly | ⟨_, -, ⟨⟩⟩
  obtain ⟨first, second, rfl⟩ := Edit.eq_overlappingEdits_of_applyFrom happly
  exact .overlappingEdits first second

theorem layoutExits_of_rewriteBytes {options : Layout.Options} {bytes : Text.Bytes} {fault : Fault}
    (h : rewriteBytes (laidOut options) bytes = .error fault) :
    LayoutExits fault fault.exitCode := by
  rcases cases_of_rewriteBytes h with ⟨cause, rfl⟩ | ⟨t, h⟩
  · exact .notUtf8 cause
  rcases bind_eq_error h with hlayout | ⟨_, -, ⟨⟩⟩
  have hcheck := map_eq_error hlayout
  unfold Layout.Options.check at hcheck
  split at hcheck
  · obtain rfl := Count.eq_of_check_eq_error (map_eq_error hcheck)
    exact .countTooLarge
  · cases hcheck

/-! ### Command lines -/

theorem exists_resolve_of_requireFiles {store : FileStore} {files : List String}
    (h : Arguments.requireFiles store files = .ok ()) (hinput : Arguments.standardInput ∉ files) :
    ∃ names, List.Forall₂ (fun path name => path ≠ Arguments.standardInput ∧
      store.resolve path = .ok name) files names := by
  unfold Arguments.requireFiles at h
  split at h
  · cases h
  clear * - h hinput
  induction files with
  | nil => exact ⟨[], .nil⟩
  | cons path files ih =>
    obtain ⟨hne, hinput⟩ := not_or.1 (List.mem_cons.not.1 hinput)
    obtain ⟨_, hfile, hrest⟩ := bind_eq_ok.1 h
    obtain ⟨names, hnames⟩ := ih hinput hrest
    rw [Arguments.requireFile, if_neg (Ne.symm hne)] at hfile
    split at hfile
    · next name hname => exact ⟨name :: names, .cons ⟨Ne.symm hne, hname⟩ hnames⟩
    · cases hfile
    · cases hfile

/-- The files that a command names. -/
def files : Command → List String
  | .format _ _ files => files
  | .check _ files => files
  | .jumps _ files => files

/-- A command that is run names files that are there. -/
theorem requireFiles_of_invocation {store : FileStore} {args : List String} {verbose : Bool}
    {command : Command} (h : Arguments.invocation store args = .ok (.command verbose command)) :
    Arguments.requireFiles store command.files = .ok () := by
  obtain ⟨⟨shared, rest⟩, -, h⟩ := bind_eq_ok.1 h
  dsimp only at h
  split at h
  · cases h
  split at h
  · cases h
  split at h
  · obtain ⟨⟨again, _⟩, -, h⟩ := bind_eq_ok.1 h
    dsimp only at h
    split at h <;> cases h
  obtain ⟨command, hcommand, ⟨⟩⟩ := bind_eq_ok.1 h
  -- Each command looks its files up last, so an accepted one has found them all.
  unfold Arguments.command at hcommand
  split at hcommand
  · obtain ⟨⟨request, names⟩, -, hcommand⟩ := bind_eq_ok.1 hcommand
    obtain ⟨tabSize, -, hcommand⟩ := bind_eq_ok.1 hcommand
    obtain ⟨_, hfiles, ⟨⟩⟩ := bind_eq_ok.1 hcommand
    exact hfiles
  split at hcommand
  · obtain ⟨⟨request, names⟩, -, hcommand⟩ := bind_eq_ok.1 hcommand
    obtain ⟨_, hfiles, ⟨⟩⟩ := bind_eq_ok.1 hcommand
    exact hfiles
  split at hcommand
  · obtain ⟨⟨request, names⟩, -, hcommand⟩ := bind_eq_ok.1 hcommand
    obtain ⟨_, hfiles, ⟨⟩⟩ := bind_eq_ok.1 hcommand
    exact hfiles
  · cases hcommand

theorem refuseStandardInput_of_not_mem {files : List String} (h : Arguments.standardInput ∉ files)
    (inPlace : Bool) : refuseStandardInput inPlace files = .ok () := by
  have hnot : files.contains Arguments.standardInput = false := by simpa using h
  rw [refuseStandardInput, hnot, Bool.and_false]
  rfl

/-- The session that a command starts with. -/
def startOf (world : World) (verbose : Bool) : Session :=
  (Settings.ofEnvironment world.environment).2.foldl Session.warn
    { verbose, files := world.files, input := world.input }

theorem files_startOf (world : World) (verbose : Bool) :
    (startOf world verbose).files = world.files :=
  Session.files_foldl_warn _ _

section

variable {world : World} {verbose : Bool} {command : Command}
  (h : Arguments.invocation world.files world.arguments = .ok (.command verbose command))

include h

theorem run_of_ok {exitCode : Nat} {s : Session}
    (hrun : command.runIn (Settings.ofEnvironment world.environment).1 (startOf world verbose) =
      .ok (exitCode, s)) : run world = .done exitCode s := by
  rw [startOf] at hrun
  rw [run, h]
  simp only [hrun]

theorem run_of_error {s : Session} {fault : Fault}
    (hrun : command.runIn (Settings.ofEnvironment world.environment).1 (startOf world verbose) =
      .error ⟨s, fault⟩) : run world = .done fault.exitCode (s.fail fault) := by
  rw [startOf] at hrun
  rw [run, h]
  simp only [hrun]

/-- A command that takes its files step by step leaves them as these steps do. -/
theorem run_in_place {σ : Type} {state : Session → σ} {step : σ → String → Except Failure σ}
    {rewrite : Text → Except Fault (Option Text)} (hstep : RewritesFile state step rewrite)
    {exits : Fault → Nat → Prop} (hexits : ∀ {bytes fault},
      rewriteBytes rewrite bytes = .error fault → exits fault fault.exitCode)
    (hinput : Arguments.standardInput ∉ command.files)
    (hok : ∀ s', command.files.foldlM step (state (startOf world verbose)) = .ok (state s') →
      command.runIn (Settings.ofEnvironment world.environment).1 (startOf world verbose) =
        .ok (0, s'))
    (herror : ∀ failure, command.files.foldlM step (state (startOf world verbose)) =
        .error failure →
      command.runIn (Settings.ofEnvironment world.environment).1 (startOf world verbose) =
        .error failure) :
    ∃ names exitCode session,
      List.Forall₂ (fun path name => world.files.resolve path = .ok name) command.files names ∧
      run world = .done exitCode session ∧
      RunsInPlace rewrite exits world.files.contents names session.files.contents exitCode := by
  obtain ⟨names, hnames⟩ := exists_resolve_of_requireFiles (requireFiles_of_invocation h) hinput
  have hpaths := hnames.imp fun _ _ hpath => hpath.2
  rw [← files_startOf world verbose] at hnames ⊢
  obtain ⟨done, rest, s', hsplit, hdone, hend⟩ := hstep.foldlM hnames
  have hothers := fun name (hname : name ∉ done) => hdone.eq_of_not_mem hname
  -- Every file done, or the first one that fails with those behind it left alone.
  rcases hend with ⟨hrest, hfold⟩ | ⟨name, later, bytes, fault, hrest, hbytes, hfault, hfold⟩
  · exact ⟨names, 0, s', files_startOf world verbose ▸ hpaths, run_of_ok h (hok s' hfold), done,
      rest, hsplit, hdone, hothers, .inl ⟨hrest, rfl⟩⟩
  · exact ⟨names, fault.exitCode, s'.fail fault, files_startOf world verbose ▸ hpaths,
      run_of_error h (herror _ hfold), done, rest, hsplit, hdone, hothers,
      .inr ⟨name, later, bytes, fault, hrest, hbytes, hfault, hexits hfault⟩⟩

end

/-- A run that rewrites files in place, by converting jumps or by the layout, takes the files from
left to right up to the first one that cannot be read or rewritten.  Those in front of it hold the
bytes of their new texts, or the bytes that they held if there is nothing to rewrite; that one and
all others hold what they held.  The exit code is 0, or it says what went wrong. -/
theorem in_place_all_or_nothing (world : World) (verbose : Bool) :
    (∀ request files,
      Arguments.invocation world.files world.arguments =
        .ok (.command verbose (.jumps request files)) →
      request.inPlace = true → Arguments.standardInput ∉ files →
      ∃ names exitCode session,
        List.Forall₂ (fun path name => world.files.resolve path = .ok name) files names ∧
        run world = .done exitCode session ∧
        RunsInPlace (converted request.form) ConversionExits world.files.contents names
          session.files.contents exitCode) ∧
    ∀ request tabSize files settings,
      Arguments.invocation world.files world.arguments =
        .ok (.command verbose (.format request tabSize files)) →
      request.inPlace = true → request.check = false → Arguments.standardInput ∉ files →
      (formatSettings (Settings.ofEnvironment world.environment).1 request tabSize).validate =
        .ok settings →
      ∃ names exitCode session,
        List.Forall₂ (fun path name => world.files.resolve path = .ok name) files names ∧
        run world = .done exitCode session ∧
        RunsInPlace (laidOut (.ofSettings settings)) LayoutExits world.files.contents names
          session.files.contents exitCode := by
  refine ⟨fun request paths hinvocation hinPlace hinput => ?_,
    fun request tabSize paths settings hinvocation hinPlace hcheck hinput hsettings => ?_⟩
  · apply run_in_place hinvocation (rewritesFile_jumpsFile hinPlace)
      conversionExits_of_rewriteBytes hinput
    · intro s' hfold
      rw [files, id, id] at hfold
      simp only [runIn, runJumps, refuseStandardInput_of_not_mem hinput, within, bind, Except.bind,
        hfold]
      rfl
    · intro failure hfold
      rw [files, id] at hfold
      simp only [runIn, runJumps, refuseStandardInput_of_not_mem hinput, within, bind, Except.bind,
        hfold]
  · apply run_in_place hinvocation (rewritesFile_formatFile hinPlace hcheck _)
      layoutExits_of_rewriteBytes hinput
    · intro s' hfold
      rw [files] at hfold
      simp only [runIn, runFormat, refuseStandardInput_of_not_mem hinput, hsettings, within, bind,
        Except.bind, hfold]
      rfl
    · intro failure hfold
      rw [files] at hfold
      simp only [runIn, runFormat, refuseStandardInput_of_not_mem hinput, hsettings, within, bind,
        Except.bind, hfold]

/-- Jumps of a file that is named twice, of one that is not UTF-8, and of one behind that. -/
def conversionWorld : World where
  arguments := ["jumps", "-i", "a", "./a", "b", "c"]
  environment := []
  input := []
  files := [("a", Text.Utf8.encode "jump 0 always".toList), ("b", [255]),
    ("c", Text.Utf8.encode "jump 0 always".toList)]

/-- The layout of a file in canonical layout but for its line ends, and of one that is not. -/
def layoutWorld : World where
  arguments := ["format", "-i", "a", "b"]
  environment := []
  input := []
  files := [("a", Text.Utf8.encode "print x\r\n".toList), ("b", Text.Utf8.encode "print  x".toList)]

/-- What a run leaves: its exit code and its files. -/
def left? : Outcome → Option (Nat × FileStore)
  | .refused _ => none
  | .done exitCode session => some (exitCode, session.files)

theorem in_place_all_or_nothing_both :
    (∃ session, run conversionWorld = .done 2 session ∧
      session.files = [("a", Text.Utf8.encode "label_0:\njump label_0 always".toList), ("b", [255]),
        ("c", Text.Utf8.encode "jump 0 always".toList)] ∧
      RunsInPlace (converted .labels) ConversionExits conversionWorld.files.contents
        ["a", "a", "b", "c"] session.files.contents 2) ∧
    ∃ session, run layoutWorld = .done 0 session ∧
      session.files = [("a", Text.Utf8.encode "print x\r\n".toList),
        ("b", Text.Utf8.encode "print x\n".toList)] ∧
      RunsInPlace (laidOut (.ofSettings {})) LayoutExits layoutWorld.files.contents ["a", "b"]
        session.files.contents 0 := by
  obtain ⟨hconversion, -⟩ := in_place_all_or_nothing conversionWorld false
  obtain ⟨-, hlayout⟩ := in_place_all_or_nothing layoutWorld false
  constructor
  · obtain ⟨names, exitCode, session, hnames, hrun, hend⟩ :=
      hconversion ⟨.labels, true⟩ ["a", "./a", "b", "c"] rfl rfl (by decide)
    have hresolved : ["a", "./a", "b", "c"].mapM conversionWorld.files.resolve =
        .ok ["a", "a", "b", "c"] := rfl
    have hleft : left? (run conversionWorld) = some (2,
        [("a", Text.Utf8.encode "label_0:\njump label_0 always".toList), ("b", [255]),
          ("c", Text.Utf8.encode "jump 0 always".toList)]) := by
      decide +kernel
    obtain rfl := Except.ok.inj ((mapM_eq_ok_iff.2 hnames).symm.trans hresolved)
    rw [hrun, left?, Option.some.injEq, Prod.mk.injEq] at hleft
    obtain ⟨rfl, hfiles⟩ := hleft
    exact ⟨session, hrun, hfiles, hend⟩
  · obtain ⟨names, exitCode, session, hnames, hrun, hend⟩ :=
      hlayout { inPlace := true } none ["a", "b"] {} rfl rfl rfl (by decide) rfl
    have hresolved : ["a", "b"].mapM layoutWorld.files.resolve = .ok ["a", "b"] := rfl
    have hleft : left? (run layoutWorld) = some (0, [("a", Text.Utf8.encode "print x\r\n".toList),
        ("b", Text.Utf8.encode "print x\n".toList)]) := by
      decide +kernel
    obtain rfl := Except.ok.inj ((mapM_eq_ok_iff.2 hnames).symm.trans hresolved)
    rw [hrun, left?, Option.some.injEq, Prod.mk.injEq] at hleft
    obtain ⟨rfl, hfiles⟩ := hleft
    exact ⟨session, hrun, hfiles, hend⟩

end Command

end LogicAsm
