import LogicAsm.FileStore
import Mathlib.Logic.Function.Basic

/-!
# File stores as maps

A store is read as a map from names to bytes (`FileStore.contents`).  Where a path leads to depends
on the names alone (`resolve_congr`), and it leads to one of them (`exists_contents_of_resolve`).
Writing to such a path keeps the names and changes what that one name holds (`contents_write`).
-/

namespace LogicAsm.FileStore

/-- What a store holds, by name. -/
def contents (files : FileStore) : String → Option Text.Bytes := fun name => files.lookup name

/-- The names of a store. -/
def names (files : FileStore) : List String := files.map Prod.fst

theorem isSome_contents_iff {files : FileStore} {name : String} :
    (files.contents name).isSome = true ↔ name ∈ files.names := by
  induction files with
  | nil => simp [contents, names]
  | cons file files ih =>
    rw [contents] at ih ⊢
    rw [List.lookup_cons, names, List.map_cons, List.mem_cons]
    cases hsame : name == file.1 with
    | true => exact iff_of_true rfl (.inl (beq_iff_eq.1 hsame))
    | false => exact ih.trans (or_iff_right (ne_of_beq_false hsame)).symm

/-! ### Paths -/

theorem find?_names (files : FileStore) (p : String → Bool) :
    (files.find? fun file => p file.1).map Prod.fst = files.names.find? p := by
  rw [names, List.find?_map]
  rfl

theorem any_names (files : FileStore) (p : String → Bool) :
    (files.any fun file => p file.1) = files.names.any p := by
  rw [names, List.any_map]
  rfl

/-- Where parts of a path lead to depends on the names of a store. -/
theorem follow_congr {files files' : FileStore} (h : files.names = files'.names)
    (place : Option (List Text)) (parts : List Text) :
    follow files place parts = follow files' place parts := by
  induction parts generalizing place with
  | nil => rfl
  | cons part rest ih =>
    cases place with
    | none => simp only [follow, ih]
    | some parts =>
      -- A step looks at names only, and finds a file under the same name in both stores.
      have hfind := find?_names files fun name => partsOf name == parts ++ [part]
      have hany := any_names files fun name => (parts ++ [part]).isPrefixOf (partsOf name)
      rw [h, ← find?_names] at hfind
      rw [h, ← any_names] at hany
      simp only [follow, ih, hany]
      cases hfile : files.find? fun file => partsOf file.1 == parts ++ [part] with
      | none =>
        rw [hfile, Option.map_none, eq_comm, Option.map_eq_none_iff] at hfind
        simp only [hfind]
      | some file =>
        rw [hfile, Option.map_some, eq_comm, Option.map_eq_some_iff] at hfind
        obtain ⟨file', hfile', hsame⟩ := hfind
        simp only [hfile', hsame]

/-- Where a path leads to depends on the names of a store. -/
theorem resolve_congr {files files' : FileStore} (h : files.names = files'.names) (path : String) :
    files.resolve path = files'.resolve path := by
  have hknown : (files.lookup path).isSome = (files'.lookup path).isSome := by
    rw [Bool.eq_iff_iff]
    exact isSome_contents_iff.trans (h ▸ isSome_contents_iff.symm)
  simp only [resolve, hknown, followPath, follow_congr h]

theorem mem_names_of_follow {files : FileStore} {place : Option (List Text)} {parts : List Text}
    {name : String} (h : follow files place parts = .ok name) : name ∈ files.names := by
  induction parts generalizing place with
  | nil => cases h
  | cons part rest ih =>
    unfold follow at h
    split at h
    · exact ih h
    split at h
    · exact ih h
    split at h
    · cases h
    split at h
    · cases h
    -- Only the last part of a path can end the search with a file.
    · dsimp only at h
      split at h
      · next file hfile =>
        split at h
        · obtain rfl := Except.ok.inj h
          exact List.mem_map_of_mem (List.mem_of_find?_eq_some hfile)
        · cases h
      · split at h
        · exact ih h
        · cases h

/-- A path leads to a file of the store. -/
theorem exists_contents_of_resolve {files : FileStore} {path name : String}
    (h : files.resolve path = .ok name) : ∃ bytes, files.contents name = some bytes := by
  rw [← Option.isSome_iff_exists]
  unfold resolve at h
  split at h
  · next hknown =>
    obtain rfl := Except.ok.inj h
    exact hknown
  split at h
  · cases h
  rw [isSome_contents_iff]
  split at h
  · next found hfound =>
    obtain rfl := Except.ok.inj h
    unfold followPath at hfound
    split at hfound
    · cases hfound
    split at hfound
    · cases hfound
    · exact mem_names_of_follow hfound
    · exact mem_names_of_follow hfound
  · cases h

/-! ### Writing -/

/-- New bytes for a name are found under that name, if it is there. -/
theorem lookup_put (files : FileStore) (name : String) (bytes : Text.Bytes) (other : String) :
    (files.map fun file => if file.1 = name then (name, bytes) else file).lookup other =
      if other = name then (files.lookup other).map fun _ => bytes else files.lookup other := by
  induction files with
  | nil => simp
  | cons file files ih =>
    rw [List.map_cons, List.lookup_cons, List.lookup_cons, ih]
    by_cases hfile : file.1 = name
    · rw [if_pos hfile, hfile]
      cases hsame : other == name with
      | true => simp [beq_iff_eq.1 hsame]
      | false => rfl
    · rw [if_neg hfile]
      cases hsame : other == file.1 with
      | true =>
        have hother : ¬ other = name := beq_iff_eq.1 hsame ▸ hfile
        exact (if_neg hother).symm
      | false => rfl

section

variable {files : FileStore} {path name : String} (h : files.resolve path = .ok name) (t : Text)

include h

/-- Writing to a file keeps the names. -/
theorem names_write : (files.write path t).names = files.names := by
  have hfile (file : String × Text.Bytes) :
      (if file.1 = name then (name, Text.Utf8.encode t) else file).1 = file.1 := by
    split
    · next hsame => exact hsame.symm
    · rfl
  simp only [write, h, names, List.map_map]
  exact List.map_congr_left fun file _ => hfile file

/-- Writing to a file changes what it holds and nothing else. -/
theorem contents_write :
    (files.write path t).contents =
      Function.update files.contents name (some (Text.Utf8.encode t)) := by
  obtain ⟨bytes, hbytes⟩ := exists_contents_of_resolve h
  funext other
  rw [Function.update_apply, contents, write]
  simp only [h]
  rw [lookup_put]
  split
  · next hsame =>
    rw [hsame, show files.lookup name = some bytes from hbytes]
    rfl
  · rfl

end

end LogicAsm.FileStore
