import TildeMarkup.Store.Basic

/-!
# Files that stay as they are

A path leads to one location (`Path.location`), and what a store has there decides what comes of the
path. A change at another location leaves the file there alone, and no change takes a directory away, so
a path that can be written stays one that can be written (`Store.Writable`).
-/

namespace TildeMarkup

/-- The location that a relative path leads to, wherever all directories on the way are there. -/
def Path.location (path : Path) : Location :=
  path.parts.foldl Store.advance []

namespace Store

variable {store later : Store} {location other : Location} {path : Path}

/-! ## Files at other locations -/

theorem follow_of_isDirectory {part : String} (rest : List String)
    (h : store.isDirectory (advance location part) = true) :
    store.follow location (part :: rest) = store.follow (advance location part) rest :=
  if_pos h

/-- The last name on a path, where it is no directory, leads to a file or to the place for one. -/
theorem follow_last {part : String} (h : store.isDirectory (advance location part) = false) :
    store.follow location [part] = match store.file? (advance location part) with
      | some file => .ok (.file (advance location part) file)
      | none => .ok (.vacant (advance location part)) := by
  unfold follow
  simp only [h, Bool.false_eq_true, if_false]
  cases store.file? (advance location part) <;> rfl

/-- The first step of a way to a directory is one to a directory as well. -/
theorem follow_cons_eq_directory {part : String} {rest : List String}
    (h : store.follow location (part :: rest) = .ok (.directory other)) :
    store.isDirectory (advance location part) = true
      ∧ store.follow (advance location part) rest = .ok (.directory other) := by
  cases hdir : store.isDirectory (advance location part) with
  | true =>
    rw [follow_of_isDirectory rest hdir] at h
    exact ⟨rfl, h⟩
  | false =>
    unfold follow at h
    simp only [hdir, Bool.false_eq_true, if_false] at h
    split at h <;> cases h

/-- A way to a directory may be gone on with from there. -/
theorem follow_append {front back : List String}
    (h : store.follow location front = .ok (.directory other)) :
    store.follow location (front ++ back) = store.follow other back := by
  -- By induction on the names, the first of which leads to a directory.
  induction front generalizing location with
  | nil =>
    cases h
    rfl
  | cons part rest ih =>
    obtain ⟨hdir, hrest⟩ := follow_cons_eq_directory h
    rw [List.cons_append, follow_of_isDirectory _ hdir]
    exact ih hrest

/-- The way to a directory is still there if no directory is taken away. -/
theorem follow_mono {parts : List String}
    (hdirs : ∀ found, store.isDirectory found = true → later.isDirectory found = true)
    (h : store.follow location parts = .ok (.directory other)) :
    later.follow location parts = .ok (.directory other) := by
  induction parts generalizing location with
  | nil => exact h
  | cons part rest ih =>
    obtain ⟨hdir, hrest⟩ := follow_cons_eq_directory h
    rw [follow_of_isDirectory rest (hdirs _ hdir)]
    exact ih hrest

/-- Where all names on the way are directories, the location is that of the names. -/
theorem foldl_advance_of_follow {parts : List String}
    (h : store.follow location parts = .ok (.directory other)) :
    parts.foldl advance location = other := by
  induction parts generalizing location with
  | nil =>
    cases h
    rfl
  | cons part rest ih => exact ih (follow_cons_eq_directory h).2

/-! ## Paths that can be written -/

/-- The directory of the path is there, and the path itself leads to no directory. -/
structure Writable (store : Store) (path : Path) : Prop where
  parent : ∃ above, store.resolve path.parent = .ok (.directory above)
  file : ∀ found, store.resolve path ≠ .ok (.directory found)

/-- The location of a path is its last name in the directory that the others lead to. -/
theorem location_of_follow {front : List String} {last : String} {above : Location}
    (hparts : path.parts = front ++ [last])
    (hfront : store.follow [] front = .ok (.directory above)) :
    path.location = advance above last := by
  rw [Path.location, hparts, List.foldl_append, foldl_advance_of_follow hfront]
  rfl

/-- A path that can be written is a name in a directory that is there. -/
theorem writable_iff : store.Writable path ↔ path.root.isEmpty = true
    ∧ ∃ front last above, path.parts = front ++ [last]
      ∧ store.follow [] front = .ok (.directory above)
      ∧ store.isDirectory path.location = false := by
  constructor
  · rintro ⟨⟨above, hparent⟩, hfile⟩
    unfold resolve at hparent hfile
    have hroot : path.root.isEmpty = true := by
      cases h : path.root.isEmpty with
      | true => rfl
      | false =>
        simp only [Path.parent, h, Bool.false_eq_true, if_false] at hparent
        cases hparent
    simp only [Path.parent, hroot, if_true] at hparent hfile
    refine ⟨hroot, ?_⟩
    -- Without a name the path is the directory that it starts from; otherwise its last name is the file.
    rcases List.eq_nil_or_concat path.parts with hnil | ⟨front, last, hparts⟩
    · rw [hnil] at hfile
      exact absurd rfl (hfile [])
    · rw [List.concat_eq_append] at hparts
      rw [hparts, List.dropLast_concat] at hparent
      refine ⟨front, last, above, hparts, hparent, ?_⟩
      rw [location_of_follow hparts hparent]
      cases hdir : store.isDirectory (advance above last) with
      | false => rfl
      | true =>
        rw [hparts, follow_append hparent, follow_of_isDirectory [] hdir] at hfile
        exact absurd rfl (hfile _)
  · rintro ⟨hroot, front, last, above, hparts, hfront, hdir⟩
    constructor
    · refine ⟨above, ?_⟩
      simp only [resolve, Path.parent, hroot, if_true, hparts, List.dropLast_concat]
      exact hfront
    · intro found h
      rw [location_of_follow hparts hfront] at hdir
      rw [resolve, if_pos hroot, hparts, follow_append hfront, follow_last hdir] at h
      split at h <;> cases h

namespace Writable

/-- The path can still be written if no directory is taken away, and none is made in its place. -/
theorem mono (h : store.Writable path)
    (hdirs : ∀ found, store.isDirectory found = true → later.isDirectory found = true)
    (hsame : later.isDirectory path.location = store.isDirectory path.location) :
    later.Writable path := by
  obtain ⟨hroot, front, last, above, hparts, hfront, hdir⟩ := writable_iff.1 h
  exact writable_iff.2 ⟨hroot, front, last, above, hparts, follow_mono hdirs hfront, hsame.trans hdir⟩

theorem stamp (h : store.Writable path) (location : Location) (content : Bytes) :
    (store.stamp location content).Writable path :=
  h.mono (fun _ hdir => hdir) rfl

end Writable

end Store

end TildeMarkup
