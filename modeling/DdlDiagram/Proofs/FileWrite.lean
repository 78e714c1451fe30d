/-
Writing a file.  A file is put where no directory stands, and no path is followed
through it, so every path leads to the place it led to before, and at every other
place stands what stood there.
-/
import DdlDiagram.Files.Tree
import Mathlib.Data.List.Basic

namespace DdlDiagram.Files

namespace Tree

variable {tree later : Tree} {place : Place} {path : Text} {content : ByteArray}

theorem entryAt?_put (hplace : place ≠ []) (entry : Entry) :
    (tree.put place entry).entryAt? place = some entry := by
  cases place with
  | nil => exact absurd rfl hplace
  | cons name names => exact List.lookup_cons_self

theorem lookup_filter_of_ne {other : Place} (hother : other ≠ place)
    (entries : List (Place × Entry)) :
    (entries.filter fun item => item.1 != place).lookup other =
      entries.lookup other := by
  induction entries with
  | nil => rfl
  | cons item rest ih =>
      obtain ⟨key, entry⟩ := item
      by_cases hkey : key = place
      · have hfound : (other == key) = false := by simpa [hkey] using hother
        rw [List.filter_cons_of_neg (by simp [hkey]), List.lookup_cons, hfound, ih]
      · rw [List.filter_cons_of_pos (by simp [hkey]), List.lookup_cons,
          List.lookup_cons, ih]

theorem entryAt?_put_of_ne {other : Place} (hother : other ≠ place) (entry : Entry) :
    (tree.put place entry).entryAt? other = tree.entryAt? other := by
  cases other with
  | nil => rfl
  | cons name names =>
      have hfound : (name :: names == place) = false := by simpa using hother
      rw [entryAt?, entryAt?, put, List.lookup_cons, hfound]
      exact lookup_filter_of_ne hother tree.entries

/-- A file that is put where no directory stands makes none and removes none. -/
theorem entryAt?_put_eq_directory_iff (hplace : tree.entryAt? place ≠ some .directory)
    (other : Place) :
    (tree.put place (.file content)).entryAt? other = some .directory ↔
      tree.entryAt? other = some .directory := by
  by_cases hother : other = place
  · subst hother
    have hne : other ≠ [] := by
      rintro rfl
      exact hplace rfl
    simp [entryAt?_put hne, hplace]
  · rw [entryAt?_put_of_ne hother]

/-- Names are followed as before a file was put where no directory stands. -/
theorem follow_put (hplace : tree.entryAt? place ≠ some .directory) (here : Place)
    (names : List Text) :
    (tree.put place (.file content)).follow here names = tree.follow here names := by
  have hdirectory : ∀ other, (tree.put place (.file content)).entryAt? other =
      some .directory ↔ tree.entryAt? other = some .directory :=
    entryAt?_put_eq_directory_iff hplace
  fun_induction follow tree here names with
  | case1 here => rfl
  | case2 here name rest hfile =>
      rw [follow, if_pos (mt (hdirectory here).mp hfile)]
  | case3 here name rest hopen hstay ih =>
      rw [follow, if_neg (by simpa [hdirectory] using hopen), if_pos hstay, ih]
  | case4 here rest hopen hroot hstay =>
      rw [follow, if_neg (by simpa [hdirectory] using hopen), if_neg hstay, if_pos rfl,
        if_pos hroot]
  | case5 here rest hopen hroot hstay ih =>
      rw [follow, if_neg (by simpa [hdirectory] using hopen), if_neg hstay, if_pos rfl,
        if_neg hroot, ih]
  | case6 here name rest hopen hstay hparent ih =>
      rw [follow, if_neg (by simpa [hdirectory] using hopen), if_neg hstay,
        if_neg hparent, ih]

/-- A path by which a file can be written: it leads to a place, and no directory
stands there. -/
def Writable (tree : Tree) (path : Text) : Prop :=
  ∃ place, tree.place? path = some place ∧ tree.entryAt? place ≠ some .directory

/-- A file is written by a path and nothing else happens: paths lead where they led,
and other places hold what they held. -/
structure Writes (tree : Tree) (path : Text) (content : ByteArray) (later : Tree) :
    Prop where
  entry : later.entry? path = some (.file content)
  places : ∀ other, later.place? other = tree.place? other
  others : ∀ place, tree.place? path ≠ some place →
    later.entryAt? place = tree.entryAt? place

theorem write?_eq_some (h : tree.write? path content = some later) :
    ∃ place, tree.place? path = some place ∧
      tree.entryAt? place ≠ some .directory ∧
      later = tree.put place (.file content) := by
  obtain ⟨place, hplace, hwrite⟩ := Option.bind_eq_some_iff.mp h
  split at hwrite
  · contradiction
  · next hfree => exact ⟨place, hplace, hfree, (Option.some.inj hwrite).symm⟩

theorem write?_eq_none_iff : tree.write? path content = none ↔ ¬ tree.Writable path := by
  constructor
  · rintro h ⟨place, hplace, hfree⟩
    simp [write?, hplace, hfree] at h
  · intro h
    rw [← Option.not_isSome_iff_eq_none, Option.isSome_iff_exists]
    rintro ⟨later, hwrite⟩
    obtain ⟨place, hplace, hfree, _⟩ := write?_eq_some hwrite
    exact h ⟨place, hplace, hfree⟩

theorem writes_of_write? (h : tree.write? path content = some later) :
    tree.Writes path content later := by
  obtain ⟨place, hplace, hfree, rfl⟩ := write?_eq_some h
  have hne : place ≠ [] := by
    rintro rfl
    exact hfree rfl
  have hplaces : ∀ other, (tree.put place (.file content)).place? other =
      tree.place? other := by
    intro other
    simp only [place?, follow_put hfree]
  constructor
  · unfold entry?
    rw [hplaces, hplace]
    exact entryAt?_put hne _
  · exact hplaces
  · intro other hother
    apply entryAt?_put_of_ne
    rintro rfl
    exact hother hplace

end Tree

end DdlDiagram.Files
