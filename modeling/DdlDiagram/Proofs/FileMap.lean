/-
Trees that hold a map of files.  A file that is put at its place, with the directories on
the way to it, is found by its path; and where every place has one entry, the files that are
told apart in two trees are those at which the trees differ.
-/
import DdlDiagram.Proofs.FileWrite
import DdlDiagram.Proofs.Wording

namespace DdlDiagram.Files

open Text

/-- A name that leads down: it stands between slashes, and means neither the directory that
it is looked up in nor the one above. -/
structure IsFileName (name : Text) : Prop where
  slash : '/' ∉ name
  stay : isStay name = false
  parent : name ≠ parentName

theorem IsFileName.ne_nil {name : Text} (h : IsFileName name) : name ≠ [] := by
  rintro rfl
  have hstay := h.stay
  contradiction

namespace Tree

variable {tree earlier later : Tree} {place way : Place} {content : ByteArray}

/-- Every place has one entry, and the working directory has none of its own. -/
structure Keyed (tree : Tree) : Prop where
  nodup : (tree.entries.map Prod.fst).Nodup
  root : [] ∉ tree.entries.map Prod.fst

theorem keyed_empty : Keyed empty :=
  ⟨List.nodup_nil, List.not_mem_nil⟩

theorem Keyed.put (h : tree.Keyed) (hplace : place ≠ []) (entry : Entry) :
    (tree.put place entry).Keyed := by
  have hkept : ((tree.entries.filter fun item => item.1 != place).map Prod.fst).Sublist
      (tree.entries.map Prod.fst) := List.filter_sublist.map Prod.fst
  have hnew : place ∉ (tree.entries.filter fun item => item.1 != place).map Prod.fst := by
    simp
  refine ⟨List.nodup_cons.mpr ⟨hnew, hkept.nodup h.nodup⟩, fun hmem => ?_⟩
  rcases List.mem_cons.mp hmem with hroot | hmem
  · exact hplace hroot.symm
  · exact h.root (hkept.subset hmem)

/-- What stands at a place is what the entries hold. -/
theorem Keyed.mem_entries_iff (h : tree.Keyed) {entry : Entry} :
    (place, entry) ∈ tree.entries ↔ place ≠ [] ∧ tree.entryAt? place = some entry := by
  have hlookup : (place, entry) ∈ tree.entries ↔ tree.entries.lookup place = some entry := by
    rw [List.lookup_eq_some_iff]
    constructor
    · intro hmem
      obtain ⟨front, back, hsplit⟩ := List.append_of_mem hmem
      refine ⟨front, back, hsplit, fun item hitem => ?_⟩
      have hnodup := h.nodup
      rw [hsplit, List.map_append, List.nodup_append] at hnodup
      simpa using Ne.symm
        (hnodup.2.2 _ (List.mem_map_of_mem hitem) _ List.mem_cons_self)
    · rintro ⟨front, back, hsplit, _⟩
      rw [hsplit]
      exact List.mem_append_right _ List.mem_cons_self
  have hroot : (place, entry) ∈ tree.entries → place ≠ [] := by
    rintro hmem rfl
    exact h.root (List.mem_map_of_mem hmem)
  cases place with
  | nil => exact ⟨fun hmem => absurd rfl (hroot hmem), fun hroot => absurd rfl hroot.1⟩
  | cons name names => rw [hlookup, entryAt?, ne_eq, and_iff_right (List.cons_ne_nil _ _)]

/-- The files that are told apart are those that the earlier tree does not hold. -/
theorem mem_changed_iff (h : later.Keyed) : (place, content) ∈ earlier.changed later ↔
    later.entryAt? place = some (.file content) ∧
      earlier.entryAt? place ≠ some (.file content) := by
  have hplace : later.entryAt? place = some (.file content) → place ≠ [] := by
    rintro hentry rfl
    simp [entryAt?] at hentry
  have hmem : (place, .file content) ∈ later.entries ↔
      later.entryAt? place = some (.file content) := by
    rw [h.mem_entries_iff]
    exact ⟨And.right, fun hentry => ⟨hplace hentry, hentry⟩⟩
  rw [changed, List.mem_filterMap, ← hmem]
  constructor
  · rintro ⟨⟨other, entry⟩, hentry, hread⟩
    cases entry with
    | directory => contradiction
    | file bytes =>
        dsimp only at hread
        split at hread
        · contradiction
        · next hother =>
            obtain ⟨rfl, rfl⟩ := Prod.mk.inj (Option.some.inj hread)
            exact ⟨hentry, hother⟩
  · rintro ⟨hentry, hother⟩
    exact ⟨_, hentry, if_neg hother⟩

section deep

/-- The places on the way to another. -/
theorem mem_ways_iff : way ∈ (List.range place.length).tail.map (place.take ·) ↔
    way ≠ [] ∧ way <+: place ∧ way ≠ place := by
  rw [List.mem_map, List.range_eq_range', List.tail_range']
  constructor
  · rintro ⟨count, hcount, rfl⟩
    obtain ⟨hpos, hlt⟩ := List.mem_range'_1.mp hcount
    have hlength : (place.take count).length = count := List.length_take_of_le (by omega)
    refine ⟨?_, List.take_prefix _ _, fun hwhole => ?_⟩
    · rw [← List.length_pos_iff, hlength]
      exact hpos
    · rw [hwhole] at hlength
      omega
  · rintro ⟨hne, ⟨rest, rfl⟩, hproper⟩
    have hpos := List.length_pos_iff.mpr hne
    have hrest : 0 < rest.length := by
      rw [List.length_pos_iff]
      rintro rfl
      exact hproper (List.append_nil way).symm
    refine ⟨way.length, List.mem_range'_1.mpr ?_, List.take_left⟩
    rw [List.length_append]
    omega

/-- Directories that are put stay, with those that stood before. -/
theorem entryAt?_foldl_put (ways : List Place)
    (h : way ∈ ways ∧ way ≠ [] ∨ tree.entryAt? way = some .directory) :
    (ways.foldl (fun tree way => tree.put way .directory) tree).entryAt? way =
      some .directory := by
  induction ways generalizing tree with
  | nil => exact h.resolve_left fun hmem => List.not_mem_nil hmem.1
  | cons first rest ih =>
      apply ih
      by_cases hfirst : way = first
      · subst hfirst
        by_cases hroot : way = []
        · subst hroot
          exact Or.inr rfl
        · exact Or.inr (entryAt?_put hroot _)
      · rcases h with ⟨hmem, hroot⟩ | hentry
        · exact Or.inl ⟨(List.mem_cons.mp hmem).resolve_left hfirst, hroot⟩
        · exact Or.inr (by rwa [entryAt?_put_of_ne hfirst])

theorem keyed_foldl_put (h : tree.Keyed) {ways : List Place} (hways : ∀ way ∈ ways, way ≠ []) :
    (ways.foldl (fun tree way => tree.put way .directory) tree).Keyed := by
  induction ways generalizing tree with
  | nil => exact h
  | cons first rest ih =>
      obtain ⟨hfirst, hrest⟩ := List.forall_mem_cons.mp hways
      exact ih (h.put hfirst _) hrest

theorem Keyed.putDeep (h : tree.Keyed) (hplace : place ≠ []) (entry : Entry) :
    (tree.putDeep place entry).Keyed :=
  (keyed_foldl_put h fun _ hway => (mem_ways_iff.mp hway).1).put hplace entry

/-- In the tree of a map of files every place has one entry. -/
theorem keyed_foldl_putDeep {items : List (Place × Entry)} (hitems : ∀ item ∈ items, item.1 ≠ []) :
    (items.foldl (fun tree item => tree.putDeep item.1 item.2) empty).Keyed := by
  have hfold : ∀ tree : Tree, tree.Keyed →
      (items.foldl (fun tree item => tree.putDeep item.1 item.2) tree).Keyed := by
    induction items with
    | nil => exact fun _ h => h
    | cons item rest ih =>
        obtain ⟨hitem, hrest⟩ := List.forall_mem_cons.mp hitems
        exact fun tree h => ih hrest _ (h.putDeep hitem _)
  exact hfold empty keyed_empty

/-- On the way to an entry that is put deep stand directories. -/
theorem entryAt?_putDeep_of_prefix (hway : way <+: place) (hne : way ≠ place) (entry : Entry) :
    (tree.putDeep place entry).entryAt? way = some .directory := by
  rw [putDeep, entryAt?_put_of_ne hne]
  apply entryAt?_foldl_put
  by_cases hroot : way = []
  · subst hroot
    exact Or.inr rfl
  · exact Or.inl ⟨mem_ways_iff.mpr ⟨hroot, hway, hne⟩, hroot⟩

/-- Names that lead down through directories are followed to the place they spell. -/
theorem follow_names {here names : Place} (hnames : ∀ name ∈ names, IsFileName name)
    (hopen : ∀ way, here <+: way → way <+: here ++ names → way ≠ here ++ names →
      tree.entryAt? way = some .directory) :
    tree.follow here names = some (here ++ names) := by
  induction names generalizing here with
  | nil => rw [follow, List.append_nil]
  | cons name rest ih =>
      obtain ⟨hname, hrest⟩ := List.forall_mem_cons.mp hnames
      have hhere := hopen here (List.prefix_refl _) (List.prefix_append _ _) (by simp)
      have hshape : here ++ [name] ++ rest = here ++ name :: rest := by simp
      rw [follow, if_neg (not_not_intro hhere), if_neg (by simp [hname.stay]),
        if_neg hname.parent, ih hrest, hshape]
      intro way hfront hback hne
      rw [hshape] at hback hne
      exact hopen way ((List.prefix_append _ _).trans hfront) hback hne

/-- An entry that is put deep is found by its path. -/
theorem entry?_putDeep (hplace : place ≠ []) (hnames : ∀ name ∈ place, IsFileName name)
    (entry : Entry) :
    Tree.entry? (tree.putDeep place entry) (joined ['/'] place) = some entry := by
  have hhead : (joined ['/'] place).head? ≠ some '/' := by
    obtain ⟨name, rest, rfl⟩ := List.exists_cons_of_ne_nil hplace
    have hname := hnames name List.mem_cons_self
    rw [joined_cons, List.head?_append_of_ne_nil _ hname.ne_nil]
    exact fun hslash => hname.slash (List.mem_of_mem_head? hslash)
  have hsplit : splitAt '/' (joined ['/'] place) = place :=
    splitAt_joined hplace fun name hname => (hnames name hname).slash
  have hfollow : (tree.putDeep place entry).follow [] place = some place :=
    follow_names hnames fun _ _ hway hne => entryAt?_putDeep_of_prefix hway hne entry
  unfold entry? place?
  rw [if_neg hhead, hsplit, hfollow]
  exact entryAt?_put hplace entry

end deep

end Tree

end DdlDiagram.Files
