import Abacus.Files.Tree
import Mathlib.Tactic.Common

/-!
# Operations on trees of files

What the operations on a tree do to the nodes at its locations, and where paths lead in
the tree behind an operation.

*Locations.*  A tree is a table, and two trees are compared by what stands at each
location.  `Grows` says that nothing but new directories is added, and `Placed` that one
file is put at a location where there was no directory.

*Paths.*  A path is followed through directories only, so it leads to the same place
in every tree that has the directories of the first (`locate_of_covers`).  The slashes at
the end of a path count when something is looked for and do not count when something is
made; without such slashes both ways agree (`locateBare_eq_locate`).

*Moving and writing.*  A file that cannot be moved to a path cannot be written there
either, if the path has a name at its end (`create_of_move`).  The reasons differ: a path
that ends in a dot is refused by a move for its last part, and by a write because it leads
to a directory.
-/

namespace Abacus

/-! ## Parts of a text -/

namespace Text

/-- The last part of a text that ends with another character is not empty. -/
theorem getLast?_split_ne_nil {separator : Char} {text : List Char} (hne : text ≠ [])
    (hlast : text.getLast? ≠ some separator) : (split separator text).getLast? ≠ some [] := by
  induction text with
  | nil => exact absurd rfl hne
  | cons c rest ih =>
      rw [split]
      cases rest with
      | nil =>
          have hc : c ≠ separator := by simpa using hlast
          simp [hc, split]
      | cons d rest =>
          have hrest := ih (by simp) (by simpa using hlast)
          obtain ⟨part, parts, hparts⟩ :=
            List.exists_cons_of_ne_nil (split_ne_nil separator (d :: rest))
          rw [hparts] at hrest ⊢
          split
          next => simpa using hrest
          next =>
            cases parts with
            | nil => simp
            | cons other parts => simpa using hrest

end Text

namespace FileTree

/-! ## Nodes -/

/-- Dropping the entries of a place leaves all others to be found. -/
theorem lookup_filter_ne (entries : List (Location × Node)) (place other : Location) :
    (entries.filter fun entry => entry.1 ≠ place).lookup other =
      if other = place then none else entries.lookup other := by
  induction entries with
  | nil => simp
  | cons entry entries ih =>
      rcases entry with ⟨key, node⟩
      by_cases hkey : key = place
      · rw [List.filter_cons_of_neg (by simpa using hkey), ih, List.lookup_cons]
        split
        next => rfl
        next hother =>
          have : (other == key) = false := by simpa [hkey] using hother
          rw [this]
      · rw [List.filter_cons_of_pos (by simpa using hkey), List.lookup_cons, List.lookup_cons, ih]
        by_cases hother : other = key
        · subst hother
          simp [hkey]
        · have : (other == key) = false := by simpa using hother
          rw [this]

variable {t t' : FileTree} {place other : Location}

/-- Only the root is a directory in every tree, so what is none is not the root. -/
theorem ne_nil_of_node? {node : Option Node} (h : t.node? place = node)
    (hnode : node ≠ some .directory) : place ≠ [] := by
  rintro rfl
  exact hnode h.symm

/-- What is erased is gone, and nothing else is. -/
theorem node?_erase (hplace : place ≠ []) :
    (t.erase place).node? other = if other = place then none else t.node? other := by
  unfold node? erase
  by_cases hother : other = []
  · subst hother
    simp [hplace.symm]
  · rw [if_neg hother, if_neg hother, lookup_filter_ne]

/-- What is inserted stands at its place, and all else where it was. -/
theorem node?_insert (hplace : place ≠ []) (node : Node) :
    (t.insert place node).node? other = if other = place then some node else t.node? other := by
  by_cases hother : other = place
  · subst hother
    simp [node?, insert, hplace]
  · have herase : (t.erase place).node? other = _ := node?_erase hplace
    rw [if_neg hother] at herase ⊢
    rw [← herase]
    unfold node? insert
    have : (other == place) = false := by simpa using hother
    rw [List.lookup_cons, this]

/-- Where nothing stands there is nothing to erase. -/
theorem erase_eq_self (h : t.node? place = none) : t.erase place = t := by
  have hplace : place ≠ [] := ne_nil_of_node? h nofun
  rw [node?, if_neg hplace, List.lookup_eq_none_iff] at h
  have hentries : (t.entries.filter fun entry => entry.1 ≠ place) = t.entries :=
    List.filter_eq_self.mpr fun entry hentry => by
      have hne : place ≠ entry.1 := by simpa using h entry hentry
      simpa using hne.symm
  exact congrArg (FileTree.mk · t.limits) hentries

/-- What was put where nothing stood can be taken away again. -/
theorem erase_insert (h : t.node? place = none) (node : Node) :
    (t.insert place node).erase place = t := by
  have hfirst : (t.insert place node).erase place = (t.erase place).erase place := by
    unfold insert erase
    rw [List.filter_cons_of_neg (by simp)]
  rw [hfirst, erase_eq_self h, erase_eq_self h]

/-! ## Comparing trees -/

/-- Every directory of the first tree is one of the second, and paths may be as long. -/
structure Covers (t t' : FileTree) : Prop where
  limits : t'.limits = t.limits
  directory : ∀ place, t.node? place = some .directory → t'.node? place = some .directory

/-- Nothing is different in the second tree but for more directories. -/
structure Grows (t t' : FileTree) : Prop where
  limits : t'.limits = t.limits
  node : ∀ place, t'.node? place = t.node? place ∨
    t.node? place = none ∧ t'.node? place = some .directory

/-- The second tree has a file at a location that is no directory in the first, and is the
same everywhere else. -/
structure Placed (t t' : FileTree) (place : Location) (content : List UInt8) : Prop where
  limits : t'.limits = t.limits
  not_directory : t.node? place ≠ some .directory
  node : ∀ other, t'.node? other = if other = place then some (.file content) else t.node? other

namespace Grows

theorem refl (t : FileTree) : t.Grows t := ⟨rfl, fun _ => .inl rfl⟩

theorem trans {t'' : FileTree} (h : t.Grows t') (h' : t'.Grows t'') : t.Grows t'' := by
  refine ⟨h'.limits.trans h.limits, fun place => ?_⟩
  rcases h.node place, h'.node place with ⟨hold | ⟨hnone, hnew⟩, hold' | ⟨hnone', hnew'⟩⟩
  · exact .inl (hold'.trans hold)
  · exact .inr ⟨hold ▸ hnone', hnew'⟩
  · exact .inr ⟨hnone, hold'.trans hnew⟩
  · rw [hnone'] at hnew
    cases hnew

/-- A directory that is made where nothing stood is all that is added. -/
theorem insert (h : t.node? place = none) : t.Grows (t.insert place .directory) := by
  refine ⟨rfl, fun other => ?_⟩
  rw [node?_insert (ne_nil_of_node? h nofun)]
  split
  next hother => exact .inr ⟨hother ▸ h, rfl⟩
  next => exact .inl rfl

/-- What stands somewhere stays there. -/
theorem node?_eq (h : t.Grows t') {node : Node} (hnode : t.node? place = some node) :
    t'.node? place = some node := by
  rcases h.node place with hold | ⟨hnone, -⟩
  · exact hold.trans hnode
  · rw [hnone] at hnode
    cases hnode

theorem covers (h : t.Grows t') : t.Covers t' :=
  ⟨h.limits, fun _ hplace => h.node?_eq hplace⟩

end Grows

/-- A file is no directory, and takes the place of none. -/
theorem Placed.directory_iff {content : List UInt8} (h : t.Placed t' place content) :
    t'.node? other = some .directory ↔ t.node? other = some .directory := by
  rw [h.node]
  split
  next hother => simp [hother, h.not_directory]
  next => rfl

theorem Placed.covers {content : List UInt8} (h : t.Placed t' place content) : t.Covers t' :=
  ⟨h.limits, fun _ => h.directory_iff.mpr⟩

/-- The content of the file at a location. -/
def file? (t : FileTree) (place : Location) : Option (List UInt8) :=
  match t.node? place with
  | some (.file content) => some content
  | _ => none

/-- No file is different in a tree that only has more directories. -/
theorem Grows.file?_eq (h : t.Grows t') (place : Location) : t'.file? place = t.file? place := by
  unfold file?
  rcases h.node place with hold | ⟨hnone, hnew⟩
  · rw [hold]
  · rw [hnone, hnew]

/-- The file that was placed is the only one that is different. -/
theorem Placed.file?_eq {content : List UInt8} (h : t.Placed t' place content)
    (other : Location) :
    t'.file? other = if other = place then some content else t.file? other := by
  unfold file?
  rw [h.node]
  by_cases hother : other = place
  · rw [if_pos hother, if_pos hother]
  · rw [if_neg hother, if_neg hother]

/-! ## Where paths lead -/

/-- One part of a path is followed from a directory, if the part is not too long. -/
theorem walk_cons_eq_ok_iff {here : Location} {part : String} {parts : List String} :
    t.walk here (part :: parts) = .ok place ↔
      t.node? here = some .directory ∧ fits t.limits.name part ∧
        t.walk (step here part) parts = .ok place := by
  rw [walk]
  split
  next hnode =>
    split
    next hfits => simp [hnode, hfits]
    next hlong => simp [hlong]
  next hnode => simp [hnode]
  next hnode => simp [hnode]

/-- The same directories lead to the same place. -/
theorem walk_of_covers (h : t.Covers t') {here : Location} {parts : List String}
    (hwalk : t.walk here parts = .ok place) : t'.walk here parts = .ok place := by
  induction parts generalizing here with
  | nil => exact hwalk
  | cons part parts ih =>
      obtain ⟨hnode, hfits, hrest⟩ := walk_cons_eq_ok_iff.mp hwalk
      exact walk_cons_eq_ok_iff.mpr ⟨h.directory here hnode, h.limits ▸ hfits, ih hrest⟩

/-- The last part of a path is followed from a directory. -/
theorem exists_directory_of_walk {here : Location} {parts : List String} {part : String}
    (hwalk : t.walk here (parts ++ [part]) = .ok place) :
    ∃ middle, t.node? middle = some .directory ∧ place = step middle part := by
  induction parts generalizing here with
  | nil =>
      obtain ⟨hnode, -, hstep⟩ := walk_cons_eq_ok_iff.mp hwalk
      exact ⟨here, hnode, (Except.ok.inj hstep).symm⟩
  | cons first parts ih => exact ih (walk_cons_eq_ok_iff.mp hwalk).2.2

variable {home : Location} {p : Path}

/-- A path is followed from its origin, if it is not empty or too long. -/
theorem follow_eq_ok_iff {parts : List String} :
    t.follow home p parts = .ok place ↔
      p.text ≠ "" ∧ fits t.limits.path p.text ∧ t.walk (origin home p) parts = .ok place := by
  unfold follow
  split
  next hempty => simp [hempty]
  next hempty =>
    split
    next hfits => simp [hempty, hfits]
    next hlong => simp [hlong]

/-- A path is followed through directories only. -/
theorem locate_of_covers (h : t.Covers t') (hp : t.locate home p = .ok place) :
    t'.locate home p = .ok place := by
  obtain ⟨hne, hfits, hwalk⟩ := follow_eq_ok_iff.mp hp
  exact follow_eq_ok_iff.mpr ⟨hne, h.limits ▸ hfits, walk_of_covers h hwalk⟩

/-- What is found is still found in a tree that has more directories. -/
theorem Grows.isSome_find? (h : t.Grows t') (hp : (t.find? home p).isSome) :
    (t'.find? home p).isSome := by
  unfold find? at hp ⊢
  split at hp
  next place hplace =>
    rw [locate_of_covers h.covers hplace]
    obtain ⟨node, hnode⟩ := Option.isSome_iff_exists.mp hp
    rw [Option.isSome_iff_exists]
    exact ⟨node, h.node?_eq hnode⟩
  next => cases hp

theorem exists_last_step (p : Path) : ∃ last, (steps p).getLast? = some last := by
  have hne : steps p ≠ [] := by simp [steps, Text.parts, Text.split_ne_nil]
  exact Option.isSome_iff_exists.mp (List.getLast?_isSome.mpr hne)

/-- A path that does not end in a slash does not end in an empty part. -/
theorem last_step_ne_empty (hempty : p.text ≠ "") (hp : endsInSlash p = false) :
    (steps p).getLast? ≠ some "" := by
  have hlast : p.text.toList.getLast? ≠ some '/' := by simpa [endsInSlash] using hp
  have hparts := Text.getLast?_split_ne_nil (String.toList_eq_nil_iff.not.mpr hempty) hlast
  simpa [steps, Text.parts, List.getLast?_map] using hparts

/-- Without slashes at the end of a path there are none to be left out. -/
theorem locateBare_eq_locate (hp : endsInSlash p = false) :
    t.locateBare home p = t.locate home p := by
  unfold locateBare locate
  by_cases hempty : p.text = ""
  · simp [follow, hempty]
  obtain ⟨last, hlast⟩ := exists_last_step p
  have hne : last ≠ "" := by
    rintro rfl
    exact last_step_ne_empty hempty hp hlast
  have hbare : bareSteps p = steps p := by
    obtain ⟨front, hsteps⟩ := List.getLast?_eq_some_iff.mp hlast
    unfold bareSteps
    rw [hsteps, List.reverse_append, List.reverse_singleton, List.singleton_append,
      List.dropWhile_cons_of_neg (by simpa using hne)]
    simp
  rw [hbare]

/-- A path that ends in a double dot has no name at its end. -/
theorem fileName?_of_last_step (h : (steps p).getLast? = some "..") : p.fileName? = none := by
  have hlast : p.outset.2.getLast? = some ".." := by
    have hcons (part : List Char) (rest : List Char) :
        ((part :: Text.split '/' rest).map String.ofList).getLast? =
          ((Text.split '/' rest).map String.ofList).getLast? := by
      rw [List.map_cons, List.getLast?_cons_of_ne_nil]
      simp [Text.split_ne_nil]
    rw [steps, Text.parts] at h
    unfold Path.outset
    dsimp only
    split
    next rest htext =>
      rw [htext, Text.split, if_pos rfl, hcons] at h
      exact h
    next htext =>
      rw [htext] at h
      exact absurd h (by decide)
    next rest htext =>
      rw [Text.split, if_pos rfl, hcons]
      rw [htext, Text.split, if_neg (by decide), Text.split, if_pos rfl, hcons] at h
      exact h
    next => exact h
  obtain ⟨before, hparts⟩ := List.getLast?_eq_some_iff.mp hlast
  unfold Path.fileName? Path.backward
  rw [hparts, List.reverse_append, List.reverse_singleton, List.singleton_append,
    List.dropWhile_cons_of_neg (by decide)]
  rfl

/-! ## Operations -/

/-- Nothing covered is lost when a node is put where nothing stood. -/
theorem covers_insert (h : t.node? place = none) (node : Node) :
    t.Covers (t.insert place node) := by
  refine ⟨rfl, fun other hother => ?_⟩
  rw [node?_insert (ne_nil_of_node? h nofun), if_neg]
  · exact hother
  · rintro rfl
    rw [h] at hother
    cases hother

/-- A file that is put somewhere is no new directory. -/
theorem covers_of_insert_file (hplace : place ≠ []) (content : List UInt8) :
    (t.insert place (.file content)).Covers t := by
  refine ⟨rfl, fun other hother => ?_⟩
  rw [node?_insert hplace] at hother
  split at hother
  next => cases hother
  next => exact hother

/-- Making a directory adds one and does nothing else. -/
theorem grows_of_makeDirectory (h : t.makeDirectory home p = .ok t') : t.Grows t' := by
  unfold makeDirectory at h
  split at h
  next => cases h
  next place _ =>
    split at h
    next => cases h
    next hnode =>
      cases h
      exact .insert hnode

/-- Where nothing is found there is nothing to be taken away. -/
theorem remove_of_absent (h : t.find? home p = none) : ∃ e, t.remove home p = .error e := by
  unfold find? at h
  unfold remove
  split at h
  next place hplace =>
    rw [hplace]
    dsimp only
    rw [h]
    exact ⟨_, rfl⟩
  next e he =>
    rw [he]
    exact ⟨_, rfl⟩

/-- A file that is found can be taken away. -/
theorem remove_of_file {content : List UInt8} (hp : t.locate home p = .ok place)
    (hfile : t.node? place = some (.file content)) : t.remove home p = .ok (t.erase place) := by
  rw [remove, hp]
  dsimp only
  rw [hfile]

/-- Where nothing is found a file is made at a new place, if it can be made at all. -/
theorem create_of_absent (hp : endsInSlash p = false) (h : t.find? home p = none)
    (content : List UInt8) :
    (∃ e, t.create home p content = .error e) ∨
      ∃ place, t.locate home p = .ok place ∧ t.node? place = none ∧
        t.create home p content = .ok (t.insert place (.file content)) := by
  unfold find? at h
  rw [create, locateBare_eq_locate hp, hp]
  split at h
  next place hplace => exact .inr ⟨place, hplace, h, by simp [hplace, h]⟩
  next e he => exact .inl ⟨e, by rw [he]⟩

/-- What a path leads to that has a name, but not as its last part, is a directory. -/
theorem node?_of_not_endsInName {base : String} (hname : p.fileName? = some base)
    (hslash : endsInSlash p = false) (hend : endsInName p = false)
    (hp : t.locate home p = .ok place) : t.node? place = some .directory := by
  obtain ⟨hempty, -, hwalk⟩ := follow_eq_ok_iff.mp hp
  obtain ⟨last, hlast⟩ := exists_last_step p
  have hcases : last = "" ∨ last = "." ∨ last = ".." := by
    by_contra hnot
    simp only [not_or] at hnot
    simp [endsInName, hlast, Path.isVoid, hnot] at hend
  rcases hcases with rfl | rfl | rfl
  · exact absurd hlast (last_step_ne_empty hempty hslash)
  · obtain ⟨front, hsteps⟩ := List.getLast?_eq_some_iff.mp hlast
    rw [hsteps] at hwalk
    obtain ⟨middle, hdirectory, rfl⟩ := exists_directory_of_walk hwalk
    exact hdirectory
  · rw [fileName?_of_last_step hlast] at hname
    cases hname

variable {source target : Path} {old : Location} {content : List UInt8}

/-- A file that cannot be moved to a path cannot be written there either. -/
theorem create_of_move {base : String} (hname : target.fileName? = some base)
    (hsource : t.locate home source = .ok old) (hfile : t.node? old = some (.file content))
    {e : FileError} (hmove : t.move home source target = .error e) (content' : List UInt8) :
    ∃ e', t.create home target content' = .error e' := by
  unfold create
  cases hslash : endsInSlash target with
  | true =>
      split
      next e' _ => exact ⟨e', rfl⟩
      next => exact ⟨_, rfl⟩
  | false =>
      rw [locateBare_eq_locate hslash]
      cases hlocate : t.locate home target with
      | error e' => exact ⟨e', rfl⟩
      | ok new =>
          have hdirectory : t.node? new = some .directory := by
            rw [move, hsource, hlocate] at hmove
            dsimp only at hmove
            rw [hfile] at hmove
            dsimp only at hmove
            split at hmove
            next hend => exact node?_of_not_endsInName hname hslash (by simpa using hend) hlocate
            next =>
              split at hmove
              next hdirectory => exact hdirectory
              next => cases hmove
          exact ⟨_, if_pos (by simp [hdirectory])⟩

/-- A new file that is moved to its target is placed there, and nothing else is
different. -/
theorem placed_of_move (hold : t.node? old = none) (hsource : t.locate home source = .ok old)
    (hmove : (t.insert old (.file content)).move home source target = .ok t') :
    ∃ place, t'.locate home target = .ok place ∧ t.Placed t' place content := by
  have hnew := ne_nil_of_node? hold nofun
  have hfile : (t.insert old (.file content)).node? old = some (.file content) := by
    rw [node?_insert hnew, if_pos rfl]
  rw [move, locate_of_covers (covers_insert hold _) hsource] at hmove
  cases hlocate : (t.insert old (.file content)).locate home target with
  | error e =>
      rw [hlocate] at hmove
      cases hmove
  | ok place =>
      rw [hlocate] at hmove
      dsimp only at hmove
      rw [hfile, erase_insert hold] at hmove
      dsimp only at hmove
      split at hmove
      next => cases hmove
      split at hmove
      next => cases hmove
      next hdirectory =>
        cases hmove
        have hplaced : t.Placed (t.insert place (.file content)) place content := by
          refine ⟨rfl, fun h => hdirectory ((covers_insert hold _).directory _ h),
            fun other => ?_⟩
          exact node?_insert (ne_nil_of_node? rfl hdirectory) _
        have hback : t.locate home target = .ok place :=
          locate_of_covers (covers_of_insert_file hnew content) hlocate
        exact ⟨place, locate_of_covers hplaced.covers hback, hplaced⟩

end FileTree

end Abacus
