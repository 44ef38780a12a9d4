import HackToolchain.CommandLine.FileTree
import HackToolchain.Proofs.CommandLine.Path
import HackToolchain.Proofs.List

/-!
# Reading and writing in a tree of files

A path leads to the entry `name` of the directory that its other components lead to. Putting a file
where no directory is changes no other place and no way through the directories, so what was written
is read again and what stands elsewhere stays.
-/

namespace HackToolchain

namespace CommandLine

namespace FileTree

variable {tree : FileTree} {place : Place}

section Entries

variable {entry : Entry}

theorem lookup_cons_eq_ite (key other : Place) (entry : Entry) (entries : List (Place × Entry)) :
    ((key, entry) :: entries).lookup other =
      if other = key then some entry else entries.lookup other := by
  by_cases h : other = key
  · simp [h]
  · simp [List.lookup_cons, h, beq_false_of_ne h]

theorem lookup_map_replace (entries : List (Place × Entry)) (place other : Place) (entry : Entry) :
    (entries.map fun old => if old.1 = place then (place, entry) else old).lookup other =
      if other = place then (entries.lookup place).map fun _ => entry else entries.lookup other := by
  induction entries with
  | nil => simp
  | cons old entries ih =>
      obtain ⟨key, found⟩ := old
      rw [List.map_cons, lookup_cons_eq_ite, lookup_cons_eq_ite]
      by_cases hkey : key = place
      · rw [if_pos hkey, lookup_cons_eq_ite, ih, hkey]
        split <;> simp
      · rw [if_neg hkey, lookup_cons_eq_ite, ih, if_neg (Ne.symm hkey)]
        by_cases hother : other = place
        · simp [hother, Ne.symm hkey]
        · simp [hother]

theorem lookup_put (tree : FileTree) (place other : Place) (entry : Entry) :
    (tree.put place entry).entries.lookup other =
      if other = place then some entry else tree.entries.lookup other := by
  cases hfound : tree.entries.lookup place with
  | some old =>
      simp only [put, hfound, Option.isSome_some, if_true]
      rw [lookup_map_replace, hfound]
      rfl
  | none =>
      simp only [put, hfound, Option.isSome_none, Bool.false_eq_true, if_false]
      rw [List.lookup_append, lookup_cons_eq_ite]
      by_cases hother : other = place
      · simp [hother, hfound]
      · simp [hother]

theorem entry?_put (hplace : place ≠ []) (other : Place) :
    entry? (tree.put place entry) other = if other = place then some entry else tree.entry? other := by
  cases other with
  | nil => rw [if_neg hplace.symm]; rfl
  | cons name rest => exact lookup_put tree place (name :: rest) entry

theorem isDirectoryAt_iff : tree.isDirectoryAt place = true ↔ tree.entry? place = some .directory := by
  rw [isDirectoryAt]
  split
  · next h => simp [h]
  · next h => simpa using h

theorem current_put (tree : FileTree) (place : Place) (entry : Entry) :
    (tree.put place entry).current = tree.current := by
  rw [put]
  split <;> rfl

theorem mem_entries_put {found : Place × Entry} (h : found ∈ (tree.put place entry).entries) :
    found ∈ tree.entries ∨ found = (place, entry) := by
  rw [put] at h
  split at h
  · obtain ⟨old, hold, rfl⟩ := List.mem_map.1 h
    split
    · exact .inr rfl
    · exact .inl hold
  · simpa using h

theorem nodup_put (h : (tree.entries.map Prod.fst).Nodup) :
    ((tree.put place entry).entries.map Prod.fst).Nodup := by
  rw [put]
  split
  · have hkeys : (fun old : Place × Entry => (if old.1 = place then (place, entry) else old).1) =
        Prod.fst := by
      funext old
      split
      · next heq => exact heq.symm
      · rfl
    rw [List.map_map, Function.comp_def, hkeys]
    exact h
  · next hnone =>
      have hfresh : place ∉ tree.entries.map Prod.fst := fun hmem => by
        obtain ⟨old, hold, rfl⟩ := List.mem_map.1 hmem
        exact hnone (List.lookup_isSome_iff.2 ⟨old, hold, beq_self_eq_true _⟩)
      rw [List.map_append, List.map_singleton, List.nodup_append]
      refine ⟨h, List.nodup_singleton _, fun key hkey other hother heq => hfresh ?_⟩
      rw [← show other = place from List.mem_singleton.1 hother, ← heq]
      exact hkey

end Entries

section Walk

variable {component : String}

theorem isDirectoryAt_of_follow {next : Place} (h : tree.follow place component = .ok next) :
    tree.isDirectoryAt place = true := by
  rw [follow] at h
  cases hdirectory : tree.isDirectoryAt place with
  | true => rfl
  | false => simp [hdirectory] at h

theorem follow_empty (h : tree.isDirectoryAt place = true) : tree.follow place "" = .ok place := by
  simp [follow, h]

theorem follow_name {name : String} (hdirectory : tree.isDirectoryAt place = true)
    (hname : Path.IsName name) {entry : Entry} (h : tree.entry? (place ++ [name]) = some entry) :
    tree.follow place name = .ok (place ++ [name]) := by
  have hempty : name ≠ "" := by
    rintro rfl
    exact absurd hname.counts (by decide)
  have hdot : name ≠ "." := by
    rintro rfl
    exact absurd hname.counts (by decide)
  simp [follow, hdirectory, hempty, hdot, hname.not_up, h]

theorem isDirectoryAt_of_foldlM {start : Place} {components : List String}
    (h : components.foldlM tree.follow start = .ok place)
    (hdirectory : tree.isDirectoryAt place = true) : tree.isDirectoryAt start = true := by
  cases components with
  | nil =>
      obtain rfl : start = place := Except.ok.inj h
      exact hdirectory
  | cons component rest =>
      obtain ⟨next, hnext, -⟩ := exists_of_bind_eq_ok h
      exact isDirectoryAt_of_follow hnext

/-- Empty components change nothing on the way to a directory. -/
theorem foldlM_of_filter {start : Place} {components : List String}
    (h : (components.filter (· ≠ "")).foldlM tree.follow start = .ok place)
    (hdirectory : tree.isDirectoryAt place = true) :
    components.foldlM tree.follow start = .ok place := by
  induction components generalizing start with
  | nil => exact h
  | cons component rest ih =>
      by_cases hempty : component = ""
      · subst hempty
        have hrest := ih (by simpa using h)
        rw [List.foldlM_cons, follow_empty (isDirectoryAt_of_foldlM hrest hdirectory)]
        exact hrest
      · rw [List.filter_cons_of_pos (by simpa using hempty)] at h
        obtain ⟨next, hnext, hrest⟩ := exists_of_bind_eq_ok h
        rw [List.foldlM_cons, hnext]
        exact ih hrest

/-- The place that components lead to, from the root if the first one is empty. -/
def walk (tree : FileTree) (parents : List (List Char)) : Except StorageFault Place :=
  (parents.map String.ofList).foldlM tree.follow
    (if parents.head? = some [] then [] else tree.current)

variable {parents : List (List Char)} {name : List Char}

theorem origin_ofParts (tree : FileTree) (h : Path.AreParts parents name) :
    tree.origin (.ofParts parents name) =
      if parents.head? = some [] then [] else tree.current := by
  rw [origin, Path.toList_ofParts]
  have hslash {cs : List Char} (hcs : '/' ∉ cs) : cs.head? ≠ some '/' := fun heq =>
    hcs (List.mem_of_mem_head? heq)
  cases parents with
  | nil => rw [List.flatMap_nil, List.nil_append, if_neg (hslash h.name)]; rfl
  | cons part parents =>
      cases part with
      | nil => rfl
      | cons c part =>
          have hc := hslash (h.parents _ List.mem_cons_self)
          rw [if_neg (by simpa using hc), if_neg (by simp)]

theorem resolve_ofParts (tree : FileTree) (h : Path.AreParts parents name)
    (hne : (Path.ofParts parents name).text ≠ "") :
    tree.resolve (.ofParts parents name) =
      tree.walk parents >>= fun place => tree.follow place (String.ofList name) := by
  rw [resolve, if_neg hne, origin_ofParts tree h, steps, Path.components_ofParts h, List.map_append,
    List.foldlM_append]
  refine congrArg (tree.walk parents >>= ·) (funext fun place => ?_)
  rw [List.map_singleton, List.foldlM_cons]
  cases tree.follow place (String.ofList name) <;> rfl

theorem getLast?_ofParts_nil (hne : (Path.ofParts parents []).text ≠ "") :
    (Path.ofParts parents []).text.toList.getLast? = some '/' := by
  rcases List.eq_nil_or_concat parents with rfl | ⟨before, part, rfl⟩
  · exact absurd rfl hne
  · simp

theorem target_ne_ok_of_slash {path : Path} (h : path.text.toList.getLast? = some '/') :
    tree.target path ≠ .ok place := by
  intro htarget
  rw [target] at htarget
  split at htarget
  · cases htarget
  · split at htarget
    · cases htarget
    · obtain ⟨parent, -, hparent⟩ := exists_of_bind_eq_ok htarget
      split at hparent
      · cases hparent
      · rw [if_pos (.inl h)] at hparent
        cases hparent

/-- A file is written into the directory that the other components lead to. -/
theorem of_target (h : Path.AreParts parents name)
    (htarget : tree.target (.ofParts parents name) = .ok place) :
    ∃ parent, tree.walk parents = .ok parent ∧ tree.isDirectoryAt parent = true ∧
      place = parent ++ [String.ofList name] ∧ Path.IsName (String.ofList name) ∧
      tree.isDirectoryAt place = false := by
  have hne : (Path.ofParts parents name).text ≠ "" := by
    intro hempty
    rw [target, if_pos hempty] at htarget
    cases htarget
  have hname : name ≠ [] := by
    rintro rfl
    exact target_ne_ok_of_slash (getLast?_ofParts_nil hne) htarget
  have hcounted : String.ofList name ≠ "" := fun heq => hname (String.ofList_eq_empty_iff.1 heq)
  have hkeep : [String.ofList name].filter (· ≠ "") = [String.ofList name] :=
    List.filter_cons_of_pos (by simpa using hcounted)
  rw [target, if_neg hne, origin_ofParts tree h, steps, Path.components_ofParts h, List.map_append,
    List.map_singleton, List.filter_append, hkeep, List.reverse_append, List.reverse_singleton,
    List.singleton_append] at htarget
  obtain ⟨parent, hwalk, hparent⟩ := exists_of_bind_eq_ok htarget
  rw [List.reverse_reverse] at hwalk
  split at hparent
  · cases hparent
  · next hdirectory =>
      rw [Bool.not_eq_true, Bool.not_eq_false'] at hdirectory
      split at hparent
      · cases hparent
      · next hcounts =>
          split at hparent
          · cases hparent
          · next hfree =>
              obtain rfl := Except.ok.inj hparent
              rw [not_or, not_or] at hcounts
              refine ⟨parent, foldlM_of_filter hwalk hdirectory, hdirectory, rfl, ⟨?_, ?_, hcounts.2.2⟩,
                Bool.not_eq_true _ ▸ hfree⟩
              · rw [String.toList_ofList, Path.isIdle_eq_false_iff, not_or]
                exact ⟨hcounted, hcounts.2.1⟩
              · simpa using h.name

theorem isDirectoryAt_of_target {path : Path} (h : tree.target path = .ok place) :
    tree.isDirectoryAt place = false := by
  obtain ⟨parents, name, rfl, hparts⟩ := path.exists_ofParts
  obtain ⟨-, -, -, -, -, hfree⟩ := of_target hparts h
  exact hfree

end Walk

section Writing

variable {bytes : ByteArray} (hfree : tree.isDirectoryAt place = false)
include hfree

theorem ne_nil_of_not_isDirectoryAt : place ≠ [] := by
  rintro rfl
  cases hfree

theorem isDirectoryAt_put (other : Place) :
    (tree.put place (.file bytes)).isDirectoryAt other = tree.isDirectoryAt other := by
  rw [Bool.eq_iff_iff, isDirectoryAt_iff, isDirectoryAt_iff,
    entry?_put (ne_nil_of_not_isDirectoryAt hfree)]
  split
  · next heq =>
      rw [heq, ← isDirectoryAt_iff, hfree]
      simp
  · rfl

/-- A way that is there stays when a file is put where no directory is. -/
theorem follow_put {start next : Place} {component : String}
    (h : tree.follow start component = .ok next) :
    (tree.put place (.file bytes)).follow start component = .ok next := by
  rw [follow] at h ⊢
  rw [isDirectoryAt_put hfree, entry?_put (ne_nil_of_not_isDirectoryAt hfree)]
  by_cases heq : start ++ [component] = place
  · -- with the file, the last component leads to an entry in any case
    rw [if_pos heq, Option.isSome_some, if_pos rfl]
    split_ifs at h ⊢ <;> exact h
  · rw [if_neg heq]
    exact h

theorem foldlM_put {start next : Place} {components : List String}
    (h : components.foldlM tree.follow start = .ok next) :
    components.foldlM (tree.put place (.file bytes)).follow start = .ok next := by
  induction components generalizing start with
  | nil => exact h
  | cons component rest ih =>
      obtain ⟨middle, hmiddle, hrest⟩ := exists_of_bind_eq_ok h
      rw [List.foldlM_cons, follow_put hfree hmiddle]
      exact ih hrest

theorem walk_put {parents : List (List Char)} {next : Place} (h : tree.walk parents = .ok next) :
    (tree.put place (.file bytes)).walk parents = .ok next := by
  rw [walk, current_put]
  exact foldlM_put hfree h

theorem resolve_put {path : Path} {other : Place} (h : tree.resolve path = .ok other) :
    (tree.put place (.file bytes)).resolve path = .ok other := by
  rw [resolve] at h ⊢
  split
  · next hempty => rwa [if_pos hempty] at h
  · next hne =>
      rw [if_neg hne] at h
      rw [origin, current_put]
      exact foldlM_put hfree h

end Writing

section Text

variable {path : Path} {text : String}

theorem fromUTF8?_eq_some_iff {bytes : ByteArray} :
    String.fromUTF8? bytes = some text ↔ bytes = text.toUTF8 := by
  rw [String.fromUTF8?]
  constructor
  · intro h
    split at h
    · rw [← Option.some.inj h]
      rfl
    · cases h
  · rintro rfl
    rw [dif_pos (show text.toUTF8.IsValidUTF8 from text.isValidUTF8)]
    rfl

/-- A path has a text when it leads to a file with the bytes of that text. -/
theorem readText_eq_ok_iff : tree.readText path = .ok text ↔
    ∃ place, tree.resolve path = .ok place ∧ tree.entry? place = some (.file text.toUTF8) := by
  constructor
  · intro h
    obtain ⟨place, hplace, hread⟩ := exists_of_bind_eq_ok h
    refine ⟨place, hplace, ?_⟩
    rcases hentry : tree.entry? place with _ | _ | bytes
    · simp [hentry] at hread
    · simp [hentry] at hread
    · cases htext : String.fromUTF8? bytes with
      | none => simp [hentry, htext] at hread
      | some found =>
          obtain rfl : found = text := by simpa [hentry, htext] using hread
          rw [fromUTF8?_eq_some_iff.1 htext]
  · rintro ⟨place, hplace, hentry⟩
    rw [readText, hplace]
    simp only [bind, Except.bind, hentry, fromUTF8?_eq_some_iff.2 rfl]

/-- A path that is read ends in the name of the file, unless it leads upwards at last. -/
theorem resolve_of_readText {parents : List (List Char)} {name : List Char}
    (h : Path.AreParts parents name) (hup : name ≠ ['.', '.'])
    (hread : tree.readText (.ofParts parents name) = .ok text) :
    Path.isIdle name = false ∧
      ∃ parent, tree.resolve (.ofParts parents name) = .ok (parent ++ [String.ofList name]) := by
  obtain ⟨place, hplace, hentry⟩ := readText_eq_ok_iff.1 hread
  have hne : (Path.ofParts parents name).text ≠ "" := fun hempty => by
    simp [resolve, hempty] at hplace
  have hfollow := hplace
  rw [resolve_ofParts tree h hne] at hfollow
  obtain ⟨parent, -, hfollow⟩ := exists_of_bind_eq_ok hfollow
  have hdirectory := isDirectoryAt_of_follow hfollow
  -- a component that does not count stays in a directory, where no text is read
  have hmoved : place ≠ parent := by
    rintro rfl
    rw [isDirectoryAt_iff.1 hdirectory] at hentry
    cases hentry
  rw [follow, hdirectory, Bool.not_true, if_neg Bool.false_ne_true] at hfollow
  split at hfollow
  · exact absurd (Except.ok.inj hfollow).symm hmoved
  · next hcounts =>
      split at hfollow
      · next heq => exact absurd (String.ofList_inj.1 heq) hup
      · split at hfollow
        · exact ⟨Path.isIdle_eq_false_iff.2 hcounts, parent, by rw [hplace, Except.ok.inj hfollow]⟩
        · cases hfollow

theorem writeText_eq_ok_iff {after : FileTree} : tree.writeText path text = (.ok (), after) ↔
    ∃ place, tree.target path = .ok place ∧ tree.put place (.file text.toUTF8) = after := by
  rw [writeText]
  cases tree.target path <;> simp

theorem readText_writeText {after : FileTree} (h : tree.writeText path text = (.ok (), after)) :
    after.readText path = .ok text := by
  obtain ⟨place, htarget, rfl⟩ := writeText_eq_ok_iff.1 h
  obtain ⟨parents, name, rfl, hparts⟩ := path.exists_ofParts
  obtain ⟨parent, hwalk, hdirectory, rfl, hname, hfree⟩ := of_target hparts htarget
  have hne : (Path.ofParts parents name).text ≠ "" := fun hempty => by
    simp [target, hempty] at htarget
  have hentry : entry? (tree.put (parent ++ [String.ofList name]) (.file text.toUTF8))
      (parent ++ [String.ofList name]) = some (.file text.toUTF8) := by
    rw [entry?_put (ne_nil_of_not_isDirectoryAt hfree), if_pos rfl]
  rw [← isDirectoryAt_put hfree] at hdirectory
  refine readText_eq_ok_iff.2 ⟨_, ?_, hentry⟩
  rw [resolve_ofParts _ hparts hne, walk_put hfree hwalk]
  exact follow_name hdirectory hname hentry

theorem readText_put_of_ne {other : Path} {place : Place} (bytes : ByteArray)
    (hfree : tree.isDirectoryAt place = false)
    (hne : tree.resolve other ≠ .ok place) (h : tree.readText other = .ok text) :
    (tree.put place (.file bytes)).readText other = .ok text := by
  obtain ⟨found, hfound, hentry⟩ := readText_eq_ok_iff.1 h
  refine readText_eq_ok_iff.2 ⟨found, resolve_put hfree hfound, ?_⟩
  rw [entry?_put (ne_nil_of_not_isDirectoryAt hfree), if_neg]
  · exact hentry
  · rintro rfl
    exact hne hfound

end Text

end FileTree

end CommandLine

end HackToolchain
