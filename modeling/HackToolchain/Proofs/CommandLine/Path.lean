import HackToolchain.CommandLine.Path
import HackToolchain.Proofs.Text.Pieces

/-!
# Paths as lists of components

Every path is `ofParts parents name`: a slash stands behind each component but the last. What a path
says about its file name, its extension and the path next to it with another extension is stated for
paths in this form.
-/

namespace HackToolchain

namespace CommandLine

namespace Path

/-- The path with a slash behind each of its components but the last. -/
def ofParts (parents : List (List Char)) (name : List Char) : Path :=
  ⟨String.ofList ((parents.flatMap fun part => part ++ ['/']) ++ name)⟩

structure AreParts (parents : List (List Char)) (name : List Char) : Prop where
  parents : ∀ part ∈ parents, '/' ∉ part
  name : '/' ∉ name

theorem exists_ofParts (path : Path) :
    ∃ parents name, path = ofParts parents name ∧ AreParts parents name := by
  obtain ⟨parents, name, htext, hparents, hname⟩ := Text.exists_parts '/' path.text.toList
  refine ⟨parents, name, ?_, hparents, hname⟩
  rw [ofParts, ← htext, String.ofList_toList]

@[simp] theorem toList_ofParts (parents : List (List Char)) (name : List Char) :
    (ofParts parents name).text.toList = (parents.flatMap fun part => part ++ ['/']) ++ name :=
  String.toList_ofList

section

variable {parents : List (List Char)} {name stem extension : List Char}

theorem isSlash_eq_false_of_not_mem {cs : List Char} (h : '/' ∉ cs) : ∀ c ∈ cs, isSlash c = false :=
  fun _ hc => beq_false_of_ne fun heq => h (heq ▸ hc)

theorem isIdle_eq_false_iff :
    isIdle name = false ↔ ¬(String.ofList name = "" ∨ String.ofList name = ".") := by
  rw [String.ofList_eq_empty_iff, show "." = String.ofList ['.'] from rfl, String.ofList_inj]
  simp [isIdle]

theorem components_ofParts (h : AreParts parents name) :
    (ofParts parents name).components = parents ++ [name] := by
  rw [components, toList_ofParts]
  exact Text.pieces_flatMap_append rfl
    (fun part hpart => isSlash_eq_false_of_not_mem (h.parents part hpart))
    (isSlash_eq_false_of_not_mem h.name)

/-- A component that counts is the file name, unless it leads upwards. -/
theorem splitName?_ofParts (h : AreParts parents name) (hidle : isIdle name = false)
    (hup : name ≠ ['.', '.']) :
    (ofParts parents name).splitName? = some (name, parents.reverse) := by
  have htrimmed : (ofParts parents name).trimmed = name :: parents.reverse := by
    rw [trimmed, components_ofParts h, List.reverse_append, List.reverse_singleton,
      List.singleton_append, List.dropWhile_cons_of_neg (by simp [hidle])]
  rw [splitName?, htrimmed]
  split
  · next heq => cases heq
  · next heq => exact absurd (List.cons.inj heq).1 hup
  · next heq =>
      obtain ⟨rfl, rfl⟩ := List.cons.inj heq
      rfl

theorem splitName?_ofParts_up (h : AreParts parents ['.', '.']) :
    (ofParts parents ['.', '.']).splitName? = none := by
  rw [splitName?, trimmed, components_ofParts h, List.reverse_append]
  rfl

theorem splitExtension_append (hstem : stem ≠ []) (hextension : '.' ∉ extension) :
    splitExtension (stem ++ '.' :: extension) = (stem, some extension) := by
  have hsplit : Text.splitFirst ['.'] (stem ++ '.' :: extension).reverse =
      some (extension.reverse, stem.reverse) := by
    rw [List.reverse_append, List.reverse_cons, List.append_assoc, List.singleton_append]
    exact Text.splitFirst_append_cons (by simpa using hextension) _
  rw [splitExtension, hsplit]
  split
  · next heq => cases heq
  · next heq => exact absurd (congrArg Prod.snd (Option.some.inj heq)) (by simpa using hstem)
  · next heq =>
      obtain ⟨rfl, rfl⟩ := Prod.mk.inj (Option.some.inj heq)
      rw [List.reverse_reverse, List.reverse_reverse]

theorem of_splitExtension (h : splitExtension name = (stem, some extension)) :
    name = stem ++ '.' :: extension ∧ stem ≠ [] := by
  rw [splitExtension] at h
  split at h
  · simp at h
  · simp at h
  · next front hne hsplit =>
      obtain ⟨rfl, heq⟩ := Prod.mk.inj h
      obtain rfl := Option.some.inj heq
      have hname := congrArg List.reverse (Text.eq_append_of_splitFirst hsplit)
      exact ⟨by simpa using hname, fun hnil => hne (List.reverse_eq_nil_iff.1 hnil)⟩

theorem extension?_ofParts (h : AreParts parents name) (hidle : isIdle name = false)
    (hup : name ≠ ['.', '.']) (hname : splitExtension name = (stem, some extension)) :
    (ofParts parents name).extension? = some (String.ofList extension) := by
  rw [extension?, splitName?_ofParts h hidle hup, Option.bind_some, hname]
  rfl

theorem ne_up_of_hasExtension {extension : String} (h : AreParts parents name)
    (hextension : (ofParts parents name).hasExtension extension = true) : name ≠ ['.', '.'] := by
  rintro rfl
  rw [hasExtension, extension?, splitName?_ofParts_up h] at hextension
  simp at hextension

/-- A path with an extension ends in a dot and the extension, if its last component counts. -/
theorem exists_stem_of_hasExtension {extension : String} (h : AreParts parents name)
    (hidle : isIdle name = false) (hextension : (ofParts parents name).hasExtension extension = true) :
    ∃ stem, stem ≠ [] ∧ name = stem ++ '.' :: extension.toList := by
  have hup := ne_up_of_hasExtension h hextension
  rw [hasExtension, extension?, splitName?_ofParts h hidle hup, beq_iff_eq, Option.bind_some,
    Option.map_eq_some_iff] at hextension
  obtain ⟨found, hfound, rfl⟩ := hextension
  obtain ⟨hname, hstem⟩ := of_splitExtension (Prod.ext rfl hfound)
  exact ⟨_, hstem, by rwa [String.toList_ofList]⟩

theorem AreParts.withExtension (h : AreParts parents (stem ++ '.' :: extension)) {new : List Char}
    (hnew : '/' ∉ new) : AreParts parents (stem ++ '.' :: new) := by
  have hstem : '/' ∉ stem := fun hmem => h.name (List.mem_append_left _ hmem)
  exact ⟨h.parents, by simp [hstem, hnew]⟩

theorem isIdle_append_dot (hstem : stem ≠ []) (extension : List Char) :
    isIdle (stem ++ '.' :: extension) = false := by
  have hlength : 0 < stem.length := List.length_pos_iff.2 hstem
  refine Bool.or_eq_false_iff.2 ⟨beq_false_of_ne fun heq => ?_, beq_false_of_ne fun heq => ?_⟩
  · simp at heq
  · have hsingle := congrArg List.length heq
    simp at hsingle
    omega

theorem withoutExtension_ofParts (h : AreParts parents (stem ++ '.' :: extension)) (hstem : stem ≠ [])
    (hup : stem ++ '.' :: extension ≠ ['.', '.']) (hextension : '.' ∉ extension) :
    (ofParts parents (stem ++ '.' :: extension)).withoutExtension = ofParts parents (stem ++ ['.']) := by
  have hfound := extension?_ofParts h (isIdle_append_dot hstem extension) hup
    (splitExtension_append hstem hextension)
  rw [withoutExtension, hfound]
  -- the text ends with the extension, which the cut counts off
  have hsplit : (ofParts parents (stem ++ '.' :: extension)).text.toList =
      (ofParts parents (stem ++ ['.'])).text.toList ++ extension := by
    simp
  have hlength : (ofParts parents (stem ++ '.' :: extension)).text.length -
      (String.ofList extension).length = (ofParts parents (stem ++ ['.'])).text.toList.length := by
    rw [← String.length_toList, hsplit, String.length_ofList, List.length_append,
      Nat.add_sub_cancel]
  simp only [hlength, hsplit]
  rw [List.take_left' rfl, String.ofList_toList]

/-- The path with another extension, where the stem is more than a dot. -/
theorem withExtension_ofParts (h : AreParts parents (stem ++ '.' :: extension))
    (hstem : stem ≠ []) (hdot : stem ≠ ['.']) (hextension : '.' ∉ extension) (new : String) :
    (ofParts parents (stem ++ '.' :: extension)).withExtension new =
      ofParts parents (stem ++ '.' :: new.toList) := by
  have hup {tail : List Char} (htail : '.' ∉ tail) : stem ++ '.' :: tail ≠ ['.', '.'] := by
    intro heq
    cases stem with
    | nil => exact hstem rfl
    | cons c rest =>
        cases rest with
        | nil => exact hdot (by simp at heq; simp [heq.1])
        | cons d rest => simp at heq
  have hparts : AreParts parents (stem ++ ['.']) := h.withExtension List.not_mem_nil
  rw [withExtension, withoutExtension_ofParts h hstem (hup hextension) hextension,
    splitName?_ofParts hparts (isIdle_append_dot hstem []) (hup (by simp))]
  simp only [splitExtension_append hstem (List.not_mem_nil : '.' ∉ [])]
  rw [List.reverse_cons, List.reverse_reverse, Text.intercalate_append_singleton, ofParts]
  congr 1
  rw [← String.toList_inj]
  simp

/-- The name `.` with an extension has no stem to put another extension behind. -/
theorem withExtension_ofParts_dot (h : AreParts parents ('.' :: '.' :: extension))
    (hne : extension ≠ []) (hextension : '.' ∉ extension) (new : String) :
    (ofParts parents ('.' :: '.' :: extension)).withExtension new = ofParts parents ['.', '.'] := by
  have hup : ['.'] ++ '.' :: extension ≠ ['.', '.'] := by simpa using hne
  have hsplit : AreParts parents (['.'] ++ '.' :: extension) := h
  have hparts : AreParts parents ['.', '.'] := hsplit.withExtension List.not_mem_nil
  have hcut := withoutExtension_ofParts hsplit (List.cons_ne_nil _ _) hup hextension
  simp only [List.singleton_append] at hcut
  rw [withExtension, hcut, splitName?_ofParts_up hparts]

end

/-- A name that an entry of a directory can have. -/
structure IsName (name : String) : Prop where
  counts : isIdle name.toList = false
  noSlash : '/' ∉ name.toList
  not_up : name ≠ ".."

section

variable {name : String}

end

end Path

end CommandLine

end HackToolchain
