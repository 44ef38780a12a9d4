import HackToolchain.Text.Scan

/-!
# What a scan finds

A scan without a fault has read every line, and each of its items has a line of its own, with the
number of that line in the text. The fault of a scan is that of the first line that cannot be read.
-/

namespace HackToolchain

namespace Text

variable {ε α : Type} {read : String → Except ε (Option α)}

theorem fault?_scanLines_eq_none_iff {first : Nat} {ls : List String} :
    (scanLines read first ls).fault? = none ↔ ∀ line ∈ ls, ∃ found, read line = .ok found := by
  induction ls generalizing first with
  | nil => simp [Scan.empty]
  | cons line ls ih =>
      rw [scanLines_cons, List.forall_mem_cons, ← @ih (first + 1)]
      cases hread : read line with
      | error fault => simp [Scan.prepend]
      | ok found => cases found <;> simp [Scan.prepend]

theorem map_value_items_scanLines {first : Nat} {ls : List String}
    (h : (scanLines read first ls).fault? = none) :
    (scanLines read first ls).items.map (·.value) =
      ls.filterMap fun line => (read line).toOption.join := by
  induction ls generalizing first with
  | nil => rfl
  | cons line ls ih =>
      rw [scanLines_cons] at h ⊢
      rw [List.filterMap_cons]
      cases hread : read line with
      | error fault => simp [hread, Scan.prepend] at h
      | ok found =>
          cases found with
          | none => exact ih (by simpa [hread, Scan.prepend] using h)
          | some value =>
              have hlater := ih (by simpa [hread, Scan.prepend] using h)
              exact congrArg (value :: ·) hlater

def Numbered.map {β : Type} (f : α → β) (entry : Numbered α) : Numbered β :=
  ⟨entry.line, f entry.value⟩

theorem scanLines_of_map_eq {β : Type} {read' : String → Except ε (Option β)} {f : α → β}
    {first : Nat} {ls ls' : List String}
    (h : ls'.map read' = ls.map fun line => (read line).map (Option.map f)) :
    scanLines read' first ls' =
      ⟨(scanLines read first ls).items.map (Numbered.map f), (scanLines read first ls).fault?⟩ := by
  induction ls generalizing first ls' with
  | nil =>
      obtain rfl : ls' = [] := by simpa using h
      rfl
  | cons line ls ih =>
      obtain ⟨line', rest, rfl, hline, hrest⟩ := List.map_eq_cons_iff.1 h
      have hline : read' line' = (read line).map (Option.map f) := hline
      rw [scanLines_cons, scanLines_cons, hline, ih hrest]
      cases read line with
      | error fault => rfl
      | ok found => cases found <;> rfl

def isReadable (read : String → Except ε (Option α)) (line : String) : Bool :=
  (read line).isOk

/-- The lines before the first one that cannot be read have the items of the scan. -/
theorem scanLines_takeWhile (first : Nat) (ls : List String) :
    scanLines read first (ls.takeWhile (isReadable read)) =
      ⟨(scanLines read first ls).items, none⟩ := by
  induction ls generalizing first with
  | nil => rfl
  | cons line ls ih =>
      cases hread : read line with
      | error fault =>
          have hno : ¬isReadable read line = true := by
            simp [isReadable, hread, Except.isOk, Except.toBool]
          rw [List.takeWhile_cons_of_neg hno, scanLines_cons, hread]
          rfl
      | ok found =>
          have hok : isReadable read line = true := by
            rw [isReadable, hread]
            rfl
          rw [List.takeWhile_cons_of_pos hok, scanLines_cons, scanLines_cons, ih, hread]
          cases found <;> rfl

theorem exists_of_fault?_scanLines {first : Nat} {ls : List String} {fault : Numbered ε}
    (h : (scanLines read first ls).fault? = some fault) :
    ∃ before line after, ls = before ++ line :: after ∧ fault.line = first + before.length ∧
      read line = .error fault.value ∧ ∀ l ∈ before, ∃ found, read l = .ok found := by
  induction ls generalizing first with
  | nil => simp [Scan.empty] at h
  | cons line ls ih =>
      rw [scanLines_cons] at h
      cases hread : read line with
      | error value =>
          obtain rfl : (⟨first, value⟩ : Numbered ε) = fault := by
            simpa [hread, Scan.prepend] using h
          exact ⟨[], line, ls, rfl, rfl, hread, by simp⟩
      | ok found =>
          have hlater : (scanLines read (first + 1) ls).fault? = some fault := by
            cases found <;> simpa [hread, Scan.prepend] using h
          obtain ⟨before, other, after, rfl, hline, hother, hbefore⟩ := ih hlater
          refine ⟨line :: before, other, after, rfl, ?_, hother,
            List.forall_mem_cons.2 ⟨⟨found, hread⟩, hbefore⟩⟩
          rw [hline, List.length_cons]
          omega

/-- The fault of a scan is that of the first line that cannot be read. -/
theorem fault?_scanLines_append_cons {first : Nat} {before after : List String} {line : String}
    {value : ε} (hbefore : ∀ l ∈ before, ∃ found, read l = .ok found)
    (h : read line = .error value) :
    (scanLines read first (before ++ line :: after)).fault? =
      some ⟨first + before.length, value⟩ := by
  induction before generalizing first with
  | nil => simp [scanLines_cons, h, Scan.prepend]
  | cons l before ih =>
      obtain ⟨⟨found, hl⟩, hbefore⟩ := List.forall_mem_cons.1 hbefore
      have hlater := @ih (first + 1) hbefore
      rw [Nat.add_right_comm] at hlater
      rw [List.cons_append, scanLines_cons, hl]
      cases found <;> exact hlater

/-- An item stands on a line of its own, and the items before it on the lines before. -/
theorem exists_of_items_scanLines {first : Nat} {ls : List String} {before after : List (Numbered α)}
    {item : Numbered α} (h : scanLines read first ls = ⟨before ++ item :: after, none⟩) :
    ∃ linesBefore line linesAfter, ls = linesBefore ++ line :: linesAfter ∧
      item.line = first + linesBefore.length ∧ read line = .ok (some item.value) ∧
      scanLines read first linesBefore = ⟨before, none⟩ := by
  induction ls generalizing first before with
  | nil => simp [Scan.empty] at h
  | cons line ls ih =>
      rw [scanLines_cons] at h
      generalize hlater : scanLines read (first + 1) ls = later at h
      obtain ⟨items, fault?⟩ := later
      cases hread : read line with
      | error fault => simp [hread, Scan.prepend] at h
      | ok found =>
          -- one line more in front of the lines before the item
          have hcons {before' : List (Numbered α)} (hitems : items = before' ++ item :: after)
              (hbefore : (⟨before', none⟩ : Scan ε α).prepend first (.ok found) = ⟨before, none⟩)
              (hfault : fault? = none) :
              ∃ linesBefore line' linesAfter, line :: ls = linesBefore ++ line' :: linesAfter ∧
                item.line = first + linesBefore.length ∧ read line' = .ok (some item.value) ∧
                scanLines read first linesBefore = ⟨before, none⟩ := by
            subst hitems hfault
            obtain ⟨linesBefore, line', linesAfter, rfl, hline, hitem, hscan⟩ := ih hlater
            refine ⟨line :: linesBefore, line', linesAfter, rfl, ?_, hitem, ?_⟩
            · rw [hline, List.length_cons]
              omega
            · rw [scanLines_cons, hread, hscan, hbefore]
          cases found with
          | none =>
              simp only [hread, Scan.prepend, Scan.mk.injEq] at h
              exact hcons h.1 rfl h.2
          | some value =>
              simp only [hread, Scan.prepend, Scan.mk.injEq] at h
              obtain ⟨hitems, hfault⟩ := h
              cases before with
              | nil =>
                  obtain ⟨rfl, -⟩ := List.cons.inj hitems
                  exact ⟨[], line, ls, rfl, rfl, hread, rfl⟩
              | cons other before' =>
                  obtain ⟨rfl, htail⟩ := List.cons.inj hitems
                  exact hcons htail rfl hfault

end Text

end HackToolchain
