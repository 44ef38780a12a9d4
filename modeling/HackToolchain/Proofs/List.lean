import Mathlib.Data.List.Induction
import Mathlib.Data.List.Nodup

/-!
# Lists

What the other modules need of lists in general: a quantifier over the elements of a list is decided
on these elements only, also where the type is finite, dropping repetitions commutes with adding an
element at the end and with an injection, joined lists without repetitions have nothing in common,
and a pass over a list that can fail has either a result in the place of each element or the first
error.
-/

namespace HackToolchain

/-- `List.decidableBAll` before the instance that goes through all elements of a finite type, since
there are too many words for that. -/
scoped instance (priority := high) decidableForallMem {α : Type} (xs : List α) (p : α → Prop)
    [DecidablePred p] : Decidable (∀ x ∈ xs, p x) :=
  List.decidableBAll p xs

theorem eraseDups_append_singleton {α : Type} [BEq α] [LawfulBEq α] (xs : List α) (x : α) :
    (xs ++ [x]).eraseDups = if x ∈ xs then xs.eraseDups else xs.eraseDups ++ [x] := by
  rw [List.eraseDups_append]
  by_cases h : x ∈ xs
  · simp [List.removeAll, h]
  · simp [List.removeAll, h, List.eraseDups_cons]

theorem nodup_eraseDups {α : Type} [BEq α] [LawfulBEq α] (xs : List α) : xs.eraseDups.Nodup := by
  induction xs using List.reverseRecOn with
  | nil => exact .nil
  | append_singleton xs x ih =>
      rw [eraseDups_append_singleton]
      split
      · exact ih
      · next h =>
          rw [List.nodup_append]
          refine ⟨ih, List.pairwise_singleton _ x, fun y hy z hz heq => h ?_⟩
          rwa [← List.mem_singleton.1 hz, ← heq, ← List.mem_eraseDups]

theorem length_eraseDups_le {α : Type} [BEq α] [LawfulBEq α] (xs : List α) :
    xs.eraseDups.length ≤ xs.length := by
  induction xs using List.reverseRecOn with
  | nil => exact Nat.le_refl _
  | append_singleton xs x ih =>
      rw [eraseDups_append_singleton, List.length_append, List.length_singleton]
      split
      · exact Nat.le_succ_of_le ih
      · rw [List.length_append, List.length_singleton]
        exact Nat.succ_le_succ ih

/-- Without repetitions, an element has its place right after those that come before it. -/
theorem getElem?_eraseDups_append_cons {α : Type} [BEq α] [LawfulBEq α] {before : List α} {x : α}
    (h : x ∉ before) (after : List α) :
    (before ++ x :: after).eraseDups[before.eraseDups.length]? = some x := by
  have hkeep : (x :: after).removeAll before = x :: after.removeAll before := by
    simp [List.removeAll, h]
  rw [List.eraseDups_append, hkeep, List.eraseDups_cons,
    List.getElem?_append_right (Nat.le_refl _), Nat.sub_self]
  rfl

/-- If joining lists repeats nothing then no two of them have an element in common. -/
theorem index_eq_of_nodup_flatMap {α β : Type} {xs : List α} {f : α → List β}
    (h : (xs.flatMap f).Nodup) {i j : Nat} {x y : α} {b : β} (hi : xs[i]? = some x)
    (hj : xs[j]? = some y) (hx : b ∈ f x) (hy : b ∈ f y) : i = j := by
  obtain ⟨hlti, rfl⟩ := List.getElem?_eq_some_iff.1 hi
  obtain ⟨hltj, rfl⟩ := List.getElem?_eq_some_iff.1 hj
  have hdisjoint := List.pairwise_iff_getElem.1 (List.nodup_flatMap.1 h).2
  rcases Nat.lt_trichotomy i j with hlt | heq | hgt
  · exact absurd hy (hdisjoint i j hlti hltj hlt hx)
  · exact heq
  · exact absurd hx (hdisjoint j i hltj hlti hgt hy)

theorem eq_take_append_cons {α : Type} {xs : List α} {k : Nat} {x : α} (h : xs[k]? = some x) :
    xs = xs.take k ++ x :: xs.drop (k + 1) := by
  obtain ⟨hlt, rfl⟩ := List.getElem?_eq_some_iff.1 h
  rw [List.getElem_cons_drop, List.take_append_drop]

theorem exists_eq_takeWhile_append {α : Type} [BEq α] [LawfulBEq α] {xs : List α} {x : α}
    (h : x ∈ xs) : ∃ after, xs = xs.takeWhile (· != x) ++ x :: after := by
  induction xs with
  | nil => simp at h
  | cons y xs ih =>
      by_cases heq : y = x
      · exact ⟨xs, by simp [heq]⟩
      · obtain ⟨after, hxs⟩ := ih ((List.mem_cons.1 h).resolve_left (Ne.symm heq))
        refine ⟨after, ?_⟩
        have hpass : (y != x) = true := bne_iff_ne.2 heq
        simp only [List.takeWhile_cons, hpass, if_true, List.cons_append]
        rw [← hxs]

/-- Repetitions are dropped alike from a list and from its image under an injection. -/
theorem eraseDups_map {α β : Type} [BEq α] [LawfulBEq α] [BEq β] [LawfulBEq β] {f : α → β}
    {xs : List α} (h : ∀ x ∈ xs, ∀ y ∈ xs, f x = f y → x = y) :
    (xs.map f).eraseDups = xs.eraseDups.map f := by
  induction xs using List.reverseRecOn with
  | nil => rfl
  | append_singleton xs x ih =>
      have hx : x ∈ xs ++ [x] := List.mem_append_right _ (List.mem_singleton_self x)
      have hmem : f x ∈ xs.map f ↔ x ∈ xs := by
        refine ⟨fun hmap => ?_, List.mem_map_of_mem⟩
        obtain ⟨y, hy, heq⟩ := List.mem_map.1 hmap
        exact h y (List.mem_append_left _ hy) x hx heq ▸ hy
      have hxs := ih fun y hy z hz => h y (List.mem_append_left _ hy) z (List.mem_append_left _ hz)
      rw [List.map_append, List.map_singleton, eraseDups_append_singleton,
        eraseDups_append_singleton, hxs]
      by_cases hnew : x ∈ xs
      · rw [if_pos hnew, if_pos (hmem.2 hnew)]
      · rw [if_neg hnew, if_neg (mt hmem.1 hnew), List.map_append, List.map_singleton]

theorem idxOf?_append_singleton {α : Type} [BEq α] [LawfulBEq α] [DecidableEq α] {xs : List α}
    {last : α} (h : last ∉ xs) (x : α) :
    (xs ++ [last]).idxOf? x = if x = last then some xs.length else xs.idxOf? x := by
  simp only [List.idxOf?, List.findIdx?_append]
  by_cases heq : x = last
  · have hnone : xs.findIdx? (· == last) = none := by
      rw [List.findIdx?_eq_none_iff]
      intro other hother
      exact beq_false_of_ne fun heq => h (heq ▸ hother)
    simp [heq, hnone]
  · simp [heq, Ne.symm heq]

theorem lookup_eq_some_iff_mem {α β : Type} [BEq α] [LawfulBEq α] {entries : List (α × β)}
    (h : (entries.map Prod.fst).Nodup) {key : α} {b : β} :
    entries.lookup key = some b ↔ (key, b) ∈ entries := by
  induction entries with
  | nil => simp
  | cons entry entries ih =>
      obtain ⟨first, found⟩ := entry
      rw [List.map_cons, List.nodup_cons] at h
      rw [List.mem_cons, Prod.mk.injEq, List.lookup_cons]
      by_cases heq : key = first
      · subst heq
        have hnot : (key, b) ∉ entries := fun hmem =>
          h.1 (List.mem_map.2 ⟨(key, b), hmem, rfl⟩)
        simp [hnot, eq_comm]
      · rw [beq_false_of_ne heq, ← ih h.2]
        simp [heq]

theorem lookup_eq_of_perm {α β : Type} [BEq α] [LawfulBEq α] {entries other : List (α × β)}
    (hperm : entries.Perm other) (h : (entries.map Prod.fst).Nodup) (key : α) :
    entries.lookup key = other.lookup key := by
  have hother : (other.map Prod.fst).Nodup := (hperm.map Prod.fst).nodup_iff.1 h
  refine Option.ext fun b => ?_
  rw [lookup_eq_some_iff_mem h, lookup_eq_some_iff_mem hother, hperm.mem_iff]

theorem exists_of_bind_eq_ok {ε α β : Type} {first : Except ε α} {next : α → Except ε β} {b : β}
    (h : first >>= next = .ok b) : ∃ a, first = .ok a ∧ next a = .ok b := by
  cases first with
  | error e => cases h
  | ok a => exact ⟨a, rfl, h⟩

theorem of_bind_eq_error {ε α β : Type} {first : Except ε α} {next : α → Except ε β} {e : ε}
    (h : first >>= next = .error e) : first = .error e ∨ ∃ a, first = .ok a ∧ next a = .error e := by
  cases first with
  | error e' => exact .inl (congrArg Except.error (Except.error.inj h))
  | ok a => exact .inr ⟨a, rfl, h⟩

theorem mapError_eq_ok_iff {ε ε' α : Type} {f : ε → ε'} {result : Except ε α} {a : α} :
    result.mapError f = .ok a ↔ result = .ok a := by
  cases result <;> simp [Except.mapError]

theorem mapError_eq_error_iff {ε ε' α : Type} {f : ε → ε'} {result : Except ε α} {e' : ε'} :
    result.mapError f = .error e' ↔ ∃ e, result = .error e ∧ f e = e' := by
  cases result <;> simp [Except.mapError]

theorem eq_ok_of_join_toOption {ε α : Type} {result : Except ε (Option α)} {a : α}
    (h : result.toOption.join = some a) : result = .ok (some a) := by
  cases result with
  | error e => simp [Except.toOption] at h
  | ok found =>
      obtain rfl : found = some a := by simpa [Except.toOption] using h
      rfl

theorem mapM_cons_except {ε α β : Type} (f : α → Except ε β) (x : α) (xs : List α) :
    (x :: xs).mapM f = (f x).bind fun y => (xs.mapM f).map (y :: ·) := by
  rw [List.mapM_cons]
  cases f x with
  | error e => rfl
  | ok y => cases xs.mapM f <;> rfl

/-- A pass over other elements has the same results or the same error, up to a map of errors, when
each element has. -/
theorem mapM_map_mapError {ε ε' α β γ : Type} {f : α → Except ε γ} {f' : β → Except ε' γ} {g : α → β}
    {e : ε → ε'} {xs : List α} (h : ∀ x ∈ xs, f' (g x) = (f x).mapError e) :
    (xs.map g).mapM f' = (xs.mapM f).mapError e := by
  induction xs with
  | nil => rfl
  | cons x xs ih =>
      obtain ⟨hx, hxs⟩ := List.forall_mem_cons.1 h
      rw [List.map_cons, mapM_cons_except, mapM_cons_except, hx, ih hxs]
      cases f x with
      | error e => rfl
      | ok y => cases xs.mapM f <;> rfl

theorem getElem?_of_mapM_eq_ok {ε α β : Type} {f : α → Except ε β} {xs : List α} {ys : List β}
    (h : xs.mapM f = .ok ys) :
    ys.length = xs.length ∧
      ∀ (k : Nat) (x : α) (y : β), xs[k]? = some x → ys[k]? = some y → f x = .ok y := by
  induction xs generalizing ys with
  | nil =>
      obtain rfl : [] = ys := Except.ok.inj h
      simp
  | cons x xs ih =>
      rw [mapM_cons_except] at h
      cases hx : f x with
      | error e => simp [hx, Except.bind] at h
      | ok y =>
          cases hxs : xs.mapM f with
          | error e => simp [hx, hxs, Except.bind, Except.map] at h
          | ok rest =>
              obtain rfl : y :: rest = ys := by simpa [hx, hxs, Except.bind, Except.map] using h
              obtain ⟨hlength, hall⟩ := ih hxs
              refine ⟨by simp [hlength], fun k x' y' hx' hy' => ?_⟩
              cases k with
              | zero =>
                  obtain rfl := Option.some.inj hx'
                  obtain rfl := Option.some.inj hy'
                  exact hx
              | succ k => exact hall k x' y' hx' hy'

theorem exists_of_mem_of_mapM_eq_ok {ε α β : Type} {f : α → Except ε β} {xs : List α} {ys : List β}
    (h : xs.mapM f = .ok ys) {x : α} (hx : x ∈ xs) : ∃ y, f x = .ok y := by
  obtain ⟨hlength, hall⟩ := getElem?_of_mapM_eq_ok h
  obtain ⟨k, hlt, hk⟩ := List.getElem_of_mem hx
  exact ⟨_, hall k x _ (List.getElem?_eq_some_iff.2 ⟨hlt, hk⟩)
    (List.getElem?_eq_getElem (Nat.lt_of_lt_of_eq hlt hlength.symm))⟩

/-- When some element has an error, the first error among them is reported. -/
theorem exists_of_mapM_eq_error {ε α β : Type} {f : α → Except ε β} {xs : List α} {e : ε}
    (h : xs.mapM f = .error e) :
    ∃ before x after ys, xs = before ++ x :: after ∧ before.mapM f = .ok ys ∧ f x = .error e := by
  induction xs with
  | nil => cases h
  | cons x xs ih =>
      rw [mapM_cons_except] at h
      cases hx : f x with
      | error e' =>
          obtain rfl : e' = e := by simpa [hx, Except.bind] using h
          exact ⟨[], x, xs, [], rfl, rfl, hx⟩
      | ok y =>
          cases hxs : xs.mapM f with
          | ok rest => simp [hx, hxs, Except.bind, Except.map] at h
          | error e' =>
              obtain rfl : e' = e := by simpa [hx, hxs, Except.bind, Except.map] using h
              obtain ⟨before, x', after, ys, rfl, hbefore, hx'⟩ := ih hxs
              refine ⟨x :: before, x', after, y :: ys, rfl, ?_, hx'⟩
              rw [mapM_cons_except, hx, hbefore]
              rfl

end HackToolchain
