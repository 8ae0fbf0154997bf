import Mathlib.Data.List.Infix
import Mathlib.Data.List.Basic
import Mathlib.Data.Nat.Digits.Defs
import Mathlib.Data.List.Forall2
import Mathlib.Data.List.Nodup
import Mathlib.Data.List.TakeWhile
import Mathlib.Data.List.Chain
import Mathlib.Tactic.Ring
import Mathlib.Tactic.Linarith
import Mathlib.Tactic.NormNum
import Mathlib.Tactic.Tauto
import Mathlib.Data.Fintype.Basic
import Mathlib.Data.Finset.Basic

/-!
First and last occurrence of a word in a list, as string::find and
string::rfind compute them, with npos as none.
-/

namespace HZRobot

/-- A word without the separator lies on one side of it. -/
theorem infix_of_separator {α : Type*} {word a b : List α} {x : α} (h : word <:+: a ++ x :: b)
    (hx : x ∉ word) : word <:+: a ∨ word <:+: b := by
  obtain ⟨before, after, heq⟩ := h
  rw [List.append_assoc] at heq
  rcases List.append_eq_append_iff.mp heq with ⟨s, rfl, hs⟩ | ⟨s, rfl, hs⟩
  · rcases List.append_eq_append_iff.mp hs with ⟨t, rfl, -⟩ | ⟨t, rfl, ht⟩
    · exact .inl ⟨before, t, by simp⟩
    · cases t with
      | nil => exact .inl ⟨before, [], by simp⟩
      | cons y t =>
          cases ht
          exact absurd (by simp) hx
  · cases s with
    | nil =>
        cases word with
        | nil => exact .inl List.nil_infix
        | cons y word =>
            cases hs
            exact absurd (by simp) hx
    | cons y s =>
        cases hs
        exact .inr ⟨s, after, by simp⟩

/-- A word that occurs again further on in itself and what follows has one letter
only, when it shares no other letter with what follows. -/
theorem eq_of_shifted {α : Type*} {word after : List α} {c : α} {i : Nat} (hi : 0 < i)
    (again : word <+: (word ++ after).drop i) (common : ∀ x ∈ after, x ∈ word → x = c) :
    ∀ x ∈ word, x = c := by
  have shifted (k : Nat) (hk : k < word.length) : (word ++ after)[i + k]? = word[k]? := by
    rw [← List.getElem?_drop]
    exact (List.prefix_iff_getElem?.mp again k hk).trans (List.getElem?_eq_getElem hk).symm
  -- From the last letter backwards: each is a later one or one of what follows.
  have letters (m : Nat) : ∀ k < word.length, word.length - k = m → word[k]? = some c := by
    induction m using Nat.strongRecOn with
    | ind m ih =>
        intro k hk hm
        have same := shifted k hk
        by_cases inside : i + k < word.length
        · rw [List.getElem?_append_left inside] at same
          rw [← same]
          exact ih (word.length - (i + k)) (by omega) (i + k) inside rfl
        · rw [List.getElem?_append_right (by omega), List.getElem?_eq_getElem hk] at same
          rw [List.getElem?_eq_getElem hk]
          exact congrArg some (common _ (List.mem_of_getElem? same) (List.getElem_mem hk))
  intro x hx
  obtain ⟨k, hk, rfl⟩ := List.mem_iff_getElem.mp hx
  have := letters _ k hk rfl
  rw [List.getElem?_eq_getElem hk] at this
  exact Option.some.inj this

section
variable {α : Type*} [DecidableEq α]

def find (word : List α) : List α → Option Nat
  | [] => if word = [] then some 0 else none
  | c :: s => if word <+: c :: s then some 0 else (find word s).map (· + 1)

def rfind (word : List α) : List α → Option Nat
  | [] => if word = [] then some 0 else none
  | c :: s =>
      match rfind word s with
      | some i => some (i + 1)
      | none => if word <+: c :: s then some 0 else none

theorem find_eq_none_iff {word s : List α} : find word s = none ↔ ¬ word <:+: s := by
  induction s with
  | nil => simp [find]
  | cons c s ih =>
      rw [List.infix_cons_iff, not_or, ← ih, find]
      split
      · case isTrue here => simp [here]
      · case isFalse notHere => simp [notHere]

theorem find_isSome_iff {word s : List α} : (find word s).isSome ↔ word <:+: s := by
  rw [Option.isSome_iff_ne_none, ne_eq, find_eq_none_iff, not_not]

/-- The first occurrence is where no earlier one begins. -/
theorem find_first (word before after : List α)
    (first : ∀ i < before.length, ¬ word <+: (before ++ word ++ after).drop i) :
    find word (before ++ word ++ after) = some before.length := by
  induction before with
  | nil =>
      cases h : word ++ after with
      | nil => simp_all [find]
      | cons c s =>
          have here : word <+: c :: s := h ▸ List.prefix_append word after
          simp [find, h, here]
  | cons c before ih =>
      have notHere := first 0 (by simp)
      simp only [List.drop_zero, List.cons_append] at notHere
      simp only [List.cons_append, find, if_neg notHere]
      rw [ih]
      · simp
      · intro i hi
        simpa using first (i + 1) (by simpa using hi)

theorem find_single {c : α} {before : List α} (h : c ∉ before) (after : List α) :
    find [c] (before ++ c :: after) = some before.length := by
  have first := find_first [c] before after ?_
  · simpa using first
  · intro i hi here
    obtain ⟨rest, hrest⟩ := here
    have at_i := congrArg List.head? hrest
    rw [List.head?_drop] at at_i
    simp only [List.append_assoc, List.getElem?_append_left hi, List.singleton_append,
      List.head?_cons] at at_i
    exact h (List.mem_of_getElem? at_i.symm)

theorem find_le {word s : List α} {i : Nat} (h : find word s = some i) :
    i + word.length ≤ s.length := by
  induction s generalizing i with
  | nil =>
      unfold find at h
      split at h
      · case isTrue empty =>
          cases h
          simp [empty]
      · cases h
  | cons c s ih =>
      unfold find at h
      split at h
      · case isTrue here =>
          cases h
          simpa using here.length_le
      · obtain ⟨j, hj, rfl⟩ := Option.map_eq_some_iff.mp h
        have := ih hj
        simp only [List.length_cons]
        omega

theorem rfind_le {word s : List α} {i : Nat} (h : rfind word s = some i) : i ≤ s.length := by
  induction s generalizing i with
  | nil =>
      simp only [rfind] at h
      split at h
      · cases h
        exact Nat.le_refl 0
      · cases h
  | cons c s ih =>
      simp only [rfind] at h
      split at h
      · case h_1 j found =>
          cases h
          exact Nat.succ_le_succ (ih found)
      · split at h
        · cases h
          exact Nat.zero_le _
        · cases h

theorem rfind_eq_none_iff {word s : List α} : rfind word s = none ↔ ¬ word <:+: s := by
  induction s with
  | nil => simp [rfind]
  | cons c s ih =>
      rw [List.infix_cons_iff, not_or, rfind]
      cases found : rfind word s with
      | none => simp [ih.mp found]
      | some i =>
          have : word <:+: s := by
            by_contra absent
            rw [ih.mpr absent] at found
            cases found
          simp [this]

/-- The last occurrence is where no later one begins. -/
theorem rfind_last (word before after : List α)
    (last : ∀ i, 0 < i → ¬ word <+: (word ++ after).drop i) :
    rfind word (before ++ word ++ after) = some before.length := by
  induction before with
  | nil =>
      cases h : word ++ after with
      | nil => simp_all [rfind]
      | cons c s =>
          have here : word <+: c :: s := h ▸ List.prefix_append word after
          have absent : rfind word s = none := by
            rw [rfind_eq_none_iff]
            rintro ⟨early, late, heq⟩
            refine last (early.length + 1) (by omega) ?_
            rw [h, List.drop_succ_cons, ← heq, List.append_assoc, List.drop_left]
            exact List.prefix_append word late
          simp [rfind, h, here, absent]
  | cons c before ih =>
      simp only [List.cons_append, rfind]
      rw [ih]
      simp

theorem rfind_single {c : α} {after : List α} (h : c ∉ after) (before : List α) :
    rfind [c] (before ++ c :: after) = some before.length := by
  have last := rfind_last [c] before after ?_
  · simpa using last
  · intro i hi here
    obtain ⟨rest, hrest⟩ := here
    have at_i := congrArg List.head? hrest
    rw [List.head?_drop] at at_i
    obtain ⟨j, rfl⟩ : ∃ j, i = j + 1 := ⟨i - 1, by omega⟩
    simp only [List.singleton_append, List.getElem?_cons_succ, List.head?_cons] at at_i
    exact h (List.mem_of_getElem? at_i.symm)

theorem find_append {word s : List α} {i : Nat} (h : find word s = some i) (t : List α) :
    find word (s ++ t) = some i := by
  induction s generalizing i with
  | nil =>
      simp only [find] at h
      split at h
      · case isTrue empty =>
          cases h
          cases t <;> simp [find, empty]
      · cases h
  | cons c s ih =>
      simp only [find] at h
      split at h
      · case isTrue here =>
          cases h
          have still : word <+: c :: (s ++ t) := here.trans (List.prefix_append (c :: s) t)
          simp [find, still]
      · case isFalse notHere =>
          obtain ⟨j, hj, rfl⟩ := Option.map_eq_some_iff.mp h
          have room := find_le hj
          have still : ¬ word <+: c :: (s ++ t) := by
            intro here
            refine notHere (List.prefix_of_prefix_length_le here (List.prefix_append (c :: s) t) ?_)
            simp only [List.length_cons]
            omega
          simp [find, still, ih hj]

/-- A first occurrence that lies in the front part is found there. -/
theorem find_of_append {word s t : List α} {i : Nat} (h : find word (s ++ t) = some i)
    (room : i + word.length ≤ s.length) : find word s = some i := by
  induction s generalizing i with
  | nil =>
      have empty : word = [] ∧ i = 0 := by
        simp only [List.length_nil, Nat.le_zero, Nat.add_eq_zero_iff,
          List.length_eq_zero_iff] at room
        exact ⟨room.2, room.1⟩
      simp [find, empty]
  | cons c s ih =>
      simp only [List.cons_append, find] at h ⊢
      split at h
      · case isTrue here =>
          cases h
          have : word <+: c :: s :=
            List.prefix_of_prefix_length_le here (List.prefix_append (c :: s) t) (by simpa using room)
          simp [this]
      · case isFalse notHere =>
          obtain ⟨j, hj, rfl⟩ := Option.map_eq_some_iff.mp h
          have still : ¬ word <+: c :: s := fun here =>
            notHere (here.trans (List.prefix_append (c :: s) t))
          rw [if_neg still, ih hj (by simp only [List.length_cons] at room; omega)]
          rfl

theorem find_spec {word s : List α} {i : Nat} (h : find word s = some i) :
    s = s.take i ++ word ++ s.drop (i + word.length) := by
  induction s generalizing i with
  | nil =>
      simp only [find] at h
      split at h
      · case isTrue empty =>
          cases h
          simp [empty]
      · cases h
  | cons c s ih =>
      simp only [find] at h
      split at h
      · case isTrue here =>
          cases h
          obtain ⟨rest, hrest⟩ := here
          simp [← hrest]
      · obtain ⟨j, hj, rfl⟩ := Option.map_eq_some_iff.mp h
        rw [List.take_succ_cons, Nat.add_right_comm, List.drop_succ_cons, List.cons_append,
          List.cons_append, ← ih hj]

/-- The text before the first occurrence and the text behind it, as strstr is used. -/
def cut (word s : List α) : Option (List α × List α) :=
  (find word s).map fun i => (s.take i, s.drop (i + word.length))

theorem cut_spec {word s a b : List α} (h : cut word s = some (a, b)) : s = a ++ word ++ b := by
  obtain ⟨i, found, heq⟩ := Option.map_eq_some_iff.mp h
  cases heq
  exact find_spec found

theorem suffix_of_cut {word data a b : List α} (h : cut word data = some (a, b)) :
    b <:+ data := ⟨a ++ word, (cut_spec h).symm⟩

theorem cut_append {word s a b : List α} (h : cut word s = some (a, b)) (t : List α) :
    cut word (s ++ t) = some (a, b ++ t) := by
  obtain ⟨i, found, heq⟩ := Option.map_eq_some_iff.mp h
  cases heq
  have room := find_le found
  rw [cut, find_append found t, Option.map_some, List.take_append_of_le_length (by omega),
    List.drop_append_of_le_length room]

theorem cut_first (word before after : List α)
    (first : ∀ i < before.length, ¬ word <+: (before ++ word ++ after).drop i) :
    cut word (before ++ word ++ after) = some (before, after) := by
  have length : before.length + word.length = (before ++ word).length := by simp
  rw [cut, find_first word before after first, Option.map_some, length, List.drop_left]
  simp

theorem cut_single {c : α} {before : List α} (h : c ∉ before) (after : List α) :
    cut [c] (before ++ c :: after) = some (before, after) := by
  simp [cut, find_single h after]

theorem cut_eq_none_iff {word s : List α} : cut word s = none ↔ ¬ word <:+: s := by
  rw [cut, Option.map_eq_none_iff, find_eq_none_iff]

/-- The first occurrence is not behind one that is known. -/
theorem cut_of_suffix {word t s : List α} (h : word ++ t <:+ s) :
    ∃ a b, cut word s = some (a, b) ∧ t <:+ b ∧ b <:+ s := by
  obtain ⟨p, rfl⟩ := h
  cases inside : cut word (p ++ word) with
  | none => exact absurd (List.suffix_append p word).isInfix (cut_eq_none_iff.mp inside)
  | some found =>
      have all := cut_append (a := found.1) (b := found.2) inside t
      rw [List.append_assoc] at all
      exact ⟨found.1, found.2 ++ t, all, List.suffix_append _ t, ⟨_, (cut_spec all).symm⟩⟩

/-- Text without the first letter of the word only moves the occurrence. -/
theorem cut_prepend {c : α} {word a : List α} (h : c ∉ a) (s : List α) :
    cut (c :: word) (a ++ s) = (cut (c :: word) s).map fun p => (a ++ p.1, p.2) := by
  induction a with
  | nil => simp
  | cons b a ih =>
      simp only [List.mem_cons, not_or] at h
      have notHere : ¬ c :: word <+: b :: (a ++ s) := by
        rintro ⟨rest, heq⟩
        exact h.1 (List.cons.inj heq).1
      have step : cut (c :: word) (b :: (a ++ s)) =
          (cut (c :: word) (a ++ s)).map fun p => (b :: p.1, p.2) := by
        rw [cut, find, if_neg notHere, cut, Option.map_map, Option.map_map]
        congr 1
        funext i
        have shift : i + 1 + (c :: word).length = (i + (c :: word).length) + 1 := by omega
        simp only [Function.comp_apply, List.take_succ_cons, shift, List.drop_succ_cons]
      rw [List.cons_append, step, ih h.2, Option.map_map]
      rfl

/-- A two-letter word at the end of a text that does not hold it. -/
theorem cut_pair {x y : α} (hxy : x ≠ y) {before : List α} (h : ¬ [x, y] <:+: before)
    (after : List α) : cut [x, y] (before ++ [x, y] ++ after) = some (before, after) := by
  apply cut_first
  intro i hi here
  obtain ⟨front, z, back, rfl, rfl⟩ : ∃ front z back, before = front ++ z :: back ∧
      front.length = i :=
    ⟨before.take i, before[i], before.drop (i + 1), by simp, by simp; omega⟩
  rw [List.append_assoc, List.append_assoc, List.drop_left, List.cons_append] at here
  obtain ⟨rest, heq⟩ := here
  cases back with
  | nil =>
      simp only [List.cons_append, List.nil_append, List.cons.injEq] at heq
      exact hxy heq.2.1.symm
  | cons w back =>
      simp only [List.cons_append, List.nil_append, List.cons.injEq] at heq
      obtain ⟨rfl, rfl, -⟩ := heq
      exact h ⟨front, back, by simp⟩

end

end HZRobot
