import HZRobot.ByteSearch

/-!
string::split, split2 and replace_all. The pieces of a text are what stands between the
occurrences of a word, each looked for behind the one before; split collects them from
the original text, replace_all joins them while it edits the text in place.
-/

namespace HZRobot.Split

section Pieces

variable {α : Type*} [DecidableEq α] {word s : List α} {l : List (List α)}

/-- The text cut at every occurrence of the word. -/
inductive Pieces (word : List α) : List α → List (List α) → Prop
  | last {s : List α} (h : cut word s = none) : Pieces word s [s]
  | more {s a b : List α} {l : List (List α)} (h : cut word s = some (a, b))
      (rest : Pieces word b l) : Pieces word s (a :: l)

theorem Pieces.ne_nil (h : Pieces word s l) : l ≠ [] := by
  cases h with
  | last => exact List.cons_ne_nil _ _
  | more => exact List.cons_ne_nil _ _

theorem exists_pieces (some_ : word ≠ []) (s : List α) : ∃ l, Pieces word s l := by
  induction hn : s.length using Nat.strongRecOn generalizing s with
  | ind n ih =>
      cases found : cut word s with
      | none => exact ⟨[s], .last found⟩
      | some parts =>
          obtain ⟨a, b⟩ := parts
          have whole := congrArg List.length (cut_spec found)
          have left := List.length_pos_iff.mpr some_
          simp only [List.length_append] at whole
          obtain ⟨l, rest⟩ := ih b.length (by omega) b rfl
          exact ⟨a :: l, .more found rest⟩

theorem find_of_cut {a b : List α} (h : cut word s = some (a, b)) : find word s = some a.length := by
  obtain ⟨i, found, parts⟩ := Option.map_eq_some_iff.mp h
  have room := find_le found
  have front : s.take i = a := congrArg Prod.fst parts
  have length := congrArg List.length front
  rw [List.length_take] at length
  rw [found, ← length, Nat.min_eq_left (by omega)]

/-- What stands before the first occurrence does not hold the word. -/
theorem not_infix_of_cut (some_ : word ≠ []) {a b : List α} (h : cut word s = some (a, b)) :
    ¬ word <:+: a := by
  intro inside
  obtain ⟨j, here⟩ := Option.isSome_iff_exists.mp (find_isSome_iff.mpr inside)
  have room := find_le here
  have left := List.length_pos_iff.mpr some_
  have first := find_append here (word ++ b)
  rw [← List.append_assoc, ← cut_spec h, find_of_cut h] at first
  have same := Option.some.inj first
  omega

theorem Pieces.not_infix (h : Pieces word s l) (some_ : word ≠ []) :
    ∀ piece ∈ l, ¬ word <:+: piece := by
  induction h with
  | last none_ =>
      intro piece mem
      rw [List.mem_singleton.mp mem]
      exact cut_eq_none_iff.mp none_
  | more found rest ih =>
      intro piece mem
      rcases List.mem_cons.mp mem with rfl | later
      · exact not_infix_of_cut some_ found
      · exact ih piece later

theorem Pieces.joined (h : Pieces word s l) : word.intercalate l = s := by
  induction h with
  | last => exact List.intercalate_singleton
  | more found rest ih =>
      rw [List.intercalate_cons_of_ne_nil rest.ne_nil, ih, cut_spec found]

theorem Pieces.length_le (h : Pieces word s l) (some_ : word ≠ []) : l.length ≤ s.length + 1 := by
  have left := List.length_pos_iff.mpr some_
  induction h with
  | last => exact Nat.le_add_left 1 _
  | more found rest ih =>
      have whole := congrArg List.length (cut_spec found)
      simp only [List.length_append] at whole
      rw [List.length_cons]
      omega

end Pieces

/-- string::find from a position on. -/
def findFrom (word str : List UInt8) (pos : Nat) : Option Nat :=
  if pos ≤ str.length then (find word (str.drop pos)).map (pos + ·) else none

def substr (str : List UInt8) (pos count : Nat) : List UInt8 := (str.drop pos).take count

/-- string::replace. -/
def replace (str : List UInt8) (pos count : Nat) (des : List UInt8) : List UInt8 :=
  str.take pos ++ des ++ str.drop (pos + count)

/-- The loop of split and split2, which put the pieces into their container. -/
def splitLoop {σ : Type} (put : σ → List UInt8 → σ) (str des : List UInt8) :
    Nat → Nat → σ → Option σ
  | 0, _, _ => none
  | fuel + 1, begin_, ret =>
      match findFrom des str begin_ with
      | some end_ =>
          splitLoop put str des fuel (end_ + des.length) (put ret (substr str begin_ (end_ - begin_)))
      | none => some (put ret (str.drop begin_))

/-- string::split in at most so many rounds. -/
def split (fuel : Nat) (str des : List UInt8) : Option (List (List UInt8)) :=
  splitLoop (fun ret piece => ret ++ [piece]) str des fuel 0 []

/-- string::split2. -/
def split2 (fuel : Nat) (str des : List UInt8) : Option (Finset (List UInt8)) :=
  splitLoop (fun ret piece => insert piece ret) str des fuel 0 ∅

/-- The loop of replace_all; it goes on behind what it has put in. -/
def replaceLoop (src des : List UInt8) : Nat → List UInt8 → Nat → Option (List UInt8)
  | 0, _, _ => none
  | fuel + 1, str, pos =>
      match findFrom src str pos with
      | some pos => replaceLoop src des fuel (replace str pos src.length des) (pos + des.length)
      | none => some str

/-- string::replace_all. -/
def replaceAll (fuel : Nat) (str src des : List UInt8) : Option (List UInt8) :=
  replaceLoop src des fuel str 0

variable {word front rest : List UInt8} {l : List (List UInt8)}

/-- A search behind the front part. -/
theorem findFrom_append (word front rest : List UInt8) :
    findFrom word (front ++ rest) front.length = (find word rest).map (front.length + ·) := by
  rw [findFrom, if_pos (by simp), List.drop_left]

/-- Each round takes one piece off the rest. -/
theorem splitLoop_eq {σ : Type} (put : σ → List UInt8 → σ) (h : Pieces word rest l)
    (front : List UInt8) (ret : σ) {fuel : Nat} (enough : l.length ≤ fuel) :
    splitLoop put (front ++ rest) word fuel front.length ret = some (l.foldl put ret) := by
  induction h generalizing front ret fuel with
  | last none_ =>
      obtain ⟨fuel, rfl⟩ := Nat.exists_eq_add_of_le' enough
      rw [cut, Option.map_eq_none_iff] at none_
      rw [List.length_singleton, splitLoop, findFrom_append, none_, List.drop_left]
      rfl
  | @more s a b l found rest ih =>
      obtain ⟨fuel, rfl⟩ := Nat.exists_eq_add_of_le' enough
      have next := ih (front ++ a ++ word) (put ret a) (Nat.le_add_left l.length fuel)
      have behind : (front ++ a ++ word).length = front.length + a.length + word.length := by
        simp only [List.length_append]
      have piece : substr (front ++ s) front.length (front.length + a.length - front.length) = a := by
        rw [substr, List.drop_left, Nat.add_sub_cancel_left, cut_spec found, List.append_assoc,
          List.take_left]
      have whole : front ++ a ++ word ++ b = front ++ s := by
        rw [cut_spec found]
        simp only [List.append_assoc]
      rw [behind, whole] at next
      rw [List.length_cons, ← Nat.add_assoc, splitLoop, findFrom_append, find_of_cut found]
      simp only [Option.map_some, piece, next, List.foldl_cons]

theorem replaceLoop_eq (des : List UInt8) (h : Pieces word rest l) (done : List UInt8) {fuel : Nat}
    (enough : l.length ≤ fuel) :
    replaceLoop word des fuel (done ++ rest) done.length = some (done ++ des.intercalate l) := by
  induction h generalizing done fuel with
  | last none_ =>
      obtain ⟨fuel, rfl⟩ := Nat.exists_eq_add_of_le' enough
      rw [cut, Option.map_eq_none_iff] at none_
      rw [List.length_singleton, replaceLoop, findFrom_append, none_, List.intercalate_singleton]
      rfl
  | @more s a b l found rest ih =>
      obtain ⟨fuel, rfl⟩ := Nat.exists_eq_add_of_le' enough
      have next := ih (done ++ a ++ des) (Nat.le_add_left l.length fuel)
      have behind : (done ++ a ++ des).length = done.length + a.length + des.length := by
        simp only [List.length_append]
      have edited : replace (done ++ s) (done.length + a.length) word.length des =
          done ++ a ++ des ++ b := by
        have split : done ++ s = (done ++ a) ++ (word ++ b) := by
          rw [cut_spec found]
          simp only [List.append_assoc]
        have front : done.length + a.length = (done ++ a).length := List.length_append.symm
        rw [replace, split, front, List.take_left, ← List.append_assoc (done ++ a) word b,
          ← List.length_append, List.drop_left]
      rw [List.length_cons, ← Nat.add_assoc, replaceLoop, findFrom_append, find_of_cut found]
      simp only [Option.map_some, edited]
      rw [← behind, next, List.intercalate_cons_of_ne_nil rest.ne_nil]
      simp only [List.append_assoc]

theorem foldl_emplace (l : List (List UInt8)) (ret : Finset (List UInt8)) :
    l.foldl (fun ret piece => insert piece ret) ret = ret ∪ l.toFinset := by
  induction l generalizing ret with
  | nil => exact (Finset.union_empty ret).symm
  | cons piece l ih =>
      rw [List.foldl_cons, ih, List.toFinset_cons, Finset.insert_union, Finset.union_insert]

/-- split comes to an end with pieces that do not hold the word; joined with the word they
are the text, joined with another one they are what replace_all makes of it. -/
theorem split_replace_agree (s p : List UInt8) (some_ : p ≠ []) :
    ∃ pieces, (∀ fuel, s.length < fuel → split fuel s p = some pieces) ∧
      (∀ piece ∈ pieces, ¬ p <:+: piece) ∧ p.intercalate pieces = s ∧
      (∀ d fuel, s.length < fuel → replaceAll fuel s p d = some (d.intercalate pieces)) ∧
      ∀ fuel, s.length < fuel → split2 fuel s p = some pieces.toFinset := by
  obtain ⟨l, h⟩ := exists_pieces some_ s
  have rounds := h.length_le some_
  refine ⟨l, fun fuel enough => ?_, h.not_infix some_, h.joined, fun d fuel enough => ?_,
    fun fuel enough => ?_⟩
  · have all := splitLoop_eq (fun ret piece => ret ++ [piece]) h [] []
      (le_trans rounds (Nat.succ_le_of_lt enough))
    rw [List.foldl_append_eq_append, ← List.flatMap_def, List.flatMap_singleton'] at all
    exact all
  · exact replaceLoop_eq d h [] (by omega)
  · have all := splitLoop_eq (fun ret piece => insert piece ret) h [] (∅ : Finset (List UInt8))
      (le_trans rounds (Nat.succ_le_of_lt enough))
    rw [foldl_emplace, Finset.empty_union] at all
    exact all

theorem commas_split :
    ∃ pieces, (∀ fuel, 5 < fuel → split fuel [97, 44, 98, 44, 99] [44] = some pieces) ∧
      (∀ piece ∈ pieces, ¬ [44] <:+: piece) ∧ [44].intercalate pieces = [97, 44, 98, 44, 99] ∧
      (∀ d fuel, 5 < fuel →
        replaceAll fuel [97, 44, 98, 44, 99] [44] d = some (d.intercalate pieces)) ∧
      ∀ fuel, 5 < fuel → split2 fuel [97, 44, 98, 44, 99] [44] = some pieces.toFinset :=
  split_replace_agree [97, 44, 98, 44, 99] [44] (by decide)

end HZRobot.Split
