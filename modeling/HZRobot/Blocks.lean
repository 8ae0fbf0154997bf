import Mathlib.Data.List.Basic
import Mathlib.Data.List.TakeDrop
import Mathlib.Data.List.Induction

/-!
Block-wise processing, in general. A list is cut into blocks of a fixed size; a map on
blocks is undone block by block; a chain of rounds is undone from its end; and a
state that takes in whole blocks and keeps the rest in a buffer does not see how its
input was cut.
-/

namespace HZRobot.Blocks

variable {α β γ σ ι : Type*}

section Cutting

/-- The first k blocks of n elements. -/
def blocks (n : Nat) : Nat → List α → List (List α)
  | 0, _ => []
  | k + 1, xs => xs.take n :: blocks n k (xs.drop n)

/-- The whole blocks of a list. -/
def whole (n : Nat) (xs : List α) : List (List α) := blocks n (xs.length / n) xs

/-- What stands behind the whole blocks. -/
def rest (n : Nat) (xs : List α) : List α := xs.drop (n * (xs.length / n))

theorem blocks_length {n k : Nat} {xs b : List α} (enough : n * k ≤ xs.length)
    (h : b ∈ blocks n k xs) : b.length = n := by
  induction k generalizing xs with
  | zero => exact absurd h (List.not_mem_nil)
  | succ k ih =>
      rw [Nat.mul_succ] at enough
      rcases List.mem_cons.mp h with rfl | h
      · rw [List.length_take]
        omega
      · exact ih (by rw [List.length_drop]; omega) h

theorem blocks_append {n k : Nat} {xs : List α} (h : xs.length = n * k) (l : Nat)
    (ys : List α) : blocks n (k + l) (xs ++ ys) = blocks n k xs ++ blocks n l ys := by
  induction k generalizing xs with
  | zero => rw [List.eq_nil_of_length_eq_zero h, Nat.zero_add]; rfl
  | succ k ih =>
      have fits : n ≤ xs.length := by rw [h, Nat.mul_succ]; omega
      have tail : (xs.drop n).length = n * k := by
        rw [List.length_drop, h, Nat.mul_succ]
        omega
      rw [Nat.add_right_comm]
      simp only [blocks, List.take_append_of_le_length fits, List.drop_append_of_le_length fits,
        ih tail, List.cons_append]

theorem whole_length {n : Nat} {xs b : List α} (h : b ∈ whole n xs) : b.length = n :=
  blocks_length (Nat.mul_div_le xs.length n) h

theorem rest_length (n : Nat) (xs : List α) : (rest n xs).length = xs.length % n := by
  rw [rest, List.length_drop, Nat.mod_eq_sub_mul_div]

theorem whole_of_lt {n : Nat} {xs : List α} (h : xs.length < n) : whole n xs = [] := by
  rw [whole, Nat.div_eq_of_lt h]
  rfl

theorem rest_of_lt {n : Nat} {xs : List α} (h : xs.length < n) : rest n xs = xs := by
  rw [rest, Nat.div_eq_of_lt h]
  rfl

theorem whole_single {n : Nat} (pos : 0 < n) {xs : List α} (h : xs.length = n) :
    whole n xs = [xs] := by
  rw [whole, h, Nat.div_self pos]
  simp only [blocks, List.take_of_length_le (Nat.le_of_eq h)]

theorem rest_of_dvd {n : Nat} {xs : List α} (h : n ∣ xs.length) : rest n xs = [] :=
  List.eq_nil_of_length_eq_zero ((rest_length n xs).trans (Nat.mod_eq_zero_of_dvd h))

/-- Cutting a text in front of which whole blocks stand. -/
theorem whole_append {n : Nat} (pos : 0 < n) {xs : List α} (h : n ∣ xs.length)
    (ys : List α) : whole n (xs ++ ys) = whole n xs ++ whole n ys := by
  obtain ⟨k, hk⟩ := h
  have count : (xs ++ ys).length / n = k + ys.length / n := by
    rw [List.length_append, hk, Nat.mul_add_div pos]
  rw [whole, count, blocks_append hk, whole, hk, Nat.mul_div_cancel_left k pos, whole]

theorem rest_append {n : Nat} (pos : 0 < n) {xs : List α} (h : n ∣ xs.length)
    (ys : List α) : rest n (xs ++ ys) = rest n ys := by
  obtain ⟨k, hk⟩ := h
  have count : n * ((xs ++ ys).length / n) = xs.length + n * (ys.length / n) := by
    rw [List.length_append, hk, Nat.mul_add_div pos, Nat.mul_add]
  rw [rest, count, List.drop_length_add_append, rest]

theorem flatten_whole {n : Nat} (xs : List α) : (whole n xs).flatten ++ rest n xs = xs := by
  suffices h : ∀ k, ∀ ys : List α, (blocks n k ys).flatten ++ ys.drop (n * k) = ys from h _ xs
  intro k
  induction k with
  | zero => exact fun ys => rfl
  | succ k ih =>
      intro ys
      rw [blocks, List.flatten_cons, List.append_assoc, Nat.mul_succ, Nat.add_comm,
        ← List.drop_drop, ih, List.take_append_drop]

end Cutting

section Each

/-- A map on blocks applied to every whole block. -/
def each (n : Nat) (f : List α → List α) (xs : List α) : List α := (whole n xs).flatMap f

theorem each_length {n : Nat} {f : List α → List α}
    (size : ∀ b, b.length = n → (f b).length = n) {xs : List α} (h : n ∣ xs.length) :
    (each n f xs).length = xs.length := by
  have same : ∀ l : List (List α), (∀ b ∈ l, b.length = n) →
      (l.flatMap f).length = l.flatten.length := by
    intro l
    induction l with
    | nil => exact fun _ => rfl
    | cons b l ih =>
        intro all
        rw [List.flatMap_cons, List.flatten_cons, List.length_append, List.length_append,
          ih fun c hc => all c (List.mem_cons_of_mem b hc), all b List.mem_cons_self,
          size b (all b List.mem_cons_self)]
  have cut := congrArg List.length (flatten_whole (n := n) xs)
  rw [rest_of_dvd h, List.append_nil] at cut
  rw [each, same _ (fun b hb => whole_length hb), cut]

theorem whole_flatten {n : Nat} (pos : 0 < n) {l : List (List α)}
    (size : ∀ b ∈ l, b.length = n) : whole n l.flatten = l := by
  induction l with
  | nil => exact whole_of_lt pos
  | cons b l ih =>
      have first : b.length = n := size b List.mem_cons_self
      rw [List.flatten_cons, whole_append pos ⟨1, by rw [first, Nat.mul_one]⟩,
        whole_single pos first, ih fun c hc => size c (List.mem_cons_of_mem b hc)]
      rfl

/-- What a map does to each block, its inverse undoes on the whole text. -/
theorem each_each {n : Nat} (pos : 0 < n) {f g : List α → List α}
    (size : ∀ b, b.length = n → (f b).length = n)
    (undo : ∀ b, b.length = n → g (f b) = b) {xs : List α} (h : n ∣ xs.length) :
    each n g (each n f xs) = xs := by
  have images : ∀ b ∈ (whole n xs).map f, b.length = n := by
    intro b hb
    obtain ⟨c, hc, rfl⟩ := List.mem_map.mp hb
    exact size c (whole_length hc)
  have back : ((whole n xs).map f).flatMap g = (whole n xs).flatten := by
    rw [List.flatMap_map, ← List.flatMap_id', List.flatMap_congr]
    exact fun b hb => undo b (whole_length hb)
  have image : each n f xs = ((whole n xs).map f).flatten := List.flatMap_def
  rw [image, each, whole_flatten pos images, back]
  have cut := flatten_whole (n := n) xs
  rwa [rest_of_dvd h, List.append_nil] at cut

end Each

section Rounds

/-- Rounds f are undone from the last to the first: h is what the way back has in hand,
and g takes the round i off it. -/
theorem foldr_foldl_cancel {f : β → ι → β} {g : ι → γ → γ} {h : β → γ}
    (cancel : ∀ b i, g i (h (f b i)) = h b) (l : List ι) (b : β) :
    l.foldr g (h (l.foldl f b)) = h b := by
  induction l using List.reverseRecOn with
  | nil => rfl
  | append_singleton l i ih =>
      rw [List.foldl_append, List.foldr_append]
      simp only [List.foldl_cons, List.foldl_nil, List.foldr_cons, List.foldr_nil, cancel, ih]

end Rounds

section Absorbing

variable (n : Nat) (step : σ → List α → σ)

/-- A state that takes in whole blocks and keeps what is left in its buffer. -/
def absorb (s : σ × List α) (xs : List α) : σ × List α :=
  ((whole n (s.2 ++ xs)).foldl step s.1, rest n (s.2 ++ xs))

variable {n} {step}

theorem absorb_nil {s : σ × List α} (h : s.2.length < n) : absorb n step s [] = s := by
  rw [absorb, List.append_nil, whole_of_lt h, rest_of_lt h]
  rfl

theorem absorb_absorb (pos : 0 < n) (s : σ × List α) (xs ys : List α) :
    absorb n step (absorb n step s xs) ys = absorb n step s (xs ++ ys) := by
  have cut : s.2 ++ (xs ++ ys) = (whole n (s.2 ++ xs)).flatten ++ (rest n (s.2 ++ xs) ++ ys) := by
    rw [← List.append_assoc, ← List.append_assoc, flatten_whole]
  have size : ∀ b ∈ whole n (s.2 ++ xs), b.length = n := fun b hb => whole_length hb
  have fits : n ∣ (whole n (s.2 ++ xs)).flatten.length := by
    refine ⟨(s.2 ++ xs).length / n, ?_⟩
    have total := congrArg List.length (flatten_whole (n := n) (s.2 ++ xs))
    rw [List.length_append, rest_length] at total
    have := Nat.div_add_mod (s.2 ++ xs).length n
    omega
  simp only [absorb]
  rw [cut, whole_append pos fits, whole_flatten pos size, rest_append pos fits,
    List.foldl_append]

/-- One element fills the buffer up or is added to it. -/
theorem absorb_one (pos : 0 < n) {s : σ × List α} (h : s.2.length < n) (x : α) :
    absorb n step s [x] =
      if s.2.length + 1 = n then (step s.1 (s.2 ++ [x]), []) else (s.1, s.2 ++ [x]) := by
  have longer : (s.2 ++ [x]).length = s.2.length + 1 := by simp
  rw [absorb]
  split
  · case isTrue full =>
      rw [whole_single pos (longer.trans full),
        rest_of_dvd ⟨1, by rw [longer, full, Nat.mul_one]⟩]
      rfl
  · case isFalse room =>
      have short : (s.2 ++ [x]).length < n := by omega
      rw [whole_of_lt short, rest_of_lt short]
      rfl

/-- An input that fills the buffer up: what is left behind the full block goes on alone. -/
theorem absorb_fill (pos : 0 < n) {s : σ × List α} {xs : List α} (h : s.2.length < n)
    (enough : n - s.2.length ≤ xs.length) :
    absorb n step s xs =
      ((whole n (xs.drop (n - s.2.length))).foldl step
        (step s.1 (s.2 ++ xs.take (n - s.2.length))), rest n (xs.drop (n - s.2.length))) := by
  have full : (s.2 ++ xs.take (n - s.2.length)).length = n := by
    rw [List.length_append, List.length_take]
    omega
  have cut : s.2 ++ xs = (s.2 ++ xs.take (n - s.2.length)) ++ xs.drop (n - s.2.length) := by
    rw [List.append_assoc, List.take_append_drop]
  have one : n ∣ (s.2 ++ xs.take (n - s.2.length)).length := ⟨1, by rw [full, Nat.mul_one]⟩
  rw [absorb, cut, whole_append pos one, rest_append pos one, whole_single pos full]
  rfl

/-- Whole blocks, and less than one behind them. -/
theorem absorb_whole (pos : 0 < n) (s : σ) {xs ys : List α} (h : n ∣ xs.length)
    (short : ys.length < n) :
    absorb n step (s, []) (xs ++ ys) = ((whole n xs).foldl step s, ys) := by
  rw [absorb, List.nil_append, whole_append pos h, rest_append pos h, whole_of_lt short,
    rest_of_lt short, List.append_nil]

end Absorbing

end HZRobot.Blocks
