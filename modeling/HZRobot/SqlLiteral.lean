import Mathlib.Data.List.Induction
import Mathlib.Data.List.Chain

/-!
MySQL's lexical rules for single-quoted string literals under the default
sql_mode: a doubled quote stands for one quote, a backslash escapes the next
byte, and an escaped percent sign or underscore keeps its backslash. Nothing
here refers to a program.
-/

namespace SqlLiteral

/-- The value of a backslash followed by c. -/
def unescape (c : UInt8) : List UInt8 :=
  if c = 48 then [0]
  else if c = 98 then [8]
  else if c = 110 then [10]
  else if c = 114 then [13]
  else if c = 116 then [9]
  else if c = 90 then [26]
  else if c = 37 ∨ c = 95 then [92, c]
  else [c]

/-- The value of a literal whose opening quote has been read, and the text after
its closing quote; none when the literal is not closed. -/
def body : List UInt8 → Option (List UInt8 × List UInt8)
  | [] => none
  | [c] => if c = 39 then some ([], []) else none
  | c :: d :: rest =>
      if c = 39 then
        if d = 39 then (body rest).map fun r => (39 :: r.1, r.2)
        else some ([], d :: rest)
      else if c = 92 then (body rest).map fun r => (unescape d ++ r.1, r.2)
      else (body (d :: rest)).map fun r => (c :: r.1, r.2)

/-- A string that is its own literal text: no quote, and no backslash but in
front of a percent sign or an underscore. -/
inductive Verbatim : List UInt8 → Prop where
  | nil : Verbatim []
  | plain {c : UInt8} {s : List UInt8} : c ≠ 39 → c ≠ 92 → Verbatim s → Verbatim (c :: s)
  | wild {d : UInt8} {s : List UInt8} : d = 37 ∨ d = 95 → Verbatim s → Verbatim (92 :: d :: s)

theorem verbatim_of_plain {s : List UInt8} (h : ∀ c ∈ s, c ≠ 39 ∧ c ≠ 92) : Verbatim s := by
  induction s with
  | nil => exact .nil
  | cons c s ih =>
      have hc := h c List.mem_cons_self
      exact .plain hc.1 hc.2 (ih fun d hd => h d (List.mem_cons_of_mem _ hd))

theorem unescape_wild {d : UInt8} (h : d = 37 ∨ d = 95) : unescape d = [92, d] := by
  rcases h with rfl | rfl <;> decide

theorem unescape_length {d : UInt8} (h : ¬(d = 37 ∨ d = 95)) : (unescape d).length = 1 := by
  unfold unescape
  repeat' split
  all_goals rfl

theorem body_quote {y : List UInt8} (hy : y.head? ≠ some 39) : body (39 :: y) = some ([], y) := by
  cases y with
  | nil => rfl
  | cons c y =>
      have hc : c ≠ 39 := by simpa using hy
      simp [body, hc]

theorem body_plain {c : UInt8} (h1 : c ≠ 39) (h2 : c ≠ 92) (x : List UInt8) :
    body (c :: x) = (body x).map fun r => (c :: r.1, r.2) := by
  cases x with
  | nil => simp [body, h1]
  | cons d x => simp [body, h1, h2]

theorem body_doubled (x : List UInt8) :
    body (39 :: 39 :: x) = (body x).map fun r => (39 :: r.1, r.2) := by
  simp [body]

theorem body_backslash (d : UInt8) (x : List UInt8) :
    body (92 :: d :: x) = (body x).map fun r => (unescape d ++ r.1, r.2) := by
  simp [body]

/-- A verbatim string is read back exactly, up to its own closing quote. -/
theorem body_of_verbatim {s : List UInt8} (hs : Verbatim s) {y : List UInt8}
    (hy : y.head? ≠ some 39) : body (s ++ 39 :: y) = some (s, y) := by
  induction hs with
  | nil => exact body_quote hy
  | plain h1 h2 _ ih => simp [body_plain h1 h2, ih]
  | wild hd _ ih => simp [body_backslash, ih, unescape_wild hd]

/-- Reading a literal never lengthens its text. -/
theorem body_length : ∀ {x v rest : List UInt8}, body x = some (v, rest) →
    v.length + rest.length + 1 ≤ x.length
  | [], _, _, h => by cases h
  | [c], v, rest, h => by
      simp only [body] at h
      split at h <;> simp_all
  | c :: d :: x, v, rest, h => by
      simp only [body] at h
      split at h
      · split at h
        · obtain ⟨r, hr, heq⟩ := Option.map_eq_some_iff.mp h
          cases heq
          have := body_length hr
          simp only [List.length_cons]
          omega
        · cases h
          simp only [List.length_cons, List.length_nil]
          omega
      · split at h
        · obtain ⟨r, hr, heq⟩ := Option.map_eq_some_iff.mp h
          cases heq
          have tail := body_length hr
          have esc : (unescape d).length ≤ 2 := by
            by_cases wild : d = 37 ∨ d = 95
            · simp [unescape_wild wild]
            · simp [unescape_length wild]
          simp only [List.length_append, List.length_cons]
          omega
        · obtain ⟨r, hr, heq⟩ := Option.map_eq_some_iff.mp h
          cases heq
          have := body_length hr
          simp only [List.length_cons] at this ⊢
          omega

/-- The closing quote of s was swallowed by the last byte of s. -/
def Swallowed (s y v rest : List UInt8) : Prop :=
  (s.getLast? = some 39 ∨ s.getLast? = some 92) ∧
    ∃ v₁ v₂, v = v₁ ++ v₂ ∧ v₁.length ≤ s.length ∧ body y = some (v₂, rest)

theorem Swallowed.cons {s y v rest : List UInt8} (h : Swallowed s y v rest)
    (p w : List UInt8) (shorter : w.length ≤ p.length) :
    Swallowed (p ++ s) y (w ++ v) rest := by
  obtain ⟨last, v₁, v₂, rfl, bound, hv⟩ := h
  refine ⟨?_, w ++ v₁, v₂, by simp, by simp only [List.length_append]; omega, hv⟩
  rcases last with last | last <;> simp [List.getLast?_append, last]

/-- Where a literal that starts with the bytes of s can end: at the quote after
s with s verbatim, with a value shorter than s, or past that quote. -/
theorem body_cases (s : List UInt8) {y v rest : List UInt8} (hy : y.head? ≠ some 39)
    (h : body (s ++ 39 :: y) = some (v, rest)) :
    (Verbatim s ∧ v = s ∧ rest = y) ∨ v.length < s.length ∨ Swallowed s y v rest := by
  induction s using List.twoStepInduction generalizing v rest with
  | nil =>
      rw [List.nil_append, body_quote hy] at h
      cases h
      exact .inl ⟨.nil, rfl, rfl⟩
  | singleton c =>
      by_cases quote : c = 39
      · subst quote
        rw [List.singleton_append, body_doubled] at h
        obtain ⟨r, hr, heq⟩ := Option.map_eq_some_iff.mp h
        cases heq
        exact .inr (.inr ⟨.inl rfl, [39], r.1, rfl, Nat.le_refl _, hr⟩)
      by_cases backslash : c = 92
      · subst backslash
        rw [List.singleton_append, body_backslash] at h
        obtain ⟨r, hr, heq⟩ := Option.map_eq_some_iff.mp h
        cases heq
        exact .inr (.inr ⟨.inr rfl, _, r.1, rfl, by decide, hr⟩)
      · rw [List.singleton_append, body_plain quote backslash, body_quote hy] at h
        cases h
        exact .inl ⟨.plain quote backslash .nil, rfl, rfl⟩
  | cons_cons c d s ih2 ih1 =>
      by_cases quote : c = 39
      · subst quote
        by_cases doubled : d = 39
        · subst doubled
          rw [List.cons_append, List.cons_append, body_doubled] at h
          obtain ⟨r, hr, heq⟩ := Option.map_eq_some_iff.mp h
          cases heq
          rcases ih2 hr with ⟨-, hv, -⟩ | short | swallowed
          · simp [hv]
          · refine .inr (.inl ?_)
            simp only [List.length_cons]
            omega
          · exact .inr (.inr (swallowed.cons [39, 39] [39] (by decide)))
        · simp only [List.cons_append, body, ↓reduceIte, doubled, Option.some.injEq,
            Prod.mk.injEq] at h
          refine .inr (.inl ?_)
          simp [← h.1]
      by_cases backslash : c = 92
      · subst backslash
        rw [List.cons_append, List.cons_append, body_backslash] at h
        obtain ⟨r, hr, heq⟩ := Option.map_eq_some_iff.mp h
        cases heq
        by_cases wild : d = 37 ∨ d = 95
        · rw [unescape_wild wild]
          rcases ih2 hr with ⟨hs, hv, hrest⟩ | short | swallowed
          · exact .inl ⟨.wild wild hs, by simp [hv], hrest⟩
          · refine .inr (.inl ?_)
            simp only [List.length_append, List.length_cons, List.length_nil]
            omega
          · exact .inr (.inr (swallowed.cons [92, d] [92, d] (by simp)))
        · have one := unescape_length wild
          rcases ih2 hr with ⟨-, hv, -⟩ | short | swallowed
          · refine .inr (.inl ?_)
            rw [hv, List.length_append, one, List.length_cons, List.length_cons]
            omega
          · refine .inr (.inl ?_)
            simp only [List.length_append, List.length_cons, one]
            omega
          · exact .inr (.inr (swallowed.cons [92, d] (unescape d) (by simp [one])))
      · rw [List.cons_append, body_plain quote backslash] at h
        obtain ⟨r, hr, heq⟩ := Option.map_eq_some_iff.mp h
        cases heq
        rcases ih1 d hr with ⟨hs, hv, hrest⟩ | short | swallowed
        · exact .inl ⟨.plain quote backslash hs, by simp [hv], hrest⟩
        · refine .inr (.inl ?_)
          simp only [List.length_cons] at short ⊢
          omega
        · exact .inr (.inr (swallowed.cons [c] [c] (by simp)))

end SqlLiteral
