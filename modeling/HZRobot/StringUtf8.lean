import HZRobot.Bytes

/-!
string::is_utf8. The machine counts the continuation bytes that are still due. What it
accepts is a grammar of ASCII bytes and sequences behind a lead byte, with two bytes
more among the leads than the scheme has.
-/

namespace HZRobot.Utf8

/-- The chain of ranges for a first byte, in its order. -/
def leadLength (chr : UInt8) : Option Nat :=
  if 0xFC ≤ chr ∧ chr ≤ 0xFD then some 6
  else if 0xF8 ≤ chr then some 5
  else if 0xF0 ≤ chr then some 4
  else if 0xE0 ≤ chr then some 3
  else if 0xC0 ≤ chr then some 2
  else none

def isUtf8Loop : List UInt8 → Nat → Bool → Bool
  | [], bytes, all_ascii => if 0 < bytes then false else if all_ascii then false else true
  | chr :: str, bytes, all_ascii =>
      let all_ascii := if chr &&& 0x80 ≠ 0 then false else all_ascii
      if bytes = 0 then
        if 0x80 ≤ chr then
          match leadLength chr with
          | some bytes => isUtf8Loop str (bytes - 1) all_ascii
          | none => false
        else isUtf8Loop str bytes all_ascii
      else if chr &&& 0xC0 ≠ 0x80 then false
      else isUtf8Loop str (bytes - 1) all_ascii

/-- string::is_utf8. -/
def isUtf8 (str : List UInt8) : Bool := isUtf8Loop str 0 true

/-- A continuation byte. -/
def Tail (c : UInt8) : Prop := 0x80 ≤ c ∧ c ≤ 0xBF

/-- The byte leads a sequence with n more bytes in the scheme of up to six bytes. -/
def Lead (c : UInt8) (n : Nat) : Prop :=
  (0xC0 ≤ c ∧ c ≤ 0xDF ∧ n = 1) ∨ (0xE0 ≤ c ∧ c ≤ 0xEF ∧ n = 2) ∨ (0xF0 ≤ c ∧ c ≤ 0xF7 ∧ n = 3) ∨
    (0xF8 ≤ c ∧ c ≤ 0xFB ∧ n = 4) ∨ (0xFC ≤ c ∧ c ≤ 0xFD ∧ n = 5)

/-- The leads of the machine: FE and FF are taken for leads of five bytes. -/
def WideLead (c : UInt8) (n : Nat) : Prop := Lead c n ∨ (0xFE ≤ c ∧ n = 4)

/-- ASCII bytes and whole sequences. -/
inductive Text (lead : UInt8 → Nat → Prop) : List UInt8 → Prop
  | nil : Text lead []
  | ascii {c : UInt8} {s : List UInt8} (h : c < 0x80) (rest : Text lead s) : Text lead (c :: s)
  | sequence {c : UInt8} {n : Nat} {tail s : List UInt8} (h : lead c n) (length : tail.length = n)
      (tails : ∀ b ∈ tail, Tail b) (rest : Text lead s) : Text lead (c :: (tail ++ s))

section Grammar

variable {lead lead' : UInt8 → Nat → Prop} {s : List UInt8}

theorem Text.mono (h : Text lead s) (wider : ∀ c n, c ∈ s → lead c n → lead' c n) :
    Text lead' s := by
  induction h with
  | nil => exact .nil
  | ascii small rest ih =>
      exact .ascii small (ih fun c n mem => wider c n (List.mem_cons_of_mem _ mem))
  | sequence first length tails rest ih =>
      refine .sequence (wider _ _ List.mem_cons_self first) length tails (ih fun c n mem => ?_)
      exact wider c n (List.mem_cons_of_mem _ (List.mem_append_right _ mem))

/-- The bytes of a text of the scheme. -/
theorem Text.lt_of_mem (h : Text Lead s) : ∀ b ∈ s, b < 0xFE := by
  have ascii_ : ∀ c : UInt8, c < 0x80 → c < 0xFE := by decide +kernel
  have tail_ : ∀ c : UInt8, c ≤ 0xBF → c < 0xFE := by decide +kernel
  have lead_ : ∀ c : UInt8, c ≤ 0xDF ∨ c ≤ 0xEF ∨ c ≤ 0xF7 ∨ c ≤ 0xFB ∨ c ≤ 0xFD → c < 0xFE := by
    decide +kernel
  induction h with
  | nil => simp
  | ascii small rest ih =>
      intro b mem
      rcases List.mem_cons.mp mem with rfl | later
      · exact ascii_ _ small
      · exact ih b later
  | sequence first length tails rest ih =>
      intro b mem
      rcases List.mem_cons.mp mem with rfl | later
      · exact lead_ _ (first.imp (fun h => h.2.1) (.imp (fun h => h.2.1)
          (.imp (fun h => h.2.1) (.imp (fun h => h.2.1) fun h => h.2.1))))
      · rcases List.mem_append.mp later with inTail | behind
        · exact tail_ _ (tails b inTail).2
        · exact ih b behind

/-- n continuation bytes and a text behind them: what the machine accepts while n are due. -/
def Due (lead : UInt8 → Nat → Prop) (n : Nat) (s : List UInt8) : Prop :=
  ∃ tail rest, s = tail ++ rest ∧ tail.length = n ∧ (∀ b ∈ tail, Tail b) ∧ Text lead rest

theorem due_zero : Due lead 0 s ↔ Text lead s := by
  constructor
  · rintro ⟨tail, rest, rfl, none_, -, text⟩
    rw [List.length_eq_zero_iff.mp none_]
    exact text
  · intro text
    exact ⟨[], s, rfl, rfl, by simp, text⟩

theorem due_succ {n : Nat} {c : UInt8} : Due lead (n + 1) (c :: s) ↔ Tail c ∧ Due lead n s := by
  constructor
  · rintro ⟨tail, rest, split, length, tails, text⟩
    cases tail with
    | nil => cases length
    | cons b tail =>
        obtain ⟨rfl, rfl⟩ := List.cons.inj split
        exact ⟨tails _ List.mem_cons_self, tail, rest, rfl, Nat.succ.inj length,
          fun b mem => tails b (List.mem_cons_of_mem _ mem), text⟩
  · rintro ⟨first, tail, rest, rfl, length, tails, text⟩
    refine ⟨c :: tail, rest, rfl, congrArg (· + 1) length, fun b mem => ?_, text⟩
    rcases List.mem_cons.mp mem with rfl | later
    · exact first
    · exact tails b later

theorem due_nil {n : Nat} : Due lead n [] ↔ n = 0 := by
  constructor
  · rintro ⟨tail, rest, split, length, -⟩
    rw [(List.append_eq_nil_iff.mp split.symm).1] at length
    exact length.symm
  · rintro rfl
    exact due_zero.mpr .nil

theorem text_cons_ascii {c : UInt8} (small : c < 0x80) (notLead : ∀ n, ¬ lead c n) :
    Text lead (c :: s) ↔ Text lead s := by
  constructor
  · intro h
    cases h with
    | ascii _ rest => exact rest
    | sequence first => exact absurd first (notLead _)
  · exact .ascii small

theorem text_cons_lead {c : UInt8} {n : Nat} (large : ¬ c < 0x80)
    (only : ∀ m, lead c m ↔ m = n) : Text lead (c :: s) ↔ Due lead n s := by
  constructor
  · intro h
    cases h with
    | ascii small => exact absurd small large
    | sequence first length tails rest =>
        exact ⟨_, _, rfl, length.trans ((only _).mp first), tails, rest⟩
  · rintro ⟨tail, rest, rfl, length, tails, text⟩
    exact .sequence ((only n).mpr rfl) length tails text

theorem not_text_cons {c : UInt8} (large : ¬ c < 0x80) (notLead : ∀ n, ¬ lead c n) :
    ¬ Text lead (c :: s) := by
  intro h
  cases h with
  | ascii small => exact large small
  | sequence first => exact notLead _ first

end Grammar

theorem wideLead_iff (c : UInt8) (n : Nat) :
    WideLead c n ↔ (0xC0 ≤ c.toNat ∧ c.toNat ≤ 0xDF ∧ n = 1) ∨
      (0xE0 ≤ c.toNat ∧ c.toNat ≤ 0xEF ∧ n = 2) ∨ (0xF0 ≤ c.toNat ∧ c.toNat ≤ 0xF7 ∧ n = 3) ∨
      (0xFC ≤ c.toNat ∧ c.toNat ≤ 0xFD ∧ n = 5) ∨
      (0xF8 ≤ c.toNat ∧ ¬ (0xFC ≤ c.toNat ∧ c.toNat ≤ 0xFD) ∧ n = 4) := by
  simp only [WideLead, Lead, UInt8.le_iff_toNat_le, UInt8.reduceToNat]
  omega

/-- The chain of ranges against the leads of the machine. -/
theorem leadLength_eq (c : UInt8) :
    (leadLength c = none ∧ ∀ n, ¬ WideLead c n) ∨
      ∃ n, leadLength c = some (n + 1) ∧ ∀ m, WideLead c m ↔ m = n := by
  simp only [wideLead_iff, leadLength, UInt8.le_iff_toNat_le, UInt8.reduceToNat]
  split
  · exact .inr ⟨5, rfl, fun m => by omega⟩
  split
  · exact .inr ⟨4, rfl, fun m => by omega⟩
  split
  · exact .inr ⟨3, rfl, fun m => by omega⟩
  split
  · exact .inr ⟨2, rfl, fun m => by omega⟩
  split
  · exact .inr ⟨1, rfl, fun m => by omega⟩
  · exact .inl ⟨rfl, fun n => by omega⟩

theorem high_iff (c : UInt8) : c &&& 0x80 ≠ 0 ↔ ¬ c < 0x80 := by
  have all : ∀ c : UInt8, c &&& 0x80 ≠ 0 ↔ ¬ c < 0x80 := by decide +kernel
  exact all c

theorem tail_iff (c : UInt8) : c &&& 0xC0 = 0x80 ↔ Tail c := by
  have all : ∀ c : UInt8, c &&& 0xC0 = 0x80 ↔ 0x80 ≤ c ∧ c ≤ 0xBF := by decide +kernel
  exact all c

theorem wideLead_large {c : UInt8} {n : Nat} (h : WideLead c n) : ¬ c < 0x80 := by
  rw [wideLead_iff] at h
  simp only [UInt8.lt_iff_toNat_lt, UInt8.reduceToNat]
  omega

/-- all_ascii after one more byte. -/
theorem seen_cons (c : UInt8) (s : List UInt8) (all_ascii : Bool) :
    ((if c &&& 0x80 ≠ 0 then false else all_ascii) = false ∨ ∃ b ∈ s, ¬ b < 0x80) ↔
      (all_ascii = false ∨ ∃ b ∈ c :: s, ¬ b < 0x80) := by
  simp only [high_iff, List.mem_cons, exists_eq_or_imp]
  by_cases small : c < 0x80
  · simp [small]
  · simp [small]

/-- The machine with n continuation bytes due. -/
theorem isUtf8Loop_iff (s : List UInt8) (n : Nat) (all_ascii : Bool) :
    isUtf8Loop s n all_ascii = true ↔
      Due WideLead n s ∧ (all_ascii = false ∨ ∃ b ∈ s, ¬ b < 0x80) := by
  induction s generalizing n all_ascii with
  | nil =>
      rw [due_nil, isUtf8Loop]
      cases n with
      | zero => cases all_ascii <;> simp
      | succ n => simp
  | cons c s ih =>
      rw [← seen_cons, isUtf8Loop]
      cases n with
      | zero =>
          rw [if_pos rfl, due_zero]
          by_cases small : c < 0x80
          · rw [if_neg (UInt8.not_le.mpr small), ih, due_zero,
              text_cons_ascii small fun n lead => wideLead_large lead small]
          rw [if_pos (UInt8.not_lt.mp small)]
          rcases leadLength_eq c with ⟨chain, notLead⟩ | ⟨n, chain, only⟩
          · simp [chain, not_text_cons small notLead]
          · simp only [chain, Nat.add_sub_cancel, ih, text_cons_lead small only]
      | succ n =>
          rw [if_neg (Nat.succ_ne_zero n), due_succ]
          by_cases tail : c &&& 0xC0 = 0x80
          · rw [if_neg (not_not.mpr tail), ih, Nat.add_sub_cancel]
            simp only [(tail_iff c).mp tail, true_and]
          · rw [if_pos tail]
            simp [(tail_iff c).not.mp tail]

/-- What is_utf8 accepts. -/
theorem isUtf8_iff (s : List UInt8) :
    isUtf8 s = true ↔ (∃ b ∈ s, ¬ b < 0x80) ∧ Text WideLead s := by
  rw [isUtf8, isUtf8Loop_iff, due_zero, and_comm]
  simp

/-- A byte FE or FF stands in the text. -/
def HasStray (s : List UInt8) : Prop := 0xFE ∈ s ∨ 0xFF ∈ s

theorem lt_of_not_stray {s : List UInt8} (clean : ¬ HasStray s) : ∀ b ∈ s, b < 0xFE := by
  have all : ∀ b : UInt8, b < 0xFE ∨ b = 0xFE ∨ b = 0xFF := by decide +kernel
  intro b mem
  rcases all b with less | rfl | rfl
  · exact less
  · exact absurd (.inl mem) clean
  · exact absurd (.inr mem) clean

theorem text_of_not_stray {s : List UInt8} (clean : ¬ HasStray s) (h : Text WideLead s) :
    Text Lead s := by
  refine h.mono fun c n mem lead => lead.resolve_right fun stray => ?_
  exact absurd (lt_of_not_stray clean c mem) (UInt8.not_lt.mpr stray.1)

theorem not_stray_of_text {s : List UInt8} (h : Text Lead s) : ¬ HasStray s := by
  rintro (mem | mem)
  · exact absurd (h.lt_of_mem _ mem) (by decide)
  · exact absurd (h.lt_of_mem _ mem) (by decide)

/-- is_utf8 tells multi-byte texts of the scheme apart exactly where no byte FE or FF is
taken for a lead. -/
theorem recognises_iff (s : List UInt8) :
    (isUtf8 s = true ↔ (∃ b ∈ s, ¬ b < 0x80) ∧ Text Lead s) ↔
      (0xFE ∉ s ∧ 0xFF ∉ s) ∨ ¬ Text WideLead s := by
  rw [isUtf8_iff, ← not_or]
  have wider : Text Lead s → Text WideLead s := fun h => h.mono fun _ _ _ lead => .inl lead
  constructor
  · intro same
    by_cases text : Text WideLead s
    · by_cases stray : HasStray s
      · have high : ∃ b ∈ s, ¬ b < 0x80 := by
          rcases stray with mem | mem
          · exact ⟨_, mem, by decide⟩
          · exact ⟨_, mem, by decide⟩
        exact absurd stray (not_stray_of_text (same.mp ⟨high, text⟩).2)
      · exact .inl stray
    · exact .inr text
  · rintro (clean | noText)
    · exact and_congr_right fun _ => ⟨text_of_not_stray clean, wider⟩
    · exact ⟨fun h => absurd h.2 noText, fun h => absurd (wider h.2) noText⟩

/-- FE and four continuation bytes. -/
theorem strayLead_accepted :
    ¬ (isUtf8 [0xFE, 0x80, 0x80, 0x80, 0x80] = true ↔
      (∃ b ∈ [0xFE, 0x80, 0x80, 0x80, 0x80], ¬ b < (0x80 : UInt8)) ∧
        Text Lead [0xFE, 0x80, 0x80, 0x80, 0x80]) := by
  intro same
  have text := (same.mp (by decide)).2
  exact absurd (text.lt_of_mem 0xFE List.mem_cons_self) (by decide)

end HZRobot.Utf8
