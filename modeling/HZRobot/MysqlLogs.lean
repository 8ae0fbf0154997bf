import HZRobot.Bytes
import HZRobot.SqlLiteral

/-!
The SQL text of mysql_logs::recordlog and its reading by MySQL. The text is
stored verbatim exactly for the strings that are their own literal text, since
recordlog escapes nothing. The row is printed through vsnprintf, whose int
result also bounds the size of a row.
-/

namespace HZRobot.MysqlLogs
open SqlLiteral

/-- The fields of struct tm that recordlog prints. -/
structure Tm where
  tm_year : Int
  tm_mon : Int
  tm_mday : Int
  tm_hour : Int
  tm_min : Int
  tm_sec : Int
  deriving DecidableEq, Repr

/-- sprintf(res, "%d-%d-%d %d:%d:%d", ...). -/
def date (t : Tm) : List UInt8 :=
  signedDecimal (t.tm_year + 1900) ++ [45] ++ signedDecimal (t.tm_mon + 1) ++ [45] ++
    signedDecimal t.tm_mday ++ [32] ++ signedDecimal t.tm_hour ++ [58] ++
    signedDecimal t.tm_min ++ [58] ++ signedDecimal t.tm_sec

def sqlHead : List UInt8 :=
  bytes "INSERT INTO `run_logs` (`date`, `action`, `remarks`) VALUES "

/-- The output of the format "('%s', '%s', '%s') ". -/
def formatRow (date action remarks : List UInt8) : List UInt8 :=
  bytes "('" ++ (cstr date ++ (bytes "', '" ++ (cstr action ++ (bytes "', '" ++
    (cstr remarks ++ bytes "') ")))))

/-- string::format_append. For an output past INT_MAX assert_size is the size_t
of vsnprintf's -1, and the resize to it throws. -/
def formatAppend (sql row : List UInt8) : Option (List UInt8) :=
  if row.length < 2 ^ 31 then some (sql ++ row) else none

/-- The statement recordlog executes; none when it throws. -/
def recordlog (now : Tm) (action remarks : List UInt8) : Option (List UInt8) :=
  formatAppend sqlHead (formatRow (date now) action remarks)

def isBlank (c : UInt8) : Bool := c = 32 || (9 ≤ c && c ≤ 13)

def punct (c : UInt8) (text : List UInt8) : Option (List UInt8) :=
  match text.dropWhile isBlank with
  | [] => none
  | d :: rest => if d = c then some rest else none

def literal (text : List UInt8) : Option (List UInt8 × List UInt8) :=
  (punct 39 text).bind body

/-- MySQL's reading of a statement that starts with sqlHead: one row of three
single-quoted literals and nothing after it. -/
def readInsert (text : List UInt8) : Option (List (List UInt8)) := do
  guard (sqlHead <+: text)
  let text ← punct 40 (text.drop sqlHead.length)
  let (date, text) ← literal text
  let text ← punct 44 text
  let (action, text) ← literal text
  let text ← punct 44 text
  let (remarks, text) ← literal text
  let text ← punct 41 text
  guard (text.dropWhile isBlank = [])
  return [date, action, remarks]

/-- The record is stored as one INSERT whose literals denote action and remarks. -/
def StoredVerbatim (now : Tm) (action remarks : List UInt8) : Prop :=
  ∃ text d, recordlog now action remarks = some text ∧
    readInsert text = some [d, action, remarks]

theorem signedDecimal_plain {i : Int} {c : UInt8} (h : c ∈ signedDecimal i) :
    c = 45 ∨ (48 ≤ c ∧ c ≤ 57) := by
  unfold signedDecimal at h
  split at h
  · rcases List.mem_cons.mp h with rfl | h
    · exact .inl rfl
    · exact .inr (decimal_digit h)
  · exact .inr (decimal_digit h)

theorem date_plain {t : Tm} {c : UInt8} (h : c ∈ date t) : c ≠ 39 ∧ c ≠ 92 ∧ c ≠ 0 := by
  have : c = 32 ∨ c = 45 ∨ c = 58 ∨ (48 ≤ c ∧ c ≤ 57) := by
    simp only [date, List.mem_append, List.mem_singleton] at h
    grind [signedDecimal_plain]
  grind

theorem date_verbatim (t : Tm) : Verbatim (date t) :=
  verbatim_of_plain fun _ hc => ⟨(date_plain hc).1, (date_plain hc).2.1⟩

theorem cstr_date (t : Tm) : cstr (date t) = date t :=
  cstr_eq_self fun h => (date_plain h).2.2 rfl

theorem punct_length {c : UInt8} {text rest : List UInt8} (h : punct c text = some rest) :
    rest.length + 1 ≤ text.length := by
  unfold punct at h
  have shorter := (List.dropWhile_suffix (p := isBlank) (l := text)).length_le
  split at h
  · cases h
  · case h_2 d tail heq =>
      split at h
      · cases h
        rw [heq, List.length_cons] at shorter
        exact shorter
      · cases h

theorem punct_here {c : UInt8} (hc : isBlank c = false) (rest : List UInt8) :
    punct c (c :: rest) = some rest := by
  simp [punct, hc]

theorem punct_space (c : UInt8) (rest : List UInt8) : punct c (32 :: rest) = punct c rest := by
  simp [punct, isBlank]

theorem literal_here (rest : List UInt8) : literal (39 :: rest) = body rest := by
  simp [literal, punct_here (show isBlank 39 = false by decide)]

theorem literal_length {text v rest : List UInt8} (h : literal text = some (v, rest)) :
    v.length + rest.length + 2 ≤ text.length := by
  obtain ⟨x, hx, hb⟩ := Option.bind_eq_some_iff.mp h
  have := punct_length hx
  have := body_length hb
  omega

/-- The part of the reading that starts inside the action literal. -/
def readTail (text : List UInt8) : Option (List UInt8 × List UInt8) := do
  let (action, text) ← body text
  let text ← punct 44 text
  let (remarks, text) ← literal text
  let text ← punct 41 text
  guard (text.dropWhile isBlank = [])
  return (action, remarks)

theorem readInsert_recordlog {now : Tm} {action remarks text : List UInt8}
    (h : recordlog now action remarks = some text) :
    readInsert text = (readTail (cstr action ++ (bytes "', '" ++ (cstr remarks ++
      bytes "') ")))).map fun r => [date now, r.1, r.2] := by
  unfold recordlog formatAppend at h
  split at h
  · cases h
    have open_ : punct 40 (formatRow (date now) action remarks) = some (39 :: (date now ++
        39 :: (bytes ", '" ++ (cstr action ++ (bytes "', '" ++ (cstr remarks ++
          bytes "') ")))))) := by
      rw [formatRow, cstr_date]
      exact punct_here (by decide) _
    have first := body_of_verbatim (date_verbatim now) (y := bytes ", '" ++ (cstr action ++
      (bytes "', '" ++ (cstr remarks ++ bytes "') ")))) (show some (44 : UInt8) ≠ some 39 by decide)
    have comma : punct 44 (bytes ", '" ++ (cstr action ++ (bytes "', '" ++ (cstr remarks ++
        bytes "') ")))) = some (32 :: 39 :: (cstr action ++ (bytes "', '" ++ (cstr remarks ++
          bytes "') ")))) := punct_here (by decide) _
    have second (x : List UInt8) : literal (32 :: 39 :: x) = body x := by
      rw [literal, punct_space]
      exact literal_here x
    simp only [readInsert, List.prefix_append, guard_true, List.drop_left, open_, literal_here,
      first, comma, second, readTail, Option.bind_eq_bind, Option.pure_def, Option.bind_some,
      Option.map_bind, Function.comp_def, Option.map_some]
  · cases h

/-- Two verbatim strings are read back from the row. -/
theorem readTail_of_verbatim {action remarks : List UInt8} (ha : Verbatim action)
    (hr : Verbatim remarks) :
    readTail (action ++ (bytes "', '" ++ (remarks ++ bytes "') "))) = some (action, remarks) := by
  have first := body_of_verbatim ha (y := bytes ", '" ++ (remarks ++ bytes "') "))
    (show some (44 : UInt8) ≠ some 39 by decide)
  have last := body_of_verbatim hr (y := bytes ") ") (by decide)
  have comma : punct 44 (bytes ", '" ++ (remarks ++ bytes "') ")) =
      some (32 :: 39 :: (remarks ++ bytes "') ")) := punct_here (by decide) _
  have opening (x : List UInt8) : literal (32 :: 39 :: x) = body x := by
    rw [literal, punct_space]
    exact literal_here x
  have closing : punct 41 (bytes ") ") = some [32] := punct_here (by decide) _
  unfold readTail
  change (body (action ++ 39 :: (bytes ", '" ++ (remarks ++ bytes "') "))) >>= _) = _
  rw [first]
  simp only [Option.bind_eq_bind, Option.bind_some, comma, opening]
  change (body (remarks ++ 39 :: bytes ") ") >>= _) = _
  rw [last]
  simp only [Option.bind_eq_bind, Option.bind_some, closing]
  rfl

/-- An action literal that runs past its own quote leaves too little text for
the remarks, or ends in a blank although its last byte is a quote or a backslash. -/
theorem swallowed_absurd {action remarks rest next third : List UInt8}
    (h : Swallowed (cstr action) (bytes ", '" ++ (cstr remarks ++ bytes "') ")) action rest)
    (comma : punct 44 rest = some next) (last : literal next = some (remarks, third)) : False := by
  obtain ⟨ends, v₁, v₂, split, bound, read⟩ := h
  have short := punct_length comma
  have used := literal_length last
  have cut := cstr_length_le remarks
  change body (44 :: 32 :: 39 :: (cstr remarks ++ bytes "') ")) = some (v₂, rest) at read
  rw [body_plain (by decide) (by decide), body_plain (by decide) (by decide)] at read
  obtain ⟨r, hr, heq⟩ := Option.map_eq_some_iff.mp read
  obtain ⟨q, hq, rfl⟩ := Option.map_eq_some_iff.mp hr
  cases heq
  by_cases doubled : (cstr remarks ++ bytes "') ").head? = some 39
  · cases hm : cstr remarks with
    | nil =>
        rw [hm] at hq
        change body (39 :: 39 :: [41, 32]) = some q at hq
        simp [body] at hq
    | cons c m =>
        rw [hm] at doubled hq
        obtain rfl : c = 39 := by simpa using doubled
        rw [List.cons_append, body_doubled] at hq
        obtain ⟨w, hw, rfl⟩ := Option.map_eq_some_iff.mp hq
        have read := body_length hw
        have len : (bytes "') ").length = 3 := rfl
        rw [hm, List.length_cons] at cut
        simp only [List.length_append, len] at read short
        omega
  · rw [body_quote doubled] at hq
    cases hq
    -- the value ends in the comma and the blank between the literals
    have inside : v₁ <+: cstr action := by
      apply List.prefix_of_prefix_length_le _ (List.takeWhile_prefix _) bound
      rw [split]
      exact List.prefix_append _ _
    have nul : 0 ∉ action := by
      rw [split]
      intro h
      rcases List.mem_append.mp h with h | h
      · exact zero_not_mem_cstr action (inside.subset h)
      · simp at h
    rw [cstr_eq_self nul, split] at ends
    simp at ends

theorem readTail_exact {action remarks : List UInt8}
    (h : readTail (cstr action ++ (bytes "', '" ++ (cstr remarks ++ bytes "') "))) =
      some (action, remarks)) :
    cstr action = action ∧ cstr remarks = remarks ∧ Verbatim action ∧ Verbatim remarks := by
  simp only [readTail, Option.bind_eq_bind, Option.bind_eq_some_iff, Option.pure_def,
    Option.some.injEq, Prod.mk.injEq] at h
  obtain ⟨⟨a, rest⟩, first, next, comma, ⟨r, third⟩, last, -, -, -, -, ea, er⟩ := h
  rw [show a = action from ea] at first
  rw [show r = remarks from er] at last
  have cutA := cstr_length_le action
  have cutR := cstr_length_le remarks
  rcases body_cases (cstr action) (y := bytes ", '" ++ (cstr remarks ++ bytes "') "))
    (show some (44 : UInt8) ≠ some 39 by decide) first with ⟨va, sa, hrest⟩ | short | swallowed
  · dsimp only at comma
    rw [hrest] at comma
    obtain rfl : next = 32 :: 39 :: (cstr remarks ++ bytes "') ") := by
      have here : punct 44 (bytes ", '" ++ (cstr remarks ++ bytes "') ")) =
          some (32 :: 39 :: (cstr remarks ++ bytes "') ")) := punct_here (by decide) _
      exact Option.some.inj (comma.symm.trans here)
    rw [literal, punct_space] at last
    change body (cstr remarks ++ 39 :: bytes ") ") = some (remarks, third) at last
    rcases body_cases (cstr remarks) (y := bytes ") ") (by decide) last with
      ⟨vr, sr, -⟩ | short | ⟨-, v₁, v₂, -, -, read⟩
    · exact ⟨sa.symm, sr.symm, sa ▸ va, sr ▸ vr⟩
    · omega
    · have unclosed : body (bytes ") ") = none := by decide
      rw [unclosed] at read
      cases read
  · omega
  · exact (swallowed_absurd swallowed comma last).elim

theorem row_fits {now : Tm} {action remarks text : List UInt8}
    (made : recordlog now action remarks = some text) :
    (formatRow (date now) action remarks).length < 2 ^ 31 := by
  by_contra long
  rw [recordlog, formatAppend, if_neg long] at made
  cases made

theorem verbatim_of_stored {now : Tm} {action remarks : List UInt8}
    (stored : StoredVerbatim now action remarks) :
    (0 ∉ action ∧ Verbatim action) ∧ 0 ∉ remarks ∧ Verbatim remarks := by
  obtain ⟨text, d, made, read⟩ := stored
  rw [readInsert_recordlog made] at read
  obtain ⟨⟨a, r⟩, tail, heq⟩ := Option.map_eq_some_iff.mp read
  simp only [List.cons.injEq, and_true] at heq
  obtain ⟨-, rfl, rfl⟩ := heq
  obtain ⟨ca, cr, va, vr⟩ := readTail_exact tail
  exact ⟨⟨cstr_eq_self_iff.mp ca, va⟩, cstr_eq_self_iff.mp cr, vr⟩

/-- A record is stored verbatim exactly when neither string holds a NUL, a quote
or a backslash other than before a percent sign or an underscore, and the row
fits vsnprintf's result. -/
theorem stored_verbatim_iff (now : Tm) (action remarks : List UInt8) :
    StoredVerbatim now action remarks ↔
      (0 ∉ action ∧ Verbatim action) ∧ (0 ∉ remarks ∧ Verbatim remarks) ∧
        (formatRow (date now) action remarks).length < 2 ^ 31 := by
  constructor
  · intro stored
    obtain ⟨text, d, made, -⟩ := id stored
    obtain ⟨first, second⟩ := verbatim_of_stored stored
    exact ⟨first, second, row_fits made⟩
  · rintro ⟨⟨na, va⟩, ⟨nr, vr⟩, fits⟩
    have made : recordlog now action remarks =
        some (sqlHead ++ formatRow (date now) action remarks) := if_pos fits
    refine ⟨_, date now, made, ?_⟩
    rw [readInsert_recordlog made, cstr_eq_self na, cstr_eq_self nr,
      readTail_of_verbatim va vr, Option.map_some]

/-- A reply body with one apostrophe is not stored. -/
theorem apostrophe_not_stored :
    ¬ StoredVerbatim ⟨120, 8, 9, 10, 0, 0⟩ (bytes "photo") (bytes "it's done") := by
  intro stored
  have unread := body_of_verbatim (verbatim_of_stored stored).2.2 (y := []) (by decide)
  revert unread
  decide

end HZRobot.MysqlLogs
