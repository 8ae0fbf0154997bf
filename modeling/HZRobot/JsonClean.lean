import HZRobot.JsonForms

/-!
The JSON texts that the parser reads by forms of JSON only. Left out are numbers with an
exponent, strings that end in a backslash, names that are empty or hold a quote, and a true,
false or null that closes an array; a whole text is no such symbol and does not end in a number.
-/

namespace HZRobot.Json

/-- true, false or null. -/
def IsSymbol (t : List UInt8) : Prop := ∃ type, (type, t) ∈ symbols

/-- A value of JSON without the forms that the parser refuses. -/
inductive Clean : List UInt8 → Prop
  | symbol {t : List UInt8} (inside : IsSymbol t) : Clean t
  | number {t : List UInt8} (number : JsonNumber t) (plain : ∀ c ∈ t, isNumeric c = true) : Clean t
  | string {t : List UInt8} (chars : JsonChars t) (ends : ¬ [92] <:+ t) : Clean (34 :: (t ++ [34]))
  | emptyArray {w : List UInt8} (blanks : Blanks w) : Clean (91 :: (w ++ [93]))
  | array {es : List ElementText} (some_ : es ≠ [])
      (blanks : ∀ e ∈ es, Blanks e.before ∧ Blanks e.behind)
      (values : ∀ e ∈ es, Clean e.value) (last : ∀ e ∈ es.getLast?, ¬ IsSymbol e.value) :
      Clean (91 :: ([44].intercalate (es.map ElementText.text) ++ [93]))
  | emptyObject {w : List UInt8} (blanks : Blanks w) : Clean (123 :: (w ++ [125]))
  | object {ms : List MemberText} (some_ : ms ≠ [])
      (names : ∀ m ∈ ms, (m.name ≠ [] ∧ 34 ∉ m.name ∧ JsonChars m.name) ∧
        Blanks m.before ∧ Blanks m.behind)
      (blanks : ∀ m ∈ ms, Blanks m.element.before ∧ Blanks m.element.behind)
      (values : ∀ m ∈ ms, Clean m.element.value) :
      Clean (123 :: ([44].intercalate (ms.map MemberText.text) ++ [125]))

/-- One such value with blanks around it, no symbol, and a number not at the end. -/
def CleanText (s : List UInt8) : Prop :=
  ∃ e : ElementText, s = e.text ∧ Blanks e.before ∧ Blanks e.behind ∧ Clean e.value ∧
    ¬ IsSymbol e.value ∧ (JsonNumber e.value → e.behind ≠ [])

theorem Clean.json {t : List UInt8} (h : Clean t) : JsonValue t := by
  induction h with
  | symbol inside =>
      obtain ⟨type, inside⟩ := inside
      exact .symbol inside
  | number number _ => exact .number number
  | string chars _ => exact .string chars
  | emptyArray blanks => exact .emptyArray blanks
  | array some_ blanks _ _ ih => exact .array some_ blanks ih
  | emptyObject blanks => exact .emptyObject blanks
  | object some_ names blanks _ ih =>
      exact .object some_ (fun m mem => ⟨(names m mem).1.2.2, (names m mem).2⟩) blanks ih

theorem Clean.head {t : List UInt8} (h : Clean t) : ∃ c u, t = c :: u ∧ isBlank c = false := by
  cases h with
  | symbol inside =>
      obtain ⟨type, inside⟩ := inside
      obtain ⟨c, u, text, blank, -⟩ := head_of_atom (.inl inside)
      exact ⟨c, u, text, blank⟩
  | number number _ =>
      obtain ⟨c, u, text, blank, -⟩ := @head_of_atom .integer _ (.inr number)
      exact ⟨c, u, text, blank⟩
  | string | emptyArray | array | emptyObject | object => exact ⟨_, _, rfl, rfl⟩

section Scalars

/-- The characters of a string end at the quote behind them. -/
theorem closing_chars {t : List UInt8} (chars : JsonChars t) {before : UInt8}
    (first : t = [] → before ≠ 92) (ends : ¬ [92] <:+ t) (rest : List UInt8) :
    closing 34 before (t ++ 34 :: rest) = some rest := by
  induction chars generalizing before with
  | nil => exact if_pos ⟨rfl, first rfl⟩
  | @plain c t visible noQuote noEscape later ih =>
      rw [List.cons_append, closing, if_neg fun same => noQuote same.1]
      exact ih (fun _ => noEscape) fun last => ends (last.trans (List.suffix_cons c t))
  | @escape c t known later ih =>
      have last (empty : t = []) : c ≠ 92 := by
        rintro rfl
        subst empty
        exact ends ⟨[92], rfl⟩
      rw [List.cons_append, List.cons_append, closing,
        if_neg fun same => absurd same.1 (by decide), closing, if_neg fun same => same.2 rfl]
      exact ih last fun more => ends (more.trans ((List.suffix_cons c t).trans (List.suffix_cons 92 _)))
  | @unicode a b c d t hex later ih =>
      have other : ∀ h ∈ [a, b, c, d], h ≠ 34 ∧ h ≠ 92 := by
        intro h mem
        have digit := hex h mem
        constructor
        · rintro rfl
          cases digit
        · rintro rfl
          cases digit
      simp only [List.forall_mem_cons, List.not_mem_nil, false_imp_iff, implies_true,
        and_true] at other
      obtain ⟨ha, hb, hc, hd⟩ := other
      have behind : t <:+ 92 :: 117 :: a :: b :: c :: d :: t := ⟨[92, 117, a, b, c, d], rfl⟩
      have marks : (92 : UInt8) ≠ 34 ∧ (117 : UInt8) ≠ 34 := by decide
      simp only [List.cons_append, closing, marks.1, marks.2, ha.1, hb.1, hc.1, hd.1, false_and,
        if_false]
      exact ih (fun _ => hd.2) fun more => ends (more.trans behind)

/-- No quote closes a string behind a backslash. -/
theorem closing_escaped {u rest left : List UInt8} {before : UInt8}
    (h : closing 34 before (u ++ 92 :: 34 :: rest) = some left) : left ≠ rest := by
  rintro rfl
  induction u generalizing before with
  | nil =>
      rw [List.nil_append, closing, if_neg fun same => absurd same.1 (by decide), closing,
        if_neg fun same => same.2 rfl] at h
      exact absurd (closing_length h) (Nat.lt_irrefl _)
  | cons c u ih =>
      rw [List.cons_append, closing] at h
      split at h
      · have size := congrArg List.length (Option.some.inj h)
        simp only [List.length_append, List.length_cons] at size
        omega
      · exact ih h

theorem bracketed_append (c d : UInt8) (t rest : List UInt8) :
    c :: (t ++ [d]) ++ rest = c :: (t ++ d :: rest) := by
  simp

theorem scalarEnd_string {t : List UInt8} : scalarEnd (34 :: t) = closing 34 34 t := rfl

theorem strict_string {t : List UInt8} (chars : JsonChars t) (ends : ¬ [92] <:+ t)
    (rest : List UInt8) : Strict .value (34 :: (t ++ [34]) ++ rest) rest := by
  rw [bracketed_append]
  refine .scalar ?_ (.string chars)
  rw [scalarEnd_string]
  exact closing_chars chars (fun _ => by decide) ends rest

/-- A number without an exponent is one the parser knows. -/
theorem JsonNumber.numeral {t : List UInt8} (number : JsonNumber t)
    (plain : ∀ c ∈ t, isNumeric c = true) : ∃ type, Numeral type t := by
  obtain @⟨sign, int, frac, exp, signed, int_, frac_, exp_⟩ := number
  cases exp_ with
  | none =>
      obtain ⟨type, front⟩ := number_of_json signed int_ frac_
      rw [List.append_nil]
      exact ⟨type, front.numeral⟩
  | @digits e sign' ds letter signed' all =>
      have here := plain e (List.mem_append_right _ List.mem_cons_self)
      rcases letter with rfl | rfl
      · cases here
      · cases here

theorem strict_number {t : List UInt8} (number : JsonNumber t) (plain : ∀ c ∈ t, isNumeric c = true)
    {b : UInt8} (ends : NoNumber b) (rest : List UInt8) :
    Strict .value (t ++ b :: rest) (b :: rest) := by
  obtain ⟨type, front⟩ := number.numeral plain
  have kind := start_of_number front.starts (b :: rest)
  have taken := (takes_numeral front ends (b :: rest)).mpr rfl
  rw [takes_scalar (by rw [kind]; decide) (by rw [kind]; decide)] at taken
  refine .scalar taken (.number kind ?_)
  rwa [List.takeWhile_append_of_pos plain, List.takeWhile_cons_of_neg (Bool.eq_false_iff.mp ends),
    List.append_nil]

theorem strict_symbol {t : List UInt8} (inside : IsSymbol t) {w : List UInt8} (blanks : Blanks w)
    {c : UInt8} (mark : c = 44 ∨ c = 125) (rest : List UInt8) :
    Strict .value (t ++ (w ++ c :: rest)) (c :: rest) := by
  obtain ⟨type, inside⟩ := inside
  have kind : start (t ++ (w ++ c :: rest)) = .symbol type t := by
    simp only [symbols, List.mem_cons, Prod.mk.injEq, List.not_mem_nil, or_false] at inside
    rcases inside with ⟨rfl, rfl⟩ | ⟨rfl, rfl⟩ | ⟨rfl, rfl⟩ <;> rfl
  refine .scalar ?_ (.symbol kind)
  rw [scalarEnd, kind]
  dsimp only
  rw [List.drop_left, skip_behind blanks (.of_brace mark), List.head?_cons]
  rcases mark with rfl | rfl
  · exact if_pos (.inl rfl)
  · exact if_pos (.inr rfl)

end Scalars

section Containers

/-- An element of an array that the parser takes before this byte. -/
def ElementFits (e : ElementText) (c : UInt8) : Prop :=
  (Blanks e.before ∧ Blanks e.behind) ∧ Clean e.value ∧ (IsSymbol e.value → c ≠ 93)

/-- A member of an object. A brace or a comma is behind it, which suits every value. -/
def MemberFits (m : MemberText) (_ : UInt8) : Prop :=
  ((m.name ≠ [] ∧ 34 ∉ m.name ∧ JsonChars m.name) ∧ Blanks m.before ∧ Blanks m.behind) ∧
    (Blanks m.element.before ∧ Blanks m.element.behind) ∧ Clean m.element.value

theorem elementsFit_iff {es : List ElementText} : AllFit ElementFits 93 es ↔
    (∀ e ∈ es, (Blanks e.before ∧ Blanks e.behind) ∧ Clean e.value) ∧
      ∀ e ∈ es.getLast?, ¬ IsSymbol e.value := by
  have more (e : ElementText) (_ : e ∈ es) : ElementFits e 44 ↔
      (Blanks e.before ∧ Blanks e.behind) ∧ Clean e.value :=
    and_congr_right' (and_iff_left fun _ => by decide)
  have last (e : ElementText) (_ : e ∈ es) : ElementFits e 93 ↔
      ((Blanks e.before ∧ Blanks e.behind) ∧ Clean e.value) ∧ ¬ IsSymbol e.value := by
    simp [ElementFits, and_assoc]
  exact allFit_iff more last

theorem membersFit_iff {ms : List MemberText} :
    AllFit MemberFits 125 ms ↔ ∀ m ∈ ms, MemberFits m 125 := by
  have more (m : MemberText) (_ : m ∈ ms) : MemberFits m 44 ↔ MemberFits m 125 := Iff.rfl
  have last (m : MemberText) (_ : m ∈ ms) : MemberFits m 125 ↔ MemberFits m 125 ∧ True :=
    (and_iff_left trivial).symm
  rw [allFit_iff more last]
  exact and_iff_left fun _ _ => trivial

/-- The parser takes the text by forms of JSON and comes, behind blanks, to this byte. -/
def StrictlyComes (form : Form) (t : List UInt8) (c : UInt8) (q : List UInt8) : Prop :=
  ∃ u, Strict form t u ∧ skip u = c :: q

/-- A symbol is taken before a comma or a brace, every other value before a bracket as well. -/
def StrictlyTaken (v : List UInt8) : Prop :=
  ∀ {w : List UInt8} {c : UInt8} {q : List UInt8}, Blanks w → Separates c →
    (IsSymbol v → c ≠ 93) → StrictlyComes .value (v ++ (w ++ c :: q)) c q

theorem strictlyTaken_of_whole {v : List UInt8} (h : ∀ rest, Strict .value (v ++ rest) rest) :
    StrictlyTaken v :=
  fun blanks mark _ => ⟨_, h _, skip_behind blanks mark⟩

theorem strictlyTaken_symbol {v : List UInt8} (inside : IsSymbol v) : StrictlyTaken v := by
  intro w c q blanks mark other
  have brace : c = 44 ∨ c = 125 := by
    rcases mark with rfl | rfl | rfl
    · exact .inl rfl
    · exact absurd rfl (other inside)
    · exact .inr rfl
  exact ⟨_, strict_symbol inside blanks brace q, skip_visible mark.visible⟩

theorem strictlyTaken_number {v : List UInt8} (number : JsonNumber v)
    (plain : ∀ c ∈ v, isNumeric c = true) : StrictlyTaken v := by
  intro w c q blanks mark _
  obtain ⟨b, q₁, next, behind⟩ := behind_blanks blanks (.inr mark) q
  refine ⟨b :: q₁, ?_, next ▸ skip_behind blanks mark⟩
  rw [next]
  exact strict_number number plain behind.noNumber q₁

theorem strict_element {e : ElementText} {c : UInt8} (fits : ElementFits e c)
    (taken : StrictlyTaken e.value) (mark : Separates c) (q : List UInt8) :
    StrictlyComes (.round .type) (e.text ++ c :: q) c q := by
  obtain ⟨blanks, value, other⟩ := fits
  obtain ⟨x, t, head, visible⟩ := value.head
  have split : e.text ++ c :: q = e.before ++ (e.value ++ (e.behind ++ c :: q)) := by
    simp [ElementText.text]
  have opens : opening .type (e.text ++ c :: q) = .value (e.value ++ (e.behind ++ c :: q)) := by
    rw [split, head]
    exact opened_visible blanks.1 visible
  obtain ⟨u, strict, space⟩ := taken blanks.2 mark other (q := q)
  exact ⟨u, .opens opens trivial strict, space⟩

/-- A name is taken with its colon, and the value behind it begins. -/
theorem opening_name {before name behind t : List UInt8} (noQuote : 34 ∉ name) (some_ : name ≠ [])
    (around : Blanks before ∧ Blanks behind) :
    opening .key (before ++ 34 :: (name ++ 34 :: (behind ++ 58 :: t))) = opened t := by
  obtain ⟨front, rest⟩ := takeWhile_other (t := behind ++ 58 :: t) noQuote
  rw [opening, skip_blanks around.1, skip_visible (by decide)]
  dsimp only
  rw [if_pos (.inr rfl), rest]
  dsimp only
  rw [front, behindKey, if_neg some_, skip_blanks around.2, skip_visible (by decide)]
  exact if_pos rfl

theorem strict_member {m : MemberText} {c : UInt8} (fits : MemberFits m c)
    (taken : StrictlyTaken m.element.value) (mark : c = 44 ∨ c = 125) (q : List UInt8) :
    StrictlyComes (.round .key) (m.text ++ c :: q) c q := by
  obtain ⟨⟨⟨some_, noQuote, chars⟩, around⟩, blanks, value⟩ := fits
  obtain ⟨x, t, head, visible⟩ := value.head
  have split : m.text ++ c :: q = m.before ++ 34 :: (m.name ++ 34 :: (m.behind ++ 58 ::
      (m.element.before ++ (m.element.value ++ (m.element.behind ++ c :: q))))) := by
    simp [MemberText.text, ElementText.text]
  have opens : opening .key (m.text ++ c :: q) =
      .value (m.element.value ++ (m.element.behind ++ c :: q)) := by
    rw [split, opening_name noQuote some_ around, head]
    exact opened_visible blanks.1 visible
  have form : NameForm .key (m.text ++ c :: q) := by
    have front : skip (m.text ++ c :: q) = 34 :: (m.name ++ 34 :: (m.behind ++ 58 ::
        (m.element.before ++ (m.element.value ++ (m.element.behind ++ c :: q))))) := by
      rw [split, skip_blanks around.1, skip_visible (by decide)]
    exact ⟨m.name, _, front, noQuote, some_, chars⟩
  have other : c ≠ 93 := by
    rcases mark with rfl | rfl
    · decide
    · decide
  obtain ⟨u, strict, space⟩ := taken blanks.2 (.of_brace mark) (fun _ => other) (q := q)
  exact ⟨u, .opens opens form strict, space⟩

theorem strict_items {ι : Type} {text : ι → List UInt8} {fits : ι → UInt8 → Prop}
    {decode_step : DecodeStep} {symbol : UInt8} {is : List ι} (some_ : is ≠ [])
    (each : ∀ i ∈ is, ∀ (c : UInt8) (q : List UInt8), c = 44 ∨ c = symbol → fits i c →
      StrictlyComes (.round decode_step) (text i ++ c :: q) c q)
    (fit : AllFit fits symbol is) (rest : List UInt8) :
    Strict (.rounds decode_step symbol) ([44].intercalate (is.map text) ++ symbol :: rest) rest := by
  induction is with
  | nil => exact absurd rfl some_
  | cons i is ih =>
      have first := each i List.mem_cons_self
      rw [text_of_items]
      cases is with
      | nil =>
          obtain ⟨u, strict, space⟩ := first symbol rest (.inr rfl) fit
          rw [if_pos rfl]
          exact .last strict space
      | cons j is =>
          rw [if_neg (List.cons_ne_nil j is)]
          obtain ⟨u, strict, space⟩ := first 44 _ (.inl rfl) fit.1
          have later := ih (List.cons_ne_nil j is) (fun k hk => each k (List.mem_cons_of_mem i hk)) fit.2
          exact .more strict space later

theorem Clean.strict {v : List UInt8} (h : Clean v) : StrictlyTaken v ∧
    (¬ IsSymbol v → ¬ JsonNumber v → ∀ rest, Strict .value (v ++ rest) rest) := by
  induction h with
  | symbol inside => exact ⟨strictlyTaken_symbol inside, fun other => absurd inside other⟩
  | number number plain =>
      exact ⟨strictlyTaken_number number plain, fun _ other => absurd number other⟩
  | string chars ends =>
      have whole := strict_string chars ends
      exact ⟨strictlyTaken_of_whole whole, fun _ _ => whole⟩
  | @emptyArray w blanks =>
      have whole (rest : List UInt8) : Strict .value (91 :: (w ++ [93]) ++ rest) rest := by
        rw [bracketed_append]
        exact .emptyArray rfl (skip_behind blanks (.inr (.inl rfl)))
      exact ⟨strictlyTaken_of_whole whole, fun _ _ => whole⟩
  | @array es some_ blanks values last ih =>
      have fit := elementsFit_iff.mpr ⟨fun e mem => ⟨blanks e mem, values e mem⟩, last⟩
      have whole (rest : List UInt8) :
          Strict .value (91 :: ([44].intercalate (es.map ElementText.text) ++ [93]) ++ rest) rest := by
        rw [bracketed_append]
        exact .array rfl (strict_items some_ (fun e mem c q mark fits =>
          strict_element fits (ih e mem).1 (.of_bracket mark) q) fit rest)
      exact ⟨strictlyTaken_of_whole whole, fun _ _ => whole⟩
  | @emptyObject w blanks =>
      have whole (rest : List UInt8) : Strict .value (123 :: (w ++ [125]) ++ rest) rest := by
        rw [bracketed_append]
        exact .emptyObject rfl (skip_behind blanks (.inr (.inr rfl)))
      exact ⟨strictlyTaken_of_whole whole, fun _ _ => whole⟩
  | @object ms some_ names blanks values ih =>
      have fit := membersFit_iff.mpr fun m mem => ⟨names m mem, blanks m mem, values m mem⟩
      have whole (rest : List UInt8) :
          Strict .value (123 :: ([44].intercalate (ms.map MemberText.text) ++ [125]) ++ rest) rest := by
        rw [bracketed_append]
        exact .object rfl (strict_items some_ (fun m mem c q mark fits =>
          strict_member fits (ih m mem).1 mark q) fit rest)
      exact ⟨strictlyTaken_of_whole whole, fun _ _ => whole⟩

end Containers

theorem Clean.plain {v : List UInt8} (h : Clean v) (noSymbol : ¬ IsSymbol v)
    (number : JsonNumber v) : ∀ c ∈ v, isNumeric c = true := by
  obtain ⟨x, u, text, first⟩ := number.head
  cases h with
  | symbol inside => exact absurd inside noSymbol
  | number _ plain => exact plain
  | string | emptyArray | array | emptyObject | object =>
      obtain ⟨rfl, -⟩ := List.cons.inj text
      rcases first with digit | minus
      · cases digit
      · cases minus

/-- The whole text is taken by forms of JSON, and blanks are behind it. -/
def StrictText (s : List UInt8) : Prop := ∃ rest, Strict (.round .type) s rest ∧ Blanks rest

theorem CleanText.strictText {s : List UInt8} (h : CleanText s) : StrictText s := by
  obtain ⟨e, rfl, before, behind, value, noSymbol, number⟩ := h
  obtain ⟨x, t, head, visible⟩ := value.head
  have opens : opening .type e.text = .value (e.value ++ e.behind) := by
    rw [ElementText.text, List.append_assoc, head]
    exact opened_visible before visible
  refine ⟨e.behind, .opens opens trivial ?_, behind⟩
  by_cases isNumber : JsonNumber e.value
  · obtain ⟨b, w, blanks⟩ := List.exists_cons_of_ne_nil (number isNumber)
    have blank : Behind b := .inl (behind b (blanks ▸ List.mem_cons_self))
    exact blanks ▸ strict_number isNumber (value.plain noSymbol isNumber) blank.noNumber w
  · exact value.strict.2 noSymbol isNumber e.behind

section Fronts

/-- A clean value in front of the rest. A symbol takes the blanks behind it as well, up to a
comma or a brace. -/
structure CleanFront (v w rest : List UInt8) : Prop where
  value : Clean v
  blanks : Blanks w
  space : ¬ IsSymbol v → w = []
  number : JsonNumber v → rest ≠ []
  symbol : IsSymbol v → rest.head? = some 44 ∨ rest.head? = some 125

theorem IsSymbol.not_number {t : List UInt8} (inside : IsSymbol t) : ¬ JsonNumber t := by
  intro number
  obtain ⟨type, inside⟩ := inside
  obtain ⟨c, u, rfl, first⟩ := number.head
  have letter := symbol_letters inside c List.mem_cons_self
  rcases first with digit | rfl
  · have other : ∀ c : UInt8, isDigit c = true → isLetter c = false := by decide +kernel
    rw [other c digit] at letter
    cases letter
  · cases letter

/-- A quote or an opening bracket begins neither a symbol nor a number. -/
theorem not_atom {c : UInt8} {t : List UInt8} (mark : c = 34 ∨ c = 91 ∨ c = 123) :
    ¬ IsSymbol (c :: t) ∧ ¬ JsonNumber (c :: t) := by
  have other {type : NodeType} (atom : (type, c :: t) ∈ symbols ∨ JsonNumber (c :: t)) : False := by
    obtain ⟨d, u, text, -, none_⟩ := head_of_atom atom
    obtain ⟨rfl, -⟩ := List.cons.inj text
    rcases mark with rfl | rfl | rfl
    · exact none_ (by decide)
    · exact none_ (by decide)
    · exact none_ (by decide)
  constructor
  · rintro ⟨type, inside⟩
    exact other (.inl inside)
  · exact fun number => @other .integer (.inr number)

theorem CleanFront.of_mark {c : UInt8} {t rest : List UInt8} (mark : c = 34 ∨ c = 91 ∨ c = 123)
    (value : Clean (c :: t)) : CleanFront (c :: t) [] rest :=
  ⟨value, blanks_nil, fun _ => rfl, fun number => absurd number (not_atom mark).2,
    fun inside => absurd inside (not_atom mark).1⟩

theorem exists_blanks {t u : List UInt8} (space : skip t = u) : ∃ w, Blanks w ∧ t = w ++ u := by
  refine ⟨t.takeWhile isBlank, fun c mem => List.mem_takeWhile_imp mem, ?_⟩
  rw [← space]
  exact List.takeWhile_append_dropWhile.symm

/-- What a start tells of the first byte, or of the symbol. -/
theorem start_tells {c : UInt8} {t : List UInt8} {kind : Start} (h : start (c :: t) = kind) :
    (kind = .object → c = 123) ∧ (kind = .array → c = 91) ∧
      ∀ type text, kind = .symbol type text → (type, text) ∈ symbols := by
  subst h
  rw [start]
  split
  · simp_all
  split
  · simp_all
  split
  · simp
  split
  · simp
  cases found : symbols.find? (fun symbol => symbol.2.isPrefixOf (c :: t)) with
  | none => simp
  | some first =>
      have inside := List.mem_of_find?_eq_some found
      simp_all

theorem start_symbol_mem {t : List UInt8} {type : NodeType} {text : List UInt8}
    (kind : start t = .symbol type text) : (type, text) ∈ symbols := by
  cases t with
  | nil => cases kind
  | cons c t => exact (start_tells kind).2.2 type text rfl

theorem JsonScalar.front {t rest : List UInt8} (json : JsonScalar t rest)
    (ends : scalarEnd t = some rest) : ∃ v w, t = v ++ (w ++ rest) ∧ CleanFront v w rest := by
  cases json with
  | number kind number =>
      rw [scalarEnd, kind] at ends
      dsimp only at ends
      split at ends
      · cases ends
      rw [ahead] at ends
      split at ends
      · cases ends
      case isFalse some_ =>
      obtain rfl := Option.some.inj ends
      refine ⟨t.takeWhile isNumeric, [], List.takeWhile_append_dropWhile.symm, ?_⟩
      exact ⟨.number number fun c mem => List.mem_takeWhile_imp mem, blanks_nil, fun _ => rfl,
        fun _ => some_, fun inside => absurd number inside.not_number⟩
  | @string chars _ chars_ =>
      rw [scalarEnd_string] at ends
      refine ⟨34 :: (chars ++ [34]), [], by simp, .of_mark (.inl rfl) (.string chars_ ?_)⟩
      rintro ⟨u, rfl⟩
      rw [List.append_assoc] at ends
      exact closing_escaped ends rfl
  | @symbol type text _ _ kind =>
      obtain ⟨u, rfl⟩ := start_symbol kind
      have inside : IsSymbol text := ⟨type, start_symbol_mem kind⟩
      rw [scalarEnd, kind] at ends
      dsimp only at ends
      rw [List.drop_left] at ends
      split at ends
      case isTrue mark =>
        obtain rfl := Option.some.inj ends
        obtain ⟨w, blanks, split⟩ := exists_blanks (t := u) rfl
        exact ⟨text, w, congrArg (text ++ ·) split, .symbol inside, blanks,
          fun other => absurd inside other, fun number => absurd number inside.not_number,
          fun _ => mark⟩
      · cases ends

end Fronts

section Items

/-- The text of an item of an array or an object, before this byte. -/
def Item : DecodeStep → List UInt8 → UInt8 → Prop
  | .key, t, c => ∃ m, t = MemberText.text m ∧ MemberFits m c
  | _, t, c => ∃ e, t = ElementText.text e ∧ ElementFits e c

/-- What a form of JSON is a text of. -/
def Shape : Form → List UInt8 → List UInt8 → Prop
  | .value, t, rest => ∃ v w, t = v ++ (w ++ rest) ∧ CleanFront v w rest
  | .round decode_step, t, rest => ∃ x, t = x ++ rest ∧
      ∀ w c q, Blanks w → rest = w ++ c :: q → Item decode_step (x ++ w) c
  | .rounds decode_step symbol, t, rest => ∃ xs, xs ≠ [] ∧
      t = [44].intercalate xs ++ symbol :: rest ∧ AllFit (Item decode_step) symbol xs

theorem opened_value {t u : List UInt8} (opens : opened t = .value u) :
    ∃ w, Blanks w ∧ t = w ++ u := by
  unfold opened at opens
  split at opens
  · cases opens
  · exact exists_blanks (Opening.value.inj opens)

theorem CleanFront.symbol_head {v w rest : List UInt8} (front : CleanFront v w rest)
    (inside : IsSymbol v) : ∃ c q, rest = c :: q ∧ (c = 44 ∨ c = 125) := by
  cases rest with
  | nil => rcases front.symbol inside with none_ | none_ <;> cases none_
  | cons c q => exact ⟨c, q, rfl, (front.symbol inside).imp Option.some.inj Option.some.inj⟩

theorem CleanFront.other {v w rest w' q : List UInt8} {c : UInt8} (front : CleanFront v w rest)
    (blanks : Blanks w') (split : rest = w' ++ c :: q) : IsSymbol v → c ≠ 93 := by
  rintro inside rfl
  obtain ⟨d, q', rfl, mark⟩ := front.symbol_head inside
  have visible := (Separates.of_brace mark).visible
  cases w' with
  | nil =>
      obtain rfl := (List.cons.inj split).1
      rcases mark with same | same <;> cases same
  | cons b w' =>
      obtain rfl := (List.cons.inj split).1
      rw [blanks d List.mem_cons_self] at visible
      cases visible

theorem CleanFront.fits {before v w rest w' q : List UInt8} {c : UInt8} (front : CleanFront v w rest)
    (blanks : Blanks before) (blanks' : Blanks w') (split : rest = w' ++ c :: q) :
    ElementFits ⟨before, v, w ++ w'⟩ c :=
  ⟨⟨blanks, List.forall_mem_append.mpr ⟨front.blanks, blanks'⟩⟩, front.value,
    front.other blanks' split⟩

/-- A key with a form of JSON is a name in double quotes with its colon. -/
theorem opening_key {t u : List UInt8} (opens : opening .key t = .value u) (name : NameForm .key t) :
    ∃ before name behind before', t = before ++ 34 :: (name ++ 34 :: (behind ++ 58 :: (before' ++ u))) ∧
      (name ≠ [] ∧ 34 ∉ name ∧ JsonChars name) ∧ (Blanks before ∧ Blanks behind) ∧ Blanks before' := by
  obtain ⟨name, left, space, noQuote, some_, chars⟩ := name
  obtain ⟨before, blanks, split⟩ := exists_blanks space
  obtain ⟨front, rest⟩ := takeWhile_other (t := left) noQuote
  rw [opening, space] at opens
  dsimp only at opens
  rw [if_pos (.inr rfl), rest] at opens
  dsimp only at opens
  rw [front, behindKey, if_neg some_] at opens
  cases colon : skip left with
  | nil =>
      rw [colon] at opens
      cases opens
  | cons c after =>
      rw [colon] at opens
      dsimp only at opens
      split at opens
      case isTrue same =>
        subst same
        obtain ⟨behind, blanks', split'⟩ := exists_blanks colon
        obtain ⟨before', blanks'', split''⟩ := opened_value opens
        subst split split' split''
        exact ⟨before, name, behind, before', rfl, ⟨some_, noQuote, chars⟩, ⟨blanks, blanks'⟩, blanks''⟩
      · cases opens

theorem round_shape {decode_step : DecodeStep} {t u rest : List UInt8}
    (opens : opening decode_step t = .value u) (name : NameForm decode_step t)
    (value : Shape .value u rest) : Shape (.round decode_step) t rest := by
  obtain ⟨v, w, rfl, front⟩ := value
  have element (opens : opened t = .value (v ++ (w ++ rest))) : ∃ x, t = x ++ rest ∧
      ∀ w' c q, Blanks w' → rest = w' ++ c :: q →
        ∃ e, x ++ w' = ElementText.text e ∧ ElementFits e c := by
    obtain ⟨before, blanks, rfl⟩ := opened_value opens
    refine ⟨before ++ v ++ w, by simp, fun w' c q blanks' split => ?_⟩
    exact ⟨⟨before, v, w ++ w'⟩, List.append_assoc _ _ _, front.fits blanks blanks' split⟩
  cases decode_step with
  | type | value | end_ => exact element opens
  | key =>
      obtain ⟨before, key, behind, before', rfl, named, around, blanks⟩ := opening_key opens name
      refine ⟨before ++ 34 :: (key ++ 34 :: (behind ++ 58 :: (before' ++ (v ++ w)))), by simp,
        fun w' c q blanks' split => ?_⟩
      refine ⟨⟨before, key, behind, ⟨before', v, w ++ w'⟩⟩, ?_, ⟨named, around⟩, ?_, front.value⟩
      · simp [MemberText.text, ElementText.text]
      · exact (front.fits blanks blanks' split).1

theorem rounds_shape {decode_step : DecodeStep} {symbol : UInt8} {t u v rest : List UInt8}
    (round : Shape (.round decode_step) t u) (space : skip u = 44 :: v)
    (rounds : Shape (.rounds decode_step symbol) v rest) :
    Shape (.rounds decode_step symbol) t rest := by
  obtain ⟨x, rfl, fits⟩ := round
  obtain ⟨w, blanks, rfl⟩ := exists_blanks space
  obtain ⟨xs, some_, rfl, later⟩ := rounds
  refine ⟨(x ++ w) :: xs, List.cons_ne_nil _ _, ?_, ?_⟩
  · rw [List.intercalate_cons_of_ne_nil some_]
    simp
  · obtain ⟨y, ys, rfl⟩ := List.exists_cons_of_ne_nil some_
    exact ⟨fits w 44 _ blanks rfl, later⟩

theorem last_shape {decode_step : DecodeStep} {symbol : UInt8} {t u rest : List UInt8}
    (round : Shape (.round decode_step) t u) (space : skip u = symbol :: rest) :
    Shape (.rounds decode_step symbol) t rest := by
  obtain ⟨x, rfl, fits⟩ := round
  obtain ⟨w, blanks, rfl⟩ := exists_blanks space
  exact ⟨[x ++ w], List.cons_ne_nil _ _, by simp, fits w symbol rest blanks rfl⟩

/-- Items that fit are texts of parts that fit. -/
theorem AllFit.exists_parts {ι : Type} {text : ι → List UInt8} {P : ι → UInt8 → Prop}
    {symbol : UInt8} {xs : List (List UInt8)}
    (h : AllFit (fun x c => ∃ i, x = text i ∧ P i c) symbol xs) :
    ∃ is : List ι, xs = is.map text ∧ AllFit P symbol is := by
  induction xs with
  | nil => exact ⟨[], rfl, trivial⟩
  | cons x xs ih =>
      cases xs with
      | nil =>
          obtain ⟨i, rfl, fits⟩ := h
          exact ⟨[i], rfl, fits⟩
      | cons y ys =>
          obtain ⟨⟨i, rfl, fits⟩, later⟩ := h
          obtain ⟨is, same, all⟩ := ih later
          cases is with
          | nil => cases same
          | cons j js => exact ⟨i :: j :: js, by rw [same, ← List.map_cons], fits, all⟩

theorem elements_clean {t rest : List UInt8} (shape : Shape (.rounds .type 93) t rest) :
    ∃ inner, t = inner ++ 93 :: rest ∧ Clean (91 :: (inner ++ [93])) := by
  obtain ⟨xs, some_, rfl, fits⟩ := shape
  obtain ⟨es, rfl, all⟩ := AllFit.exists_parts fits
  obtain ⟨each, ends⟩ := elementsFit_iff.mp all
  exact ⟨_, rfl, .array (by simpa using some_) (fun e mem => (each e mem).1)
    (fun e mem => (each e mem).2) ends⟩

theorem members_clean {t rest : List UInt8} (shape : Shape (.rounds .key 125) t rest) :
    ∃ inner, t = inner ++ 125 :: rest ∧ Clean (123 :: (inner ++ [125])) := by
  obtain ⟨xs, some_, rfl, fits⟩ := shape
  obtain ⟨ms, rfl, all⟩ := AllFit.exists_parts fits
  have each := membersFit_iff.mp all
  exact ⟨_, rfl, .object (by simpa using some_) (fun m mem => (each m mem).1)
    (fun m mem => (each m mem).2.1) fun m mem => (each m mem).2.2⟩

theorem Strict.shape {form : Form} {t rest : List UInt8} (h : Strict form t rest) :
    Shape form t rest := by
  induction h with
  | emptyObject kind space =>
      obtain rfl := (start_tells kind).1 rfl
      obtain ⟨w, blanks, rfl⟩ := exists_blanks space
      exact ⟨123 :: (w ++ [125]), [], by simp, .of_mark (.inr (.inr rfl)) (.emptyObject blanks)⟩
  | object kind _ ih =>
      obtain rfl := (start_tells kind).1 rfl
      obtain ⟨inner, rfl, clean⟩ := members_clean ih
      exact ⟨123 :: (inner ++ [125]), [], by simp, .of_mark (.inr (.inr rfl)) clean⟩
  | emptyArray kind space =>
      obtain rfl := (start_tells kind).2.1 rfl
      obtain ⟨w, blanks, rfl⟩ := exists_blanks space
      exact ⟨91 :: (w ++ [93]), [], by simp, .of_mark (.inr (.inl rfl)) (.emptyArray blanks)⟩
  | array kind _ ih =>
      obtain rfl := (start_tells kind).2.1 rfl
      obtain ⟨inner, rfl, clean⟩ := elements_clean ih
      exact ⟨91 :: (inner ++ [93]), [], by simp, .of_mark (.inr (.inl rfl)) clean⟩
  | scalar ends json => exact json.front ends
  | opens opens name _ ih => exact round_shape opens name ih
  | last _ space ih => exact last_shape ih space
  | more _ space _ ih later => exact rounds_shape ih space later

end Items

theorem StrictText.cleanText {s : List UInt8} (h : StrictText s) : CleanText s := by
  obtain ⟨rest, strict, blanks⟩ := h
  cases strict with
  | opens opens _ value =>
      obtain ⟨v, w, rfl, front⟩ := value.shape
      obtain ⟨before, blanks', rfl⟩ := opened_value opens
      have noSymbol : ¬ IsSymbol v := by
        intro inside
        obtain ⟨c, q, rfl, mark⟩ := front.symbol_head inside
        have visible := (Separates.of_brace mark).visible
        rw [blanks c List.mem_cons_self] at visible
        cases visible
      obtain rfl := front.space noSymbol
      exact ⟨⟨before, v, rest⟩, (List.append_assoc _ _ _).symm, blanks', blanks, front.value,
        noSymbol, front.number⟩

/-- The whole text is JSON with one of the forms that the parser refuses. -/
def RefusedText (s : List UInt8) : Prop := JsonText s ∧ ¬ CleanText s

/-- The parser takes what JSON does not have, in the value or behind it. -/
def LooseText (s : List UInt8) : Prop :=
  ∃ rest, Takes (.round .type) s rest ∧ (Loose (.round .type) s rest ∨ ¬ Blanks rest)

theorem CleanText.json {s : List UInt8} (h : CleanText s) : JsonText s := by
  obtain ⟨e, text, before, behind, value, -, -⟩ := h
  exact ⟨e, text, before, behind, value.json⟩

theorem CleanText.not_loose {s : List UInt8} (h : CleanText s) : ¬ LooseText s := by
  rintro ⟨rest', taken, loose⟩
  obtain ⟨rest, strict, blanks⟩ := h.strictText
  obtain rfl := strict.takes.unique trivial taken
  rcases loose with loose | other
  · exact strict.not_loose trivial loose
  · exact other blanks

/-- A text is accepted by forms of JSON throughout or by another one somewhere. -/
theorem accepts_iff_clean_or_loose {s : List UInt8} (small : s.length < 2 ^ 31) :
    (jsonDecode s).status = .ok ↔ CleanText s ∨ LooseText s := by
  rw [accepts_iff (Nat.le_of_lt small)]
  constructor
  · rintro ⟨rest, taken⟩
    by_cases blanks : Blanks rest
    · rcases takes_iff_strict_or_loose.mp taken with strict | loose
      · exact .inl (StrictText.cleanText ⟨rest, strict, blanks⟩)
      · exact .inr ⟨rest, taken, .inl loose⟩
    · exact .inr ⟨rest, taken, .inr blanks⟩
  · rintro (clean | ⟨rest, taken, -⟩)
    · obtain ⟨rest, strict, -⟩ := clean.strictText
      exact ⟨rest, strict.takes⟩
    · exact ⟨rest, taken⟩

/-- json::decode accepts exactly the JSON texts, unless a form is refused or tolerated. A text
with both is no exception: behind a string that ends in a backslash the rest is read otherwise. -/
theorem accepts_json_iff {s : List UInt8} (small : s.length < 2 ^ 31) :
    ((jsonDecode s).status = .ok ↔ CleanText s ∨ LooseText s) ∧
      (CleanText s → JsonText s ∧ ¬ LooseText s) ∧
      (((jsonDecode s).status = .ok ↔ JsonText s) ↔ (RefusedText s ↔ LooseText s)) := by
  have accepts := accepts_iff_clean_or_loose small
  refine ⟨accepts, fun clean => ⟨clean.json, clean.not_loose⟩, ?_⟩
  rw [accepts, RefusedText]
  by_cases clean : CleanText s
  · -- accepted, JSON, and neither refused nor tolerated
    exact iff_of_true (iff_of_true (.inl clean) clean.json)
      (iff_of_false (fun refused => refused.2 clean) clean.not_loose)
  · rw [or_iff_right clean, and_iff_left clean]
    exact ⟨Iff.symm, Iff.symm⟩

/-- An array of an object and a number, with blanks in it, is JSON and accepted. -/
theorem nested_accepted :
    (jsonDecode (bytes " [\x7b\x22a\x22: true\x7d, 1.5]")).status = .ok ↔
      JsonText (bytes " [\x7b\x22a\x22: true\x7d, 1.5]") := by
  have space : Blanks [32] := by simp [Blanks, isBlank]
  have object : Clean (bytes "\x7b\x22a\x22: true\x7d") := by
    refine @Clean.object [⟨[], bytes "a", [], ⟨[32], bytes "true", []⟩⟩] (List.cons_ne_nil _ _) ?_ ?_ ?_
    · have chars : JsonChars (bytes "a") := .plain (by decide) (by decide) (by decide) .nil
      simpa [blanks_nil, chars] using (by decide : bytes "a" ≠ [] ∧ 34 ∉ bytes "a")
    · simp [blanks_nil, space]
    · simpa using Clean.symbol ⟨.boolean, by decide⟩
  have number : JsonNumber (bytes "1.5") :=
    @JsonNumber.mk [] [49] [46, 53] [] (.inl rfl)
      (.digits (by decide) (by decide) (List.forall_mem_nil _))
      (.digits ⟨List.cons_ne_nil _ _, List.forall_mem_singleton.mpr (by decide)⟩) .none
  have array : Clean (bytes "[\x7b\x22a\x22: true\x7d, 1.5]") := by
    refine @Clean.array [⟨[], bytes "\x7b\x22a\x22: true\x7d", []⟩, ⟨[32], bytes "1.5", []⟩]
      (List.cons_ne_nil _ _) ?_ ?_ ?_
    · simp [blanks_nil, space]
    · simpa using ⟨object, Clean.number number (List.all_eq_true.mp (by decide))⟩
    · simpa using fun inside : IsSymbol _ => inside.not_number number
  have clean : CleanText (bytes " [\x7b\x22a\x22: true\x7d, 1.5]") :=
    ⟨⟨[32], _, []⟩, rfl, space, blanks_nil, array, (not_atom (.inr (.inl rfl))).1,
      fun number => absurd number (not_atom (.inr (.inl rfl))).2⟩
  refine (accepts_json_iff (by decide)).2.2.mpr ?_
  exact iff_of_false (fun refused => refused.2 clean) clean.not_loose

/-- null is JSON, but the parser wants a comma or a brace behind it. -/
theorem null_refused :
    ¬ ((jsonDecode (bytes "null")).status = .ok ↔ JsonText (bytes "null")) := by
  have inside : (NodeType.null, bytes "null") ∈ symbols := by decide
  have refused : (jsonDecode (bytes "null")).status ≠ .ok := by decide
  exact fun same => refused (same.mpr (JsonValue.symbol inside).text)

end HZRobot.Json
