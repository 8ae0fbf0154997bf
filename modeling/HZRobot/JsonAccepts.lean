import HZRobot.JsonDecoded

/-!
Which JSON texts the parser takes. A number with an exponent, an object with an empty name
and a true, false or null that closes an array are refused, wherever in the text they are;
all other arrays and objects without escapes are accepted.
-/

namespace HZRobot.Json

namespace Doc

/-- true, false or null. -/
def isSymbol : Doc → Bool
  | .atom .boolean _ => true
  | .atom .null _ => true
  | _ => false

/-- What the parser takes of a document. -/
inductive Readable : Doc → Prop
  | symbol {type : NodeType} {text : List UInt8} (kind : isSymbol (.atom type text)) :
      Readable (.atom type text)
  | number {type : NodeType} {text : List UInt8} (plain : ∀ b ∈ text, isNumeric b = true) :
      Readable (.atom type text)
  | string {chars : List UInt8} : Readable (.string chars)
  | array {ds : List Doc} (elements : ∀ d ∈ ds, Readable d)
      (last : ∀ d ∈ ds.getLast?, isSymbol d = false) : Readable (.array ds)
  | object {ms : List (List UInt8 × Doc)} (some_ : ∀ m ∈ ms, m.1 ≠ [])
      (values : ∀ m ∈ ms, Readable m.2) : Readable (.object ms)

/-- What the parser takes of a document before this byte. -/
def Fits (d : Doc) (c : UInt8) : Prop := d.Readable ∧ (d.isSymbol = true → c ≠ 93)

end Doc

section Forms

/-- The parser takes the form and comes, behind blanks, to this byte. -/
def Comes (form : Form) (t : List UInt8) (c : UInt8) (q : List UInt8) : Prop :=
  ∃ u, Takes form t u ∧ skip u = c :: q

/-- The form is taken where this holds of the byte behind it, and nothing more than it. -/
def Exactly (form : Form) (t : List UInt8) (fits : UInt8 → Prop) : Prop :=
  ∀ (c c' : UInt8) (q q' : List UInt8), Separates c → Separates c' →
    (Comes form (t ++ c :: q) c' q' ↔ fits c ∧ c' = c ∧ q' = q)

theorem skip_blanks {w : List UInt8} (blanks : Blanks w) (t : List UInt8) : skip (w ++ t) = skip t :=
  List.dropWhile_append_of_pos blanks

theorem skip_visible {c : UInt8} {t : List UInt8} (visible : isBlank c = false) :
    skip (c :: t) = c :: t :=
  List.dropWhile_cons_of_neg (by simp [visible])

theorem skip_behind {w : List UInt8} {c : UInt8} {q : List UInt8} (blanks : Blanks w)
    (mark : Separates c) : skip (w ++ c :: q) = c :: q := by
  rw [skip_blanks blanks, skip_visible mark.visible]

theorem takes_round {decode_step : DecodeStep} {t v u : List UInt8}
    (opens : opening decode_step t = .value v) :
    Takes (.round decode_step) t u ↔ Takes .value v u := by
  refine ⟨fun h => ?_, .opens opens⟩
  cases h with
  | opens other value =>
      rw [opens] at other
      exact Opening.value.inj other ▸ value
  | closes other =>
      rw [opens] at other
      cases other

theorem Comes.congr {form form' : Form} {t t' : List UInt8}
    (h : ∀ u, Takes form t u ↔ Takes form' t' u) {c : UInt8} {q : List UInt8} :
    Comes form t c q ↔ Comes form' t' c q :=
  exists_congr fun u => and_congr (h u) Iff.rfl

theorem opened_visible {c : UInt8} {t : List UInt8} {w : List UInt8} (blanks : Blanks w)
    (visible : isBlank c = false) : opened (w ++ c :: t) = .value (c :: t) := by
  rw [opened, skip_blanks blanks, skip_visible visible, if_neg (List.cons_ne_nil c t)]

/-- Where nothing begins the value is missing, and the parser stays where it is. -/
theorem takes_missing {t u : List UInt8} (kind : start t = .missing) (other : t ≠ [45]) :
    Takes .value t u ↔ u = t := by
  rw [takes_scalar (by rw [kind]; decide) (by rw [kind]; decide),
    scalarEnd, kind]
  dsimp only
  rw [if_neg other, Option.some_inj]
  exact eq_comm

end Forms

section Rounds

variable {ι : Type} {text : ι → List UInt8} {fits : ι → UInt8 → Prop} {decode_step : DecodeStep}
  {symbol : UInt8}

/-- Each item fits what stands behind it: a comma, or the bracket behind the last one. -/
def AllFit (fits : ι → UInt8 → Prop) (symbol : UInt8) : List ι → Prop
  | [] => True
  | [i] => fits i symbol
  | i :: j :: is => fits i 44 ∧ AllFit fits symbol (j :: is)

theorem takes_rounds_iff {t rest : List UInt8} :
    Takes (.rounds decode_step symbol) t rest ↔ Comes (.round decode_step) t symbol rest ∨
      ∃ v, Comes (.round decode_step) t 44 v ∧ Takes (.rounds decode_step symbol) v rest := by
  rw [takes_last_or_more]
  constructor
  · rintro ⟨u, round, space | ⟨v, space, rounds⟩⟩
    · exact .inl ⟨u, round, space⟩
    · exact .inr ⟨v, ⟨u, round, space⟩, rounds⟩
  · rintro (⟨u, round, space⟩ | ⟨v, ⟨u, round, space⟩, rounds⟩)
    · exact ⟨u, round, .inl space⟩
    · exact ⟨u, round, .inr ⟨v, space, rounds⟩⟩

theorem takes_items (mark : Separates symbol) (other : symbol ≠ 44) {is : List ι} (some_ : is ≠ [])
    (each : ∀ i ∈ is, Exactly (.round decode_step) (text i) (fits i)) {rest u : List UInt8} :
    Takes (.rounds decode_step symbol) ([44].intercalate (is.map text) ++ symbol :: rest) u ↔
      AllFit fits symbol is ∧ u = rest := by
  have comma : Separates 44 := .inl rfl
  induction is with
  | nil => exact absurd rfl some_
  | cons i is ih =>
      have first := each i List.mem_cons_self
      rw [text_of_items, takes_rounds_iff]
      cases is with
      | nil =>
          rw [if_pos rfl, first _ _ _ _ mark mark, AllFit]
          constructor
          · rintro (⟨fits_, -, rfl⟩ | ⟨v, comes, -⟩)
            · exact ⟨fits_, rfl⟩
            · exact absurd ((first _ _ _ _ mark comma).mp comes).2.1.symm other
          · rintro ⟨fits_, rfl⟩
            exact .inl ⟨fits_, rfl, rfl⟩
      | cons j is =>
          have later := ih (List.cons_ne_nil j is) fun k hk => each k (List.mem_cons_of_mem i hk)
          rw [if_neg (List.cons_ne_nil j is), first _ _ _ _ comma mark, AllFit, and_assoc]
          refine Iff.trans ?_ (and_congr_right' later)
          constructor
          · rintro (⟨-, same, -⟩ | ⟨v, comes, rounds⟩)
            · exact absurd same other
            · obtain ⟨fits_, -, rfl⟩ := (first _ _ _ _ comma comma).mp comes
              exact ⟨fits_, rounds⟩
          · rintro ⟨fits_, rounds⟩
            exact .inr ⟨_, (first _ _ _ _ comma comma).mpr ⟨fits_, rfl, rfl⟩, rounds⟩

theorem allFit_iff {good ends : ι → Prop} {is : List ι} (more : ∀ i ∈ is, fits i 44 ↔ good i)
    (last : ∀ i ∈ is, fits i symbol ↔ good i ∧ ends i) :
    AllFit fits symbol is ↔ (∀ i ∈ is, good i) ∧ ∀ i ∈ is.getLast?, ends i := by
  induction is with
  | nil => simp [AllFit]
  | cons i is ih =>
      cases is with
      | nil => simpa [AllFit] using last i List.mem_cons_self
      | cons j is =>
          have later := ih (fun k hk => more k (List.mem_cons_of_mem i hk))
            fun k hk => last k (List.mem_cons_of_mem i hk)
          rw [AllFit, more i List.mem_cons_self, later, ← and_assoc, ← List.forall_mem_cons,
            List.getLast?_cons_cons]

end Rounds

section Atoms

variable {c c' : UInt8} {w q q' : List UInt8}

theorem comes_iff {t v : List UInt8} (takes : ∀ u, Takes .value t u ↔ u = v) :
    Comes .value t c q ↔ skip v = c :: q := by
  constructor
  · rintro ⟨u, taken, space⟩
    exact (takes u).mp taken ▸ space
  · exact fun space => ⟨v, (takes v).mpr rfl, space⟩

theorem start_of_digit {d : UInt8} (digit : isDigit d = true) (t : List UInt8) :
    start (d :: t) = .number := by
  have mark := (digit_mark d digit).2
  simp only [List.mem_cons, List.not_mem_nil, or_false, not_or] at mark
  rw [start, if_neg mark.2.2.1, if_neg mark.2.1, if_pos (by rw [digit, Bool.true_or])]

theorem start_of_number {text : List UInt8} (h : StartsNumber text) (t : List UInt8) :
    start (text ++ t) = .number := by
  cases h with
  | plain digit => exact start_of_digit digit _
  | negative digit =>
      rw [List.cons_append, start, if_neg (by decide), if_neg (by decide), if_pos (by simp [digit])]

/-- A number is taken up to the first byte that is no digit, point or minus. -/
theorem takes_numeral {type : NodeType} {text : List UInt8} (h : Numeral type text) {b : UInt8}
    {t : List UInt8} (ends : NoNumber b) (u : List UInt8) :
    Takes .value (text ++ b :: t) u ↔ u = b :: t := by
  have kind := start_of_number h.starts (b :: t)
  have front : (text ++ b :: t).takeWhile isNumeric = text := by
    rw [List.takeWhile_append_of_pos h.numeric, List.takeWhile_cons_of_neg (Bool.eq_false_iff.mp ends),
      List.append_nil]
  have rest : (text ++ b :: t).dropWhile isNumeric = b :: t := by
    rw [List.dropWhile_append_of_pos h.numeric, List.dropWhile_cons_of_neg (Bool.eq_false_iff.mp ends)]
  rw [takes_scalar (by rw [kind]; decide) (by rw [kind]; decide), scalarEnd, kind]
  dsimp only
  rw [front, rest, h.sound, if_neg Bool.false_ne_true, ahead, if_neg (List.cons_ne_nil b t),
    Option.some_inj]
  exact eq_comm

theorem number_comes {text : List UInt8} (number : JsonNumber text) (blanks : Blanks w)
    (mark : Separates c) (mark' : Separates c') :
    Comes .value (text ++ (w ++ c :: q)) c' q' ↔
      (∀ b ∈ text, isNumeric b = true) ∧ c' = c ∧ q' = q := by
  obtain @⟨sign, int, frac, exp, signed, int_, frac_, exp_⟩ := number
  obtain ⟨type, front⟩ := number_of_json signed int_ frac_
  cases exp_ with
  | none =>
      obtain ⟨b, q₁, next, behind⟩ := behind_blanks blanks (.inr mark) q
      rw [List.append_nil, next, comes_iff (takes_numeral front.numeral behind.noNumber), ← next,
        skip_behind blanks mark, List.cons.injEq]
      constructor
      · rintro ⟨rfl, rfl⟩
        exact ⟨front.numeral.numeric, rfl, rfl⟩
      · rintro ⟨-, rfl, rfl⟩
        exact ⟨rfl, rfl⟩
  | @digits e sign' ds letter signed' all =>
      have exponent : NoNumber e ∧ isBlank e = false ∧ ¬ Separates e := by
        rcases letter with rfl | rfl
        · refine ⟨rfl, rfl, ?_⟩
          rintro (h | h | h) <;> cases h
        · refine ⟨rfl, rfl, ?_⟩
          rintro (h | h | h) <;> cases h
      have split : sign ++ int ++ frac ++ e :: (sign' ++ ds) ++ (w ++ c :: q) =
          sign ++ int ++ frac ++ e :: (sign' ++ ds ++ (w ++ c :: q)) := by simp
      rw [split, comes_iff (takes_numeral front.numeral exponent.1), skip_visible exponent.2.1,
        List.cons.injEq]
      constructor
      · rintro ⟨rfl, -⟩
        exact absurd mark' exponent.2.2
      · rintro ⟨plain, -⟩
        have here := plain e (List.mem_append_right _ List.mem_cons_self)
        rw [exponent.1] at here
        cases here

theorem symbol_comes {type : NodeType} {symbol : List UInt8} (inside : (type, symbol) ∈ symbols)
    (blanks : Blanks w) (mark : Separates c) :
    Comes .value (symbol ++ (w ++ c :: q)) c' q' ↔ c ≠ 93 ∧ c' = c ∧ q' = q := by
  have kind : start (symbol ++ (w ++ c :: q)) = .symbol type symbol := by
    simp only [symbols, List.mem_cons, Prod.mk.injEq, List.not_mem_nil, or_false] at inside
    rcases inside with ⟨rfl, rfl⟩ | ⟨rfl, rfl⟩ | ⟨rfl, rfl⟩ <;> rfl
  have ends (u : List UInt8) :
      Takes .value (symbol ++ (w ++ c :: q)) u ↔ c ≠ 93 ∧ u = c :: q := by
    have other : Start.symbol type symbol ≠ .object ∧ Start.symbol type symbol ≠ .array :=
      ⟨Start.noConfusion, Start.noConfusion⟩
    rw [takes_scalar (by rw [kind]; exact other.1) (by rw [kind]; exact other.2), scalarEnd, kind]
    dsimp only
    rw [List.drop_left, skip_behind blanks mark, List.head?_cons]
    rcases mark with rfl | rfl | rfl
    · simp [eq_comm]
    · simp
    · simp [eq_comm]
  constructor
  · rintro ⟨u, taken, space⟩
    obtain ⟨other, rfl⟩ := (ends u).mp taken
    rw [skip_visible mark.visible, List.cons.injEq] at space
    exact ⟨other, space.1.symm, space.2.symm⟩
  · rintro ⟨other, rfl, rfl⟩
    exact ⟨_, (ends _).mpr ⟨other, rfl⟩, skip_visible mark.visible⟩

theorem string_takes {chars : List UInt8} (plain : Unescaped chars) (rest u : List UInt8) :
    Takes .value (34 :: (chars ++ [34]) ++ rest) u ↔ u = rest := by
  have kind : start (34 :: (chars ++ [34]) ++ rest) = .string := rfl
  have noQuote : 34 ∉ chars := fun inside => (plain 34 inside).2.1 rfl
  have unescaped : ((34 : UInt8) :: chars).getLast (List.cons_ne_nil 34 chars) ≠ 92 := by
    intro same
    rcases List.mem_cons.mp (List.getLast_mem (List.cons_ne_nil 34 chars)) with quote | inside
    · rw [quote] at same
      cases same
    · exact (plain _ inside).2.2 same
  rw [takes_scalar (by rw [kind]; decide) (by rw [kind]; decide), scalarEnd, kind]
  show closing 34 34 (chars ++ [34] ++ rest) = some u ↔ u = rest
  rw [List.append_assoc, List.singleton_append, closing_append noQuote, if_pos unescaped,
    Option.some_inj]
  exact eq_comm

end Atoms

section Containers

/-- The parser takes a value where it fits, and comes to what stands behind it. -/
def Fitting (t : List UInt8) (d : Doc) : Prop :=
  ∀ {w : List UInt8} {c c' : UInt8} {q q' : List UInt8}, Blanks w → Separates c → Separates c' →
    (Comes .value (t ++ (w ++ c :: q)) c' q' ↔ d.Fits c ∧ c' = c ∧ q' = q)

/-- The parser takes a value where it is readable, whatever stands behind it. -/
def TakenWhole (t : List UInt8) (d : Doc) : Prop :=
  ∀ rest u : List UInt8, Takes .value (t ++ rest) u ↔ d.Readable ∧ u = rest

theorem TakenWhole.fitting {t : List UInt8} {d : Doc} (h : TakenWhole t d) (other : d.isSymbol = false) :
    Fitting t d := by
  intro w c c' q q' blanks mark mark'
  have fits : d.Fits c ↔ d.Readable := and_iff_left fun same => by
    rw [other] at same
    cases same
  rw [fits]
  constructor
  · rintro ⟨u, taken, space⟩
    obtain ⟨readable, rfl⟩ := (h _ _).mp taken
    rw [skip_behind blanks mark, List.cons.injEq] at space
    exact ⟨readable, space.1.symm, space.2.symm⟩
  · rintro ⟨readable, rfl, rfl⟩
    exact ⟨_, (h _ _).mpr ⟨readable, rfl⟩, skip_behind blanks mark⟩

theorem element_exact {e : ElementText × Doc} (valid : Element.Valid e)
    (h : Fitting e.1.value e.2) : Exactly (.round .type) (elementText e) e.2.Fits := by
  intro c c' q q' mark mark'
  obtain ⟨x, u, head, visible, -⟩ := valid.value.head
  have split : elementText e ++ c :: q = e.1.before ++ (e.1.value ++ (e.1.behind ++ c :: q)) := by
    simp [elementText, ElementText.text]
  have opens : opening .type (elementText e ++ c :: q) =
      .value (e.1.value ++ (e.1.behind ++ c :: q)) := by
    rw [split, head]
    exact opened_visible valid.blanks.1 visible
  rw [Comes.congr fun _ => takes_round opens]
  exact h valid.blanks.2 mark mark'

theorem entry_exact {m : MemberText × Doc} (valid : Entry.Valid m)
    (h : Fitting m.1.element.value m.2) :
    Exactly (.round .key) (entryText m) fun c => m.1.name ≠ [] ∧ m.2.Fits c := by
  intro c c' q q' mark mark'
  obtain ⟨x, u, head, visible, -⟩ := valid.value.head
  have split : entryText m ++ c :: q = m.1.before ++ 34 :: (m.1.name ++ 34 :: (m.1.behind ++
      58 :: (m.1.element.before ++ (m.1.element.value ++ (m.1.element.behind ++ c :: q))))) := by
    simp [entryText, MemberText.text, ElementText.text]
  have noQuote : 34 ∉ m.1.name := fun inside => (valid.chars 34 inside).2.1 rfl
  have key (t : List UInt8) :
      opening .key (m.1.before ++ 34 :: (m.1.name ++ 34 :: t)) = behindKey m.1.name t := by
    obtain ⟨front, rest⟩ := takeWhile_other (t := t) noQuote
    rw [opening, skip_blanks valid.around.1, skip_visible (by decide)]
    dsimp only
    rw [if_pos (.inr rfl), rest]
    dsimp only
    rw [front]
  by_cases named : m.1.name = []
  · have opens : opening .key (entryText m ++ c :: q) = .value (58 ::
        (m.1.element.before ++ (m.1.element.value ++ (m.1.element.behind ++ c :: q)))) := by
      rw [split, key, behindKey, if_pos named]
      exact opened_visible valid.around.2 (by decide)
    rw [Comes.congr fun _ => takes_round opens, comes_iff fun _ => takes_missing rfl (by simp),
      skip_visible (by decide), List.cons.injEq]
    constructor
    · rintro ⟨rfl, -⟩
      rcases mark' with h | h | h <;> cases h
    · exact fun all => absurd named all.1.1
  · have opens : opening .key (entryText m ++ c :: q) =
        .value (m.1.element.value ++ (m.1.element.behind ++ c :: q)) := by
      rw [split, key, behindKey, if_neg named, skip_blanks valid.around.2,
        skip_visible (by decide)]
      dsimp only
      rw [if_pos rfl, head]
      exact opened_visible valid.blanks.1 visible
    rw [Comes.congr fun _ => takes_round opens, h valid.blanks.2 mark mark']
    exact and_congr_left' (and_iff_right named).symm

theorem readable_array_iff {es : List (ElementText × Doc)} :
    AllFit (fun e => e.2.Fits) 93 es ↔ (Doc.array (es.map Prod.snd)).Readable := by
  have more (e : ElementText × Doc) (_ : e ∈ es) : e.2.Fits 44 ↔ e.2.Readable :=
    and_iff_left fun _ => by decide
  have last (e : ElementText × Doc) (_ : e ∈ es) :
      e.2.Fits 93 ↔ e.2.Readable ∧ e.2.isSymbol = false :=
    and_congr_right fun _ => by simp
  rw [allFit_iff more last]
  constructor
  · rintro ⟨elements, ends⟩
    refine .array (List.forall_mem_map.mpr elements) fun d mem => ?_
    rw [List.getLast?_map] at mem
    obtain ⟨e, he, rfl⟩ := Option.mem_map.mp mem
    exact ends e he
  · intro readable
    cases readable with
    | array elements ends =>
        refine ⟨List.forall_mem_map.mp elements, fun e he => ends e.2 ?_⟩
        rw [List.getLast?_map]
        exact Option.mem_map_of_mem Prod.snd he

theorem readable_object_iff {ms : List (MemberText × Doc)} :
    AllFit (fun m c => m.1.name ≠ [] ∧ m.2.Fits c) 125 ms ↔
      (Doc.object (ms.map fun m => (m.1.name, m.2))).Readable := by
  have fits (c : UInt8) (other : c ≠ 93) (m : MemberText × Doc) :
      (m.1.name ≠ [] ∧ m.2.Fits c) ↔ m.1.name ≠ [] ∧ m.2.Readable :=
    and_congr_right' (and_iff_left fun _ => other)
  have more (m : MemberText × Doc) (_ : m ∈ ms) := fits 44 (by decide) m
  have last (m : MemberText × Doc) (_ : m ∈ ms) :
      (m.1.name ≠ [] ∧ m.2.Fits 125) ↔ (m.1.name ≠ [] ∧ m.2.Readable) ∧ True := by
    rw [fits 125 (by decide) m, and_true]
  rw [allFit_iff more last]
  constructor
  · rintro ⟨members, -⟩
    exact .object (List.forall_mem_map.mpr fun m hm => (members m hm).1)
      (List.forall_mem_map.mpr fun m hm => (members m hm).2)
  · intro readable
    cases readable with
    | object some_ values =>
        exact ⟨fun m hm => ⟨some_ _ (List.mem_map_of_mem hm), values _ (List.mem_map_of_mem hm)⟩,
          fun _ _ => trivial⟩

/-- Brackets with nothing but blanks between them. -/
theorem takes_empty {decode_step : DecodeStep} {symbol : UInt8} {t rest u : List UInt8}
    (mark : Separates symbol) (other : symbol ≠ 44)
    (round : ∀ v, Takes (.round decode_step) t v ↔ v = symbol :: rest) :
    Takes (.rounds decode_step symbol) t u ↔ u = rest := by
  rw [takes_last_or_more]
  constructor
  · rintro ⟨v, taken, next⟩
    obtain rfl := (round v).mp taken
    rw [skip_visible mark.visible] at next
    rcases next with same | ⟨v, same, -⟩
    · exact (List.cons.inj same).2.symm
    · exact absurd (List.cons.inj same).1 other
  · rintro rfl
    exact ⟨_, (round _).mpr rfl, .inl (skip_visible mark.visible)⟩

theorem emptyArray_taken {w : List UInt8} (blanks : Blanks w) :
    TakenWhole (91 :: (w ++ [93])) (.array []) := by
  intro rest u
  have opens : opening .type (w ++ 93 :: rest) = .value (93 :: rest) :=
    opened_visible blanks (by decide)
  have readable : (Doc.array []).Readable :=
    .array (fun d none_ => by cases none_) fun d none_ => by cases none_
  have text : 91 :: (w ++ [93]) ++ rest = 91 :: (w ++ 93 :: rest) := by simp
  rw [text, takes_array rfl, takes_empty (.inr (.inl rfl)) (by decide) fun v => by
    rw [takes_round opens, takes_missing rfl (by simp)], and_iff_right readable]

theorem emptyObject_taken {w : List UInt8} (blanks : Blanks w) :
    TakenWhole (123 :: (w ++ [125])) (.object []) := by
  intro rest u
  have closes : opening .key (w ++ 125 :: rest) = .closes (125 :: rest) := by
    rw [opening, skip_blanks blanks, skip_visible (by decide)]
    rfl
  have round (v : List UInt8) : Takes (.round .key) (w ++ 125 :: rest) v ↔ v = 125 :: rest := by
    constructor
    · intro taken
      cases taken with
      | opens other _ =>
          rw [closes] at other
          cases other
      | closes other =>
          rw [closes] at other
          exact (Opening.closes.inj other).symm
    · rintro rfl
      exact .closes closes
  have readable : (Doc.object []).Readable :=
    .object (fun m none_ => by cases none_) fun m none_ => by cases none_
  have text : 123 :: (w ++ [125]) ++ rest = 123 :: (w ++ 125 :: rest) := by simp
  rw [text, takes_object rfl, takes_empty (.inr (.inr rfl)) (by decide) round,
    and_iff_right readable]

theorem array_taken {es : List (ElementText × Doc)} (some_ : es ≠ [])
    (valid : ∀ e ∈ es, Element.Valid e) (values : ∀ e ∈ es, Fitting e.1.value e.2) :
    TakenWhole (91 :: ([44].intercalate (es.map elementText) ++ [93]))
      (.array (es.map Prod.snd)) := by
  intro rest u
  have text : 91 :: ([44].intercalate (es.map elementText) ++ [93]) ++ rest =
      91 :: ([44].intercalate (es.map elementText) ++ 93 :: rest) := by simp
  rw [text, takes_array rfl, ← readable_array_iff]
  exact takes_items (.inr (.inl rfl)) (by decide) some_
    fun e he => element_exact (valid e he) (values e he)

theorem object_taken {ms : List (MemberText × Doc)} (some_ : ms ≠ [])
    (valid : ∀ m ∈ ms, Entry.Valid m) (values : ∀ m ∈ ms, Fitting m.1.element.value m.2) :
    TakenWhole (123 :: ([44].intercalate (ms.map entryText) ++ [125]))
      (.object (ms.map fun m => (m.1.name, m.2))) := by
  intro rest u
  have text : 123 :: ([44].intercalate (ms.map entryText) ++ [125]) ++ rest =
      123 :: ([44].intercalate (ms.map entryText) ++ 125 :: rest) := by simp
  rw [text, takes_object rfl, ← readable_object_iff]
  exact takes_items (.inr (.inr rfl)) (by decide) some_
    fun m hm => entry_exact (valid m hm) (values m hm)

end Containers

theorem Spells.taken {t : List UInt8} {d : Doc} (h : Spells t d) : Fitting t d ∧
    (((∃ ds, d = .array ds) ∨ ∃ ms, d = .object ms) → TakenWhole t d) := by
  induction h with
  | @symbol type text inside =>
      have kinds : ∀ e ∈ symbols, e.1 = .boolean ∨ e.1 = .null := by decide
      have symbol : Doc.isSymbol (.atom type text) = true := by
        rcases kinds _ inside with rfl | rfl <;> rfl
      refine ⟨fun {w c c' q q'} blanks mark _ => ?_, ?_⟩
      · rw [symbol_comes inside blanks mark]
        exact and_congr_left' ⟨fun other => ⟨.symbol symbol, fun _ => other⟩, fun fits => fits.2 symbol⟩
      · rintro (⟨ds, none_⟩ | ⟨ms, none_⟩) <;> cases none_
  | @number text number =>
      have symbol : Doc.isSymbol (.atom (numberType text) text) = false := by
        rw [numberType]
        split <;> rfl
      refine ⟨fun {w c c' q q'} blanks mark mark' => ?_, ?_⟩
      · rw [number_comes number blanks mark mark']
        refine and_congr_left' ⟨fun plain => ⟨.number plain, fun same => ?_⟩, fun fits => ?_⟩
        · rw [symbol] at same
          cases same
        · cases fits.1 with
          | symbol kind =>
              rw [symbol] at kind
              cases kind
          | number plain => exact plain
      · rintro (⟨ds, none_⟩ | ⟨ms, none_⟩) <;> cases none_
  | @string chars plain =>
      have whole : TakenWhole (34 :: (chars ++ [34])) (.string chars) := fun rest u => by
        rw [string_takes plain, and_iff_right .string]
      exact ⟨whole.fitting rfl, fun _ => whole⟩
  | emptyArray blanks => exact ⟨(emptyArray_taken blanks).fitting rfl, fun _ => emptyArray_taken blanks⟩
  | @array es some_ blanks values ih =>
      have whole := array_taken some_ (fun e he => ⟨blanks e he, values e he⟩) fun e he => (ih e he).1
      exact ⟨whole.fitting rfl, fun _ => whole⟩
  | emptyObject blanks =>
      exact ⟨(emptyObject_taken blanks).fitting rfl, fun _ => emptyObject_taken blanks⟩
  | @object ms some_ names blanks values ih =>
      have whole := object_taken some_
        (fun m hm => ⟨(names m hm).1, (names m hm).2, blanks m hm, values m hm⟩) fun m hm => (ih m hm).1
      exact ⟨whole.fitting rfl, fun _ => whole⟩

/-- An array or an object is accepted exactly when it is readable. -/
theorem accepts_document_iff {s : List UInt8} {d : Doc} (text : Says s d)
    (kind : (∃ ds, d = .array ds) ∨ ∃ ms, d = .object ms) (small : s.length ≤ limit) :
    (jsonDecode s).status = .ok ↔ d.Readable := by
  obtain ⟨e, rfl, before, behind, spelled⟩ := text
  obtain ⟨x, u, head, visible, -⟩ := spelled.head
  have split : e.text = e.before ++ (e.value ++ e.behind) := List.append_assoc _ _ _
  have opens : opening .type e.text = .value (e.value ++ e.behind) := by
    rw [split, head]
    exact opened_visible before visible
  rw [accepts_iff small]
  constructor
  · rintro ⟨rest, taken⟩
    exact ((spelled.taken.2 kind _ _).mp ((takes_round opens).mp taken)).1
  · intro readable
    exact ⟨_, (takes_round opens).mpr ((spelled.taken.2 kind _ _).mpr ⟨readable, rfl⟩)⟩

/-- A single true in an array is refused. -/
theorem singleTrue_refused : ¬ (jsonDecode (bytes "[true]")).status = .ok := by
  have spelled : Spells (bytes "[true]") (.array [.atom .boolean (bytes "true")]) := by
    refine @Spells.array [(⟨[], bytes "true", []⟩, .atom .boolean (bytes "true"))]
      (List.cons_ne_nil _ _) ?_ ?_
    · simp [blanks_nil]
    · simp only [List.forall_mem_cons, List.not_mem_nil, false_imp_iff, implies_true, and_true]
      exact .symbol (by decide)
  have text : Says (bytes "[true]") (.array [.atom .boolean (bytes "true")]) :=
    ⟨⟨[], _, []⟩, rfl, blanks_nil, blanks_nil, spelled⟩
  intro accepted
  cases (accepts_document_iff text (.inl ⟨_, rfl⟩) (by decide)).mp accepted with
  | array elements last => cases last _ rfl

end HZRobot.Json
