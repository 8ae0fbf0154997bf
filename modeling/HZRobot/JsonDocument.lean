import HZRobot.JsonText
import HZRobot.JsonNumbers

/-!
What a JSON text without a backslash says. A document keeps the members of an object in
the order of the text, its value has them as a map. No text spells two documents.
-/

namespace HZRobot.Json

/-- Symbols and numbers are kept as they are spelled. -/
inductive Doc where
  | atom (type : NodeType) (text : List UInt8)
  | string (chars : List UInt8)
  | array (elements : List Doc)
  | object (members : List (List UInt8 × Doc))

/-- The same digits are the same number. -/
inductive Value where
  | atom (text : List UInt8)
  | string (chars : List UInt8)
  | array (elements : List Value)
  | object (members : List UInt8 → Option Value)

namespace Doc

mutual

def value : Doc → Value
  | .atom _ text => .atom text
  | .string chars => .string chars
  | .array elements => .array (arrayValues elements)
  | .object members => .object (memberValue members)

def arrayValues : List Doc → List Value
  | [] => []
  | d :: ds => value d :: arrayValues ds

def memberValue : List (List UInt8 × Doc) → List UInt8 → Option Value
  | [], _ => none
  | (key, d) :: ms, name => if name = key then some (value d) else memberValue ms name

end

theorem arrayValues_eq (ds : List Doc) : arrayValues ds = ds.map value := by
  induction ds with
  | nil => rw [arrayValues, List.map_nil]
  | cons d ds ih => rw [arrayValues, List.map_cons, ih]

theorem memberValue_eq_some_iff {ms : List (List UInt8 × Doc)} (distinct : (ms.map Prod.fst).Nodup)
    {name : List UInt8} {v : Value} :
    memberValue ms name = some v ↔ ∃ d, (name, d) ∈ ms ∧ value d = v := by
  induction ms with
  | nil =>
      rw [memberValue]
      simp
  | cons m ms ih =>
      obtain ⟨key, d⟩ := m
      rw [List.map_cons, List.nodup_cons] at distinct
      rw [memberValue]
      by_cases here : name = key
      · subst here
        rw [if_pos rfl]
        constructor
        · intro same
          exact ⟨d, List.mem_cons_self, Option.some.inj same⟩
        · rintro ⟨d', mem, rfl⟩
          rcases List.mem_cons.mp mem with same | later
          · cases same
            rfl
          · exact absurd (List.mem_map_of_mem (f := Prod.fst) later) distinct.1
      · rw [if_neg here, ih distinct.2]
        constructor
        · rintro ⟨d', mem, same⟩
          exact ⟨d', List.mem_cons_of_mem _ mem, same⟩
        · rintro ⟨d', mem, same⟩
          rcases List.mem_cons.mp mem with first | later
          · cases first
            exact absurd rfl here
          · exact ⟨d', later, same⟩

/-- Every object has names of its own, and no empty one. -/
inductive Keyed : Doc → Prop
  | atom {type : NodeType} {text : List UInt8} : Keyed (.atom type text)
  | string {chars : List UInt8} : Keyed (.string chars)
  | array {ds : List Doc} (elements : ∀ d ∈ ds, Keyed d) : Keyed (.array ds)
  | object {ms : List (List UInt8 × Doc)} (distinct : (ms.map Prod.fst).Nodup)
      (some_ : ∀ m ∈ ms, m.1 ≠ []) (values : ∀ m ∈ ms, Keyed m.2) : Keyed (.object ms)

end Doc

/-- The characters of a string that needs no escape. -/
def Unescaped (t : List UInt8) : Prop := ∀ c ∈ t, 32 ≤ c ∧ c ≠ 34 ∧ c ≠ 92

inductive Spells : List UInt8 → Doc → Prop
  | symbol {type : NodeType} {text : List UInt8} (inside : (type, text) ∈ symbols) :
      Spells text (.atom type text)
  | number {text : List UInt8} (number : JsonNumber text) :
      Spells text (.atom (numberType text) text)
  | string {t : List UInt8} (chars : Unescaped t) : Spells (34 :: (t ++ [34])) (.string t)
  | emptyArray {w : List UInt8} (blanks : Blanks w) : Spells (91 :: (w ++ [93])) (.array [])
  | array {es : List (ElementText × Doc)} (some_ : es ≠ [])
      (blanks : ∀ e ∈ es, Blanks e.1.before ∧ Blanks e.1.behind)
      (values : ∀ e ∈ es, Spells e.1.value e.2) :
      Spells (91 :: ([44].intercalate (es.map fun e => e.1.text) ++ [93]))
        (.array (es.map Prod.snd))
  | emptyObject {w : List UInt8} (blanks : Blanks w) : Spells (123 :: (w ++ [125])) (.object [])
  | object {ms : List (MemberText × Doc)} (some_ : ms ≠ [])
      (names : ∀ m ∈ ms, Unescaped m.1.name ∧ Blanks m.1.before ∧ Blanks m.1.behind)
      (blanks : ∀ m ∈ ms, Blanks m.1.element.before ∧ Blanks m.1.element.behind)
      (values : ∀ m ∈ ms, Spells m.1.element.value m.2) :
      Spells (123 :: ([44].intercalate (ms.map fun m => m.1.text) ++ [125]))
        (.object (ms.map fun m => (m.1.name, m.2)))

/-- The text says this document, with blanks around it. -/
def Says (s : List UInt8) (d : Doc) : Prop :=
  ∃ e : ElementText, s = e.text ∧ Blanks e.before ∧ Blanks e.behind ∧ Spells e.value d

/-- The JSON value of a text. -/
def Means (s : List UInt8) (v : Value) : Prop := ∃ d, Says s d ∧ d.value = v

section Grammar

theorem unescaped_iff {t : List UInt8} : Unescaped t ↔ JsonChars t ∧ 92 ∉ t := by
  constructor
  · intro chars
    refine ⟨?_, fun inside => (chars 92 inside).2.2 rfl⟩
    induction t with
    | nil => exact .nil
    | cons c t ih =>
        obtain ⟨visible, noQuote, noEscape⟩ := chars c List.mem_cons_self
        exact .plain visible noQuote noEscape (ih fun b hb => chars b (List.mem_cons_of_mem _ hb))
  · rintro ⟨chars, clean⟩
    induction chars with
    | nil => exact fun c none_ => by cases none_
    | plain visible noQuote noEscape later ih =>
        rintro c mem
        rcases List.mem_cons.mp mem with rfl | rest
        · exact ⟨visible, noQuote, noEscape⟩
        · exact ih (fun inside => clean (List.mem_cons_of_mem _ inside)) c rest
    | escape => exact absurd List.mem_cons_self clean
    | unicode => exact absurd List.mem_cons_self clean

theorem Spells.jsonValue {t : List UInt8} {d : Doc} (h : Spells t d) : JsonValue t := by
  induction h with
  | symbol inside => exact .symbol inside
  | number number => exact .number number
  | string chars => exact .string (unescaped_iff.mp chars).1
  | emptyArray blanks => exact .emptyArray blanks
  | @array es some_ blanks values ih =>
      have texts : es.map (fun e => e.1.text) = (es.map Prod.fst).map ElementText.text := by
        rw [List.map_map]
        rfl
      rw [texts]
      refine .array (by simpa using some_) ?_ ?_
      · intro e mem
        obtain ⟨e', mem', rfl⟩ := List.mem_map.mp mem
        exact blanks e' mem'
      · intro e mem
        obtain ⟨e', mem', rfl⟩ := List.mem_map.mp mem
        exact ih e' mem'
  | emptyObject blanks => exact .emptyObject blanks
  | @object ms some_ names blanks values ih =>
      have texts : ms.map (fun m => m.1.text) = (ms.map Prod.fst).map MemberText.text := by
        rw [List.map_map]
        rfl
      rw [texts]
      refine .object (by simpa using some_) ?_ ?_ ?_
      · intro m mem
        obtain ⟨m', mem', rfl⟩ := List.mem_map.mp mem
        obtain ⟨chars, around⟩ := names m' mem'
        exact ⟨(unescaped_iff.mp chars).1, around⟩
      · intro m mem
        obtain ⟨m', mem', rfl⟩ := List.mem_map.mp mem
        exact blanks m' mem'
      · intro m mem
        obtain ⟨m', mem', rfl⟩ := List.mem_map.mp mem
        exact ih m' mem'

theorem infix_intercalate {parts : List (List UInt8)} {part : List UInt8} (h : part ∈ parts) :
    part <:+: [44].intercalate parts := by
  induction parts with
  | nil => cases h
  | cons first parts ih =>
      by_cases last : parts = []
      · subst last
        rw [List.mem_singleton.mp h, List.intercalate_singleton]
      · rw [List.intercalate_cons_of_ne_nil last, List.append_assoc]
        rcases List.mem_cons.mp h with rfl | later
        · exact (List.prefix_append _ _).isInfix
        · exact ((ih later).trans (List.suffix_append _ _).isInfix).trans
            (List.suffix_append _ _).isInfix

/-- Without a backslash every JSON text says something. -/
theorem exists_spells {t : List UInt8} (h : JsonValue t) (clean : 92 ∉ t) : ∃ d, Spells t d := by
  induction h with
  | symbol inside => exact ⟨_, .symbol inside⟩
  | number number => exact ⟨_, .number number⟩
  | string chars =>
      refine ⟨_, .string (unescaped_iff.mpr ⟨chars, fun inside => clean ?_⟩)⟩
      simp [inside]
  | emptyArray blanks => exact ⟨_, .emptyArray blanks⟩
  | @array es some_ blanks values ih =>
      have each : ∀ e ∈ es, ∃ d, Spells e.value d := by
        intro e mem
        refine ih e mem fun inside => clean ?_
        have part := (infix_intercalate (List.mem_map_of_mem (f := ElementText.text) mem)).subset
        have here : (92 : UInt8) ∈ e.text := by simp [ElementText.text, inside]
        simp [part here]
      obtain ⟨pairs, rfl, spelled⟩ := exists_paired each
      refine ⟨.array (pairs.map Prod.snd), ?_⟩
      rw [List.map_map]
      refine .array (by simpa using some_) (fun e mem => ?_) spelled
      exact blanks e.1 (List.mem_map_of_mem mem)
  | emptyObject blanks => exact ⟨_, .emptyObject blanks⟩
  | @object ms some_ names blanks values ih =>
      have inside_ (m : MemberText) (mem : m ∈ ms) : 92 ∉ m.text := by
        intro inside
        have part := (infix_intercalate (List.mem_map_of_mem (f := MemberText.text) mem)).subset
        exact clean (by simp [part inside])
      have each : ∀ m ∈ ms, ∃ d, Spells m.element.value d := by
        intro m mem
        refine ih m mem fun inside => inside_ m mem ?_
        simp [MemberText.text, ElementText.text, inside]
      obtain ⟨pairs, rfl, spelled⟩ := exists_paired each
      refine ⟨.object (pairs.map fun m => (m.1.name, m.2)), ?_⟩
      rw [List.map_map]
      refine .object (by simpa using some_) (fun m mem => ?_) (fun m mem => ?_) spelled
      · obtain ⟨chars, around⟩ := names m.1 (List.mem_map_of_mem mem)
        refine ⟨unescaped_iff.mpr ⟨chars, fun inside => inside_ m.1 (List.mem_map_of_mem mem) ?_⟩,
          around⟩
        simp [MemberText.text, inside]
      · exact blanks m.1 (List.mem_map_of_mem mem)

theorem exists_says_iff {s : List UInt8} (clean : 92 ∉ s) : (∃ d, Says s d) ↔ JsonText s := by
  constructor
  · rintro ⟨d, e, split, before, behind, spelled⟩
    exact ⟨e, split, before, behind, spelled.jsonValue⟩
  · rintro ⟨e, rfl, before, behind, json⟩
    obtain ⟨d, spelled⟩ := exists_spells json fun inside => clean (by simp [ElementText.text, inside])
    exact ⟨d, e, rfl, before, behind, spelled⟩

theorem mem_intercalate {c : UInt8} {parts : List (List UInt8)} (h : c ∈ [44].intercalate parts) :
    c = 44 ∨ ∃ part ∈ parts, c ∈ part := by
  induction parts with
  | nil => cases h
  | cons first parts ih =>
      by_cases last : parts = []
      · subst last
        rw [List.intercalate_singleton] at h
        exact .inr ⟨first, List.mem_cons_self, h⟩
      · rw [List.intercalate_cons_of_ne_nil last, List.mem_append, List.mem_append,
          List.mem_singleton] at h
        rcases h with (here | rfl) | later
        · exact .inr ⟨first, List.mem_cons_self, here⟩
        · exact .inl rfl
        · rcases ih later with comma | ⟨part, inside, here⟩
          · exact .inl comma
          · exact .inr ⟨part, List.mem_cons_of_mem _ inside, here⟩

theorem blanks_clean {w : List UInt8} (blanks : Blanks w) : 92 ∉ w := fun inside => by
  have := blanks 92 inside
  revert this
  decide

theorem number_clean {t : List UInt8} (number : JsonNumber t) : 92 ∉ t := by
  have digits_clean {ds : List UInt8} (digits : ∀ d ∈ ds, isDigit d = true) : 92 ∉ ds :=
    fun inside => by
      have := digits 92 inside
      revert this
      decide
  obtain ⟨signed, int_, frac_, exp_⟩ := number
  simp only [List.mem_append, not_or]
  refine ⟨⟨⟨?_, ?_⟩, ?_⟩, ?_⟩
  · rcases signed with rfl | rfl
    · simp
    · simp
  · cases int_ with
    | zero => simp
    | digits first positive others =>
        refine digits_clean fun d inside => ?_
        rcases List.mem_cons.mp inside with rfl | later
        · exact first
        · exact others d later
  · cases frac_ with
    | none => simp
    | digits digits => simp [digits_clean digits.2]
  · cases exp_ with
    | none => simp
    | digits letter signed digits =>
        rcases letter with rfl | rfl <;> rcases signed with rfl | rfl | rfl <;>
          simp [digits_clean digits.2]

/-- A text that spells a document has no backslash. -/
theorem Spells.clean {t : List UInt8} {d : Doc} (h : Spells t d) : 92 ∉ t := by
  induction h with
  | symbol inside =>
      revert inside
      simp only [symbols, List.mem_cons, Prod.mk.injEq, List.not_mem_nil, or_false]
      rintro (⟨-, rfl⟩ | ⟨-, rfl⟩ | ⟨-, rfl⟩) <;> decide
  | number number => exact number_clean number
  | string chars => simpa using (unescaped_iff.mp chars).2
  | emptyArray blanks => simpa using blanks_clean blanks
  | array some_ blanks values ih =>
      intro inside
      rcases List.mem_cons.mp inside with other | inside
      · cases other
      rcases List.mem_append.mp inside with inside | other
      · rcases mem_intercalate inside with other | ⟨part, mem, here⟩
        · cases other
        · obtain ⟨e, he, rfl⟩ := List.mem_map.mp mem
          have before := blanks_clean (blanks e he).1
          have behind := blanks_clean (blanks e he).2
          simp [ElementText.text, before, behind, ih e he] at here
      · simp at other
  | emptyObject blanks => simpa using blanks_clean blanks
  | object some_ names blanks values ih =>
      intro inside
      rcases List.mem_cons.mp inside with other | inside
      · cases other
      rcases List.mem_append.mp inside with inside | other
      · rcases mem_intercalate inside with other | ⟨part, mem, here⟩
        · cases other
        · obtain ⟨m, hm, rfl⟩ := List.mem_map.mp mem
          have name := (unescaped_iff.mp (names m hm).1).2
          have before := blanks_clean (names m hm).2.1
          have behind := blanks_clean (names m hm).2.2
          have before' := blanks_clean (blanks m hm).1
          have behind' := blanks_clean (blanks m hm).2
          simp [MemberText.text, ElementText.text, name, before, behind, before', behind',
            ih m hm] at here
      · simp at other

end Grammar

section Unique

/-- What ends an element or a member. -/
def Separates (c : UInt8) : Prop := c = 44 ∨ c = 93 ∨ c = 125

/-- What may stand behind a value. -/
def Behind (c : UInt8) : Prop := isBlank c = true ∨ Separates c

namespace Separates

variable {c : UInt8}

theorem visible (h : Separates c) : isBlank c = false := by
  rcases h with rfl | rfl | rfl <;> rfl

theorem of_bracket (h : c = 44 ∨ c = 93) : Separates c := h.imp_right .inl

theorem of_brace (h : c = 44 ∨ c = 125) : Separates c := h.imp_right .inr

end Separates

theorem Unescaped.noQuote {t : List UInt8} (h : Unescaped t) : ∀ b ∈ t, (b ≠ 34 : Bool) = true :=
  fun b hb => decide_eq_true (h b hb).2.1

/-- A text up to the first byte that cannot be in it. -/
theorem front_unique {inside : UInt8 → Bool} {t t' r r' : List UInt8} {c c' : UInt8}
    (all : ∀ b ∈ t, inside b = true) (all' : ∀ b ∈ t', inside b = true)
    (ends : inside c = false) (ends' : inside c' = false) (same : t ++ c :: r = t' ++ c' :: r') :
    t = t' := by
  have front (u q : List UInt8) (x : UInt8) (hu : ∀ b ∈ u, inside b = true)
      (hx : inside x = false) : (u ++ x :: q).takeWhile inside = u := by
    rw [List.takeWhile_append_of_pos hu, List.takeWhile_cons_of_neg (by simp [hx]), List.append_nil]
  rw [← front t r c all ends, same, front t' r' c' all' ends']

theorem blanks_unique {w w' r r' : List UInt8} {c c' : UInt8} (blanks : Blanks w)
    (blanks' : Blanks w') (visible : isBlank c = false) (visible' : isBlank c' = false)
    (same : w ++ c :: r = w' ++ c' :: r') : w = w' ∧ c = c' ∧ r = r' := by
  obtain rfl := front_unique blanks blanks' visible visible' same
  exact ⟨rfl, List.cons.inj (List.append_cancel_left same)⟩

section Items

variable {ι : Type} {text : ι → List UInt8} {valid : ι → Prop} {close : UInt8}

/-- Between two brackets: blanks alone, or items with commas between them. -/
def Inner (text : ι → List UInt8) (valid : ι → Prop) (inner : List UInt8) (is : List ι) : Prop :=
  (Blanks inner ∧ is = []) ∨
    is ≠ [] ∧ (∀ i ∈ is, valid i) ∧ inner = [44].intercalate (is.map text)

theorem Inner.all_valid {inner : List UInt8} {is : List ι} (h : Inner text valid inner is) :
    ∀ i ∈ is, valid i := by
  rcases h with ⟨-, rfl⟩ | ⟨-, all, -⟩
  · intro i none_
    cases none_
  · exact all

/-- The item begins, behind blanks, with a byte that is not the closing bracket. -/
def Begins (close : UInt8) (t : List UInt8) : Prop :=
  ∃ w x u, t = w ++ x :: u ∧ Blanks w ∧ isBlank x = false ∧ x ≠ close

theorem text_of_items (i : ι) (is : List ι) (r : List UInt8) :
    [44].intercalate ((i :: is).map text) ++ close :: r =
      text i ++ if is = [] then close :: r
        else 44 :: ([44].intercalate (is.map text) ++ close :: r) := by
  by_cases last : is = []
  · subst last
    simp
  · rw [if_neg last, List.map_cons, List.intercalate_cons_of_ne_nil (by simpa using last)]
    simp

/-- Lists of items are told apart when the items are. -/
theorem items_unique (other : close ≠ 44) {is is' : List ι} (some_ : is ≠ []) (some' : is' ≠ [])
    (each : ∀ i ∈ is, ∀ i' ∈ is', ∀ (c c' : UInt8) (r r' : List UInt8), c = 44 ∨ c = close →
      c' = 44 ∨ c' = close → text i ++ c :: r = text i' ++ c' :: r' → i = i') {r r' : List UInt8}
    (same : [44].intercalate (is.map text) ++ close :: r =
      [44].intercalate (is'.map text) ++ close :: r') : is = is' := by
  induction is generalizing is' with
  | nil => exact absurd rfl some_
  | cons i is ih =>
      obtain ⟨i', is', rfl⟩ := List.exists_cons_of_ne_nil some'
      rw [text_of_items, text_of_items] at same
      have first := each i List.mem_cons_self i' List.mem_cons_self
      by_cases last : is = []
      · by_cases last' : is' = []
        · rw [if_pos last, if_pos last'] at same
          rw [first _ _ _ _ (.inr rfl) (.inr rfl) same, last, last']
        · rw [if_pos last, if_neg last'] at same
          rw [first _ _ _ _ (.inr rfl) (.inl rfl) same] at same
          exact absurd (List.cons.inj (List.append_cancel_left same)).1 other
      · by_cases last' : is' = []
        · rw [if_neg last, if_pos last'] at same
          rw [first _ _ _ _ (.inl rfl) (.inr rfl) same] at same
          exact absurd (List.cons.inj (List.append_cancel_left same)).1.symm other
        · rw [if_neg last, if_neg last'] at same
          obtain rfl := first _ _ _ _ (.inl rfl) (.inl rfl) same
          have rest := (List.cons.inj (List.append_cancel_left same)).2
          have later := ih last last'
            (fun i₁ h₁ i₂ h₂ => each i₁ (List.mem_cons_of_mem _ h₁) i₂ (List.mem_cons_of_mem _ h₂))
            rest
          rw [later]

/-- Blanks alone are no items. -/
theorem blanks_no_items {is : List ι} (some_ : is ≠ []) (starts : ∀ i ∈ is, Begins close (text i))
    {w r r' : List UInt8} (blanks : Blanks w) (visible : isBlank close = false) :
    w ++ close :: r ≠ [44].intercalate (is.map text) ++ close :: r' := by
  obtain ⟨i, is, rfl⟩ := List.exists_cons_of_ne_nil some_
  obtain ⟨w', x, u, first, blanks', other, mark⟩ := starts i List.mem_cons_self
  intro same
  rw [text_of_items, first, List.append_assoc, List.cons_append] at same
  exact mark (blanks_unique blanks blanks' visible other same).2.1.symm

theorem inner_unique (visible : isBlank close = false) (other : close ≠ 44)
    (starts : ∀ i, valid i → Begins close (text i)) {inner inner' : List UInt8} {is is' : List ι}
    (h : Inner text valid inner is) (h' : Inner text valid inner' is')
    (each : ∀ i ∈ is, ∀ i', valid i' → ∀ (c c' : UInt8) (r r' : List UInt8), c = 44 ∨ c = close →
      c' = 44 ∨ c' = close → text i ++ c :: r = text i' ++ c' :: r' → i = i') {r r' : List UInt8}
    (same : inner ++ close :: r = inner' ++ close :: r') : inner = inner' ∧ is = is' := by
  rcases h with ⟨blanks, rfl⟩ | ⟨some_, all, rfl⟩
  · rcases h' with ⟨blanks', rfl⟩ | ⟨some', all', rfl⟩
    · exact ⟨(blanks_unique blanks blanks' visible visible same).1, rfl⟩
    · exact absurd same (blanks_no_items some' (fun i hi => starts i (all' i hi)) blanks visible)
  · rcases h' with ⟨blanks', rfl⟩ | ⟨some', all', rfl⟩
    · exact absurd same.symm
        (blanks_no_items some_ (fun i hi => starts i (all i hi)) blanks' visible)
    · obtain rfl := items_unique other some_ some'
        (fun i hi i' hi' => each i hi i' (all' i' hi')) same
      exact ⟨rfl, rfl⟩

end Items

/-- The text is spelled by this document alone, wherever it stands in a longer one. -/
def Unique (t : List UInt8) (d : Doc) : Prop :=
  ∀ {t' r r' : List UInt8} {d' : Doc} {c c' : UInt8}, Spells t' d' → Behind c → Behind c' →
    t ++ c :: r = t' ++ c' :: r' → t = t' ∧ d = d'

def isNumberChar (c : UInt8) : Bool := isNumeric c || c = 43 || c = 101 || c = 69

theorem JsonInt.all_digits {t : List UInt8} (h : JsonInt t) : Digits t := by
  cases h with
  | zero =>
      refine ⟨by simp, fun d mem => ?_⟩
      rw [List.mem_singleton.mp mem]
      decide
  | digits first positive others =>
      refine ⟨by simp, fun d mem => ?_⟩
      rcases List.mem_cons.mp mem with rfl | later
      · exact first
      · exact others d later

theorem isNumberChar_digit {c : UInt8} (h : isDigit c = true) : isNumberChar c = true := by
  simp [isNumberChar, isNumeric, h]

theorem JsonNumber.chars {t : List UInt8} (h : JsonNumber t) : ∀ c ∈ t, isNumberChar c = true := by
  obtain ⟨signed, int_, frac_, exp_⟩ := h
  intro c mem
  simp only [List.mem_append] at mem
  rcases mem with ((sign | int) | frac) | exp
  · rcases signed with rfl | rfl
    · cases sign
    · rw [List.mem_singleton.mp sign]
      decide
  · exact isNumberChar_digit (int_.all_digits.2 c int)
  · cases frac_ with
    | none => cases frac
    | digits all =>
        rcases List.mem_cons.mp frac with rfl | digit
        · decide
        · exact isNumberChar_digit (all.2 c digit)
  · cases exp_ with
    | none => cases exp
    | digits letter signed all =>
        rcases List.mem_cons.mp exp with rfl | later
        · rcases letter with rfl | rfl <;> decide
        rcases List.mem_append.mp later with sign | digit
        · rcases signed with rfl | rfl | rfl
          · cases sign
          · rw [List.mem_singleton.mp sign]
            decide
          · rw [List.mem_singleton.mp sign]
            decide
        · exact isNumberChar_digit (all.2 c digit)

theorem JsonNumber.head {t : List UInt8} (h : JsonNumber t) :
    ∃ c u, t = c :: u ∧ (isDigit c = true ∨ c = 45) := by
  obtain ⟨signed, int_, frac_, exp_⟩ := h
  rcases signed with rfl | rfl
  · obtain ⟨some_, all⟩ := int_.all_digits
    obtain ⟨c, u, rfl⟩ := List.exists_cons_of_ne_nil some_
    exact ⟨c, _, rfl, .inl (all c List.mem_cons_self)⟩
  · exact ⟨45, _, rfl, .inr rfl⟩

theorem digit_mark : ∀ c : UInt8, isDigit c = true →
    isBlank c = false ∧ c ∉ [34, 91, 123, 44, 93, 125] := by
  decide +kernel

/-- A symbol or a number begins with none of the marks. -/
theorem head_of_atom {type : NodeType} {text : List UInt8}
    (h : (type, text) ∈ symbols ∨ JsonNumber text) :
    ∃ c u, text = c :: u ∧ isBlank c = false ∧ c ∉ [34, 91, 123, 44, 93, 125] := by
  rcases h with inside | number
  · simp only [symbols, List.mem_cons, Prod.mk.injEq, List.not_mem_nil, or_false] at inside
    rcases inside with ⟨-, rfl⟩ | ⟨-, rfl⟩ | ⟨-, rfl⟩
    · exact ⟨116, _, rfl, by decide⟩
    · exact ⟨102, _, rfl, by decide⟩
    · exact ⟨110, _, rfl, by decide⟩
  · obtain ⟨c, u, rfl, first⟩ := number.head
    refine ⟨c, u, rfl, ?_⟩
    rcases first with digit | rfl
    · exact digit_mark c digit
    · decide

/-- An element of an array with what it says. -/
structure Element.Valid (e : ElementText × Doc) : Prop where
  blanks : Blanks e.1.before ∧ Blanks e.1.behind
  value : Spells e.1.value e.2

/-- A member of an object with what it says. -/
structure Entry.Valid (m : MemberText × Doc) : Prop where
  chars : Unescaped m.1.name
  around : Blanks m.1.before ∧ Blanks m.1.behind
  blanks : Blanks m.1.element.before ∧ Blanks m.1.element.behind
  value : Spells m.1.element.value m.2

def elementText (e : ElementText × Doc) : List UInt8 := e.1.text

def entryText (m : MemberText × Doc) : List UInt8 := m.1.text

def entryOf (m : MemberText × Doc) : List UInt8 × Doc := (m.1.name, m.2)

/-- What a text spells, by its first byte. -/
theorem Spells.by_head {c : UInt8} {u : List UInt8} {d : Doc} (h : Spells (c :: u) d) :
    (c = 34 ∧ ∃ chars, Unescaped chars ∧ u = chars ++ [34] ∧ d = .string chars) ∨
    (c = 91 ∧ ∃ inner es, Inner elementText Element.Valid inner es ∧ u = inner ++ [93] ∧
      d = .array (es.map Prod.snd)) ∨
    (c = 123 ∧ ∃ inner ms, Inner entryText Entry.Valid inner ms ∧ u = inner ++ [125] ∧
      d = .object (ms.map entryOf)) ∨
    (c ∉ [34, 91, 123, 44, 93, 125] ∧ isBlank c = false ∧ ∃ type, d = .atom type (c :: u) ∧
      ((type, c :: u) ∈ symbols ∨ JsonNumber (c :: u) ∧ type = numberType (c :: u))) := by
  generalize text : c :: u = t at h
  cases h with
  | symbol inside =>
      obtain ⟨c', u', rfl, blank, mark⟩ := head_of_atom (.inl inside)
      obtain ⟨rfl, rfl⟩ := List.cons.inj text
      exact .inr (.inr (.inr ⟨mark, blank, _, rfl, .inl inside⟩))
  | number number =>
      obtain ⟨c', u', rfl, blank, mark⟩ := @head_of_atom .integer _ (.inr number)
      obtain ⟨rfl, rfl⟩ := List.cons.inj text
      exact .inr (.inr (.inr ⟨mark, blank, _, rfl, .inr ⟨number, rfl⟩⟩))
  | string chars =>
      obtain ⟨rfl, rfl⟩ := List.cons.inj text
      exact .inl ⟨rfl, _, chars, rfl, rfl⟩
  | emptyArray blanks =>
      obtain ⟨rfl, rfl⟩ := List.cons.inj text
      exact .inr (.inl ⟨rfl, _, [], .inl ⟨blanks, rfl⟩, rfl, rfl⟩)
  | array some_ blanks values =>
      obtain ⟨rfl, rfl⟩ := List.cons.inj text
      have valid := fun e he => Element.Valid.mk (blanks e he) (values e he)
      exact .inr (.inl ⟨rfl, _, _, .inr ⟨some_, valid, rfl⟩, rfl, rfl⟩)
  | emptyObject blanks =>
      obtain ⟨rfl, rfl⟩ := List.cons.inj text
      exact .inr (.inr (.inl ⟨rfl, _, [], .inl ⟨blanks, rfl⟩, rfl, rfl⟩))
  | object some_ names blanks values =>
      obtain ⟨rfl, rfl⟩ := List.cons.inj text
      have valid := fun m hm =>
        Entry.Valid.mk (names m hm).1 (names m hm).2 (blanks m hm) (values m hm)
      exact .inr (.inr (.inl ⟨rfl, _, _, .inr ⟨some_, valid, rfl⟩, rfl, rfl⟩))

/-- A value begins with a byte that is no blank, no comma and closes nothing. -/
theorem Spells.head {t : List UInt8} {d : Doc} (h : Spells t d) :
    ∃ c u, t = c :: u ∧ isBlank c = false ∧ c ≠ 93 ∧ c ≠ 125 := by
  have some_ : t ≠ [] := by
    rintro rfl
    generalize text : ([] : List UInt8) = t at h
    cases h with
    | symbol inside =>
        obtain ⟨c, u, rfl, -⟩ := head_of_atom (.inl inside)
        cases text
    | number number =>
        obtain ⟨c, u, rfl, -⟩ := @head_of_atom .integer _ (.inr number)
        cases text
    | string | emptyArray | array | emptyObject | object => cases text
  obtain ⟨c, u, rfl⟩ := List.exists_cons_of_ne_nil some_
  refine ⟨c, u, rfl, ?_⟩
  rcases h.by_head with ⟨rfl, -⟩ | ⟨rfl, -⟩ | ⟨rfl, -⟩ | ⟨mark, blank, -⟩
  · decide
  · decide
  · decide
  · simp only [List.mem_cons, List.not_mem_nil, or_false, not_or] at mark
    exact ⟨blank, mark.2.2.2.2.1, mark.2.2.2.2.2⟩

theorem behind_blanks {w : List UInt8} (blanks : Blanks w) {c : UInt8} (behind : Behind c)
    (r : List UInt8) : ∃ b q, w ++ c :: r = b :: q ∧ Behind b := by
  cases w with
  | nil => exact ⟨c, r, rfl, behind⟩
  | cons b w => exact ⟨b, w ++ c :: r, rfl, .inl (blanks b List.mem_cons_self)⟩

section Parts

variable {d d' : Doc} {c c' : UInt8} {r r' : List UInt8}

theorem element_unique {e e' : ElementText} (unique : Unique e.value d) (h : Spells e.value d)
    (h' : Spells e'.value d') (blanks : Blanks e.before ∧ Blanks e.behind)
    (blanks' : Blanks e'.before ∧ Blanks e'.behind) (ends : Separates c) (ends' : Separates c')
    (same : e.text ++ c :: r = e'.text ++ c' :: r') : e = e' ∧ d = d' := by
  obtain ⟨before, value, after⟩ := e
  obtain ⟨before', value', after'⟩ := e'
  obtain ⟨x, u, head, blank, -⟩ := h.head
  obtain ⟨x', u', head', blank', -⟩ := h'.head
  dsimp only at head head' unique h' blanks blanks'
  have front : before ++ x :: (u ++ (after ++ c :: r)) =
      before' ++ x' :: (u' ++ (after' ++ c' :: r')) := by
    simpa [ElementText.text, head, head'] using same
  obtain ⟨rfl, first, rest⟩ := blanks_unique blanks.1 blanks'.1 blank blank' front
  have values : value ++ (after ++ c :: r) = value' ++ (after' ++ c' :: r') := by
    rw [head, head', List.cons_append, List.cons_append, first, rest]
  obtain ⟨b, q, next, behind⟩ := behind_blanks blanks.2 (.inr ends) r
  obtain ⟨b', q', next', behind'⟩ := behind_blanks blanks'.2 (.inr ends') r'
  rw [next, next'] at values
  obtain ⟨rfl, rfl⟩ := unique h' behind behind' values
  have tails := List.append_cancel_left values
  rw [← next, ← next'] at tails
  obtain ⟨rfl, -⟩ := blanks_unique blanks.2 blanks'.2 ends.visible ends'.visible tails
  exact ⟨rfl, rfl⟩

theorem member_unique {m m' : MemberText} (unique : Unique m.element.value d)
    (valid : Entry.Valid (m, d)) (valid' : Entry.Valid (m', d')) (ends : Separates c)
    (ends' : Separates c') (same : m.text ++ c :: r = m'.text ++ c' :: r') : m = m' ∧ d = d' := by
  obtain ⟨names, around, blanks, h⟩ := valid
  obtain ⟨names', around', blanks', h'⟩ := valid'
  obtain ⟨before, name, after, e⟩ := m
  obtain ⟨before', name', after', e'⟩ := m'
  dsimp only at unique h h' names names' around around' blanks blanks'
  have front : before ++ 34 :: (name ++ 34 :: (after ++ 58 :: (e.text ++ c :: r))) =
      before' ++ 34 :: (name' ++ 34 :: (after' ++ 58 :: (e'.text ++ c' :: r'))) := by
    simpa [MemberText.text] using same
  obtain ⟨rfl, -, quoted⟩ := blanks_unique around.1 around'.1 (by decide) (by decide) front
  obtain rfl := front_unique names.noQuote names'.noQuote (by decide) (by decide) quoted
  have colon := (List.cons.inj (List.append_cancel_left quoted)).2
  obtain ⟨rfl, -, rest⟩ := blanks_unique around.2 around'.2 (by decide) (by decide) colon
  obtain ⟨rfl, rfl⟩ := element_unique unique h h' blanks blanks' ends ends' rest
  exact ⟨rfl, rfl⟩

theorem array_unique {inner inner' : List UInt8} {es es' : List (ElementText × Doc)}
    (h : Inner elementText Element.Valid inner es) (unique : ∀ e ∈ es, Unique e.1.value e.2)
    (h' : Inner elementText Element.Valid inner' es')
    (same : inner ++ 93 :: r = inner' ++ 93 :: r') : inner = inner' ∧ es = es' := by
  have valid := h.all_valid
  refine inner_unique (by decide) (by decide) (fun e he => ?_) h h'
    (fun e he e' valid' c c' q q' ends ends' eq => ?_) same
  · obtain ⟨x, u, head, visible, mark, -⟩ := he.value.head
    exact ⟨e.1.before, x, u ++ e.1.behind, by simp [elementText, ElementText.text, head], he.blanks.1,
      visible, mark⟩
  · obtain ⟨text, doc⟩ := element_unique (unique e he) (valid e he).value valid'.value
      (valid e he).blanks valid'.blanks (.of_bracket ends) (.of_bracket ends') eq
    exact Prod.ext text doc

theorem object_unique {inner inner' : List UInt8} {ms ms' : List (MemberText × Doc)}
    (h : Inner entryText Entry.Valid inner ms) (unique : ∀ m ∈ ms, Unique m.1.element.value m.2)
    (h' : Inner entryText Entry.Valid inner' ms')
    (same : inner ++ 125 :: r = inner' ++ 125 :: r') : inner = inner' ∧ ms = ms' := by
  have valid := h.all_valid
  refine inner_unique (by decide) (by decide) (fun m hm => ?_) h h'
    (fun m hm m' valid' c c' q q' ends ends' eq => ?_) same
  · exact ⟨m.1.before, 34, m.1.name ++ [34] ++ m.1.behind ++ 58 :: m.1.element.text,
      by simp [entryText, MemberText.text], hm.around.1, by decide, by decide⟩
  · obtain ⟨text, doc⟩ := member_unique (unique m hm) (valid m hm) valid' (.of_brace ends)
      (.of_brace ends') eq
    exact Prod.ext text doc

end Parts

def isLetter (c : UInt8) : Bool := 97 ≤ c && c ≤ 122

theorem Behind.no_letter {c : UInt8} (h : Behind c) : isLetter c = false := by
  rcases h with blank | rfl | rfl | rfl
  · simp only [isBlank, Bool.or_eq_true, decide_eq_true_eq] at blank
    rcases blank with ((rfl | rfl) | rfl) | rfl <;> rfl
  · rfl
  · rfl
  · rfl

theorem Behind.no_number {c : UInt8} (h : Behind c) : isNumberChar c = false := by
  rcases h with blank | rfl | rfl | rfl
  · simp only [isBlank, Bool.or_eq_true, decide_eq_true_eq] at blank
    rcases blank with ((rfl | rfl) | rfl) | rfl <;> rfl
  · rfl
  · rfl
  · rfl

theorem symbol_letters {type : NodeType} {text : List UInt8} (inside : (type, text) ∈ symbols) :
    ∀ b ∈ text, isLetter b = true := by
  have all : ∀ e ∈ symbols, e.2.all isLetter = true := by decide
  exact List.all_eq_true.mp (all _ inside)

theorem symbol_type {type type' : NodeType} {text : List UInt8} (inside : (type, text) ∈ symbols)
    (inside' : (type', text) ∈ symbols) : type = type' := by
  have all : ∀ e ∈ symbols, ∀ e' ∈ symbols, e.2 = e'.2 → e.1 = e'.1 := by decide
  exact all _ inside _ inside' rfl

/-- No number begins with a letter. -/
theorem number_no_letter {x : UInt8} {u : List UInt8} (number : JsonNumber (x :: u)) :
    isLetter x = false := by
  obtain ⟨c, u', head, first⟩ := number.head
  obtain ⟨rfl, -⟩ := List.cons.inj head
  rcases first with digit | rfl
  · have all : ∀ c : UInt8, isDigit c = true → isLetter c = false := by decide +kernel
    exact all x digit
  · rfl

theorem atom_unique {type : NodeType} {text : List UInt8}
    (h : (type, text) ∈ symbols ∨ JsonNumber text ∧ type = numberType text) :
    Unique text (.atom type text) := by
  intro t' r r' d' c c' h' behind behind' same
  obtain ⟨x, u, rfl, -, mark⟩ := head_of_atom (h.imp_right And.left)
  obtain ⟨x', u', rfl, -⟩ := h'.head
  obtain ⟨rfl, -⟩ := List.cons.inj same
  rcases h'.by_head with ⟨rfl, -⟩ | ⟨rfl, -⟩ | ⟨rfl, -⟩ | ⟨-, -, type', rfl, h''⟩
  · exact absurd mark (by decide)
  · exact absurd mark (by decide)
  · exact absurd mark (by decide)
  · rcases h with inside | ⟨number, rfl⟩
    · have letters := symbol_letters inside
      rcases h'' with inside' | ⟨number', rfl⟩
      · have text := front_unique letters (symbol_letters inside') behind.no_letter
          behind'.no_letter same
        rw [← text] at inside' ⊢
        rw [symbol_type inside inside']
        exact ⟨rfl, rfl⟩
      · have letter := letters x List.mem_cons_self
        rw [number_no_letter number'] at letter
        cases letter
    · rcases h'' with inside' | ⟨number', rfl⟩
      · have letter := symbol_letters inside' x List.mem_cons_self
        rw [number_no_letter number] at letter
        cases letter
      · have text := front_unique number.chars number'.chars behind.no_number behind'.no_number same
        rw [← text]
        exact ⟨rfl, rfl⟩

theorem string_unique {t : List UInt8} (chars : Unescaped t) :
    Unique (34 :: (t ++ [34])) (.string t) := by
  intro t' r r' d' c c' h' behind behind' same
  obtain ⟨x', u', rfl, -⟩ := h'.head
  obtain ⟨rfl, rest⟩ := List.cons.inj same
  rcases h'.by_head with ⟨-, chars', valid, rfl, rfl⟩ | ⟨other, -⟩ | ⟨other, -⟩ | ⟨other, -⟩
  · have text : t ++ 34 :: (c :: r) = chars' ++ 34 :: (c' :: r') := by simpa using rest
    obtain rfl := front_unique chars.noQuote valid.noQuote (by decide) (by decide) text
    exact ⟨rfl, rfl⟩
  · cases other
  · cases other
  · exact absurd other (by decide)

theorem bracketed_unique {inner : List UInt8} {es : List (ElementText × Doc)}
    (h : Inner elementText Element.Valid inner es) (unique : ∀ e ∈ es, Unique e.1.value e.2) :
    Unique (91 :: (inner ++ [93])) (.array (es.map Prod.snd)) := by
  intro t' r r' d' c c' h' behind behind' same
  obtain ⟨x', u', rfl, -⟩ := h'.head
  obtain ⟨rfl, rest⟩ := List.cons.inj same
  rcases h'.by_head with ⟨other, -⟩ | ⟨-, inner', es', valid, rfl, rfl⟩ | ⟨other, -⟩ | ⟨other, -⟩
  · cases other
  · have text : inner ++ 93 :: (c :: r) = inner' ++ 93 :: (c' :: r') := by simpa using rest
    obtain ⟨rfl, rfl⟩ := array_unique h unique valid text
    exact ⟨rfl, rfl⟩
  · cases other
  · exact absurd other (by decide)

theorem braced_unique {inner : List UInt8} {ms : List (MemberText × Doc)}
    (h : Inner entryText Entry.Valid inner ms) (unique : ∀ m ∈ ms, Unique m.1.element.value m.2) :
    Unique (123 :: (inner ++ [125])) (.object (ms.map entryOf)) := by
  intro t' r r' d' c c' h' behind behind' same
  obtain ⟨x', u', rfl, -⟩ := h'.head
  obtain ⟨rfl, rest⟩ := List.cons.inj same
  rcases h'.by_head with ⟨other, -⟩ | ⟨other, -⟩ | ⟨-, inner', ms', valid, rfl, rfl⟩ | ⟨other, -⟩
  · cases other
  · cases other
  · have text : inner ++ 125 :: (c :: r) = inner' ++ 125 :: (c' :: r') := by simpa using rest
    obtain ⟨rfl, rfl⟩ := object_unique h unique valid text
    exact ⟨rfl, rfl⟩
  · exact absurd other (by decide)

theorem Spells.unique {t : List UInt8} {d : Doc} (h : Spells t d) : Unique t d := by
  induction h with
  | symbol inside => exact atom_unique (.inl inside)
  | number number => exact atom_unique (.inr ⟨number, rfl⟩)
  | string chars => exact string_unique chars
  | emptyArray blanks =>
      exact @bracketed_unique _ [] (.inl ⟨blanks, rfl⟩) fun e none_ => by cases none_
  | array some_ blanks values ih =>
      have valid := fun e he => Element.Valid.mk (blanks e he) (values e he)
      exact @bracketed_unique _ _ (.inr ⟨some_, valid, rfl⟩) ih
  | emptyObject blanks =>
      exact @braced_unique _ [] (.inl ⟨blanks, rfl⟩) fun m none_ => by cases none_
  | object some_ names blanks values ih =>
      have valid := fun m hm =>
        Entry.Valid.mk (names m hm).1 (names m hm).2 (blanks m hm) (values m hm)
      exact @braced_unique _ _ (.inr ⟨some_, valid, rfl⟩) ih

/-- A text says one document at most. -/
theorem Says.unique {s : List UInt8} {d d' : Doc} (h : Says s d) (h' : Says s d') : d = d' := by
  obtain ⟨e, rfl, before, behind, spelled⟩ := h
  obtain ⟨e', same, before', behind', spelled'⟩ := h'
  have more : e.text ++ 44 :: [] = e'.text ++ 44 :: [] := by rw [same]
  exact (element_unique spelled.unique spelled spelled' ⟨before, behind⟩ ⟨before', behind'⟩ (.inl rfl)
    (.inl rfl) more).2

theorem Means.unique {s : List UInt8} {v v' : Value} (h : Means s v) (h' : Means s v') : v = v' := by
  obtain ⟨d, spelled, rfl⟩ := h
  obtain ⟨d', spelled', rfl⟩ := h'
  rw [spelled.unique spelled']

end Unique

end HZRobot.Json
