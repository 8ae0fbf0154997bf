import HZRobot.Json

/-!
What the JSON parser makes of a well-formed text in the middle of a longer one. Every
statement says how far the text is read, since a position from 2^31 on throws.
-/

namespace HZRobot.Json

/-- The first position that is negative as an int32. -/
def limit : Nat := 2 ^ 31

theorem toInt32_small {pos : Nat} (h : pos < limit) : toInt32 pos = pos := by
  unfold limit at h
  unfold toInt32
  omega

section Reading

variable {data p q : List UInt8} {pos : Nat}

theorem readAt_within {c : UInt8} (split : data = p ++ c :: q) (here : p.length = pos)
    (start : pos ≤ limit) : (readAt data pos).ReturnsWithin limit (pos + 1) c pos := by
  constructor
  · intro inside
    have found : at_ data (toInt32 pos) = some c := by
      rw [toInt32_small inside, at_, if_pos (Int.natCast_nonneg _), split, ← here]
      simp
    rw [readAt, read, found]
    exact ⟨rfl, rfl, rfl⟩
  · intro outside
    have last : pos = limit := Nat.le_antisymm start (Nat.le_of_lt_succ outside)
    have none_ : at_ data (toInt32 pos) = none := by
      rw [last, at_, if_neg (by decide)]
    rw [readAt, read, none_]
    intro ok
    cases ok

/-- The byte before the cursor. -/
theorem read_before {b : UInt8} (split : data = p ++ b :: q) (here : p.length + 1 = pos)
    (small : pos < limit) : read data (toInt32 pos - 1) pos = ⟨.ok, b, pos, []⟩ := by
  have index : (toInt32 pos - 1).toNat = p.length := by
    rw [toInt32_small small]
    omega
  have found : at_ data (toInt32 pos - 1) = some b := by
    rw [at_, if_pos (by rw [toInt32_small small]; omega), index, split]
    simp
  rw [read, found]

/-- A loop stops at the first byte that it does not skip. -/
theorem scan_within {skips : UInt8 → Bool} {c : UInt8} (stop : skips c = false) {t : List UInt8}
    (all : ∀ b ∈ t, skips b = true) (split : data = p ++ (t ++ c :: q)) (here : p.length = pos)
    (start : pos ≤ limit) :
    (scan skips data (data.length - pos) pos).ReturnsWithin limit (pos + t.length + 1) ()
      (pos + t.length) := by
  induction t generalizing p pos with
  | nil =>
      have left : data.length - pos = q.length + 1 := by simp [split, here]
      rw [left]
      refine (readAt_within split here start).andThen (Nat.le_refl _) fun inside => ?_
      rw [stop]
      exact Decoded.Returns.within ⟨rfl, rfl, rfl⟩ inside
  | cons b t ih =>
      have left : data.length - pos = (data.length - (pos + 1)) + 1 := by
        simp only [split, List.length_append, List.length_cons]
        omega
      have more : pos + (b :: t).length = pos + 1 + t.length := by
        rw [List.length_cons]
        omega
      rw [left, more]
      refine (readAt_within split here start).andThen (by omega) fun inside => ?_
      rw [if_pos (all b List.mem_cons_self)]
      refine ih (fun b' hb' => all b' (List.mem_cons_of_mem _ hb')) (p := p ++ [b]) ?_ ?_ inside
      · rw [split]
        simp
      · rw [List.length_append, here]
        rfl

theorem skipSpace_within {c : UInt8} (visible : isBlank c = false) (split : data = p ++ c :: q)
    (here : p.length = pos) (start : pos ≤ limit) :
    (skipSpace data pos).ReturnsWithin limit (pos + 1) () pos :=
  scan_within (t := []) visible (fun _ none_ => by cases none_) split here start

theorem find_within {ch : UInt8} {t : List UInt8} (none_ : ch ∉ t)
    (split : data = p ++ (t ++ ch :: q)) (here : p.length = pos) (start : pos ≤ limit) :
    (find ch data pos).ReturnsWithin limit (pos + t.length + 1) () (pos + t.length) := by
  refine scan_within (by simp) (fun b hb => ?_) split here start
  exact decide_eq_true fun same => none_ (same ▸ hb)

theorem slice_eq {t : List UInt8} (split : data = p ++ (t ++ q)) (here : p.length = pos) :
    slice data pos (pos + t.length) = t := by
  rw [split, ← here, slice, List.drop_left, Nat.add_sub_cancel_left, List.take_left]

end Reading

/-- The parts of a list, each with what a relation gives it. -/
theorem exists_paired {α β : Type} {R : α → β → Prop} {as : List α} (h : ∀ a ∈ as, ∃ b, R a b) :
    ∃ es : List (α × β), es.map Prod.fst = as ∧ ∀ e ∈ es, R e.1 e.2 := by
  induction as with
  | nil => exact ⟨[], rfl, fun e none_ => by cases none_⟩
  | cons a as ih =>
      obtain ⟨b, first⟩ := h a List.mem_cons_self
      obtain ⟨es, rfl, later⟩ := ih fun a' inside => h a' (List.mem_cons_of_mem _ inside)
      refine ⟨(a, b) :: es, rfl, fun e he => ?_⟩
      rcases List.mem_cons.mp he with rfl | inside
      · exact first
      · exact later e inside

/-- decode, from the first byte of the value on, reads the text as this node, whatever the
key is. -/
def ReadsAs (data text : List UInt8) (pos fuel bound : Nat) (node : Node) : Prop :=
  ∀ key, (decodeText { decode_step := .type, key := key } data pos
    (decodeValue (parseObject data fuel))).ReturnsWithin limit bound { node with key := key }
      (pos + text.length)

/-- The text of a value. At most the byte after it is read too, which must be one of ends. -/
structure Denotes (ends : UInt8 → Prop) (text : List UInt8) (node : Node) : Prop where
  first : ∃ c t, text = c :: t ∧ isBlank c = false
  keyless : node.key = []
  reads : ∃ ahead ≤ 1, ∀ {data p q : List UInt8} {c : UInt8} {pos fuel : Nat},
    data = p ++ (text ++ c :: q) → ends c → p.length = pos → pos ≤ limit →
      text.length ≤ fuel → ReadsAs data text pos fuel (pos + text.length + ahead) node

/-- The text of an object or an array, which is read no further than its bracket. -/
structure Closed (text : List UInt8) (node : Node) : Prop where
  first : ∃ c t, text = c :: t ∧ isBlank c = false
  keyless : node.key = []
  reads : ∀ {data p q : List UInt8} {pos fuel : Nat}, data = p ++ (text ++ q) →
    p.length = pos → pos ≤ limit → text.length ≤ fuel →
      ReadsAs data text pos fuel (pos + text.length) node

theorem Denotes.mono {ends ends' : UInt8 → Prop} {text : List UInt8} {node : Node}
    (h : Denotes ends text node) (fewer : ∀ c, ends' c → ends c) : Denotes ends' text node := by
  obtain ⟨ahead, le, reads⟩ := h.reads
  exact ⟨h.first, h.keyless, ahead, le, fun split next => reads split (fewer _ next)⟩

theorem Closed.denotes {text : List UInt8} {node : Node} (h : Closed text node)
    (ends : UInt8 → Prop) : Denotes ends text node :=
  ⟨h.first, h.keyless, 0, Nat.zero_le 1, fun split _ here start deep =>
    h.reads split here start deep⟩

/-- The text of what parse_object reads in one round. -/
def Element (decode_step : DecodeStep) (ends : UInt8 → Prop) (text : List UInt8)
    (sub_node : Node) : Prop :=
  ∃ ahead ≤ 1, ∀ {data p q : List UInt8} {c : UInt8} {pos fuel : Nat},
    data = p ++ (text ++ c :: q) → ends c → p.length = pos → pos ≤ limit →
      text.length ≤ fuel →
        (decodeWith (parseObject data fuel) { decode_step := decode_step } data
          pos).ReturnsWithin limit (pos + text.length + ahead) sub_node (pos + text.length)

theorem keyless_eq {node : Node} (keyless : node.key = []) : { node with key := [] } = node := by
  cases node
  cases keyless
  rfl

theorem Denotes.element {ends : UInt8 → Prop} {text : List UInt8} {node : Node}
    (h : Denotes ends text node) : Element .type ends text node := by
  obtain ⟨ahead, le, reads⟩ := h.reads
  refine ⟨ahead, le, fun {data p q c pos fuel} split next here start deep => ?_⟩
  obtain ⟨first, t, head, visible⟩ := h.first
  have size : text.length = t.length + 1 := by rw [head]; rfl
  have text_ := reads split next here start deep []
  rw [keyless_eq h.keyless] at text_
  rw [decodeWith, decodeKey, if_neg nofun, decodeType, if_pos rfl]
  have space := skipSpace_within visible (split.trans (by rw [head]; rfl)) here start
  refine space.andThen (by omega) fun inside => ?_
  rw [decodeColon, if_pos rfl]
  exact (Decoded.Returns.within ⟨rfl, rfl, rfl⟩ inside).andThen (by omega) fun _ => text_

/-- A member: the key in quotes, a colon and the value. -/
def memberText (key text : List UInt8) : List UInt8 := 34 :: (key ++ 34 :: 58 :: text)

theorem Denotes.member {ends : UInt8 → Prop} {key text : List UInt8} {node : Node}
    (h : Denotes ends text node) (some_ : key ≠ []) (plain : 34 ∉ key) :
    Element .key ends (memberText key text) { node with key := key } := by
  obtain ⟨ahead, le, reads⟩ := h.reads
  refine ⟨ahead, le, fun {data p q c pos fuel} split next here start deep => ?_⟩
  obtain ⟨first, t, head, visible⟩ := h.first
  have size : (memberText key text).length = key.length + text.length + 3 := by
    simp only [memberText, List.length_cons, List.length_append]
    omega
  have size' : text.length = t.length + 1 := by rw [head]; rfl
  have quote : data = p ++ 34 :: (key ++ 34 :: 58 :: text ++ c :: q) := split
  have name : data = (p ++ [34]) ++ (key ++ 34 :: (58 :: text ++ c :: q)) := by simp [quote]
  have colon : data = (p ++ 34 :: key ++ [34]) ++ 58 :: (text ++ c :: q) := by simp [quote]
  have value : data = (p ++ 34 :: key ++ [34, 58]) ++ (text ++ c :: q) := by simp [quote]
  have atName : (p ++ [34]).length = pos + 1 := by simp [here]
  have atColon : (p ++ 34 :: key ++ [34]).length = pos + 1 + key.length + 1 := by
    simp only [List.length_append, List.length_cons, List.length_nil]
    omega
  have atValue : (p ++ 34 :: key ++ [34, 58]).length = pos + 1 + key.length + 1 + 1 := by
    simp only [List.length_append, List.length_cons, List.length_nil]
    omega
  have stop : pos + (memberText key text).length = pos + 1 + key.length + 1 + 1 + text.length := by
    omega
  rw [stop, decodeWith, decodeKey, if_pos rfl]
  refine (skipSpace_within (by decide) quote here start).andThen (by omega) fun inside => ?_
  refine (readAt_within quote here start).andThen (by omega) fun inside => ?_
  rw [if_pos (.inr rfl)]
  refine (find_within plain name atName inside).andThen (by omega) fun inside => ?_
  rw [slice_eq name atName, decodeType, if_pos rfl]
  refine (skipSpace_within (by decide) colon atColon inside).andThen (by omega) fun _ => ?_
  refine Decoded.ReturnsWithin.andThen (a := ()) (b := pos + 1 + key.length + 1 + 1 + 1) ?_
    (by omega) fun more => reads value next atValue (by omega) (by omega) key
  rw [decodeColon, if_neg some_]
  refine (readAt_within colon atColon inside).andThen (by omega) fun inside => ?_
  rw [if_pos rfl]
  exact skipSpace_within visible (value.trans (by rw [head]; rfl)) atValue inside

/-- One round of parse_object, up to the byte behind the element. -/
theorem parseObject_round {decode_step : DecodeStep} {symbol c : UInt8} {data p q : List UInt8}
    {pos next fuel b : Nat} {sub_node : Node}
    (reads : (decodeWith (parseObject data fuel) { decode_step := decode_step } data
      pos).ReturnsWithin limit b sub_node next) (near : next ≤ b ∧ b ≤ next + 1)
    (split : data = p ++ c :: q) (visible : isBlank c = false) (here : p.length = next) (node : Node)
    {bound stop : Nat} {v : Node} (le : next + 1 ≤ bound)
    (k : next + 1 ≤ limit →
      (if c = symbol then
          (⟨.ok, { addChild node sub_node with decode_step := .end_ }, next + 1, []⟩ :
            Decoded Event Node)
        else if c = 44 then
          parseObject data fuel (addChild node sub_node) (next + 1) decode_step symbol
        else ⟨.failed, addChild node sub_node, next, []⟩).ReturnsWithin limit bound v stop) :
    (parseObject data (fuel + 1) node pos decode_step symbol).ReturnsWithin limit bound v stop := by
  rw [parseObject]
  refine reads.andThen (by omega) fun inside => ?_
  refine (skipSpace_within visible split here (by omega)).andThen (by omega) fun inside => ?_
  exact (readAt_within split here (by omega)).andThen le k

/-- Where a bracket closes, decode returns true with a node that is dropped. -/
def Closing (decode_step : DecodeStep) (symbol : UInt8) : Prop :=
  isBlank symbol = false ∧ symbol ≠ 44 ∧
    ∀ {data p q : List UInt8} {pos fuel : Nat}, data = p ++ symbol :: q → p.length = pos →
      pos ≤ limit → (decodeWith (parseObject data fuel) { decode_step := decode_step } data
        pos).ReturnsWithin limit (pos + 1) { decode_step := decode_step } pos

theorem closing_object : Closing .key 125 := by
  refine ⟨by decide, by decide, fun {data p q pos fuel} split here start => ?_⟩
  rw [decodeWith, decodeKey, if_pos rfl]
  refine (skipSpace_within (by decide) split here start).andThen (Nat.le_refl _) fun inside => ?_
  refine (readAt_within split here start).andThen (Nat.le_refl _) fun inside => ?_
  rw [if_neg (by decide), if_pos rfl]
  exact Decoded.Returns.within ⟨rfl, rfl, rfl⟩ inside

theorem startsNumber_other (data : List UInt8) (pos : Nat) {ch : UInt8} (digit : isDigit ch = false)
    (minus : ch ≠ 45) : (startsNumber data ch pos).Returns false pos := by
  rw [startsNumber, if_neg (by rw [digit]; decide), if_neg minus]
  exact ⟨rfl, rfl, rfl⟩

/-- No value begins with a closing bracket. -/
theorem decodeText_bracket {data p q : List UInt8} {pos : Nat} (split : data = p ++ 93 :: q)
    (here : p.length = pos) (start : pos ≤ limit)
    (parse_object : Node → Nat → DecodeStep → UInt8 → Decoded Event Node) :
    (decodeText { decode_step := .type } data pos (decodeValue parse_object)).ReturnsWithin limit
      (pos + 1) { decode_step := .type } pos := by
  have drop : data.drop pos = 93 :: q := by rw [split, ← here, List.drop_left]
  refine (readAt_within split here start).andThen (Nat.le_refl _) fun inside => ?_
  rw [if_neg (by decide), if_neg (by decide)]
  have other := startsNumber_other data pos (show isDigit 93 = false from rfl) (by decide)
  refine (other.within inside).andThen (Nat.le_refl _) fun _ => ?_
  rw [if_neg (by decide), if_neg (by decide), symbols, decodeSymbol, decodeSymbol, decodeSymbol,
    decodeSymbol, drop]
  exact Decoded.Returns.within ⟨rfl, rfl, rfl⟩ inside

theorem closing_array : Closing .type 93 := by
  refine ⟨by decide, by decide, fun {data p q pos fuel} split here start => ?_⟩
  rw [decodeWith, decodeKey, if_neg nofun, decodeType, if_pos rfl]
  refine (skipSpace_within (by decide) split here start).andThen (Nat.le_refl _) fun inside => ?_
  rw [decodeColon, if_pos rfl]
  refine (Decoded.Returns.within ⟨rfl, rfl, rfl⟩ inside).andThen (Nat.le_refl _) fun _ => ?_
  exact decodeText_bracket split here start _

/-- The elements between the brackets. -/
def insideText (es : List (List UInt8 × Node)) : List UInt8 := [44].intercalate (es.map (·.1))

theorem intercalate_flatMap (text : List UInt8) (texts : List (List UInt8)) :
    [44].intercalate (text :: texts) = text ++ texts.flatMap fun more => 44 :: more := by
  induction texts generalizing text with
  | nil => simp
  | cons more texts ih =>
      rw [List.intercalate_cons_cons, ih, List.flatMap_cons, List.append_assoc]
      rfl

theorem insideText_more (e : List UInt8 × Node) {es : List (List UInt8 × Node)} (some_ : es ≠ []) :
    insideText (e :: es) = e.1 ++ 44 :: insideText es := by
  rw [insideText, List.map_cons, List.intercalate_cons_of_ne_nil (by simpa using some_)]
  simp [insideText]

theorem intercalate_length (texts : List (List UInt8)) :
    ([44].intercalate texts).length = (texts.map fun text => text.length + 1).sum - 1 := by
  cases texts with
  | nil => rfl
  | cons text texts =>
      rw [intercalate_flatMap, List.length_append, List.length_flatMap, List.map_cons, List.sum_cons]
      simp only [List.length_cons]
      omega

theorem insideText_length {es : List (List UInt8 × Node)} (some_ : es ≠ []) :
    (insideText es).length + 1 = (es.map fun e => e.1.length + 1).sum := by
  have positive : 1 ≤ (es.map fun e => e.1.length + 1).sum := by
    obtain ⟨e, es, rfl⟩ := List.exists_cons_of_ne_nil some_
    rw [List.map_cons, List.sum_cons]
    omega
  have same : (es.map (·.1)).map (fun text => text.length + 1) = es.map fun e => e.1.length + 1 := by
    rw [List.map_map]
    rfl
  rw [insideText, intercalate_length, same]
  omega

theorem parseObject_elements {decode_step : DecodeStep} {symbol : UInt8}
    (close : Closing decode_step symbol) {ends : UInt8 → Prop} (ends_comma : ends 44)
    (ends_symbol : ends symbol) {es : List (List UInt8 × Node)}
    (elements : ∀ e ∈ es, Element decode_step ends e.1 e.2) {data p q : List UInt8} {pos fuel : Nat}
    (split : data = p ++ (insideText es ++ symbol :: q)) (here : p.length = pos)
    (start : pos ≤ limit) (deep : (insideText es).length < fuel) (node : Node) :
    (parseObject data fuel node pos decode_step symbol).ReturnsWithin limit
      (pos + (insideText es).length + 1)
      { es.foldl (fun node e => addChild node e.2) node with decode_step := .end_ }
      (pos + (insideText es).length + 1) := by
  obtain ⟨visible, comma, closes⟩ := close
  induction es generalizing p pos fuel node with
  | nil =>
      obtain ⟨fuel, rfl⟩ : ∃ left, fuel = left + 1 := ⟨fuel - 1, by omega⟩
      refine parseObject_round (closes split here start) ⟨Nat.le_succ _, Nat.le_refl _⟩ split
        visible here node (Nat.le_refl _) fun inside => ?_
      rw [if_pos rfl]
      exact Decoded.Returns.within ⟨rfl, rfl, rfl⟩ inside
  | cons e es ih =>
      obtain ⟨ahead, one, reads⟩ := elements e List.mem_cons_self
      obtain ⟨fuel, rfl⟩ : ∃ left, fuel = left + 1 := ⟨fuel - 1, by omega⟩
      have there : (p ++ e.1).length = pos + e.1.length := by rw [List.length_append, here]
      by_cases last : es = []
      · subst last
        have single : insideText [e] = e.1 := List.intercalate_singleton
        rw [single] at split deep ⊢
        refine parseObject_round (reads split ends_symbol here start (by omega)) (by omega)
          (split.trans (List.append_assoc _ _ _).symm) visible there node (Nat.le_refl _)
          fun inside => ?_
        rw [if_pos rfl]
        exact Decoded.Returns.within ⟨rfl, rfl, rfl⟩ inside
      · rw [insideText_more e last] at split deep ⊢
        have size : (e.1 ++ 44 :: insideText es).length =
            e.1.length + 1 + (insideText es).length := by
          rw [List.length_append, List.length_cons]
          omega
        have next : data = p ++ (e.1 ++ 44 :: (insideText es ++ symbol :: q)) := by simp [split]
        have rest : data = (p ++ e.1 ++ [44]) ++ (insideText es ++ symbol :: q) := by simp [split]
        have behind : (p ++ e.1 ++ [44]).length = pos + e.1.length + 1 := by
          rw [List.length_append, there]
          rfl
        have stop : pos + (e.1 ++ 44 :: insideText es).length =
            pos + e.1.length + 1 + (insideText es).length := by omega
        rw [stop]
        refine parseObject_round (reads next ends_comma here start (by omega)) (by omega)
          (next.trans (List.append_assoc _ _ _).symm) (by decide) there node (by omega)
          fun inside => ?_
        rw [if_neg (Ne.symm comma), if_pos rfl]
        exact ih (fun e' he => elements e' (List.mem_cons_of_mem _ he)) rest behind inside
          (by omega) (addChild node e.2)

theorem find_none {c : UInt8} {s : List UInt8} (h : c ∉ s) : HZRobot.find [c] s = none :=
  find_eq_none_iff.mpr fun inside => h ((List.singleton_infix_iff c s).mp inside)

theorem rfind_none {c : UInt8} {s : List UInt8} (h : c ∉ s) : rfind [c] s = none :=
  rfind_eq_none_iff.mpr fun inside => h ((List.singleton_infix_iff c s).mp inside)

/-- The bytes that end a number. -/
def NoNumber (c : UInt8) : Prop := isNumeric c = false

theorem Denotes.behind {symbol : UInt8} {text : List UInt8} {node : Node}
    (h : Denotes NoNumber text node) (other : NoNumber symbol) :
    Denotes (fun c => c = 44 ∨ c = symbol) text node := by
  refine h.mono fun c ends => ?_
  rcases ends with rfl | rfl
  · exact rfl
  · exact other

theorem isNumeric_of_isDigit {b : UInt8} (h : isDigit b = true) : isNumeric b = true := by
  rw [isNumeric, h]
  rfl

/-- The text begins as decode expects it of a number. -/
inductive StartsNumber : List UInt8 → Prop where
  | plain {digit : UInt8} {t : List UInt8} (h : isDigit digit = true) : StartsNumber (digit :: t)
  | negative {digit : UInt8} {t : List UInt8} (h : isDigit digit = true) :
      StartsNumber (45 :: digit :: t)

theorem StartsNumber.head {text : List UInt8} (h : StartsNumber text) :
    ∃ ch t, text = ch :: t ∧ isNumeric ch = true := by
  cases h with
  | plain digit => exact ⟨_, _, rfl, isNumeric_of_isDigit digit⟩
  | negative digit => exact ⟨_, _, rfl, by decide⟩

/-- The text of a number for decode and parse_number. -/
structure Numeral (type : NodeType) (text : List UInt8) : Prop where
  starts : StartsNumber text
  numeric : ∀ b ∈ text, isNumeric b = true
  sound : malformed text = false
  type_eq : (if HZRobot.find [46] text = none then NodeType.integer else .float) = type

section Number

variable {type : NodeType} {text data p q : List UInt8} {pos : Nat}

theorem StartsNumber.returns {ch : UInt8} {t : List UInt8} (h : StartsNumber (ch :: t))
    (split : data = p ++ (ch :: t ++ q)) (here : p.length = pos) (small : pos < limit) :
    (startsNumber data ch pos).Returns true pos := by
  cases h with
  | plain digit =>
      rw [startsNumber, if_pos digit]
      exact ⟨rfl, rfl, rfl⟩
  | @negative next rest digit =>
      have index : (toInt32 pos + 1).toNat = (p ++ [45]).length := by
        rw [toInt32_small small, List.length_append, List.length_singleton, here]
        omega
      have behind : data = (p ++ [45]) ++ (next :: rest ++ q) := by simp [split]
      have found : at_ data (toInt32 pos + 1) = some next := by
        rw [at_, if_pos (by rw [toInt32_small small]; omega), index, behind,
          List.getElem?_append_right (Nat.le_refl _), Nat.sub_self]
        rfl
      rw [startsNumber, if_neg (by decide), if_pos rfl, read, found]
      exact ⟨rfl, digit, rfl⟩

theorem Numeral.parseNumber_within (h : Numeral type text) {c : UInt8}
    (split : data = p ++ (text ++ c :: q)) (ends : NoNumber c) (here : p.length = pos)
    (start : pos + 1 ≤ limit) (node : Node) :
    (parseNumber node data pos).ReturnsWithin limit (pos + text.length + 1)
      { node with value := text, type := type } (pos + text.length) := by
  obtain ⟨ch, t, head, -⟩ := h.starts.head
  have all : ∀ b ∈ t, isNumeric b = true := fun b hb =>
    h.numeric b (head ▸ List.mem_cons_of_mem _ hb)
  have size : text.length = t.length + 1 := by rw [head]; rfl
  have behind : data = (p ++ [ch]) ++ (t ++ c :: q) := by simp [split, head]
  have there : (p ++ [ch]).length = pos + 1 := by rw [List.length_append, here]; rfl
  have stop : pos + text.length = pos + 1 + t.length := by omega
  have value : slice data pos (pos + 1 + t.length) = text := by
    rw [← stop]
    exact slice_eq split here
  rw [parseNumber, stop]
  refine (scan_within ends all behind there start).andThen (Nat.le_refl _) fun inside => ?_
  dsimp only
  rw [value, h.sound, h.type_eq]
  exact Decoded.Returns.within ⟨rfl, rfl, rfl⟩ inside

theorem Numeral.decodeText_within (h : Numeral type text) {c : UInt8}
    (split : data = p ++ (text ++ c :: q)) (ends : NoNumber c) (here : p.length = pos)
    (start : pos ≤ limit) (node : Node) (next : Node → Nat → Decoded Event Node) :
    (decodeText node data pos next).ReturnsWithin limit (pos + text.length + 1)
      { node with value := text, type := type } (pos + text.length) := by
  obtain ⟨ch, t, head, numeric⟩ := h.starts.head
  have brackets : ch ≠ 123 ∧ ch ≠ 91 := by
    constructor
    · rintro rfl
      cases numeric
    · rintro rfl
      cases numeric
  have size : text.length = t.length + 1 := by rw [head]; rfl
  have first : data = p ++ ch :: (t ++ c :: q) := by rw [split, head]; rfl
  refine (readAt_within first here start).andThen (by omega) fun inside => ?_
  have starts := (head ▸ h.starts : StartsNumber (ch :: t)).returns first here inside
  rw [if_neg brackets.1, if_neg brackets.2]
  refine (starts.within inside).andThen (by omega) fun _ => ?_
  exact h.parseNumber_within split ends here inside _

theorem Numeral.denotes (h : Numeral type text) :
    Denotes NoNumber text { decode_step := .type, type := type, value := text } := by
  obtain ⟨ch, t, head, numeric⟩ := h.starts.head
  have visible : isBlank ch = false := by
    refine Bool.eq_false_iff.mpr fun blank => ?_
    simp only [isBlank, Bool.or_eq_true, decide_eq_true_eq] at blank
    rcases blank with ((rfl | rfl) | rfl) | rfl <;> cases numeric
  refine ⟨⟨ch, t, head, visible⟩, rfl, 1, Nat.le_refl 1, ?_⟩
  intro data p q c pos fuel split next here start deep key
  exact h.decodeText_within split next here start _ _

end Number

/-- A text as %d prints it. -/
inductive Integer : List UInt8 → Prop where
  | plain {digit : UInt8} {digits : List UInt8} (all : ∀ b ∈ digit :: digits, isDigit b = true) :
      Integer (digit :: digits)
  | negative {digit : UInt8} {digits : List UInt8}
      (all : ∀ b ∈ digit :: digits, isDigit b = true) : Integer (45 :: digit :: digits)

theorem isDigit_ne {b c : UInt8} (h : isDigit b = true) (other : isDigit c = false) : b ≠ c := by
  rintro rfl
  rw [h] at other
  cases other

namespace Integer

variable {text : List UInt8}

theorem not_mem (h : Integer text) {c : UInt8} (other : isDigit c = false) (minus : c ≠ 45) :
    c ∉ text := by
  intro inside
  cases h with
  | plain all => exact isDigit_ne (all c inside) other rfl
  | negative all =>
      rcases List.mem_cons.mp inside with sign | digit
      · exact minus sign
      · exact isDigit_ne (all c digit) other rfl

theorem not_malformed (h : Integer text) : malformed text = false := by
  have dot : 46 ∉ text := h.not_mem (by decide) (by decide)
  have minus : HZRobot.find [45] text = some 0 ∨ HZRobot.find [45] text = none := by
    cases h with
    | plain all => exact .inr (find_none fun inside => isDigit_ne (all 45 inside) (by decide) rfl)
    | negative all => exact .inl (@find_single _ _ 45 [] List.not_mem_nil _)
  have last : text.getLast? ≠ some 46 := fun same => dot (List.mem_of_getLast? same)
  have front : [45, 46].isPrefixOf text = false := by
    refine Bool.eq_false_iff.mpr fun inside => dot ?_
    exact (List.isPrefixOf_iff_prefix.mp inside).subset (by decide)
  rw [malformed, find_none dot, rfind_none dot, front]
  rcases minus with zero | none_
  · simp [zero, last]
  · simp [none_, last]

theorem numeric (h : Integer text) : ∀ b ∈ text, isNumeric b = true := by
  cases h with
  | plain all => exact fun b hb => isNumeric_of_isDigit (all b hb)
  | negative all =>
      intro b hb
      rcases List.mem_cons.mp hb with rfl | digit
      · rfl
      · exact isNumeric_of_isDigit (all b digit)

theorem starts (h : Integer text) : StartsNumber text := by
  cases h with
  | plain all => exact .plain (all _ List.mem_cons_self)
  | negative all => exact .negative (all _ List.mem_cons_self)

theorem numeral (h : Integer text) : Numeral .integer text where
  starts := h.starts
  numeric := h.numeric
  sound := h.not_malformed
  type_eq := if_pos (find_none (h.not_mem (by decide) (by decide)))

end Integer

/-- What an array takes up. -/
def solid (node : Node) : Bool :=
  node.value ≠ [] ∨ 0 < node.kv_childs.length ∨ 0 < node.array_childs.length

def arrayText (es : List (List UInt8 × Node)) : List UInt8 := 91 :: (insideText es ++ [93])

def arrayNode (nodes : List Node) : Node where
  decode_step := .end_
  type := .array
  array_childs := nodes.filter solid

theorem foldl_addChild_array {nodes : List Node} (keyless : ∀ sub_node ∈ nodes, sub_node.key = [])
    (node : Node) :
    nodes.foldl addChild node =
      { node with array_childs := node.array_childs ++ nodes.filter solid } := by
  induction nodes generalizing node with
  | nil =>
      cases node
      simp
  | cons sub_node nodes ih =>
      rw [List.foldl_cons, ih fun e' he => keyless e' (List.mem_cons_of_mem _ he), addChild,
        if_pos (keyless sub_node List.mem_cons_self), List.filter_cons]
      by_cases keeps : solid sub_node = true
      · have keeps' := of_decide_eq_true keeps
        rw [if_pos keeps, if_pos keeps']
        simp
      · have drops : ¬ _ := fun keeps' => keeps (decide_eq_true keeps')
        rw [if_neg keeps, if_neg drops]

/-- parse_object behind an opening bracket, to the closing one. -/
theorem parseObject_between {decode_step : DecodeStep} {opening symbol : UInt8}
    (close : Closing decode_step symbol) {ends : UInt8 → Prop} (ends_comma : ends 44)
    (ends_symbol : ends symbol) {es : List (List UInt8 × Node)}
    (elements : ∀ e ∈ es, Element decode_step ends e.1 e.2) {text data p q : List UInt8}
    {pos fuel : Nat} (between : text = opening :: (insideText es ++ [symbol]))
    (split : data = p ++ (text ++ q)) (here : p.length = pos) (start : pos + 1 ≤ limit)
    (deep : text.length ≤ fuel) (node : Node) :
    (parseObject data fuel node (pos + 1) decode_step symbol).ReturnsWithin limit
      (pos + text.length)
      { es.foldl (fun node e => addChild node e.2) node with decode_step := .end_ }
      (pos + text.length) := by
  have inner : data = (p ++ [opening]) ++ (insideText es ++ symbol :: q) := by
    simp [split, between]
  have there : (p ++ [opening]).length = pos + 1 := by rw [List.length_append, here]; rfl
  have size : text.length = (insideText es).length + 2 := by simp [between]
  have stop : pos + text.length = pos + 1 + (insideText es).length + 1 := by omega
  have inner_deep : (insideText es).length < fuel := by omega
  rw [stop]
  exact parseObject_elements close ends_comma ends_symbol elements inner there start inner_deep node

theorem closed_array {ends : UInt8 → Prop} (ends_comma : ends 44) (ends_bracket : ends 93)
    {es : List (List UInt8 × Node)} (all : ∀ e ∈ es, Denotes ends e.1 e.2) :
    Closed (arrayText es) (arrayNode (es.map (·.2))) := by
  refine ⟨⟨91, _, rfl, by decide⟩, rfl, ?_⟩
  intro data p q pos fuel split here start deep key
  have some_ : 1 ≤ (arrayText es).length := by simp [arrayText]
  rw [decodeText]
  refine (readAt_within split here start).andThen (by omega) fun inside => ?_
  rw [if_neg (by decide), if_pos rfl]
  have elements := parseObject_between closing_array ends_comma ends_bracket
    (fun e he => (all e he).element) rfl split here inside deep
    { decode_step := .value, type := .array, key := key }
  rw [← List.foldl_map, foldl_addChild_array fun node inside => ?_] at elements
  · exact elements
  · obtain ⟨e, he, rfl⟩ := List.mem_map.mp inside
    exact (all e he).keyless

/-- A member of an object text. -/
structure Member where
  key : List UInt8
  text : List UInt8
  node : Node

def Member.element (m : Member) : List UInt8 × Node :=
  (memberText m.key m.text, { m.node with key := m.key })

/-- The entry that a member becomes. -/
def Member.child (m : Member) : List UInt8 × Node := (m.key, { m.node with key := m.key })

def objectText (ms : List Member) : List UInt8 := 123 :: (insideText (ms.map Member.element) ++ [125])

def objectNode (ms : List Member) : Node where
  decode_step := .end_
  type := .object
  kv_childs := ms.foldl (fun childs m => OrderedMap.emplace before m.key m.child.2 childs) []

/-- A key that needs no escape is not empty and has no quote. -/
structure Member.Valid (m : Member) : Prop where
  some_ : m.key ≠ []
  plain : 34 ∉ m.key
  denotes : Denotes (fun c => c = 44 ∨ c = 125) m.text m.node

theorem foldl_addChild_named {nodes : List Node} (some_ : ∀ sub_node ∈ nodes, sub_node.key ≠ [])
    (node : Node) :
    nodes.foldl addChild node =
      { node with
        kv_childs := nodes.foldl (fun childs sub_node =>
          OrderedMap.emplace before sub_node.key sub_node childs) node.kv_childs } := by
  induction nodes generalizing node with
  | nil =>
      cases node
      rfl
  | cons sub_node nodes ih =>
      rw [List.foldl_cons, ih fun node inside => some_ node (List.mem_cons_of_mem _ inside), addChild,
        if_neg (some_ sub_node List.mem_cons_self)]
      rfl

theorem foldl_addChild_object {ms : List Member} (some_ : ∀ m ∈ ms, m.key ≠ []) (node : Node) :
    (ms.map Member.element).foldl (fun node e => addChild node e.2) node =
      { node with
        kv_childs := ms.foldl (fun childs m => OrderedMap.emplace before m.key m.child.2 childs)
          node.kv_childs } := by
  have named : ∀ sub_node ∈ ms.map fun m => m.element.2, sub_node.key ≠ [] := by
    intro sub_node inside
    obtain ⟨m, hm, rfl⟩ := List.mem_map.mp inside
    exact some_ m hm
  have all := foldl_addChild_named named node
  rw [List.foldl_map, List.foldl_map] at all
  rw [List.foldl_map]
  exact all

theorem closed_object {ms : List Member} (all : ∀ m ∈ ms, m.Valid) :
    Closed (objectText ms) (objectNode ms) := by
  refine ⟨⟨123, _, rfl, by decide⟩, rfl, ?_⟩
  intro data p q pos fuel split here start deep key
  have some_ : 1 ≤ (objectText ms).length := by simp [objectText]
  have valid : ∀ e ∈ ms.map Member.element,
      Element .key (fun c => c = 44 ∨ c = 125) e.1 e.2 := by
    intro e he
    obtain ⟨m, hm, rfl⟩ := List.mem_map.mp he
    exact (all m hm).denotes.member (all m hm).some_ (all m hm).plain
  rw [decodeText]
  refine (readAt_within split here start).andThen (by omega) fun inside => ?_
  rw [if_pos rfl]
  have elements := parseObject_between closing_object (.inl rfl) (.inr rfl) valid rfl split here inside deep
    { decode_step := .value, type := .object, key := key }
  rw [foldl_addChild_object fun m hm => (all m hm).some_] at elements
  exact elements

/-- Members in the order of their keys stay in this order. -/
theorem kv_childs_sorted {ms : List Member}
    (sorted : (ms.map Member.child).Pairwise fun a b => before a.1 b.1 = true) :
    (objectNode ms).kv_childs = ms.map Member.child := by
  have asymm : ∀ a b, before a b = true → before b a = false := StdMap.less_asymm
  have all := OrderedMap.foldl_emplace_sorted asymm [] (ms.map Member.child) sorted
  rw [List.foldl_map] at all
  exact all

/-- A closed text is read to its end, if no position of it is negative as an int32. -/
theorem Closed.jsonDecode_within {text : List UInt8} {node : Node} (h : Closed text node) :
    (jsonDecode text).ReturnsWithin limit text.length node text.length := by
  obtain ⟨first, t, head, visible⟩ := h.first
  have split : text = [] ++ (text ++ []) := by simp
  have here : text = [] ++ first :: t := head
  have size : text.length = t.length + 1 := by
    rw [head]
    rfl
  have reads := h.reads split rfl (Nat.zero_le _) (Nat.le_succ _) []
  rw [keyless_eq h.keyless, List.length_nil, Nat.zero_add] at reads
  have space : (skipSpace text 0).ReturnsWithin limit 1 () 0 :=
    skipSpace_within visible here rfl (Nat.zero_le _)
  rw [jsonDecode, decode, decodeWith, decodeKey, if_neg nofun, decodeType, if_pos rfl]
  refine space.andThen (by omega) fun inside => ?_
  rw [decodeColon, if_pos rfl]
  exact (Decoded.Returns.within ⟨rfl, rfl, rfl⟩ inside).andThen (by omega) fun _ => reads

end HZRobot.Json
