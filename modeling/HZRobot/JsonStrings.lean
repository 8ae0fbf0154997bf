import HZRobot.JsonEncode

/-!
String literals. The printer escapes quotes, backslashes and five control characters, and
the parser looks for a quote without a backslash before it and stores what lies between;
nothing undoes the escapes. A string comes back when it needs none.
-/

namespace HZRobot.Json

section Printing

/-- The text is printed, or it is too long for an access through int32. -/
def Yields (out : Option (List UInt8)) (text : List UInt8) : Prop :=
  out = some text ∨ out = none ∧ limit < text.length

theorem Yields.eq_some {out : Option (List UInt8)} {text : List UInt8} (h : Yields out text)
    (small : text.length ≤ limit) : out = some text :=
  h.resolve_right fun long => absurd small (Nat.not_le_of_lt long.2)

theorem Yields.eq_of_some {out : Option (List UInt8)} {text t : List UInt8} (h : Yields out text)
    (some_ : out = some t) : t = text := by
  rcases h with done | ⟨none_, -⟩
  · exact Option.some.inj (some_.symm.trans done)
  · rw [none_] at some_
    cases some_

theorem Yields.bind {out : Option (List UInt8)} {text text' : List UInt8}
    {next : List UInt8 → Option (List UInt8)} (h : Yields out text)
    (le : text.length ≤ text'.length) (k : Yields (next text) text') :
    Yields (out.bind next) text' := by
  rcases h with rfl | ⟨rfl, long⟩
  · exact k
  · exact .inr ⟨rfl, by omega⟩

theorem encodeFrom_yields {in_ p t : List UInt8} {i : Nat} (split : in_ = p ++ t)
    (here : p.length = i) (start : i ≤ limit) :
    (encodeFrom in_ t.length i = some (encodeString t)) ∨
      encodeFrom in_ t.length i = none ∧ limit < i + t.length := by
  induction t generalizing p i with
  | nil => exact .inl rfl
  | cons c t ih =>
      have rest : in_ = (p ++ [c]) ++ t := by simp [split]
      have behind : (p ++ [c]).length = i + 1 := by rw [List.length_append, here]; rfl
      by_cases inside : i < limit
      · have found : at_ in_ (toInt32 i) = some c := by
          rw [toInt32_small inside, at_, if_pos (Int.natCast_nonneg _), split, ← here]
          simp
        rw [List.length_cons, encodeFrom, found]
        rcases ih rest behind inside with done | ⟨none_, long⟩
        · rw [done]
          exact .inl rfl
        · rw [none_]
          exact .inr ⟨rfl, by omega⟩
      · have last : i = limit := by omega
        have none_ : at_ in_ (toInt32 i) = none := by
          rw [last, at_, if_neg (by decide)]
        rw [List.length_cons, encodeFrom, none_]
        exact .inr ⟨rfl, by omega⟩

/-- A string that is printed as it is. -/
def PlainString (s : List UInt8) : Prop := ∀ c ∈ s, c ∉ [34, 92, 8, 12, 9, 10, 13]

theorem PlainString.escape_eq {s : List UInt8} (h : PlainString s) {c : UInt8} (inside : c ∈ s) :
    escape c = [c] := by
  have other := h c inside
  simp only [List.mem_cons, List.not_mem_nil, or_false, not_or] at other
  obtain ⟨quote, backslash, b, f, t, n, r⟩ := other
  rw [escape, if_neg backslash, if_neg quote, if_neg b, if_neg f, if_neg t, if_neg n, if_neg r]

theorem PlainString.encodeChars {s : List UInt8} (h : PlainString s) : Yields (encodeChars s) s := by
  have same : encodeString s = s := encodeString_eq_self fun c hc => h.escape_eq hc
  have loop := @encodeFrom_yields s [] s 0 rfl rfl (Nat.zero_le _)
  rwa [same, Nat.zero_add] at loop

/-- The characters that are printed with a backslash. -/
def escaped : List UInt8 := [34, 92, 8, 12, 9, 10, 13]

theorem escape_length (c : UInt8) :
    (escape c).length = if c ∈ escaped then 2 else 1 := by
  unfold escape escaped
  repeat' split
  all_goals simp_all

theorem encodeString_length (s : List UInt8) :
    (encodeString s).length = s.length + s.countP fun c => c ∈ escaped := by
  induction s with
  | nil => rfl
  | cons c s ih =>
      have more : encodeString (c :: s) = escape c ++ encodeString s := List.flatMap_cons
      rw [more, List.length_append, escape_length, ih, List.countP_cons, List.length_cons]
      split
      · case isTrue listed =>
          rw [if_pos (decide_eq_true listed)]
          omega
      · case isFalse other =>
          rw [if_neg (by simpa using other)]
          omega

/-- Only a plain string is printed as it is. -/
theorem encodeString_eq_self_iff {s : List UInt8} : encodeString s = s ↔ PlainString s := by
  constructor
  · intro same c hc listed
    have size := encodeString_length s
    rw [same] at size
    have none_ : s.countP (fun c => c ∈ escaped) = 0 := by omega
    have all := List.countP_eq_zero.mp none_ c hc
    exact all (decide_eq_true listed)
  · exact fun h => encodeString_eq_self fun c hc => h.escape_eq hc

theorem encodeChars_cases (s : List UInt8) :
    encodeChars s = some (encodeString s) ∨ encodeChars s = none ∧ limit < s.length := by
  have loop := @encodeFrom_yields s [] s 0 rfl rfl (Nat.zero_le _)
  rwa [Nat.zero_add] at loop

end Printing

section Literals

/-- A plain string in quotes is read no further than the closing one. -/
theorem parseString_within {s data p q : List UInt8} {pos : Nat} (plain : PlainString s)
    (split : data = p ++ (34 :: (s ++ [34]) ++ q)) (here : p.length = pos) (start : pos ≤ limit)
    (node : Node) :
    (parseString node data pos).ReturnsWithin limit (pos + 1 + s.length + 1)
      { node with value := s, type := .string, decode_step := .end_ } (pos + 1 + s.length + 1) := by
  have quote : 34 ∉ s := fun inside => plain 34 inside (by decide)
  have opening : data = p ++ 34 :: (s ++ [34] ++ q) := split
  have inner : data = (p ++ [34]) ++ (s ++ 34 :: q) := by simp [split]
  have there : (p ++ [34]).length = pos + 1 := by rw [List.length_append, here]; rfl
  -- the byte before the closing quote is in the string or the opening quote
  obtain ⟨front, b, last⟩ : ∃ front b, 34 :: s = front ++ [b] :=
    ⟨_, _, (List.dropLast_append_getLast (List.cons_ne_nil 34 s)).symm⟩
  have other : b ≠ 92 := by
    rintro rfl
    have inside : (92 : UInt8) ∈ 34 :: s := by simp [last]
    rcases List.mem_cons.mp inside with same | inside
    · cases same
    · exact plain 92 inside (by decide)
  have frontLength : front.length = s.length := by
    have both := congrArg List.length last
    simpa using both.symm
  have before_ : data = (p ++ front) ++ b :: 34 :: q := by
    have : data = p ++ ((34 :: s) ++ 34 :: q) := by simp [split]
    rw [this, last]
    simp
  rw [parseString]
  refine (readAt_within opening here start).andThen (by omega) fun inside => ?_
  refine Decoded.ReturnsWithin.andThen (a := ()) (b := pos + 1 + s.length + 1)
    (p := pos + 1 + s.length) ?_ (by omega) fun far => ?_
  · rw [findClosing]
    refine (find_within quote inner there inside).andThen (by omega) fun far => ?_
    have near : (p ++ front).length + 1 = pos + 1 + s.length := by
      rw [List.length_append, here]
      omega
    rw [read_before before_ near far]
    refine (Decoded.Returns.within ⟨rfl, rfl, rfl⟩ far).andThen (Nat.le_refl _) fun _ => ?_
    rw [if_pos other]
    exact Decoded.Returns.within ⟨rfl, rfl, rfl⟩ far
  · rw [slice_eq inner there]
    exact Decoded.Returns.within ⟨rfl, rfl, rfl⟩ far

theorem decodeText_string_within {s data p q : List UInt8} {pos : Nat} (plain : PlainString s)
    (split : data = p ++ (34 :: (s ++ [34]) ++ q)) (here : p.length = pos) (start : pos ≤ limit)
    (node : Node) (next : Node → Nat → Decoded Event Node) :
    (decodeText node data pos next).ReturnsWithin limit (pos + 1 + s.length + 1)
      { node with value := s, type := .string, decode_step := .end_ } (pos + 1 + s.length + 1) := by
  have opening : data = p ++ 34 :: (s ++ [34] ++ q) := split
  rw [decodeText]
  refine (readAt_within opening here start).andThen (by omega) fun inside => ?_
  rw [if_neg (by decide), if_neg (by decide)]
  have noNumber := startsNumber_other data pos (show isDigit 34 = false from rfl) (by decide)
  refine (noNumber.within inside).andThen (by omega) fun inside => ?_
  rw [if_neg (by decide), if_pos (.inl rfl)]
  exact parseString_within plain split here start _

theorem closed_string {s : List UInt8} (plain : PlainString s) :
    Closed (34 :: (s ++ [34])) { decode_step := .end_, type := .string, value := s } := by
  refine ⟨⟨34, _, rfl, by decide⟩, rfl, ?_⟩
  intro data p q pos fuel split here start deep key
  have size : (34 :: (s ++ [34])).length = s.length + 2 := by simp
  have stop : pos + (34 :: (s ++ [34])).length = pos + 1 + s.length + 1 := by omega
  rw [stop]
  exact decodeText_string_within plain split here start _ _

/-- What parse_string stores lies between where it starts and where it stops. -/
theorem parseString_slice {node : Node} {data : List UInt8} {pos : Nat}
    (ok : (parseString node data pos).status = .ok) :
    (parseString node data pos).value.value =
      slice data (pos + 1) ((parseString node data pos).pos - 1) := by
  rw [parseString] at ok ⊢
  obtain ⟨-, first⟩ := Decoded.andThen_ok ok
  rw [first] at ok ⊢
  obtain ⟨-, second⟩ := Decoded.andThen_ok ok
  rw [second]
  rfl

/-- The literal of the string is printed, read to its closing quote, and gives the string. -/
def LiteralSurvives (v rest : List UInt8) (node : Node) : Prop :=
  ∃ text, encodeChars v = some text ∧
    let parsed := parseString node (34 :: (text ++ [34]) ++ rest) 0
    parsed.status = .ok ∧ parsed.pos = text.length + 2 ∧ parsed.value.value = v

theorem literal_survives_iff (v rest : List UInt8) (node : Node) :
    LiteralSurvives v rest node ↔ PlainString v ∧ v.length + 2 ≤ 2 ^ 31 := by
  have front : 34 :: (v ++ [34]) ++ rest = [] ++ (34 :: (v ++ [34]) ++ rest) := rfl
  have reads (plain : PlainString v) :=
    parseString_within plain front List.length_nil (Nat.zero_le limit) node
  constructor
  · rintro ⟨text, printed, ok, pos, value⟩
    have text_ : text = encodeString v := by
      rcases encodeChars_cases v with done | ⟨none_, -⟩
      · exact Option.some.inj (printed.symm.trans done)
      · rw [none_] at printed
        cases printed
    have same : text = v := by
      have split : 34 :: (text ++ [34]) ++ rest = [34] ++ (text ++ 34 :: rest) := by simp
      have inside := slice_eq split rfl
      rw [parseString_slice ok, pos] at value
      have stop : text.length + 2 - 1 = 1 + text.length := by omega
      rw [stop] at value
      exact inside.symm.trans value
    have plain : PlainString v := encodeString_eq_self_iff.mp (text_.symm.trans same)
    refine ⟨plain, ?_⟩
    by_contra long
    rw [same] at ok
    exact (reads plain).2 (by unfold limit; simp; omega) ok
  · rintro ⟨plain, small⟩
    obtain ⟨ok, value, pos⟩ := (reads plain).1 (by unfold limit; simp; omega)
    refine ⟨v, plain.encodeChars.eq_some (by unfold limit; omega), ok, ?_, congrArg Node.value value⟩
    rw [pos]
    omega

/-- A quote is stored with its backslash. -/
theorem quote_changed : ¬ ∀ v rest node, LiteralSurvives v rest node := by
  intro all
  obtain ⟨text, printed, -, -, value⟩ := all [34] [] { decode_step := .type }
  have escaped_ : text = [92, 34] := Option.some.inj (printed.symm.trans (by decide))
  rw [escaped_] at value
  exact absurd value (by decide)

end Literals

end HZRobot.Json
