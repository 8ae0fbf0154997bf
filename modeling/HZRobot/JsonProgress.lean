import HZRobot.Json

/-!
The parser ends. The cursor never goes back, a nested call of parse_object stands behind
the bracket it was opened with and every round behind a comma, so that the bound on the
recursion is not reached. Where a call returns false the cursor is in the text, too.
-/

namespace HZRobot.Json

section Advances

variable {α β : Type}

/-- The cursor is not before pos, the bound is not reached, and the cursor of a call that
returns true satisfies the condition. -/
structure Advances (pos : Nat) (x : Decoded Event α) (ends : Nat → Prop) : Prop where
  forward : pos ≤ x.pos
  finished : .unfinished ∉ x.log
  ends : x.status = .ok → ends x.pos

/-- The cursor of a call that returns false is not behind the limit. -/
structure Confined (limit pos : Nat) (x : Decoded Event α) (ends : Nat → Prop) : Prop
    extends Advances pos x ends where
  failed : x.status = .failed → x.pos ≤ limit

variable {limit pos : Nat} {ends ends' : Nat → Prop}

theorem Confined.mono {pos' : Nat} {x : Decoded Event α} (h : Confined limit pos' x ends)
    (le : pos ≤ pos') (weaker : ∀ p, pos' ≤ p → ends p → ends' p) : Confined limit pos x ends' where
  forward := le.trans h.forward
  finished := h.finished
  ends ok := weaker _ h.forward (h.ends ok)
  failed := h.failed

theorem Confined.andThen {x : Decoded Event α} {stop : α → β} {next : α → Nat → Decoded Event β}
    (h : Confined limit pos x ends)
    (k : ∀ a p, pos ≤ p → ends p → Confined limit p (next a p) ends') :
    Confined limit pos (x.andThen stop next) ends' := by
  unfold Decoded.andThen
  split
  · case isTrue ok =>
      have rest := k x.value x.pos h.forward (h.ends ok)
      refine ⟨⟨h.forward.trans rest.forward, fun inside => ?_, rest.ends⟩, rest.failed⟩
      rcases List.mem_append.mp inside with here | later
      · exact h.finished here
      · exact rest.finished later
  · case isFalse stopped =>
      exact ⟨⟨h.forward, h.finished, fun ok => absurd ok stopped⟩, h.failed⟩

theorem Confined.map {x : Decoded Event α} (h : Confined limit pos x ends) (f : α → β) :
    Confined limit pos (x.map f) ends :=
  ⟨⟨h.forward, h.finished, h.ends⟩, h.failed⟩

theorem Confined.after {n m : Nat} {x : Decoded Event α} (h : Confined limit pos x ends) :
    Confined limit pos (x.after [.peek n m]) ends := by
  refine ⟨⟨h.forward, fun inside => ?_, h.ends⟩, h.failed⟩
  rcases List.mem_cons.mp inside with peek | later
  · cases peek
  · exact h.finished later

theorem confined_ok {next : Nat} (le : pos ≤ next) (value : α) (h : ends next) :
    Confined limit pos (⟨.ok, value, next, []⟩ : Decoded Event α) ends :=
  ⟨⟨le, List.not_mem_nil, fun _ => h⟩, fun failed => by cases failed⟩

theorem confined_failed {next : Nat} (le : pos ≤ next) (value : α) (inside : next ≤ limit) :
    Confined limit pos (⟨.failed, value, next, []⟩ : Decoded Event α) ends :=
  ⟨⟨le, List.not_mem_nil, fun ok => by cases ok⟩, fun _ => inside⟩

/-- Whether it returns true or false, the cursor is between pos and the limit. -/
theorem Confined.returned {x : Decoded Event α} (h : Confined limit pos x (· ≤ limit))
    (returns : x.status ≠ .threw) : pos ≤ x.pos ∧ x.pos ≤ limit := by
  refine ⟨h.forward, ?_⟩
  cases status : x.status with
  | ok => exact h.ends status
  | failed => exact h.failed status
  | threw => exact absurd status returns

end Advances

variable {data : List UInt8}

theorem read_confined (i : Int) (pos : Nat) :
    Confined data.length pos (read data i pos) (· = pos) := by
  unfold read
  split
  · exact confined_ok (Nat.le_refl _) _ rfl
  · exact ⟨⟨Nat.le_refl _, List.not_mem_nil, fun ok => by cases ok⟩, fun failed => by cases failed⟩

theorem scan_confined (skips : UInt8 → Bool) (left pos : Nat) (inside : pos + left ≤ data.length) :
    Confined data.length pos (scan skips data left pos) (· < pos + left) := by
  induction left generalizing pos with
  | zero => exact confined_failed (Nat.le_refl _) _ inside
  | succ left ih =>
      refine (read_confined _ pos).andThen fun c p _ same => ?_
      split
      · refine (ih (p + 1) (by omega)).mono (Nat.le_succ p) fun q _ less => ?_
        omega
      · exact confined_ok (Nat.le_refl _) _ (by omega)

/-- A loop that returns true stops inside the text. -/
theorem loop_confined (skips : UInt8 → Bool) {pos : Nat} (inside : pos ≤ data.length) :
    Confined data.length pos (scan skips data (data.length - pos) pos) (· < data.length) :=
  (scan_confined skips _ pos (by omega)).mono (Nat.le_refl _) fun _ _ less => by omega

theorem skipSpace_confined {pos : Nat} (inside : pos ≤ data.length) :
    Confined data.length pos (skipSpace data pos) (· < data.length) :=
  loop_confined isBlank inside

theorem find_confined (ch : UInt8) {pos : Nat} (inside : pos ≤ data.length) :
    Confined data.length pos (find ch data pos) (· < data.length) :=
  loop_confined _ inside

theorem parseNumber_confined (node : Node) {pos : Nat} (inside : pos < data.length) :
    Confined data.length pos (parseNumber node data pos) (· < data.length) := by
  refine ((loop_confined isNumeric inside).mono (Nat.le_succ pos) fun _ _ less => less).andThen
    fun _ p _ less => ?_
  dsimp only
  split
  · exact confined_failed (Nat.le_refl _) _ (Nat.le_of_lt less)
  · exact confined_ok (Nat.le_refl _) _ less

theorem findClosing_confined (ch : UInt8) (fuel : Nat) {pos : Nat} (inside : pos ≤ data.length)
    (enough : data.length < pos + fuel) :
    Confined data.length pos (findClosing ch data fuel pos) (· < data.length) := by
  induction fuel generalizing pos with
  | zero => exact absurd enough (Nat.not_lt_of_le inside)
  | succ fuel ih =>
      refine (find_confined ch inside).andThen fun _ p le less => ?_
      refine (read_confined _ p).andThen fun c q _ same => ?_
      subst same
      split
      · exact confined_ok (Nat.le_refl _) _ less
      · exact (ih (by omega) (by omega)).mono (Nat.le_succ _) fun _ _ less => less

theorem parseString_confined (node : Node) {pos : Nat} (inside : pos < data.length) :
    Confined data.length pos (parseString node data pos) (· ≤ data.length) := by
  refine (read_confined _ pos).andThen fun ch p _ same => ?_
  subst same
  have closing : Confined data.length (p + 1) (findClosing ch data (data.length + 1) (p + 1))
      (· < data.length) := findClosing_confined ch _ inside (by omega)
  refine (closing.mono (Nat.le_succ p) fun _ _ less => less).andThen fun _ q _ less => ?_
  exact confined_ok (Nat.le_succ q) _ less

theorem parseSymbol_confined (node : Node) (type : NodeType) (symbol : List UInt8) {pos : Nat}
    (inside : pos + symbol.length ≤ data.length) :
    Confined data.length pos (parseSymbol node data pos type symbol) (· < data.length) := by
  refine ((skipSpace_confined inside).mono (Nat.le_add_right _ _) fun _ _ less => less).andThen
    fun _ p _ less => ?_
  refine (read_confined _ p).andThen fun c q _ same => ?_
  subst same
  split
  · exact confined_failed (Nat.le_refl _) _ (Nat.le_of_lt less)
  · exact confined_ok (Nat.le_refl _) _ less

theorem startsNumber_confined (ch : UInt8) (pos : Nat) :
    Confined data.length pos (startsNumber data ch pos) (· = pos) := by
  unfold startsNumber
  split
  · exact confined_ok (Nat.le_refl _) _ rfl
  split
  · exact (read_confined _ pos).map isDigit
  · exact confined_ok (Nat.le_refl _) _ rfl

/-- A symbol that matches lies in the text. -/
theorem symbol_inside {symbol : List UInt8} {pos : Nat} (inside : pos ≤ data.length)
    (h : symbol.isPrefixOf (data.drop pos) = true) : pos + symbol.length ≤ data.length := by
  have le := (List.isPrefixOf_iff_prefix.mp h).length_le
  rw [List.length_drop] at le
  omega

theorem decodeSymbol_confined (node : Node) {pos : Nat} {next : Node → Nat → Decoded Event Node}
    (inside : pos ≤ data.length)
    (other : Confined data.length pos (next node pos) (· ≤ data.length))
    (l : List (NodeType × List UInt8)) :
    Confined data.length pos (decodeSymbol node data pos next l) (· ≤ data.length) := by
  induction l with
  | nil => exact other
  | cons first l ih =>
      obtain ⟨type, symbol⟩ := first
      rw [decodeSymbol]
      apply Confined.after
      split
      · case isTrue found =>
          exact (parseSymbol_confined node type symbol (symbol_inside inside found)).mono
            (Nat.le_refl _) fun _ _ => Nat.le_of_lt
      · exact ih

theorem decodeColon_confined (node : Node) {pos : Nat} (inside : pos < data.length) :
    Confined data.length pos (decodeColon node data pos) (· < data.length) := by
  unfold decodeColon
  split
  · exact confined_ok (Nat.le_refl _) _ inside
  · refine (read_confined _ pos).andThen fun c p _ same => ?_
    subst same
    split
    · exact (skipSpace_confined inside).mono (Nat.le_succ p) fun _ _ less => less
    · exact confined_failed (Nat.le_succ p) _ inside

section Nested

/-- parse_object as decode may call it from a position on. -/
def Nested (data : List UInt8) (pos : Nat)
    (parse : Node → Nat → DecodeStep → UInt8 → Decoded Event Node) : Prop :=
  ∀ node p step symbol, pos < p → p ≤ data.length → step ≠ .value →
    Confined data.length p (parse node p step symbol) (· ≤ data.length)

variable {parse : Node → Nat → DecodeStep → UInt8 → Decoded Event Node}

theorem Nested.mono {pos pos' : Nat} (h : Nested data pos parse) (le : pos ≤ pos') :
    Nested data pos' parse :=
  fun node p step symbol behind => h node p step symbol (Nat.lt_of_le_of_lt le behind)

theorem decodeValue_confined {node : Node} {pos : Nat} (step : node.decode_step ≠ .value)
    (inside : pos ≤ data.length) :
    Confined data.length pos (decodeValue parse node pos) (· ≤ data.length) := by
  rw [decodeValue, if_neg fun h => step h.1, if_neg fun h => step h.1]
  exact confined_ok (Nat.le_refl _) _ inside

theorem decodeText_confined {node : Node} {pos : Nat} (step : node.decode_step ≠ .value)
    (inside : pos < data.length) (nested : Nested data pos parse) :
    Confined data.length pos (decodeText node data pos (decodeValue parse)) (· ≤ data.length) := by
  refine (read_confined _ pos).andThen fun ch p _ same => ?_
  subst same
  split
  · rw [decodeValue, if_pos ⟨rfl, rfl⟩]
    exact (nested _ _ .key 125 (Nat.lt_succ_self p) inside (by decide)).mono (Nat.le_succ p)
      fun _ _ le => le
  split
  · rw [decodeValue, if_neg nofun, if_pos ⟨rfl, rfl⟩]
    exact (nested _ _ .type 93 (Nat.lt_succ_self p) inside (by decide)).mono (Nat.le_succ p)
      fun _ _ le => le
  refine (startsNumber_confined ch p).andThen fun number q _ same => ?_
  subst same
  split
  · exact (parseNumber_confined node inside).mono (Nat.le_refl _) fun _ _ => Nat.le_of_lt
  split
  · exact parseString_confined node inside
  · exact decodeSymbol_confined node (Nat.le_of_lt inside)
      (decodeValue_confined step (Nat.le_of_lt inside)) symbols

theorem decodeType_confined {node : Node} {pos : Nat} (step : node.decode_step ≠ .value)
    (inside : pos ≤ data.length) (nested : Nested data pos parse) :
    Confined data.length pos (decodeType node data pos (decodeValue parse)) (· ≤ data.length) := by
  unfold decodeType
  split
  · refine (skipSpace_confined inside).andThen fun _ p le less => ?_
    refine (decodeColon_confined node less).andThen fun _ q le' less => ?_
    exact decodeText_confined step less (nested.mono (le.trans le'))
  · exact decodeValue_confined step inside

theorem decodeWith_confined {node : Node} {pos : Nat} (step : node.decode_step ≠ .value)
    (inside : pos ≤ data.length) (nested : Nested data pos parse) :
    Confined data.length pos (decodeWith parse node data pos) (· ≤ data.length) := by
  unfold decodeWith decodeKey
  split
  · refine (skipSpace_confined inside).andThen fun _ p le less => ?_
    refine (read_confined _ p).andThen fun ch q _ same => ?_
    subst same
    split
    · refine ((find_confined ch less).mono (Nat.le_succ q) fun _ _ less => less).andThen
        fun _ r le' less' => ?_
      refine Confined.mono ?_ (Nat.le_succ r) fun _ _ le => le
      exact decodeType_confined nofun less' (nested.mono (by omega))
    split
    · exact confined_ok (Nat.le_refl _) _ (Nat.le_of_lt less)
    · exact confined_failed (Nat.le_refl _) _ (Nat.le_of_lt less)
  · exact decodeType_confined step inside nested

/-- At step value decode is parse_object itself, at the same cursor. -/
theorem decodeWith_at_value {node : Node} (step : node.decode_step = .value) (pos : Nat) :
    decodeWith parse node data pos = decodeValue parse node pos := by
  have notKey : node.decode_step ≠ .key := by rw [step]; decide
  have notType : node.decode_step ≠ .type := by rw [step]; decide
  rw [decodeWith, decodeKey, if_neg notKey]
  exact if_neg notType

/-- decode at any step, when parse_object may be called at the same cursor, too. -/
theorem decodeWith_confined_any (node : Node) {pos : Nat} (inside : pos ≤ data.length)
    (nested : ∀ node p step symbol, pos ≤ p → p ≤ data.length → step ≠ .value →
      Confined data.length p (parse node p step symbol) (· ≤ data.length)) :
    Confined data.length pos (decodeWith parse node data pos) (· ≤ data.length) := by
  by_cases step : node.decode_step = .value
  · rw [decodeWith_at_value step, decodeValue]
    split
    · exact nested node pos .key 125 (Nat.le_refl _) inside (by decide)
    split
    · exact nested node pos .type 93 (Nat.le_refl _) inside (by decide)
    · exact confined_ok (Nat.le_refl _) _ inside
  · exact decodeWith_confined step inside
      fun node p step symbol behind => nested node p step symbol (Nat.le_of_lt behind)

end Nested

/-- One round of parse_object and the rounds behind its comma. -/
theorem parseObject_confined_round {fuel : Nat} (node : Node) {pos : Nat} {decode_step : DecodeStep}
    {symbol : UInt8}
    (first : Confined data.length pos
      (decodeWith (parseObject data fuel) { decode_step := decode_step } data pos) (· ≤ data.length))
    (later : ∀ node p, pos < p → p ≤ data.length →
      Confined data.length p (parseObject data fuel node p decode_step symbol) (· ≤ data.length)) :
    Confined data.length pos (parseObject data (fuel + 1) node pos decode_step symbol)
      (· ≤ data.length) := by
  rw [parseObject]
  refine first.andThen fun sub p le inside => ?_
  refine (skipSpace_confined inside).andThen fun _ q le' less => ?_
  refine (read_confined _ q).andThen fun c r _ same => ?_
  subst same
  split
  · exact confined_ok (Nat.le_succ _) _ less
  split
  · exact (later _ (r + 1) (by omega) less).mono (Nat.le_succ _) fun _ _ le => le
  · exact confined_failed (Nat.le_refl _) _ (Nat.le_of_lt less)

theorem parseObject_confined (fuel : Nat) (node : Node) {pos : Nat} {decode_step : DecodeStep}
    (symbol : UInt8) (step : decode_step ≠ .value) (inside : pos ≤ data.length)
    (enough : data.length < pos + fuel) :
    Confined data.length pos (parseObject data fuel node pos decode_step symbol)
      (· ≤ data.length) := by
  induction fuel generalizing node pos decode_step symbol with
  | zero => exact absurd enough (Nat.not_lt_of_le inside)
  | succ fuel ih =>
      refine parseObject_confined_round node (decodeWith_confined step inside ?_)
        fun node p behind le => ?_
      · exact fun node p step symbol behind le other => ih node symbol other le (by omega)
      · exact ih node symbol step le (by omega)

/-- At step value each round calls parse_object once more before it consumes anything. -/
theorem parseObject_confined_any (fuel : Nat) (node : Node) {pos : Nat} (decode_step : DecodeStep)
    (symbol : UInt8) (inside : pos ≤ data.length) (enough : data.length + 1 < pos + fuel) :
    Confined data.length pos (parseObject data fuel node pos decode_step symbol)
      (· ≤ data.length) := by
  induction fuel generalizing node pos with
  | zero => omega
  | succ fuel ih =>
      refine parseObject_confined_round node (decodeWith_confined_any _ inside ?_)
        fun node p behind le => ?_
      · exact fun node p step symbol from_ le other =>
          parseObject_confined fuel node symbol other le (by omega)
      · exact ih node le (by omega)

theorem decode_confined (data : List UInt8) (node : Node) {pos : Nat} (inside : pos ≤ data.length) :
    Confined data.length pos (decode node data pos) (· ≤ data.length) := by
  rw [decode]
  refine decodeWith_confined_any node inside fun node p step symbol from_ le other => ?_
  exact parseObject_confined _ node symbol other le (by omega)

/-- The parser returns or throws by itself, with the cursor in the text when it accepts. -/
theorem jsonDecode_advances (data : List UInt8) :
    Advances 0 (jsonDecode data) (· ≤ data.length) :=
  (decode_confined data _ (Nat.zero_le _)).toAdvances

/-- From any node and any cursor in the text, decode and parse_object come to an end, and
where they return the cursor has not gone back and is in the text. -/
theorem parser_confined (data : List UInt8) (node : Node) (pos : Nat) (inside : pos ≤ data.length) :
    (.unfinished ∉ (decode node data pos).log ∧
      ((decode node data pos).status ≠ .threw →
        pos ≤ (decode node data pos).pos ∧ (decode node data pos).pos ≤ data.length)) ∧
    ∀ fuel decode_step symbol, data.length + 1 < pos + fuel →
      .unfinished ∉ (parseObject data fuel node pos decode_step symbol).log ∧
      ((parseObject data fuel node pos decode_step symbol).status ≠ .threw →
        pos ≤ (parseObject data fuel node pos decode_step symbol).pos ∧
        (parseObject data fuel node pos decode_step symbol).pos ≤ data.length) := by
  refine ⟨?_, fun fuel decode_step symbol enough => ?_⟩
  · have h := decode_confined data node inside
    exact ⟨h.finished, h.returned⟩
  · have h := parseObject_confined_any fuel node decode_step symbol inside enough
    exact ⟨h.finished, h.returned⟩

/-- An unclosed array, from its second byte. -/
theorem openArray_confined :
    (.unfinished ∉ (decode { decode_step := .value, type := .array } [91, 49, 44] 1).log ∧
      ((decode { decode_step := .value, type := .array } [91, 49, 44] 1).status ≠ .threw →
        1 ≤ (decode { decode_step := .value, type := .array } [91, 49, 44] 1).pos ∧
        (decode { decode_step := .value, type := .array } [91, 49, 44] 1).pos ≤ 3)) ∧
    .unfinished ∉ (parseObject [91, 49, 44] 4
      { decode_step := .value, type := .array } 1 .value 93).log := by
  have h := parser_confined [91, 49, 44] { decode_step := .value, type := .array } 1 (by decide)
  exact ⟨h.1, (h.2 4 .value 93 (by decide)).1⟩

end HZRobot.Json
