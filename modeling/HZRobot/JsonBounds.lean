import HZRobot.JsonLanguage
import HZRobot.JsonProgress

/-!
Reads outside the text. Every character the parser looks at lies behind a test, except the
one behind a minus and those that the look-aheads for true, false and null compare; so the
reads stay inside exactly when every value it comes to leaves room for them.
-/

namespace HZRobot.Json

/-- The parser, in a form at the first text, comes to a value at the second. -/
inductive Visits : Form → List UInt8 → List UInt8 → Prop
  | here {t : List UInt8} : Visits .value t t
  | object {c : UInt8} {t u : List UInt8} (kind : start (c :: t) = .object)
      (members : Visits (.rounds .key 125) t u) : Visits .value (c :: t) u
  | array {c : UInt8} {t u : List UInt8} (kind : start (c :: t) = .array)
      (elements : Visits (.rounds .type 93) t u) : Visits .value (c :: t) u
  | opens {decode_step : DecodeStep} {t u v : List UInt8}
      (opens : opening decode_step t = .value u) (value : Visits .value u v) :
      Visits (.round decode_step) t v
  | first {decode_step : DecodeStep} {symbol : UInt8} {t u : List UInt8}
      (round : Visits (.round decode_step) t u) : Visits (.rounds decode_step symbol) t u
  | later {decode_step : DecodeStep} {symbol : UInt8} {t u v w : List UInt8}
      (round : Takes (.round decode_step) t u) (space : skip u = 44 :: v)
      (rounds : Visits (.rounds decode_step symbol) v w) : Visits (.rounds decode_step symbol) t w

/-- A value that is no bracket, quote or number is compared with the symbols. -/
def Roomy (u : List UInt8) : Prop :=
  match start u with
  | .symbol _ _ | .missing => 5 ≤ u.length ∨ u = bytes "true"
  | _ => True

/-- A character outside the text is read, or compared with a symbol. -/
def Outside {α : Type} (data : List UInt8) (x : Decoded Event α) : Prop :=
  x.status = .threw ∨ ∃ pos n, .peek pos n ∈ x.log ∧ data.length < pos + n

variable {data t : List UInt8} {pos : Nat}

theorem outside_andThen {α β : Type} {x : Decoded Event α} {stop : α → β}
    {next : α → Nat → Decoded Event β} : Outside data (x.andThen stop next) ↔
      Outside data x ∨ x.status = .ok ∧ Outside data (next x.value x.pos) := by
  unfold Decoded.andThen
  split
  · case isTrue ok =>
      simp only [Outside, ok, List.mem_append]
      constructor
      · rintro (threw | ⟨p, n, first | later, far⟩)
        · exact .inr ⟨trivial, .inl threw⟩
        · exact .inl (.inr ⟨p, n, first, far⟩)
        · exact .inr ⟨trivial, .inr ⟨p, n, later, far⟩⟩
      · rintro ((none_ | ⟨p, n, first, far⟩) | ⟨-, threw | ⟨p, n, later, far⟩⟩)
        · cases none_
        · exact .inr ⟨p, n, .inl first, far⟩
        · exact .inl threw
        · exact .inr ⟨p, n, .inr later, far⟩
  · case isFalse stopped => simp [Outside, stopped]

theorem Ends.outside_iff {α : Type} {x : Decoded Event α} {sizes : List Nat}
    {result : Option (List UInt8)} (h : Ends data (sizes.map (.peek pos)) x result)
    (here : At data pos t) : Outside data x ↔ ∃ n ∈ sizes, t.length < n := by
  have size := here.length
  have peeks (status : Status) (noThrow : status ≠ .threw) (value : α) (stop : Nat) :
      Outside data ⟨status, value, stop, sizes.map (.peek pos)⟩ ↔ ∃ n ∈ sizes, t.length < n := by
    constructor
    · rintro (threw | ⟨p, n, inside, far⟩)
      · exact absurd threw noThrow
      · obtain ⟨m, hm, same⟩ := List.mem_map.mp inside
        obtain ⟨rfl, rfl⟩ := Event.peek.inj same
        exact ⟨m, hm, by omega⟩
    · rintro ⟨n, hn, short⟩
      exact .inr ⟨pos, n, List.mem_map_of_mem hn, by omega⟩
  cases h with
  | ok value left => exact peeks .ok (by decide) value _
  | failed value stop => exact peeks .failed (by decide) value stop

theorem tried_iff : (∀ n ∈ tried t symbols, n ≤ t.length) ↔ 5 ≤ t.length ∨ t = bytes "true" := by
  have size : (bytes "true").length = 4 := rfl
  have sizes : tried t symbols = 4 :: if (bytes "true").isPrefixOf t then []
      else 5 :: if (bytes "false").isPrefixOf t then [] else [4] := by
    simp only [symbols, tried, ite_self]
    rfl
  rw [sizes]
  by_cases here : (bytes "true").isPrefixOf t = true
  · obtain ⟨u, rfl⟩ := List.isPrefixOf_iff_prefix.mp here
    rw [if_pos here, List.length_append, size]
    cases u with
    | nil => simp
    | cons c u =>
        have long : 5 ≤ 4 + (c :: u).length := by
          rw [List.length_cons]
          omega
        exact iff_of_true (by simp) (.inl long)
  · have other : t ≠ bytes "true" := by
      rintro rfl
      exact here (List.isPrefixOf_iff_prefix.mpr (List.prefix_refl _))
    rw [if_neg here]
    constructor
    · exact fun all => .inl (all 5 (by simp))
    · rintro (long | same) n inside
      · have few : n ≤ 5 := by
          split at inside
          · simp at inside
            omega
          · simp at inside
            omega
        exact few.trans long
      · exact absurd same other

theorem roomy_iff : Roomy t ↔ ∀ n ∈ lookahead t, n ≤ t.length := by
  rw [Roomy, lookahead]
  cases start t with
  | object | array | number | string => simp
  | symbol _ _ | missing => exact tried_iff.symm

theorem visits_value {c : UInt8} {u : List UInt8} (noObject : start (c :: t) ≠ .object)
    (noArray : start (c :: t) ≠ .array) : Visits .value (c :: t) u ↔ u = c :: t := by
  constructor
  · intro h
    cases h with
    | here => rfl
    | object kind _ => exact absurd kind noObject
    | array kind _ => exact absurd kind noArray
  · rintro rfl
    exact .here

/-- In a call of parse_object with enough fuel a read is outside exactly when there is no
room at a value that is visited. -/
def RoundsOutside (data : List UInt8) (fuel : Nat) : Prop :=
  ∀ {decode_step : DecodeStep} {symbol : UInt8} {pos : Nat} {t : List UInt8} (node : Node),
    decode_step = .key ∨ decode_step = .type → symbol ≠ 44 → At data pos t → t.length < fuel →
      (Outside data (parseObject data fuel node pos decode_step symbol) ↔
        ∃ u, Visits (.rounds decode_step symbol) t u ∧ ¬ Roomy u)

theorem value_outside_iff {fuel : Nat} (small : data.length ≤ limit) (ih : RoundsOutside data fuel)
    {c : UInt8} (h : At data pos (c :: t)) (deep : t.length < fuel) {node : Node}
    (step : node.decode_step = .type) :
    Outside data (decodeText node data pos (decodeValue (parseObject data fuel))) ↔
      ∃ u, Visits .value (c :: t) u ∧ ¬ Roomy u := by
  by_cases cut : c :: t = [45]
  · obtain ⟨rfl, rfl⟩ := List.cons.inj cut
    have threw := decodeText_cut small h node (decodeValue (parseObject data fuel))
    refine iff_of_true (.inl threw) ⟨[45], .here, fun room => ?_⟩
    rcases room with long | same
    · exact absurd long (by decide)
    · cases same
  have text := decodeText_at small h cut node (decodeValue (parseObject data fuel))
  cases kind : start (c :: t) with
  | object =>
      have room : Roomy (c :: t) := by simp only [Roomy, kind]
      rw [kind] at text
      dsimp only at text
      rw [decodeValue_object] at text
      rw [text, ih _ (.inl rfl) (by decide) h.cons deep]
      constructor
      · rintro ⟨u, visits, full⟩
        exact ⟨u, .object kind visits, full⟩
      · rintro ⟨u, visits, full⟩
        cases visits with
        | here => exact absurd room full
        | object _ members => exact ⟨u, members, full⟩
        | array other _ => cases kind.symm.trans other
  | array =>
      have room : Roomy (c :: t) := by simp only [Roomy, kind]
      rw [kind] at text
      dsimp only at text
      rw [decodeValue_array] at text
      rw [text, ih _ (.inr rfl) (by decide) h.cons deep]
      constructor
      · rintro ⟨u, visits, full⟩
        exact ⟨u, .array kind visits, full⟩
      · rintro ⟨u, visits, full⟩
        cases visits with
        | here => exact absurd room full
        | object other _ => cases kind.symm.trans other
        | array _ elements => exact ⟨u, elements, full⟩
  | number | string | symbol _ _ | missing =>
      have noObject : start (c :: t) ≠ .object := by
        rw [kind]
        intro same
        cases same
      have noArray : start (c :: t) ≠ .array := by
        rw [kind]
        intro same
        cases same
      rw [(scalar_at small h cut noObject noArray step fuel).outside_iff h]
      simp only [visits_value noObject noArray, exists_eq_left, roomy_iff]
      simp

theorem round_outside_iff {fuel : Nat} (small : data.length ≤ limit) (ih : RoundsOutside data fuel)
    {decode_step : DecodeStep} (round : decode_step = .key ∨ decode_step = .type)
    (h : At data pos t) (deep : t.length ≤ fuel) :
    Outside data (decodeWith (parseObject data fuel) { decode_step := decode_step } data pos) ↔
      ∃ u, Visits (.round decode_step) t u ∧ ¬ Roomy u := by
  have opens := opening_at (parseObject data fuel) small h round
  have form (u : List UInt8) : Visits (.round decode_step) t u ↔
      ∃ v, opening decode_step t = .value v ∧ Visits .value v u := by
    constructor
    · intro visits
      cases visits with
      | opens opens value => exact ⟨_, opens, value⟩
    · rintro ⟨v, opens, value⟩
      exact .opens opens value
  simp only [form]
  generalize result : opening decode_step t = begins at opens
  generalize decodeWith (parseObject data fuel) { decode_step := decode_step } data pos = x at opens ⊢
  cases opens with
  | fails node stop => simp [Outside]
  | closes node left => simp [Outside]
  | @value node start c u step left =>
      have size := opening_length result
      rw [List.length_cons] at size
      rw [value_outside_iff small ih left (by omega) step]
      simp

theorem visits_first_or_later {decode_step : DecodeStep} {symbol : UInt8} {w : List UInt8} :
    Visits (.rounds decode_step symbol) t w ↔ Visits (.round decode_step) t w ∨
      ∃ u v, Takes (.round decode_step) t u ∧ skip u = 44 :: v ∧
        Visits (.rounds decode_step symbol) v w := by
  constructor
  · intro h
    cases h with
    | first round => exact .inl round
    | later round space rounds => exact .inr ⟨_, _, round, space, rounds⟩
  · rintro (round | ⟨u, v, round, space, rounds⟩)
    · exact .first round
    · exact .later round space rounds

theorem not_outside {α : Type} {status : Status} (noThrow : status ≠ .threw) (value : α)
    (stop : Nat) : ¬ Outside data ⟨status, value, stop, []⟩ := by
  rintro (threw | ⟨p, n, none_, -⟩)
  · exact noThrow threw
  · cases none_

theorem rounds_outside (small : data.length ≤ limit) (fuel : Nat) : RoundsOutside data fuel := by
  induction fuel with
  | zero => exact fun _ _ _ _ deep => absurd deep (Nat.not_lt_zero _)
  | succ fuel ih =>
      intro decode_step symbol pos t node round other h deep
      have follows := round_follows small (rounds_follow small fuel) round h (Nat.le_of_lt_succ deep)
      rw [parseObject, outside_andThen,
        round_outside_iff small ih round h (Nat.le_of_lt_succ deep)]
      generalize decodeWith (parseObject data fuel) { decode_step := decode_step } data pos = x
        at follows ⊢
      have parts : (∃ w, Visits (.rounds decode_step symbol) t w ∧ ¬ Roomy w) ↔
          (∃ w, Visits (.round decode_step) t w ∧ ¬ Roomy w) ∨
            ∃ u v, Takes (.round decode_step) t u ∧ skip u = 44 :: v ∧
              ∃ w, Visits (.rounds decode_step symbol) v w ∧ ¬ Roomy w := by
        constructor
        · rintro ⟨w, visits, full⟩
          rcases visits_first_or_later.mp visits with round | ⟨u, v, taken, space, later⟩
          · exact .inl ⟨w, round, full⟩
          · exact .inr ⟨u, v, taken, space, w, later, full⟩
        · rintro (⟨w, round, full⟩ | ⟨u, v, taken, space, w, later, full⟩)
          · exact ⟨w, .first round, full⟩
          · exact ⟨w, .later taken space later, full⟩
      rw [parts]
      refine or_congr_right ?_
      by_cases ok : x.status = .ok
      · obtain ⟨u, left⟩ := follows.inside ok
        have taken : Takes (.round decode_step) t u := (follows.taken u).mp ⟨ok, left⟩
        have only {v : List UInt8} (h : Takes (.round decode_step) t v) : v = u :=
          ((follows.taken v).mpr h).2.unique left
        have next : (∃ u v, Takes (.round decode_step) t u ∧ skip u = 44 :: v ∧
              ∃ w, Visits (.rounds decode_step symbol) v w ∧ ¬ Roomy w) ↔
            ∃ v, skip u = 44 :: v ∧
              ∃ w, Visits (.rounds decode_step symbol) v w ∧ ¬ Roomy w := by
          constructor
          · rintro ⟨u', v, round, later⟩
            exact ⟨v, only round ▸ later⟩
          · rintro ⟨v, later⟩
            exact ⟨u, v, taken, later⟩
        have size := taken.length_le
        rw [next, and_iff_right ok]
        cases space : skip u with
        | nil =>
            rw [skipSpace_end small left space, failed_andThen]
            refine iff_of_false (not_outside (by decide) _ _) ?_
            rintro ⟨v, none_, -⟩
            cases none_
        | cons c v =>
            obtain ⟨p, there, found⟩ := skipSpace_at small left space
            have skipped := skip_length u
            rw [space, List.length_cons] at skipped
            rw [found, ok_andThen, readAt_at small there, ok_andThen]
            by_cases last : c = symbol
            · rw [if_pos last]
              refine iff_of_false (not_outside (by decide) _ _) ?_
              rintro ⟨v', same, -⟩
              exact other (last.symm.trans (List.cons.inj same).1)
            · rw [if_neg last]
              by_cases comma : c = 44
              · rw [if_pos comma, ih _ round other there.cons (by omega)]
                simp [comma]
              · rw [if_neg comma]
                refine iff_of_false (not_outside (by decide) _ _) ?_
                rintro ⟨v', same, -⟩
                exact comma (List.cons.inj same).1
      · refine iff_of_false (fun both => ok both.1) ?_
        rintro ⟨u, v, round, -⟩
        exact ok ((follows.taken u).mpr round).1

/-- Only characters of the text are looked at, and the call ends with an answer. -/
def StaysInside (s : List UInt8) : Prop :=
  (jsonDecode s).status ≠ .threw ∧
    (∀ pos n, .peek pos n ∈ (jsonDecode s).log → pos + n ≤ s.length) ∧
      .unfinished ∉ (jsonDecode s).log

/-- json::decode stays inside the text exactly when every value it comes to has room for
the look-aheads. -/
theorem stays_inside_iff {s : List UInt8} (small : s.length < 2 ^ 31) :
    StaysInside s ↔ ∀ u, Visits (.round .type) s u → Roomy u := by
  have start : At s 0 s := ⟨[], rfl, rfl⟩
  have outside : Outside s (jsonDecode s) ↔ ∃ u, Visits (.round .type) s u ∧ ¬ Roomy u :=
    round_outside_iff (Nat.le_of_lt small) (rounds_outside (Nat.le_of_lt small) _) (.inr rfl) start
      (Nat.le_succ _)
  have finished : .unfinished ∉ (jsonDecode s).log := (jsonDecode_advances s).finished
  have inside : StaysInside s ↔ ¬ Outside s (jsonDecode s) := by
    constructor
    · rintro ⟨noThrow, peeks, -⟩ (threw | ⟨pos, n, peek, far⟩)
      · exact noThrow threw
      · exact absurd (peeks pos n peek) (Nat.not_le_of_lt far)
    · intro none_
      refine ⟨fun threw => none_ (.inl threw), fun pos n peek => ?_, finished⟩
      exact Nat.le_of_not_lt fun far => none_ (.inr ⟨pos, n, peek, far⟩)
  rw [inside, outside]
  constructor
  · intro none_ u visits
    exact by_contra fun full => none_ ⟨u, visits, full⟩
  · rintro all ⟨u, visits, full⟩
    exact full (all u visits)

/-- Of a member with a number the number is the only value, and the round ends behind it. -/
theorem visits_number {t u v : List UInt8} (opens : opening .key t = .value v)
    (number : start v = .number) (visits : Visits (.round .key) t u) : u = v := by
  cases visits with
  | opens opens' value =>
      obtain rfl := Opening.value.inj (opens.symm.trans opens')
      cases value with
      | here => rfl
      | object kind _ => cases number.symm.trans kind
      | array kind _ => cases number.symm.trans kind

theorem takes_number {t u v : List UInt8} (opens : opening .key t = .value v)
    (number : start v = .number) (takes : Takes (.round .key) t u) : scalarEnd v = some u := by
  cases takes with
  | opens opens' value =>
      obtain rfl := Opening.value.inj (opens.symm.trans opens')
      exact (takes_scalar (by rw [number]; decide) (by rw [number]; decide)).mp value
  | closes closes => cases opens.symm.trans closes

/-- {"a":1,"b":-2} -/
def twoNumbers : List UInt8 := [123, 34, 97, 34, 58, 49, 44, 34, 98, 34, 58, 45, 50, 125]

theorem twoNumbers_inside : StaysInside twoNumbers := by
  refine (stays_inside_iff (by decide)).mpr fun u visits => ?_
  cases visits with
  | opens opens value =>
      obtain rfl := Opening.value.inj opens
      cases value with
      | here => trivial
      | array kind _ => cases kind
      | object _ members =>
          rcases visits_first_or_later.mp members with round | ⟨v, w, taken, space, rounds⟩
          · rw [visits_number rfl rfl round]
            trivial
          · have ends : scalarEnd [49, 44, 34, 98, 34, 58, 45, 50, 125] = some v :=
              takes_number rfl rfl taken
            obtain rfl : [44, 34, 98, 34, 58, 45, 50, 125] = v := Option.some.inj ends
            obtain rfl := (List.cons.inj space).2
            rcases visits_first_or_later.mp rounds with round | ⟨v, w, taken, space, -⟩
            · rw [visits_number rfl rfl round]
              trivial
            · have ends : scalarEnd [45, 50, 125] = some v := takes_number rfl rfl taken
              obtain rfl : [125] = v := Option.some.inj ends
              cases space

/-- The byte behind a minus at the end is read. -/
theorem minus_outside : ¬ StaysInside [45] := by
  rintro ⟨noThrow, -⟩
  exact noThrow rfl

end HZRobot.Json
