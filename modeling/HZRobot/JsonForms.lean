import HZRobot.JsonAccepts
import Mathlib.Data.List.DropRight

/-!
Which forms of the parser's language are forms of JSON. A text is taken strictly when only
such forms are used, loosely when some other form is: a value that is missing, single quotes,
characters or digits that JSON does not have, a name that is empty, a comma before a brace.
No text is taken both ways.
-/

namespace HZRobot.Json

/-- A value without brackets, of JSON, in front of the rest. -/
inductive JsonScalar : List UInt8 → List UInt8 → Prop
  | number {t rest : List UInt8} (kind : start t = .number)
      (number : JsonNumber (t.takeWhile isNumeric)) : JsonScalar t rest
  | string {chars rest : List UInt8} (chars_ : JsonChars chars) :
      JsonScalar (34 :: (chars ++ 34 :: rest)) rest
  | symbol {type : NodeType} {text t rest : List UInt8} (kind : start t = .symbol type text) :
      JsonScalar t rest

/-- The name that a member begins with is one of JSON, and not empty. -/
def NameForm : DecodeStep → List UInt8 → Prop
  | .key, t => ∃ name rest, skip t = 34 :: (name ++ 34 :: rest) ∧ 34 ∉ name ∧ name ≠ [] ∧
      JsonChars name
  | _, _ => True

/-- The parser takes a form from the first text and leaves the second, by forms of JSON only. -/
inductive Strict : Form → List UInt8 → List UInt8 → Prop
  | emptyObject {c : UInt8} {t rest : List UInt8} (kind : start (c :: t) = .object)
      (space : skip t = 125 :: rest) : Strict .value (c :: t) rest
  | object {c : UInt8} {t rest : List UInt8} (kind : start (c :: t) = .object)
      (members : Strict (.rounds .key 125) t rest) : Strict .value (c :: t) rest
  | emptyArray {c : UInt8} {t rest : List UInt8} (kind : start (c :: t) = .array)
      (space : skip t = 93 :: rest) : Strict .value (c :: t) rest
  | array {c : UInt8} {t rest : List UInt8} (kind : start (c :: t) = .array)
      (elements : Strict (.rounds .type 93) t rest) : Strict .value (c :: t) rest
  | scalar {t rest : List UInt8} (ends : scalarEnd t = some rest) (json : JsonScalar t rest) :
      Strict .value t rest
  | opens {decode_step : DecodeStep} {t u rest : List UInt8}
      (opens : opening decode_step t = .value u) (name : NameForm decode_step t)
      (value : Strict .value u rest) : Strict (.round decode_step) t rest
  | last {decode_step : DecodeStep} {symbol : UInt8} {t u rest : List UInt8}
      (round : Strict (.round decode_step) t u) (space : skip u = symbol :: rest) :
      Strict (.rounds decode_step symbol) t rest
  | more {decode_step : DecodeStep} {symbol : UInt8} {t u v rest : List UInt8}
      (round : Strict (.round decode_step) t u) (space : skip u = 44 :: v)
      (rounds : Strict (.rounds decode_step symbol) v rest) :
      Strict (.rounds decode_step symbol) t rest

/-- The parser takes a form from the first text and leaves the second, and somewhere in it
takes what JSON does not have. -/
inductive Loose : Form → List UInt8 → List UInt8 → Prop
  | object {c : UInt8} {t rest : List UInt8} (kind : start (c :: t) = .object)
      (some_ : ∀ u, skip t ≠ 125 :: u) (members : Loose (.rounds .key 125) t rest) :
      Loose .value (c :: t) rest
  | array {c : UInt8} {t rest : List UInt8} (kind : start (c :: t) = .array)
      (some_ : ∀ u, skip t ≠ 93 :: u) (elements : Loose (.rounds .type 93) t rest) :
      Loose .value (c :: t) rest
  | scalar {t rest : List UInt8} (ends : scalarEnd t = some rest) (other : ¬ JsonScalar t rest) :
      Loose .value t rest
  | name {decode_step : DecodeStep} {t u rest : List UInt8}
      (opens : opening decode_step t = .value u) (other : ¬ NameForm decode_step t)
      (value : Takes .value u rest) : Loose (.round decode_step) t rest
  | opens {decode_step : DecodeStep} {t u rest : List UInt8}
      (opens : opening decode_step t = .value u) (value : Loose .value u rest) :
      Loose (.round decode_step) t rest
  | closes {decode_step : DecodeStep} {t rest : List UInt8}
      (closes : opening decode_step t = .closes rest) : Loose (.round decode_step) t rest
  | last {decode_step : DecodeStep} {symbol : UInt8} {t u rest : List UInt8}
      (round : Loose (.round decode_step) t u) (space : skip u = symbol :: rest) :
      Loose (.rounds decode_step symbol) t rest
  | first {decode_step : DecodeStep} {symbol : UInt8} {t u v rest : List UInt8}
      (round : Loose (.round decode_step) t u) (space : skip u = 44 :: v)
      (rounds : Takes (.rounds decode_step symbol) v rest) :
      Loose (.rounds decode_step symbol) t rest
  | later {decode_step : DecodeStep} {symbol : UInt8} {t u v rest : List UInt8}
      (round : Takes (.round decode_step) t u) (space : skip u = 44 :: v)
      (rounds : Loose (.rounds decode_step symbol) v rest) :
      Loose (.rounds decode_step symbol) t rest

/-- The bracket that ends the rounds is no comma. -/
def Form.Marked : Form → Prop
  | .rounds _ symbol => symbol ≠ 44
  | _ => True

theorem skip_skip {t u : List UInt8} {c : UInt8} (space : skip t = c :: u) :
    skip (c :: u) = c :: u := by
  rw [← space]
  exact List.dropWhile_idempotent isBlank t

theorem opening_key_closes {t u : List UInt8} (space : skip t = 125 :: u) :
    opening .key t = .closes (125 :: u) := by
  rw [opening, space]
  rfl

theorem opening_type {t u : List UInt8} {c : UInt8} (space : skip t = c :: u) :
    opening .type t = .value (c :: u) := by
  have opens : opening .type t = opened t := rfl
  rw [opens, opened, space, if_neg (List.cons_ne_nil c u)]

theorem takes_bracket {rest : List UInt8} : Takes .value (93 :: rest) (93 :: rest) :=
  (takes_missing rfl (by simp)).mpr rfl

theorem Strict.takes {form : Form} {t rest : List UInt8} (h : Strict form t rest) :
    Takes form t rest := by
  induction h with
  | emptyObject kind space =>
      exact .object kind (.last (.closes (opening_key_closes space)) (skip_skip space))
  | object kind _ ih => exact .object kind ih
  | emptyArray kind space =>
      exact .array kind (.last (.opens (opening_type space) takes_bracket) (skip_skip space))
  | array kind _ ih => exact .array kind ih
  | scalar ends _ => exact .scalar ends
  | opens opens _ _ ih => exact .opens opens ih
  | last _ space ih => exact .last ih space
  | more _ space _ ih later => exact .more ih space later

theorem Loose.takes {form : Form} {t rest : List UInt8} (h : Loose form t rest) :
    Takes form t rest := by
  induction h with
  | object kind _ _ ih => exact .object kind ih
  | array kind _ _ ih => exact .array kind ih
  | scalar ends _ => exact .scalar ends
  | name opens _ value => exact .opens opens value
  | opens opens _ ih => exact .opens opens ih
  | closes closes => exact .closes closes
  | last _ space ih => exact .last ih space
  | first _ space rounds ih => exact .more ih space rounds
  | later round space _ ih => exact .more round space ih

theorem scalarEnd_object {c : UInt8} {t rest : List UInt8} (kind : start (c :: t) = .object) :
    scalarEnd (c :: t) ≠ some rest := by
  rw [scalarEnd, kind]
  exact (Option.some_ne_none rest).symm

theorem scalarEnd_array {c : UInt8} {t rest : List UInt8} (kind : start (c :: t) = .array) :
    scalarEnd (c :: t) ≠ some rest := by
  rw [scalarEnd, kind]
  exact (Option.some_ne_none rest).symm

/-- The parser takes one thing only. -/
theorem Takes.unique {form : Form} {t rest : List UInt8} (h : Takes form t rest)
    (mark : form.Marked) {rest' : List UInt8} (h' : Takes form t rest') : rest' = rest := by
  induction h generalizing rest' with
  | object kind _ ih => exact ih (by simp [Form.Marked]) ((takes_object kind).mp h')
  | array kind _ ih => exact ih (by simp [Form.Marked]) ((takes_array kind).mp h')
  | @scalar t rest ends =>
      cases h' with
      | object kind _ => exact absurd ends (scalarEnd_object kind)
      | array kind _ => exact absurd ends (scalarEnd_array kind)
      | scalar ends' => exact Option.some.inj (ends'.symm.trans ends)
  | opens opens _ ih => exact ih trivial ((takes_round opens).mp h')
  | closes closes =>
      cases h' with
      | opens opens _ =>
          rw [closes] at opens
          cases opens
      | closes closes' => exact Opening.closes.inj (closes'.symm.trans closes)
  | last round space ih =>
      cases h' with
      | last round' space' =>
          obtain rfl := ih trivial round'
          exact (List.cons.inj (space'.symm.trans space)).2
      | more round' space' _ =>
          obtain rfl := ih trivial round'
          exact absurd (List.cons.inj (space'.symm.trans space)).1.symm mark
  | more round space _ ih later =>
      cases h' with
      | last round' space' =>
          obtain rfl := ih trivial round'
          exact absurd (List.cons.inj (space'.symm.trans space)).1 mark
      | more round' space' rounds' =>
          obtain rfl := ih trivial round'
          obtain rfl := (List.cons.inj (space'.symm.trans space)).2
          exact later mark rounds'

/-- What is taken by forms of JSON only is not taken by other ones. -/
theorem Strict.not_loose {form : Form} {t rest : List UInt8} (h : Strict form t rest)
    (mark : form.Marked) {rest' : List UInt8} : ¬ Loose form t rest' := by
  induction h generalizing rest' with
  | emptyObject kind space =>
      intro loose
      cases loose with
      | object _ some_ _ => exact some_ _ space
      | array kind' _ _ => cases kind.symm.trans kind'
      | scalar ends _ => exact absurd ends (scalarEnd_object kind)
  | object kind _ ih =>
      intro loose
      cases loose with
      | object _ _ members => exact ih (by simp [Form.Marked]) members
      | array kind' _ _ => cases kind.symm.trans kind'
      | scalar ends _ => exact absurd ends (scalarEnd_object kind)
  | emptyArray kind space =>
      intro loose
      cases loose with
      | object kind' _ _ => cases kind.symm.trans kind'
      | array _ some_ _ => exact some_ _ space
      | scalar ends _ => exact absurd ends (scalarEnd_array kind)
  | array kind _ ih =>
      intro loose
      cases loose with
      | object kind' _ _ => cases kind.symm.trans kind'
      | array _ _ elements => exact ih (by simp [Form.Marked]) elements
      | scalar ends _ => exact absurd ends (scalarEnd_array kind)
  | scalar ends json =>
      intro loose
      cases loose with
      | object kind _ _ => exact absurd ends (scalarEnd_object kind)
      | array kind _ _ => exact absurd ends (scalarEnd_array kind)
      | scalar ends' other =>
          obtain rfl := Option.some.inj (ends'.symm.trans ends)
          exact other json
  | opens opens name _ ih =>
      intro loose
      cases loose with
      | name _ other _ => exact other name
      | opens opens' value =>
          obtain rfl := Opening.value.inj (opens'.symm.trans opens)
          exact ih trivial value
      | closes closes =>
          rw [opens] at closes
          cases closes
  | last round space ih =>
      intro loose
      cases loose with
      | last round' _ => exact ih trivial round'
      | first round' _ _ => exact ih trivial round'
      | later round' space' _ =>
          obtain rfl := round.takes.unique trivial round'
          exact absurd (List.cons.inj (space'.symm.trans space)).1.symm mark
  | more round space _ ih later =>
      intro loose
      cases loose with
      | last round' _ => exact ih trivial round'
      | first round' _ _ => exact ih trivial round'
      | later round' space' rounds' =>
          obtain rfl := round.takes.unique trivial round'
          obtain rfl := (List.cons.inj (space'.symm.trans space)).2
          exact later mark rounds'

theorem Takes.strict_or_loose {form : Form} {t rest : List UInt8} (h : Takes form t rest) :
    Strict form t rest ∨ Loose form t rest := by
  induction h with
  | @object c t rest kind members ih =>
      by_cases empty : ∃ u, skip t = 125 :: u
      · obtain ⟨u, space⟩ := empty
        have strict := Strict.emptyObject kind space
        obtain rfl := strict.takes.unique trivial (.object kind members)
        exact .inl strict
      · exact ih.imp (.object kind) (.object kind (not_exists.mp empty))
  | @array c t rest kind elements ih =>
      by_cases empty : ∃ u, skip t = 93 :: u
      · obtain ⟨u, space⟩ := empty
        have strict := Strict.emptyArray kind space
        obtain rfl := strict.takes.unique trivial (.array kind elements)
        exact .inl strict
      · exact ih.imp (.array kind) (.array kind (not_exists.mp empty))
  | @scalar t rest ends =>
      by_cases json : JsonScalar t rest
      · exact .inl (.scalar ends json)
      · exact .inr (.scalar ends json)
  | @opens decode_step t u rest opens value ih =>
      by_cases name : NameForm decode_step t
      · exact ih.imp (.opens opens name) (.opens opens)
      · exact .inr (.name opens name value)
  | closes closes => exact .inr (.closes closes)
  | last _ space ih => exact ih.imp (fun round => .last round space) fun round => .last round space
  | more round space rounds ih later =>
      rcases ih with strict | loose
      · exact later.imp (.more strict space) (.later round space)
      · exact .inr (.first loose space rounds)

/-- Every reading is of one of the two kinds. -/
theorem takes_iff_strict_or_loose {form : Form} {t rest : List UInt8} :
    Takes form t rest ↔ Strict form t rest ∨ Loose form t rest :=
  ⟨Takes.strict_or_loose, fun h => h.elim Strict.takes Loose.takes⟩

end HZRobot.Json
