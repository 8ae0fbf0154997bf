import HZRobot.SerialRoundTrip

/-!
What a target brings along. A record of one version decodes as the other when one has
the fields of the other and more behind them; and decoding into a used object gives
what was encoded exactly when the object holds nothing that decoding keeps.
-/

namespace HZRobot.Serial

open Varint

/-- The fields of f and then those of g. -/
def Fields.append : Fields → Fields → Fields
  | .one field, g => .cons field g
  | .cons field rest, g => .cons field (rest.append g)

def firstFields : (f g : Fields) → FieldVals (f.append g) → FieldVals f
  | .one _, _ => fun val => val.1
  | .cons _ rest, g => fun val => (val.1, firstFields rest g val.2)

def otherFields : (f g : Fields) → FieldVals (f.append g) → FieldVals g
  | .one _, _ => fun val => val.2
  | .cons _ rest, g => fun val => otherFields rest g val.2

def joinFields : (f g : Fields) → FieldVals f → FieldVals g → FieldVals (f.append g)
  | .one _, _ => fun val more => (val, more)
  | .cons _ rest, g => fun val more => (val.1, joinFields rest g val.2 more)

variable (order : Iteration)

theorem encodeFields_append : (f g : Fields) → (x : FieldVals (f.append g)) →
    encodeFields order (f.append g) x [] =
      encodeFields order f (firstFields f g x) [] ++ encodeFields order g (otherFields f g x) []
  | .one field, g, x => encodeNextField_eq (writer_field order field) (writer_fields order g) x []
  | .cons field rest, g, x => by
      have whole := encodeNextField_eq (writer_field order field)
        (writer_fields order (rest.append g)) x []
      have front := encodeNextField_eq (writer_field order field) (writer_fields order rest)
        (firstFields (.cons field rest) g x) []
      rw [List.nil_append] at whole front
      refine whole.trans ?_
      rw [encodeFields_append rest g x.2, ← List.append_assoc]
      exact congrArg (· ++ _) front.symm

section Stop

variable {α κ σ : Type} {data : List UInt8} {encode : α → List UInt8 → List UInt8}
  {decode : α → Nat → Decoded Event α} {merge : α → α → α}

/-- The frame ends behind the fields of y: the fields behind them are not decoded. -/
def FieldsStop (data : List UInt8) (encode : α → List UInt8 → List UInt8)
    (decode : Nat → Nat → σ → Nat → Decoded Event σ) (update : σ → α → σ) : Prop :=
  ∀ z y p q flag size, data = p ++ (encode y [] ++ q) → flag ≤ p.length →
    p.length + (encode y []).length = flag + size →
    (decode flag size z p.length).Returns (update z y) (flag + size)

theorem fieldsStop_last {decodeRest : Nat → Nat → κ → Nat → Decoded Event κ}
    (fits : data.length ≤ maxSize) (h : Restores data encode decode merge) :
    FieldsStop data encode (decodeNextField decode decodeRest)
      fun z y => (merge z.1 y, z.2) := by
  intro z y p q flag size split behind ends
  refine (h z.1 y p q split).andThen ?_
  have room := congrArg List.length split
  simp only [List.length_append] at room
  rw [sub64_eq (by omega) (by omega), if_pos (by omega)]
  exact ⟨rfl, rfl, ends⟩

theorem fieldsStop_next {encodeRest : κ → List UInt8 → List UInt8}
    {decodeRest : Nat → Nat → σ → Nat → Decoded Event σ} {update : σ → κ → σ}
    (fits : data.length ≤ maxSize) (w : Writer encode) (w' : Writer encodeRest)
    (h : Restores data encode decode merge) (h' : FieldsStop data encodeRest decodeRest update) :
    FieldsStop data (encodeNextField encode encodeRest) (decodeNextField decode decodeRest)
      fun z y => (merge z.1 y.1, update z.2 y.2) := by
  intro z y p q flag size split behind ends
  rw [encodeNextField_eq w w', List.nil_append] at split ends
  have some_ := List.length_pos_iff.mpr (w'.ne_nil y.2)
  have room := congrArg List.length split
  simp only [List.length_append] at room ends
  refine (h z.1 y.1 p (encodeRest y.2 [] ++ q) (by rw [split, List.append_assoc])).andThen ?_
  rw [sub64_eq (by omega) (by omega), if_neg (by omega)]
  have others := h' z.2 y.2 (p ++ encode y.1 []) q flag size
    (by rw [split]; simp only [List.append_assoc]) (by rw [List.length_append]; omega)
    (by rw [List.length_append]; omega)
  rw [List.length_append] at others
  exact others.map

end Stop

/-- The first fields decoded, the others left. -/
def updateFirst : (f g : Fields) → FieldVals (f.append g) → FieldVals f → FieldVals (f.append g)
  | .one field, _ => fun z y => (merge field z.1 y, z.2)
  | .cons field rest, g => fun z y => (merge field z.1 y.1, updateFirst rest g z.2 y.2)

theorem fieldsStop {data : List UInt8} (fits : data.length ≤ maxSize) : (f g : Fields) →
    FieldsStop data (encodeFields order f) (decodeFields data (f.append g)) (updateFirst f g)
  | .one field, _ => fieldsStop_last fits (restores_field order fits field)
  | .cons field rest, g =>
      fieldsStop_next fits (writer_field order field) (writer_fields order rest)
        (restores_field order fits field) (fieldsStop fits rest g)

theorem updateFirst_fresh : (f g : Fields) → (z : FieldVals (f.append g)) → (y : FieldVals f) →
    firstFields f g z = freshFields f → updateFirst f g z y = joinFields f g y (otherFields f g z)
  | .one field, _, z, y, new => by
      have clean := merge_fresh field y
      rw [← show z.1 = fresh field from new] at clean
      exact Prod.ext clean rfl
  | .cons field rest, g, z, y, new => by
      have clean := merge_fresh field y.1
      rw [← show z.1 = fresh field from congrArg Prod.fst new] at clean
      exact Prod.ext clean (updateFirst_fresh rest g z.2 y.2 (congrArg Prod.snd new))

theorem wire_struct (f : Fields) (x : FieldVals f) :
    wire order (.struct f) x =
      sizeBytes (encodeFields order f x []).length ++ encodeFields order f x [] :=
  encodeStruct_eq (writer_fields order f).appends x []

/-- The newer record read by the older program. -/
theorem decode_newer (f g : Fields) (x : FieldVals (f.append g)) (p q : List UInt8)
    (fits : (p ++ wire order (.struct (f.append g)) x ++ q).length ≤ maxSize) :
    (decodeField (p ++ wire order (.struct (f.append g)) x ++ q) (.struct f) (freshFields f)
      p.length).Returns (firstFields f g x)
      (p.length + (wire order (.struct (f.append g)) x).length) := by
  generalize whole : p ++ wire order (.struct (f.append g)) x ++ q = data at fits ⊢
  rw [wire_struct, List.append_assoc] at whole
  rw [wire_struct]
  refine decodeStruct_returns fits ((writer_fields order (f.append g)).ne_nil x) whole.symm
    fun front split => ?_
  have parts := encodeFields_append order f g x
  have read := restores_fields order fits f (freshFields f) (firstFields f g x) front
    (encodeFields order g (otherFields f g x) [] ++ q) front.length
    (encodeFields order (f.append g) x []).length
    (by rw [split, parts, List.append_assoc]) (Nat.le_refl _)
    (by rw [parts, List.length_append]; omega)
  rw [mergeFields_fresh] at read
  exact read

/-- The older record read by the newer program. -/
theorem decode_older (f g : Fields) (y : FieldVals f) (z : FieldVals (f.append g))
    (new : firstFields f g z = freshFields f) (p q : List UInt8)
    (fits : (p ++ wire order (.struct f) y ++ q).length ≤ maxSize) :
    (decodeField (p ++ wire order (.struct f) y ++ q) (.struct (f.append g)) z p.length).Returns
      (joinFields f g y (otherFields f g z)) (p.length + (wire order (.struct f) y).length) := by
  generalize whole : p ++ wire order (.struct f) y ++ q = data at fits ⊢
  rw [wire_struct, List.append_assoc] at whole
  rw [wire_struct]
  refine decodeStruct_returns fits ((writer_fields order f).ne_nil y) whole.symm
    fun front split => ?_
  have read := fieldsStop order fits f g z y front q front.length _ split (Nat.le_refl _) rfl
  rw [updateFirst_fresh f g z y new] at read
  exact read

/-- A record of either version decodes as the other. -/
theorem versions_compatible (f g : Fields) (p q : List UInt8) :
    (∀ x : FieldVals (f.append g),
      (p ++ wire order (.struct (f.append g)) x ++ q).length ≤ maxSize →
      (decodeField (p ++ wire order (.struct (f.append g)) x ++ q) (.struct f) (freshFields f)
        p.length).Returns (firstFields f g x)
        (p.length + (wire order (.struct (f.append g)) x).length)) ∧
    ∀ (y : FieldVals f) (z : FieldVals (f.append g)), firstFields f g z = freshFields f →
      (p ++ wire order (.struct f) y ++ q).length ≤ maxSize →
      (decodeField (p ++ wire order (.struct f) y ++ q) (.struct (f.append g)) z
        p.length).Returns (joinFields f g y (otherFields f g z))
        (p.length + (wire order (.struct f) y).length) :=
  ⟨fun x => decode_newer order f g x p q, fun y z new => decode_older order f g y z new p q⟩

/-- The pair is read as its int, and the int as a pair whose string stays what it was. -/
theorem pair_compatible :
    (decodeField ([7] ++ wire someOrder pairType pairValue ++ []) (.struct (.one (.integer .int)))
      (freshFields (.one (.integer .int))) 1).Returns (0xFFFFFFFB#32)
      (1 + (wire someOrder pairType pairValue).length) ∧
    (decodeField ([7] ++ wire someOrder (.struct (.one (.integer .int))) (0xFFFFFFFB#32) ++ [])
      pairType (0#32, [111]) 1).Returns (0xFFFFFFFB#32, [111])
      (1 + (wire someOrder (.struct (.one (.integer .int))) (0xFFFFFFFB#32)).length) := by
  have newer : ([7] ++ wire someOrder pairType pairValue ++ []).length ≤ maxSize := by
    rw [wire_pairValue]
    decide
  have older : ([7] ++ wire someOrder (.struct (.one (.integer .int))) (0xFFFFFFFB#32) ++
      []).length ≤ maxSize := by
    rw [wire_minusFive]
    decide
  have both := versions_compatible someOrder (.one (.integer .int)) (.one .string) [7] []
  exact ⟨both.1 pairValue newer, both.2 (0xFFFFFFFB#32) (0#32, [111]) rfl older⟩

section Absorbed

variable {α κ ν : Type}

def AbsorbedMap [DecidableEq κ] (x y : Finmap fun _ : κ => ν) : Prop :=
  ∀ k v, x.lookup k = some v → y.lookup k = some v

theorem mergeMap_eq_iff [DecidableEq κ] (x y : Finmap fun _ : κ => ν) :
    mergeMap x y = y ↔ AbsorbedMap x y := by
  constructor
  · intro same k v hv
    rw [← same, lookup_mergeMap, hv, Option.some_or]
  · intro absorbed
    refine Finmap.ext_lookup fun k => ?_
    rw [lookup_mergeMap]
    cases hv : x.lookup k with
    | none => exact Option.none_or
    | some v => rw [absorbed k v hv, Option.some_or]

def AbsorbedSequence (absorbed : α → α → Prop) (x y : List α) : Prop :=
  ∀ (i : Nat) (u v : α), x[i]? = some u → y[i]? = some v → absorbed u v

theorem mergeSequence_eq_iff {merge : α → α → α} {new : α} {absorbed : α → α → Prop}
    (clean : ∀ y, merge new y = y) (each : ∀ u v, merge u v = v ↔ absorbed u v) (x y : List α) :
    mergeSequence merge new x y = y ↔ AbsorbedSequence absorbed x y := by
  induction y generalizing x with
  | nil => exact ⟨fun _ i u v _ none_ => by simp at none_, fun _ => by simp [mergeSequence]⟩
  | cons v y ih =>
      cases x with
      | nil =>
          exact ⟨fun _ i u v none_ => by simp at none_, fun _ => mergeSequence_fresh clean _⟩
      | cons u x =>
          rw [mergeSequence_cons_cons, List.cons.injEq, each, ih]
          constructor
          · rintro ⟨first, others⟩ i u' v' hu hv
            cases i with
            | zero =>
                cases hu
                cases hv
                exact first
            | succ i => exact others i u' v' hu hv
          · intro all
            exact ⟨all 0 u v rfl rfl, fun i u' v' hu hv => all (i + 1) u' v' hu hv⟩

end Absorbed

mutual

/-- Decoding y leaves nothing of x. -/
def Absorbed : (t : Ty) → Val t → Val t → Prop
  | .bool => fun _ _ => True
  | .char => fun _ _ => True
  | .integer _ => fun _ _ => True
  | .floating _ => fun _ _ => True
  | .string => fun _ _ => True
  | .map _ _ _ => AbsorbedMap
  | .sequence _ element => AbsorbedSequence (Absorbed element)
  | .forwardList _ => fun x _ => x = []
  | .set _ _ => fun (x y : Finset _) => x ⊆ y
  | .struct fields => AbsorbedFields fields

def AbsorbedFields : (f : Fields) → FieldVals f → FieldVals f → Prop
  | .one field => Absorbed field
  | .cons field rest => fun x y => Absorbed field x.1 y.1 ∧ AbsorbedFields rest x.2 y.2

end

mutual

theorem merge_eq_iff : (t : Ty) → (x y : Val t) → (merge t x y = y ↔ Absorbed t x y)
  | .bool, _, _ => ⟨fun _ => trivial, fun _ => rfl⟩
  | .char, _, _ => ⟨fun _ => trivial, fun _ => rfl⟩
  | .integer _, _, _ => ⟨fun _ => trivial, fun _ => rfl⟩
  | .floating _, _, _ => ⟨fun _ => trivial, fun _ => rfl⟩
  | .string, _, _ => ⟨fun _ => trivial, fun _ => rfl⟩
  | .map _ _ _, x, y => mergeMap_eq_iff x y
  | .sequence _ element, x, y => mergeSequence_eq_iff (merge_fresh element) (merge_eq_iff element) x y
  | .forwardList _, _, _ => List.append_right_eq_self
  | .set _ _, _, _ => Finset.union_eq_right
  | .struct fields, x, y => mergeFields_eq_iff fields x y

theorem mergeFields_eq_iff : (f : Fields) → (x y : FieldVals f) →
    (mergeFields f x y = y ↔ AbsorbedFields f x y)
  | .one field, x, y => merge_eq_iff field x y
  | .cons field rest, x, y =>
      Prod.ext_iff.trans (and_congr (merge_eq_iff field x.1 y.1) (mergeFields_eq_iff rest x.2 y.2))

end

/-- Decoding the encoding of y into an object equal to x gives y exactly when y absorbs x. -/
theorem decode_overwrites_iff (f : Fields) (x y : FieldVals f)
    (fits : (wire order (.struct f) y).length ≤ maxSize) :
    ((decodeField (wire order (.struct f) y) (.struct f) x 0).status = .ok ∧
      (decodeField (wire order (.struct f) y) (.struct f) x 0).value = y) ↔
      AbsorbedFields f x y := by
  obtain ⟨ok, value, -⟩ := restores_field order fits (.struct f) x y [] []
    (List.append_nil (wire order (.struct f) y)).symm
  rw [← mergeFields_eq_iff f x y]
  exact ⟨fun both => value.symm.trans both.2, fun same => ⟨ok, value.trans same⟩⟩

def usedPair : Val pairType := (0x2A#32, [111, 108, 100])

theorem usedPair_overwritten :
    (decodeField (wire someOrder pairType pairValue) pairType usedPair 0).status = .ok ∧
      (decodeField (wire someOrder pairType pairValue) pairType usedPair 0).value = pairValue :=
  (decode_overwrites_iff someOrder _ usedPair pairValue (by
    have length := congrArg List.length wire_pairValue
    exact length.trans_le (by decide))).mpr ⟨trivial, trivial⟩

/-- struct with a std::forward_list of char. -/
def chainType : Fields := .one (.forwardList .char)

/-- The old element stays behind the decoded one. -/
theorem chain_not_overwritten :
    ¬ ∀ x y : FieldVals chainType,
      (decodeField (wire someOrder (.struct chainType) y) (.struct chainType) x 0).status = .ok ∧
        (decodeField (wire someOrder (.struct chainType) y) (.struct chainType) x 0).value = y := by
  intro all
  have old := (all ([1] : List UInt8) ([2] : List UInt8)).2
  have bytes : wire someOrder (.struct chainType) ([2] : List UInt8) = [2, 1, 2] := by
    have list : encodeForwardList encodeChar [2] [] = [1, 2] := by
      have size : sizeBytes 1 = [1] := groupBytes_last (by decide)
      rw [encodeForwardList_eq, List.length_singleton, size]
      rfl
    have chars : Writer (encodeForwardList encodeChar) := writer_forwardList
    have record := encodeStruct_eq chars.appends [2] []
    have size : sizeBytes 2 = [2] := groupBytes_last (by decide)
    rw [list, List.length_cons, List.length_singleton, size] at record
    exact record
  have fits : (wire someOrder (.struct chainType) ([2] : List UInt8)).length ≤ maxSize := by
    rw [bytes]
    decide
  obtain ⟨-, value, -⟩ := restores_field someOrder fits (.struct chainType) ([1] : List UInt8)
    ([2] : List UInt8) [] [] (List.append_nil (wire someOrder (.struct chainType) ([2] : List UInt8))).symm
  have kept : ([2, 1] : List UInt8) = [2] := value.symm.trans old
  cases kept

end HZRobot.Serial
