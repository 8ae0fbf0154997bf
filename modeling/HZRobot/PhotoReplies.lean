import HZRobot.PhotoTask
import HZRobot.JsonAccepts
import HZRobot.ConfigPhoto

/-!
Replies that json::decode reads as they stand. The document of the text then says what
find_kv_child and get_value give of it, and whether it is complete; atoi reads equal integers
alike.
-/

namespace HZRobot.PhotoTask
open Http Json MysqlLogs

theorem spells_self (name : List UInt8) : Spells name name := by
  refine ⟨name.map fun c => [c], (List.flatMap_singleton' name).symm, ?_⟩
  induction name with
  | nil => exact .nil
  | cons c name ih => exact .cons .plain ih

/-- A JSON object that json::decode reads as it stands: without a backslash, with names of its
own in every object, and with none of the forms that decode refuses. -/
structure Plain (tmp : List UInt8) (ms : List (List UInt8 × Doc)) : Prop where
  text : Says tmp (.object ms)
  keyed : (Doc.object ms).Keyed
  readable : (Doc.object ms).Readable
  small : tmp.length < 2 ^ 31

def members : Doc → List (List UInt8 × Doc)
  | .object ms => ms
  | _ => []

def member (d : Doc) (name : String) : Option Doc :=
  ((members d).find? fun m => m.1 = bytes name).map Prod.snd

/-- request.tablenum and successnum. -/
def counts (d : Doc) : Option (Doc × Doc) := do
  let request ← member d "request"
  let tablenum ← member request "tablenum"
  let successnum ← member d "successnum"
  return (tablenum, successnum)

/-- What get_value gives of it. -/
def valueText : Doc → List UInt8
  | .atom _ text => text
  | .string chars => chars
  | .array _ => []
  | .object _ => []

/-- A JSON number without fraction and exponent that is this integer. -/
def IsInteger (d : Doc) (i : Int) : Prop := ∃ type text, d = .atom type text ∧ IntegerText text i

/-- get_value of the two members in a tree. -/
def texts (root : Node) : Option (List UInt8 × List UInt8) := do
  let request ← findKvChild root (bytes "request")
  let tablenum ← findKvChild request (bytes "tablenum")
  let successnum ← findKvChild root (bytes "successnum")
  return (tablenum.value, successnum.value)

theorem find?_of_nodup {ν : Type} {es : List (List UInt8 × ν)} (distinct : (es.map Prod.fst).Nodup)
    {name : List UInt8} {v : ν} (inside : (name, v) ∈ es) :
    es.find? (fun e => e.1 = name) = some (name, v) := by
  induction es with
  | nil => cases inside
  | cons first es ih =>
      rw [List.map_cons, List.nodup_cons] at distinct
      rcases List.mem_cons.mp inside with rfl | later
      · exact List.find?_cons_of_pos (by simp)
      · have other : first.1 ≠ name := fun same =>
          distinct.1 (same ▸ List.mem_map_of_mem (f := Prod.fst) later)
        rw [List.find?_cons_of_neg (by simpa using other), ih distinct.2 later]

theorem keyed_distinct {d : Doc} (keyed : d.Keyed) : ((members d).map Prod.fst).Nodup := by
  cases keyed with
  | atom => exact List.nodup_nil
  | string => exact List.nodup_nil
  | array elements => exact List.nodup_nil
  | object distinct some_ values => exact distinct

theorem keyed_member {d : Doc} (keyed : d.Keyed) {m : List UInt8 × Doc} (inside : m ∈ members d) :
    m.2.Keyed := by
  cases keyed with
  | atom => cases inside
  | string => cases inside
  | array elements => cases inside
  | object distinct some_ values => exact values m inside

theorem member_of_mem {d v : Doc} (keyed : d.Keyed) {name : String}
    (inside : (bytes name, v) ∈ members d) : member d name = some v := by
  rw [member, find?_of_nodup (keyed_distinct keyed) inside]
  rfl

theorem mem_of_member {d v : Doc} {name : String} (h : member d name = some v) :
    (bytes name, v) ∈ members d := by
  obtain ⟨m, found, rfl⟩ := Option.map_eq_some_iff.mp h
  have here := List.find?_some found
  rw [← of_decide_eq_true here]
  exact List.mem_of_find?_eq_some found

/-- The type of an atom in a text is none of the containers. -/
theorem atom_type {type : NodeType} {t text : List UInt8} (h : Json.Spells t (.atom type text)) :
    t = text ∧ type ≠ .object := by
  cases h with
  | symbol inside =>
      refine ⟨rfl, ?_⟩
      rintro rfl
      revert inside
      simp [symbols]
  | number number =>
      refine ⟨rfl, ?_⟩
      rw [numberType]
      split <;> simp

/-- find_kv_child on what decode makes of a document. -/
theorem findKvChild_node {t : List UInt8} {d : Doc} (spelled : Json.Spells t d) (keyed : d.Keyed)
    (name : String) :
    findKvChild d.node (bytes name) =
      (member d name).map fun v => Doc.memberNode (bytes name, v) := by
  cases d with
  | atom type text =>
      have type_ := (atom_type spelled).2
      rw [findKvChild, Doc.node, if_pos type_]
      rfl
  | string chars => rfl
  | array elements =>
      rw [findKvChild, Doc.node, if_pos (by simp [arrayNode])]
      rfl
  | object ms =>
      have childs : (Doc.object ms).node.kv_childs =
          arrange (ms.map fun m => (m.1, Doc.memberNode m)) := by
        rw [Doc.node, Doc.entries_eq]
      have distinct : ((ms.map fun m => (m.1, Doc.memberNode m)).map Prod.fst).Nodup := by
        rw [List.map_map]
        exact keyed_distinct keyed
      have type_ : (Doc.object ms).node.type = .object := by rw [Doc.node]
      rw [findKvChild, if_neg (by simp [type_]), childs]
      cases found : member (.object ms) name with
      | some v =>
          have inside : (bytes name, Doc.memberNode (bytes name, v)) ∈
              arrange (ms.map fun m => (m.1, Doc.memberNode m)) := by
            rw [(arrange_perm distinct).mem_iff]
            exact List.mem_map_of_mem (f := fun m => (m.1, Doc.memberNode m)) (mem_of_member found)
          have sorted : ((arrange (ms.map fun m => (m.1, Doc.memberNode m))).map Prod.fst).Nodup :=
            ((arrange_perm distinct).map Prod.fst).nodup_iff.mpr distinct
          rw [find?_of_nodup sorted inside]
          rfl
      | none =>
          have absent : (arrange (ms.map fun m => (m.1, Doc.memberNode m))).find?
              (fun child => child.1 = bytes name) = none := by
            rw [List.find?_eq_none]
            intro e inside same
            obtain ⟨m, here, rfl⟩ := List.mem_map.mp (mem_arrange inside)
            have key : m.1 = bytes name := of_decide_eq_true same
            have some_ : member (.object ms) name = some m.2 :=
              member_of_mem keyed (key ▸ here)
            rw [found] at some_
            cases some_
          rw [absent]
          rfl

theorem spells_members {t : List UInt8} {d : Doc} (h : Json.Spells t d) :
    ∀ m ∈ members d, ∃ u, HasMember t m.1 u ∧ Json.Spells u m.2 := by
  cases h with
  | symbol | number | string | emptyArray | array | emptyObject => simp [PhotoTask.members]
  | @object ms some_ names blanks values =>
      intro m inside
      obtain ⟨m', here, rfl⟩ := List.mem_map.mp inside
      have all : JsonMembers (ms.map Prod.fst) := by
        constructor
        · intro x hx
          obtain ⟨x', hx', rfl⟩ := List.mem_map.mp hx
          exact ⟨(unescaped_iff.mp (names x' hx').1).1, (names x' hx').2⟩
        · intro x hx
          obtain ⟨x', hx', rfl⟩ := List.mem_map.mp hx
          exact blanks x' hx'
        · intro x hx
          obtain ⟨x', hx', rfl⟩ := List.mem_map.mp hx
          exact (values x' hx').jsonValue
      refine ⟨m'.1.element.value, ⟨ms.map Prod.fst, ?_, all, m'.1, List.mem_map_of_mem here,
        spells_self _, rfl⟩, values m' here⟩
      simp [List.map_map, Function.comp_def]

theorem IntegerText.number {text : List UInt8} {i : Int} (h : IntegerText text i) :
    JsonNumber text := by
  obtain ⟨digits, int_, (⟨rfl, -⟩ | ⟨rfl, -⟩)⟩ := h
  · simpa using @JsonNumber.mk [] text [] [] (.inl rfl) int_ .none .none
  · simpa using @JsonNumber.mk [45] digits [] [] (.inr rfl) int_ .none .none

theorem valueText_node (d : Doc) : d.node.value = valueText d := by
  cases d with
  | atom type text => rw [Doc.node, valueText]
  | string chars => rw [Doc.node, valueText]
  | array elements => rw [Doc.node, valueText, arrayNode]
  | object members => rw [Doc.node, valueText]

/-- find_kv_child does not read the key of the node it starts from. -/
theorem findKvChild_memberNode (m : List UInt8 × Doc) (name : List UInt8) :
    findKvChild (Doc.memberNode m) name = findKvChild m.2.node name := rfl

theorem texts_node {t : List UInt8} {d : Doc} (spelled : Json.Spells t d) (keyed : d.Keyed) :
    texts d.node = (counts d).map fun both => (valueText both.1, valueText both.2) := by
  unfold texts counts
  rw [findKvChild_node spelled keyed, findKvChild_node spelled keyed]
  cases request : member d "request" with
  | none => rfl
  | some r =>
      have inside := mem_of_member request
      obtain ⟨u, -, spelledR⟩ := spells_members spelled _ inside
      have inner := findKvChild_node spelledR (keyed_member keyed inside) "tablenum"
      simp only [Option.map_some, Option.bind_eq_bind, Option.bind_some, findKvChild_memberNode,
        inner]
      cases member r "tablenum" with
      | none => rfl
      | some a =>
          cases member d "successnum" with
          | none => rfl
          | some b => simp [Doc.memberNode, valueText_node]

/-- What json::decode leaves of a plain reply. -/
theorem Plain.decoded {tmp : List UInt8} {ms : List (List UInt8 × Doc)} (h : Plain tmp ms) :
    (jsonDecode tmp).status = .ok ∧ texts (jsonDecode tmp).value =
      (counts (.object ms)).map fun both => (valueText both.1, valueText both.2) := by
  have ok := (accepts_document_iff h.text (.inr ⟨ms, rfl⟩) (Nat.le_of_lt h.small)).mpr h.readable
  have container : Container tmp (.object ms) := ⟨h.text, .inr ⟨ms, rfl⟩, h.keyed⟩
  obtain ⟨e, -, -, -, spelled⟩ := h.text
  refine ⟨ok, ?_⟩
  rw [(container.decoded ok).1, texts_node spelled h.keyed]

/-- atoi reads equal integers alike. -/
theorem IsInteger.alike {a b : Doc} {i : Int} (ha : IsInteger a i) (hb : IsInteger b i) :
    atoi (valueText a) = atoi (valueText b) := by
  have read {d : Doc} (h : IsInteger d i) : strtoll (valueText d) = ConfigPhoto.clamp i := by
    obtain ⟨type, text, rfl, digits, int_, spelled⟩ := h
    have all : digits ≠ [] ∧ ∀ d ∈ digits, isDigit d = true := by
      cases int_ with
      | zero => simp [isDigit]
      | @digits d ds first positive others =>
          refine ⟨List.cons_ne_nil _ _, fun x hx => ?_⟩
          rcases List.mem_cons.mp hx with rfl | later
          · exact first
          · exact others x later
    refine ConfigPhoto.strtoll_integerText ?_
    rcases spelled with ⟨rfl, rfl⟩ | ⟨rfl, rfl⟩
    · exact .unsigned all.1 all.2
    · exact .minus all.1 all.2
  rw [atoi, atoi, read ha, read hb]

end HZRobot.PhotoTask
