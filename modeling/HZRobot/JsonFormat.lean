import HZRobot.JsonAccepts
import HZRobot.JsonReencode

/-!
json::format. The text is decoded and the tree printed again over several lines. What is
printed is a JSON text for what decode has kept, and decode reads the same tree from it
unless dropping the elements without a value has left a symbol last in an array.
-/

namespace HZRobot.Json

section Format

def spaces (indent : Nat) : List UInt8 := List.replicate indent 32

/-- What format appends before the value of a node. -/
def formatStart (indent : Nat) (first : Bool) (key : List UInt8) : List UInt8 :=
  (if first then [] else [44, 10]) ++ spaces indent ++
    if key = [] then [] else 34 :: (key ++ [34, 58, 32])

mutual

/-- json::format on a node -/
def format (indent : Nat) (first : Bool) : Node → List UInt8
  | ⟨_, type, key, value, kv_childs, array_childs⟩ =>
      match type with
      | .string => formatStart indent first key ++ 34 :: (value ++ [34])
      | .integer | .float | .boolean | .null => formatStart indent first key ++ value
      | .object => formatStart indent first key ++ 123 :: 10 ::
          (formatKvChilds (indent + 4) true kv_childs ++ 10 :: (spaces indent ++ [125]))
      | .array => formatStart indent first key ++ 91 :: 10 ::
          (formatArrayChilds (indent + 4) true array_childs ++ 10 :: (spaces indent ++ [93]))
      | .root => []

def formatKvChilds (indent : Nat) (first : Bool) : List (List UInt8 × Node) → List UInt8
  | [] => []
  | (_, node) :: rest => format indent first node ++ formatKvChilds indent false rest

def formatArrayChilds (indent : Nat) (first : Bool) : List Node → List UInt8
  | [] => []
  | node :: rest => format indent first node ++ formatArrayChilds indent false rest

end

/-- json::format on a text; nothing where decode throws. -/
def jsonFormat (data : List UInt8) : Option (List UInt8) :=
  match (jsonDecode data).status with
  | .ok => some (format 0 true (jsonDecode data).value)
  | .failed => some []
  | .threw => none

end Format

section Layout

/-- What format appends behind the start of a node. -/
def formatContent (indent : Nat) (node : Node) : List UInt8 :=
  match node.type with
  | .string => 34 :: (node.value ++ [34])
  | .object => 123 :: 10 ::
      (formatKvChilds (indent + 4) true node.kv_childs ++ 10 :: (spaces indent ++ [125]))
  | .array => 91 :: 10 ::
      (formatArrayChilds (indent + 4) true node.array_childs ++ 10 :: (spaces indent ++ [93]))
  | _ => node.value

theorem format_eq (indent : Nat) (first : Bool) {node : Node} (kind : node.type ≠ .root) :
    format indent first node = formatStart indent first node.key ++ formatContent indent node := by
  obtain ⟨step, type, key, value, kv_childs, array_childs⟩ := node
  cases type with
  | root => exact absurd rfl kind
  | string | integer | float | boolean | null | object | array => rfl

theorem formatKvChilds_eq (indent : Nat) (first : Bool) (childs : List (List UInt8 × Node)) :
    formatKvChilds indent first childs = formatArrayChilds indent first (childs.map Prod.snd) := by
  induction childs generalizing first with
  | nil => rfl
  | cons child childs ih =>
      rw [formatKvChilds, List.map_cons, formatArrayChilds, ih]

theorem blanks_line (indent : Nat) : Blanks (10 :: spaces indent) := by
  intro c mem
  rcases List.mem_cons.mp mem with rfl | inside
  · rfl
  · rw [List.eq_of_mem_replicate inside]
    rfl

theorem blanks_lines (indent : Nat) : Blanks (10 :: 10 :: spaces indent) := by
  intro c mem
  rcases List.mem_cons.mp mem with rfl | inside
  · rfl
  · exact blanks_line indent c inside

theorem blanks_end (last : Bool) (indent : Nat) :
    Blanks (if last then 10 :: spaces indent else []) := by
  cases last with
  | true => exact blanks_line indent
  | false => exact blanks_nil

variable {α : Type}

/-- The elements with a flag that marks the last one. -/
def marked : List α → List (α × Bool)
  | [] => []
  | [a] => [(a, true)]
  | a :: b :: as => (a, false) :: marked (b :: as)

theorem marked_fst (as : List α) : (marked as).map Prod.fst = as := by
  induction as with
  | nil => rfl
  | cons a as ih =>
      cases as with
      | nil => rfl
      | cons b as => rw [marked, List.map_cons, ih]

theorem marked_map {β : Type} (f : α → β) (as : List α) :
    (marked as).map (fun a => f a.1) = as.map f := by
  have split : (fun a : α × Bool => f a.1) = f ∘ Prod.fst := rfl
  rw [split, ← List.map_map, marked_fst]

/-- The text of a child, from the end of the line before it, up to the end of its own where
it is the last one. -/
def lineText (indent outer : Nat) (content : α → List UInt8) (a : α × Bool) : List UInt8 :=
  10 :: (spaces indent ++ (content a.1 ++ if a.2 then 10 :: spaces outer else []))

/-- Children are printed on lines of their own, with commas between them. -/
theorem formatArrayChilds_lines {indent outer : Nat} {content : α → List UInt8} {node : α → Node}
    {as : List α} (some_ : as ≠ [])
    (each : ∀ a ∈ as, ∀ first, format indent first (node a) =
      (if first then [] else [44, 10]) ++ (spaces indent ++ content a)) (first : Bool) :
    (if first then [10] else []) ++
        (formatArrayChilds indent first (as.map node) ++ 10 :: spaces outer) =
      (if first then [] else [44]) ++
        [44].intercalate ((marked as).map (lineText indent outer content)) := by
  induction as generalizing first with
  | nil => exact absurd rfl some_
  | cons a as ih =>
      have here := each a List.mem_cons_self first
      cases as with
      | nil =>
          rw [List.map_cons, formatArrayChilds, here]
          cases first <;> simp [marked, lineText, formatArrayChilds]
      | cons b as =>
          have later := ih (List.cons_ne_nil b as) (fun c hc => each c (List.mem_cons_of_mem a hc)) false
          have more : (marked (b :: as)).map (lineText indent outer content) ≠ [] := by
            cases as <;> simp [marked]
          have childs : (a :: b :: as).map node = node a :: (b :: as).map node := rfl
          have lines : (marked (a :: b :: as)).map (lineText indent outer content) =
              lineText indent outer content (a, false) ::
                (marked (b :: as)).map (lineText indent outer content) := rfl
          rw [childs, formatArrayChilds, here, lines, List.intercalate_cons_of_ne_nil more]
          simp only [Bool.false_eq_true, if_false, List.nil_append] at later
          rw [List.append_assoc, later]
          cases first <;> simp [lineText]

/-- Brackets around the lines of the children. -/
theorem bracketed_lines (opening closing : UInt8) {indent : Nat} {content : α → List UInt8}
    {node : α → Node} {as : List α} (some_ : as ≠ [])
    (each : ∀ a ∈ as, ∀ first, format indent first (node a) =
      (if first then [] else [44, 10]) ++ (spaces indent ++ content a)) (outer : Nat) :
    opening :: 10 :: (formatArrayChilds indent true (as.map node) ++
        10 :: (spaces outer ++ [closing])) =
      opening :: ([44].intercalate ((marked as).map (lineText indent outer content)) ++
        [closing]) := by
  have lines := @formatArrayChilds_lines α indent outer content node as some_ each true
  simp only [if_true, List.nil_append] at lines
  rw [← lines]
  simp

end Layout

section Printing

/-- What decode has made of the document is printed as a text of what is left of it. -/
def Formats (d : Doc) : Prop :=
  d.node.type ≠ .root ∧ ∀ indent, Spells (formatContent indent d.node) d.canon

theorem format_labelled {d : Doc} (kind : d.node.type ≠ .root) (indent : Nat) (first : Bool)
    (key : List UInt8) :
    format indent first { d.node with key := key } = (if first then [] else [44, 10]) ++
      (spaces indent ++
        ((if key = [] then [] else 34 :: (key ++ [34, 58, 32])) ++ formatContent indent d.node)) := by
  have kind' : ({ d.node with key := key } : Node).type ≠ .root := kind
  rw [format_eq indent first kind', formatStart, List.append_assoc, List.append_assoc]
  rfl

theorem marked_mem {as : List α} {a : α × Bool} (h : a ∈ marked as) : a.1 ∈ as := by
  rw [← marked_fst as]
  exact List.mem_map_of_mem h

theorem marked_ne_nil {as : List α} (some_ : as ≠ []) : marked as ≠ [] := by
  intro none_
  have same := marked_fst as
  rw [none_] at same
  exact some_ same.symm

theorem formats_array {ds : List Doc} (h : ∀ d ∈ ds, Formats d) : Formats (.array ds) := by
  have node : (Doc.array ds).node =
      { arrayNode (Doc.nodes ds) with
        array_childs := (ds.filter fun d => solid d.node).map Doc.node } := by
    have filtered : solid ∘ Doc.node = fun d => solid d.node := rfl
    rw [Doc.node, arrayNode, Doc.nodes_eq, List.filter_map, filtered]
  have kept : ∀ d ∈ ds.filter fun d => solid d.node, Formats d :=
    fun d mem => h d (List.mem_filter.mp mem).1
  rw [Formats, Doc.canon, Doc.canonElements_eq, node]
  generalize ds.filter (fun d => solid d.node) = es at kept ⊢
  refine ⟨NodeType.noConfusion, fun indent => ?_⟩
  show Spells (91 :: 10 :: (formatArrayChilds (indent + 4) true (es.map Doc.node) ++
    10 :: (spaces indent ++ [93]))) _
  by_cases none_ : es = []
  · subst none_
    exact @Spells.emptyArray (10 :: 10 :: spaces indent) (blanks_lines indent)
  · have texts (d : Doc) (mem : d ∈ es) (first : Bool) : format (indent + 4) first d.node =
        (if first then [] else [44, 10]) ++
          (spaces (indent + 4) ++ formatContent (indent + 4) d.node) := by
      have same := format_labelled (kept d mem).1 (indent + 4) first []
      rwa [keyless_eq d.node_key] at same
    have text := bracketed_lines 91 93 none_ texts indent
    have spelled := @Spells.array ((marked es).map fun a =>
      (⟨10 :: spaces (indent + 4), formatContent (indent + 4) a.1.node,
        if a.2 then 10 :: spaces indent else []⟩, a.1.canon))
      (by simpa using marked_ne_nil none_) (fun e mem => ?_) fun e mem => ?_
    · rw [List.map_map, List.map_map] at spelled
      have line (a : Doc × Bool) :
          lineText (indent + 4) indent (fun d => formatContent (indent + 4) d.node) a =
            ElementText.text ⟨10 :: spaces (indent + 4), formatContent (indent + 4) a.1.node,
              if a.2 then 10 :: spaces indent else []⟩ := by
        simp [lineText, ElementText.text]
      rw [text, ← marked_map Doc.canon, funext line]
      exact spelled
    · obtain ⟨a, -, rfl⟩ := List.mem_map.mp mem
      exact ⟨blanks_line _, blanks_end a.2 indent⟩
    · obtain ⟨a, ha, rfl⟩ := List.mem_map.mp mem
      exact (kept a.1 (marked_mem ha)).2 _

theorem formats_object {ms : List (List UInt8 × Doc)}
    (names : ∀ m ∈ ms, m.1 ≠ [] ∧ Unescaped m.1) (h : ∀ m ∈ ms, Formats m.2) :
    Formats (.object ms) := by
  have node : (Doc.object ms).node =
      { decode_step := .end_, type := .object,
        kv_childs := (arrange ms).map fun m => (m.1, Doc.memberNode m) } := by
    rw [Doc.node, Doc.entries_eq, arrange_map]
  have inside (m : List UInt8 × Doc) (mem : m ∈ arrange ms) := mem_arrange mem
  rw [Formats, Doc.canon, Doc.canonMembers_eq, @arrange_map _ _ fun m => Doc.canon m.2, node]
  generalize arrange ms = es at inside ⊢
  refine ⟨NodeType.noConfusion, fun indent => ?_⟩
  show Spells (123 :: 10 :: (formatKvChilds (indent + 4) true (es.map fun m =>
    (m.1, Doc.memberNode m)) ++ 10 :: (spaces indent ++ [125]))) _
  rw [formatKvChilds_eq, List.map_map]
  by_cases none_ : es = []
  · subst none_
    exact @Spells.emptyObject (10 :: 10 :: spaces indent) (blanks_lines indent)
  · have texts (m : List UInt8 × Doc) (mem : m ∈ es) (first : Bool) :
        format (indent + 4) first (Doc.memberNode m) = (if first then [] else [44, 10]) ++
          (spaces (indent + 4) ++
            (34 :: (m.1 ++ [34, 58, 32]) ++ formatContent (indent + 4) m.2.node)) := by
      have same := format_labelled (h m (inside m mem)).1 (indent + 4) first m.1
      rwa [if_neg (names m (inside m mem)).1] at same
    have text := bracketed_lines 123 125 none_ texts indent
    have spelled := @Spells.object ((marked es).map fun a =>
      (⟨10 :: spaces (indent + 4), a.1.1, [], ⟨[32], formatContent (indent + 4) a.1.2.node,
        if a.2 then 10 :: spaces indent else []⟩⟩, a.1.2.canon))
      (by simpa using marked_ne_nil none_) (fun e mem => ?_) (fun e mem => ?_) fun e mem => ?_
    · rw [List.map_map, List.map_map] at spelled
      have line (a : (List UInt8 × Doc) × Bool) :
          lineText (indent + 4) indent (fun m : List UInt8 × Doc =>
            34 :: (m.1 ++ [34, 58, 32]) ++ formatContent (indent + 4) m.2.node) a =
            MemberText.text ⟨10 :: spaces (indent + 4), a.1.1, [],
              ⟨[32], formatContent (indent + 4) a.1.2.node,
                if a.2 then 10 :: spaces indent else []⟩⟩ := by
        simp [lineText, MemberText.text, ElementText.text]
      have nodes : es.map (Prod.snd ∘ fun m => (m.1, Doc.memberNode m)) = es.map Doc.memberNode := rfl
      rw [nodes, text, ← marked_map fun m : List UInt8 × Doc => (m.1, m.2.canon), funext line]
      exact spelled
    · obtain ⟨a, ha, rfl⟩ := List.mem_map.mp mem
      exact ⟨(names a.1 (inside a.1 (marked_mem ha))).2, blanks_line _, blanks_nil⟩
    · obtain ⟨a, -, rfl⟩ := List.mem_map.mp mem
      refine ⟨fun c space => ?_, blanks_end a.2 indent⟩
      rw [List.mem_singleton.mp space]
      rfl
    · obtain ⟨a, ha, rfl⟩ := List.mem_map.mp mem
      exact (h a.1 (inside a.1 (marked_mem ha))).2 _

theorem Spells.formats {t : List UInt8} {d : Doc} (h : Spells t d) (keyed : d.Keyed) :
    Formats d := by
  induction h with
  | @symbol type text inside =>
      have kinds : ∀ e ∈ symbols, e.1 = .boolean ∨ e.1 = .null := by decide
      rw [Formats, Doc.node, Doc.canon]
      refine ⟨fun root => ?_, fun indent => ?_⟩
      · rcases kinds _ inside with same | same <;> cases same.symm.trans root
      · have content : formatContent indent
            { decode_step := endStep type, type := type, value := text } = text := by
          rcases kinds _ inside with rfl | rfl <;> rfl
        rw [content]
        exact .symbol inside
  | @number text number =>
      have kinds : numberType text = .integer ∨ numberType text = .float := by
        rw [numberType]
        split
        · exact .inl rfl
        · exact .inr rfl
      rw [Formats, Doc.node, Doc.canon]
      refine ⟨fun root => ?_, fun indent => ?_⟩
      · rcases kinds with same | same <;> cases same.symm.trans root
      · have content : formatContent indent
            { decode_step := endStep (numberType text), type := numberType text, value := text } =
              text := by
          rcases kinds with same | same <;> rw [same] <;> rfl
        rw [content]
        exact .number number
  | string unescaped =>
      rw [Formats, Doc.node, Doc.canon]
      exact ⟨NodeType.noConfusion, fun _ => .string unescaped⟩
  | emptyArray blanks => exact formats_array fun d none_ => by cases none_
  | array some_ blanks values ih =>
      cases keyed with
      | array elements =>
          refine formats_array fun d mem => ?_
          obtain ⟨e, he, rfl⟩ := List.mem_map.mp mem
          exact ih e he (elements e.2 mem)
  | emptyObject blanks =>
      exact formats_object (fun m none_ => by cases none_) fun m none_ => by cases none_
  | object some_ names blanks values ih =>
      cases keyed with
      | object distinct named values_ =>
          refine formats_object (fun m mem => ?_) fun m mem => ?_
          · obtain ⟨m', hm', rfl⟩ := List.mem_map.mp mem
            exact ⟨named _ mem, (names m' hm').1⟩
          · obtain ⟨m', hm', rfl⟩ := List.mem_map.mp mem
            exact ih m' hm' (values_ _ mem)

end Printing

section Canonical

theorem arrange_arrange {ν : Type} (es : List (List UInt8 × ν)) :
    arrange (arrange es) = arrange es := by
  have sorted := OrderedMap.foldl_emplace_pairwise before StdMap.less_trans es List.Pairwise.nil
  have again := OrderedMap.foldl_emplace_sorted StdMap.less_asymm [] (arrange es) sorted
  rw [List.nil_append] at again
  exact again

/-- What is left of a document is kept as it is. -/
theorem Doc.Keyed.canon_node {d : Doc} (h : d.Keyed) : d.canon.node = d.node := by
  induction h with
  | atom | string => rw [Doc.canon]
  | @array ds elements ih =>
      have filtered : solid ∘ Doc.node = fun d => solid d.node := rfl
      have same : ((ds.filter fun d => solid d.node).map Doc.canon).map Doc.node =
          (ds.filter fun d => solid d.node).map Doc.node := by
        rw [List.map_map]
        exact List.map_congr_left fun d mem => ih d (List.mem_filter.mp mem).1
      have all : ∀ d ∈ ds.filter fun d => solid d.node, solid d.node = true :=
        fun d mem => (List.mem_filter.mp mem).2
      rw [Doc.canon, Doc.canonElements_eq, Doc.node, Doc.node, arrayNode, arrayNode, Doc.nodes_eq,
        Doc.nodes_eq, same, List.filter_map, List.filter_map, filtered, List.filter_eq_self.mpr all]
  | @object ms distinct some_ values ih =>
      have same : (arrange ms).map (fun m => (m.1, Doc.memberNode (m.1, m.2.canon))) =
          (arrange ms).map fun m => (m.1, Doc.memberNode m) := by
        refine List.map_congr_left fun m mem => ?_
        rw [Doc.memberNode, Doc.memberNode, ih m (mem_arrange mem)]
      have entries : arrange (Doc.entries (arrange (Doc.canonMembers ms))) =
          arrange (Doc.entries ms) := by
        rw [Doc.canonMembers_eq, @arrange_map _ _ fun m => Doc.canon m.2, Doc.entries_eq,
          Doc.entries_eq, List.map_map]
        show arrange ((arrange ms).map fun m => (m.1, Doc.memberNode (m.1, m.2.canon))) = _
        rw [same, arrange_map, arrange_map, arrange_arrange]
      rw [Doc.canon, Doc.node, Doc.node, entries]

theorem Doc.Keyed.canon {d : Doc} (h : d.Keyed) : d.canon.Keyed := by
  induction h with
  | atom =>
      rw [Doc.canon]
      exact .atom
  | string =>
      rw [Doc.canon]
      exact .string
  | @array ds elements ih =>
      rw [Doc.canon, Doc.canonElements_eq]
      exact .array (List.forall_mem_map.mpr fun d mem => ih d (List.mem_filter.mp mem).1)
  | @object ms distinct some_ values ih =>
      have perm := (arrange_perm distinct).map Prod.fst
      rw [Doc.canon, Doc.canonMembers_eq, @arrange_map _ _ fun m => Doc.canon m.2]
      refine .object ?_ (List.forall_mem_map.mpr fun m mem => some_ m (mem_arrange mem))
        (List.forall_mem_map.mpr fun m mem => ih m (mem_arrange mem))
      rw [List.map_map]
      exact perm.nodup_iff.mpr distinct

end Canonical

theorem jsonFormat_eq {s : List UInt8} {d : Doc} (node : (jsonDecode s).value = d.node)
    (accepted : (jsonDecode s).status = .ok) (formats : Formats d) :
    jsonFormat s = some (formatContent 0 d.node) := by
  have start := format_eq 0 true formats.1
  rw [d.node_key] at start
  rw [jsonFormat, accepted, node]
  exact congrArg some start

/-- A formatted document is a text of what decode has kept of it. It is taken again exactly
where that is readable, and formatting it once more changes nothing. -/
theorem format_document {s : List UInt8} {d : Doc} (h : Container s d)
    (accepted : (jsonDecode s).status = .ok) :
    ∃ out, jsonFormat s = some out ∧ Container out d.canon ∧ (out.length ≤ limit →
      ((jsonDecode out).status = .ok ↔ d.canon.Readable) ∧
      (d.canon.Readable →
        (jsonDecode out).value = (jsonDecode s).value ∧ jsonFormat out = some out)) := by
  obtain ⟨node, e, -, spelled, -⟩ := h.decoded accepted
  have formats := spelled.formats h.keyed
  have said : Says (formatContent 0 d.node) d.canon :=
    ⟨⟨[], _, []⟩, (List.append_nil _).symm, blanks_nil, blanks_nil, formats.2 0⟩
  have kind : (∃ ds, d.canon = .array ds) ∨ ∃ ms, d.canon = .object ms := by
    rcases h.kind with ⟨ds, rfl⟩ | ⟨ms, rfl⟩
    · exact .inl ⟨_, by rw [Doc.canon]⟩
    · exact .inr ⟨_, by rw [Doc.canon]⟩
  have again : Container (formatContent 0 d.node) d.canon := ⟨said, kind, h.keyed.canon⟩
  refine ⟨_, jsonFormat_eq node accepted formats, again, fun small => ?_⟩
  have taken := accepts_document_iff said kind small
  refine ⟨taken, fun readable => ?_⟩
  have ok := taken.mpr readable
  have node' := (again.decoded ok).1
  have kept := h.keyed.canon_node
  refine ⟨by rw [node', kept, node], ?_⟩
  have formats' : Formats d.canon := (formats.2 0).formats h.keyed.canon
  rw [jsonFormat_eq node' ok formats', kept]

theorem format_document_twoMembers : ∃ out, jsonFormat twoMembers = some out ∧
    (jsonDecode out).status = .ok ∧ (jsonDecode out).value = (jsonDecode twoMembers).value ∧
      jsonFormat out = some out := by
  obtain ⟨out, prints, -, again⟩ := format_document twoMembers_container (by decide +kernel)
  have text : jsonFormat twoMembers =
      some ([123, 10] ++ bytes "    \"a\": \"\"," ++ [10] ++ bytes "    \"b\": true" ++ [10, 125]) := by decide +kernel
  have small : out.length ≤ limit := by
    rw [← Option.some.inj (text.symm.trans prints)]
    decide +kernel
  have kept : (Doc.object [([98], .atom .boolean (bytes "true")), ([97], .string [])]).canon =
      .object [([97], .string []), ([98], .atom .boolean (bytes "true"))] := by rfl
  have readable : (Doc.object [([97], .string []),
      ([98], .atom .boolean (bytes "true"))]).Readable := by
    refine .object (by decide) ?_
    simp only [List.forall_mem_cons, List.not_mem_nil, false_imp_iff, implies_true, and_true]
    exact ⟨.string, .symbol rfl⟩
  obtain ⟨taken, same⟩ := again small
  rw [kept] at taken same
  exact ⟨out, prints, taken.mpr readable, same readable⟩

/-- An empty array behind a symbol is dropped, and the symbol is not taken again. -/
example : jsonFormat (bytes "[true,[]]") = some (bytes "[\n    true\n]") ∧
    jsonFormat (bytes "[\n    true\n]") = some [] := by
  decide +kernel

end HZRobot.Json
