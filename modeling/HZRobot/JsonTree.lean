import HZRobot.JsonStrings
import HZRobot.JsonNumbers

/-!
A tree that is printed and parsed again. Every printed value is a text that the parser
reads back wherever it stands, and the tree comes back whenever its text ends within the
reach of int32; only the steps of the nodes differ.
-/

namespace HZRobot.Json

section Scalars

/-- A symbol behind the reach of int32 is not looked at to its end. -/
theorem skipSpace_beyond {data : List UInt8} {pos : Nat} (far : limit < pos) (near : pos < 2 * limit)
    (more : pos < data.length) : (skipSpace data pos).status ≠ .ok := by
  obtain ⟨left, size⟩ : ∃ left, data.length - pos = left + 1 := ⟨data.length - pos - 1, by omega⟩
  have negative : ¬ 0 ≤ toInt32 pos := by
    unfold limit at far near
    unfold toInt32
    omega
  have none_ : at_ data (toInt32 pos) = none := if_neg negative
  rw [skipSpace, size, scan, readAt, read, none_]
  intro ok
  cases ok

theorem parseSymbol_within {symbol data p q : List UInt8} {c : UInt8} {pos : Nat}
    (split : data = p ++ (symbol ++ c :: q)) (ends : c = 44 ∨ c = 125) (here : p.length = pos)
    (start : pos ≤ limit) (short : symbol.length < limit) (node : Node) (type : NodeType) :
    (parseSymbol node data pos type symbol).ReturnsWithin limit (pos + symbol.length + 1)
      { node with type := type, value := symbol, decode_step := .end_ } (pos + symbol.length) := by
  have behind : data = (p ++ symbol) ++ c :: q := by simp [split]
  have there : (p ++ symbol).length = pos + symbol.length := by rw [List.length_append, here]
  have visible : isBlank c = false := by rcases ends with rfl | rfl <;> rfl
  rw [parseSymbol]
  by_cases reached : pos + symbol.length ≤ limit
  · refine (skipSpace_within visible behind there reached).andThen (Nat.le_refl _) fun _ => ?_
    refine (readAt_within behind there reached).andThen (Nat.le_refl _) fun inside => ?_
    rw [if_neg (by rcases ends with rfl | rfl <;> decide)]
    exact Decoded.Returns.within ⟨rfl, rfl, rfl⟩ inside
  · have size : data.length = pos + symbol.length + 1 + q.length := by
      rw [behind, List.length_append, there, List.length_cons]
      omega
    have beyond : limit < pos + symbol.length := by omega
    have near : pos + symbol.length < 2 * limit := by omega
    have more : pos + symbol.length < data.length := by omega
    have stops := skipSpace_beyond beyond near more
    refine ⟨fun inside => absurd inside (by omega), fun _ => ?_⟩
    rwa [Decoded.andThen_stopped stops]

/-- Up to the symbols, no other kind of value begins with this byte. -/
theorem decodeText_symbol {data p q : List UInt8} {ch : UInt8} {pos bound stop : Nat}
    {node v : Node} {next : Node → Nat → Decoded Event Node} (split : data = p ++ ch :: q)
    (here : p.length = pos) (start : pos ≤ limit) (letter : isDigit ch = false)
    (other : ch ∉ [123, 91, 45, 34, 39]) (le : pos + 1 ≤ bound)
    (k : pos + 1 ≤ limit →
      (decodeSymbol node data pos next symbols).ReturnsWithin limit bound v stop) :
    (decodeText node data pos next).ReturnsWithin limit bound v stop := by
  simp only [List.mem_cons, List.not_mem_nil, or_false, not_or] at other
  obtain ⟨brace, bracket, minus, quote, apostrophe⟩ := other
  rw [decodeText]
  refine (readAt_within split here start).andThen le fun inside => ?_
  rw [if_neg brace, if_neg bracket]
  refine ((startsNumber_other data pos letter minus).within inside).andThen le fun _ => ?_
  rw [if_neg Bool.false_ne_true, if_neg (by simp [quote, apostrophe])]
  exact k inside

/-- The symbols are told apart by what they begin with. -/
theorem decodeSymbol_eq {type : NodeType} {symbol data rest : List UInt8} {pos : Nat}
    (inside : (type, symbol) ∈ symbols) (drop : data.drop pos = symbol ++ rest) (node : Node)
    (next : Node → Nat → Decoded Event Node) :
    ∃ events, decodeSymbol node data pos next symbols =
      (parseSymbol node data pos type symbol).after events := by
  simp only [symbols, List.mem_cons, Prod.mk.injEq, List.not_mem_nil, or_false] at inside
  have apart (other : List UInt8) (first : other.isPrefixOf (symbol ++ rest) = false) :
      ¬ other.isPrefixOf (data.drop pos) = true := by
    rw [drop, first]
    exact Bool.false_ne_true
  have here : symbol.isPrefixOf (data.drop pos) = true := by
    rw [drop]
    exact List.isPrefixOf_iff_prefix.mpr (List.prefix_append symbol rest)
  rcases inside with ⟨rfl, rfl⟩ | ⟨rfl, rfl⟩ | ⟨rfl, rfl⟩
  · rw [symbols, decodeSymbol, if_pos here]
    exact ⟨_, rfl⟩
  · rw [symbols, decodeSymbol, if_neg (apart _ rfl), decodeSymbol, if_pos here,
      Decoded.after_after]
    exact ⟨_, rfl⟩
  · rw [symbols, decodeSymbol, if_neg (apart _ rfl), decodeSymbol, if_neg (apart _ rfl),
      decodeSymbol, if_pos here, Decoded.after_after, Decoded.after_after]
    exact ⟨_, rfl⟩

theorem symbol_head {type : NodeType} {symbol : List UInt8} (inside : (type, symbol) ∈ symbols) :
    ∃ ch t, symbol = ch :: t ∧ t.length < 5 ∧ isDigit ch = false ∧ isBlank ch = false ∧
      ch ∉ [123, 91, 45, 34, 39] := by
  simp only [symbols, List.mem_cons, Prod.mk.injEq, List.not_mem_nil, or_false] at inside
  rcases inside with ⟨-, rfl⟩ | ⟨-, rfl⟩ | ⟨-, rfl⟩
  · exact ⟨116, _, rfl, by decide⟩
  · exact ⟨102, _, rfl, by decide⟩
  · exact ⟨110, _, rfl, by decide⟩

theorem denotes_symbol {type : NodeType} {symbol : List UInt8} (inside : (type, symbol) ∈ symbols) :
    Denotes (fun c => c = 44 ∨ c = 125) symbol
      { decode_step := .end_, type := type, value := symbol } := by
  obtain ⟨ch, t, head, few, letter, visible, other⟩ := symbol_head inside
  refine ⟨⟨ch, t, head, visible⟩, rfl, 1, Nat.le_refl 1, ?_⟩
  intro data p q c pos fuel split ends here start deep key
  have size : symbol.length = t.length + 1 := by rw [head]; rfl
  have first : data = p ++ ch :: (t ++ c :: q) := by rw [split, head]; rfl
  have drop : data.drop pos = symbol ++ c :: q := by rw [split, ← here, List.drop_left]
  refine decodeText_symbol first here start letter other (by omega) fun _ => ?_
  have short : symbol.length < limit := by
    unfold limit
    omega
  obtain ⟨events, same⟩ := decodeSymbol_eq inside drop _ _
  rw [same]
  exact (parseSymbol_within split ends here start short _ type).after events

end Scalars

section Trees

/-- A member key that is printed as it is. -/
def PlainName (key : List UInt8) : Prop := key ≠ [] ∧ PlainString key

/-- An array takes no symbol, and drops what has neither value nor children. -/
def Elemental (node : Node) : Prop :=
  node.key = [] ∧ solid node = true ∧ node.type ≠ .boolean ∧ node.type ≠ .null

/-- The trees that come back: plain strings, numbers, symbols as members, objects with their
members in order, and arrays, each node with the content of its type and no other. -/
inductive Printable : Node → Prop
  | string {step : DecodeStep} {key value : List UInt8} (plain : PlainString value) :
      Printable ⟨step, .string, key, value, [], []⟩
  | number {step : DecodeStep} {type : NodeType} {key value : List UInt8}
      (number : Number type value) : Printable ⟨step, type, key, value, [], []⟩
  | symbol {step : DecodeStep} {type : NodeType} {key value : List UInt8}
      (inside : (type, value) ∈ symbols) : Printable ⟨step, type, key, value, [], []⟩
  | object {step : DecodeStep} {key : List UInt8} {kv_childs : List (List UInt8 × Node)}
      (names : ∀ e ∈ kv_childs, PlainName e.1 ∧ e.2.key = e.1)
      (sorted : kv_childs.Pairwise fun a b => before a.1 b.1 = true)
      (values : ∀ e ∈ kv_childs, Printable e.2) : Printable ⟨step, .object, key, [], kv_childs, []⟩
  | array {step : DecodeStep} {key : List UInt8} {array_childs : List Node}
      (elements : ∀ node ∈ array_childs, Elemental node)
      (values : ∀ node ∈ array_childs, Printable node) :
      Printable ⟨step, .array, key, [], [], array_childs⟩

/-- The step that decode leaves in a node. -/
def endStep : NodeType → DecodeStep
  | .integer | .float => .type
  | _ => .end_

/-- The node as it is read, before it gets a key. -/
def Node.reread (node : Node) : Node := { node.withSteps endStep with key := [] }

def labelText (key : List UInt8) : List UInt8 := if key = [] then [] else 34 :: (key ++ [34, 58])

/-- The text of the value in a node, printed and read. -/
structure Printed (node : Node) (text : List UInt8) : Prop where
  yields : Yields (encode node) (labelText node.key ++ text)
  size : (labelText node.key ++ text).length = node.size
  member : Denotes (fun c => c = 44 ∨ c = 125) text node.reread
  element : Elemental node → Denotes (fun c => c = 44 ∨ c = 93) text node.reread

theorem encodeLabel_yields {key : List UInt8} (plain : PlainString key) :
    Yields (encodeLabel key) (labelText key) := by
  unfold encodeLabel labelText
  by_cases none_ : key = []
  · rw [if_neg (by simpa using none_), if_pos none_]
    exact .inl rfl
  · rw [if_pos none_, if_neg none_]
    rcases plain.encodeChars with done | ⟨stopped, long⟩
    · rw [done]
      exact .inl rfl
    · rw [stopped]
      refine .inr ⟨rfl, ?_⟩
      rw [List.length_cons, List.length_append]
      omega

theorem labelText_length (key : List UInt8) :
    (labelText key).length = if key ≠ [] then key.length + 3 else 0 := by
  unfold labelText
  by_cases none_ : key = []
  · simp [none_]
  · simp [none_]

/-- The label and the text, one after the other. -/
theorem Yields.pair {a b : Option (List UInt8)} {s t : List UInt8} (ha : Yields a s)
    (hb : Yields b t) : Yields (do let x ← a; let y ← b; return x ++ y) (s ++ t) := by
  refine ha.bind (by simp) (hb.bind (by simp) ?_)
  exact .inl rfl

theorem Yields.map {out : Option (List UInt8)} {s : List UInt8} {f : List UInt8 → List UInt8}
    (h : Yields out s) (le : s.length ≤ (f s).length) : Yields (out.map f) (f s) := by
  rcases h with rfl | ⟨rfl, long⟩
  · exact .inl rfl
  · exact .inr ⟨rfl, by omega⟩

/-- A list of nodes with a text for each of them. -/
theorem exists_texts {R : Node → List UInt8 → Prop} {nodes : List Node}
    (h : ∀ node ∈ nodes, ∃ text, R node text) :
    ∃ es : List (List UInt8 × Node), es.map (·.2) = nodes ∧ ∀ e ∈ es, R e.2 e.1 := by
  obtain ⟨pairs, same, printed⟩ := exists_paired h
  refine ⟨pairs.map Prod.swap, ?_, fun e mem => ?_⟩
  · rw [← same, List.map_map]
    rfl
  · obtain ⟨e', mem', rfl⟩ := List.mem_map.mp mem
    exact printed e' mem'

theorem encodeArrayChilds_yields {es : List (List UInt8 × Node)}
    (h : ∀ e ∈ es, Yields (encode e.2) e.1) :
    Yields (encodeArrayChilds true (es.map (·.2))) (es.flatMap fun e => 44 :: e.1) := by
  induction es with
  | nil =>
      rw [List.map_nil, encodeArrayChilds]
      exact .inl rfl
  | cons e es ih =>
      have first := h e List.mem_cons_self
      have later := ih fun e' he => h e' (List.mem_cons_of_mem _ he)
      rw [List.map_cons, encodeArrayChilds, List.flatMap_cons]
      refine first.bind (by simp; omega) (later.bind (by simp; omega) (.inl ?_))
      simp

/-- Between the brackets, one text after the other. -/
theorem encodeArrayChilds_inside {es : List (List UInt8 × Node)}
    (h : ∀ e ∈ es, Yields (encode e.2) e.1) :
    Yields (encodeArrayChilds false (es.map (·.2))) (insideText es) := by
  cases es with
  | nil =>
      rw [List.map_nil, encodeArrayChilds]
      exact .inl rfl
  | cons e es =>
      have first := h e List.mem_cons_self
      have later := encodeArrayChilds_yields fun e' he => h e' (List.mem_cons_of_mem _ he)
      rw [List.map_cons, encodeArrayChilds, insideText, List.map_cons, intercalate_flatMap,
        List.flatMap_map]
      refine first.bind (by simp) (later.bind (by simp) (.inl ?_))
      simp

theorem sizeArray_sum {es : List (List UInt8 × Node)} (h : ∀ e ∈ es, e.1.length = e.2.size) :
    (es.map fun e => e.1.length + 1).sum = Node.sizeArray (es.map (·.2)) + es.length := by
  induction es with
  | nil => simp [Node.sizeArray]
  | cons e es ih =>
      have first := h e List.mem_cons_self
      have later := ih fun e' he => h e' (List.mem_cons_of_mem _ he)
      rw [List.map_cons, List.sum_cons, later, List.map_cons, Node.sizeArray, List.length_cons]
      omega

theorem insideText_size {es : List (List UInt8 × Node)} (h : ∀ e ∈ es, e.1.length = e.2.size) :
    (insideText es).length = Node.sizeArray (es.map (·.2)) + (es.length - 1) := by
  by_cases none_ : es = []
  · subst none_
    rw [List.map_nil, Node.sizeArray]
    rfl
  · have inside := insideText_length none_
    have some_ := List.length_pos_iff.mpr none_
    rw [sizeArray_sum h] at inside
    omega

theorem encodeKvChilds_eq (flag : Bool) (kv_childs : List (List UInt8 × Node)) :
    encodeKvChilds flag kv_childs = encodeArrayChilds flag (kv_childs.map Prod.snd) := by
  induction kv_childs generalizing flag with
  | nil => rw [encodeKvChilds, List.map_nil, encodeArrayChilds]
  | cons e kv_childs ih =>
      obtain ⟨key, node⟩ := e
      rw [encodeKvChilds, List.map_cons, encodeArrayChilds, ih]

theorem sizeKv_eq (kv_childs : List (List UInt8 × Node)) :
    Node.sizeKv kv_childs = Node.sizeArray (kv_childs.map Prod.snd) := by
  induction kv_childs with
  | nil => rw [Node.sizeKv, List.map_nil, Node.sizeArray]
  | cons e kv_childs ih =>
      obtain ⟨key, node⟩ := e
      rw [Node.sizeKv, List.map_cons, Node.sizeArray, ih]

theorem withStepsKv_eq (step : NodeType → DecodeStep) (kv_childs : List (List UInt8 × Node)) :
    Node.withStepsKv step kv_childs = kv_childs.map fun e => (e.1, e.2.withSteps step) := by
  induction kv_childs with
  | nil => rw [Node.withStepsKv, List.map_nil]
  | cons e kv_childs ih =>
      obtain ⟨key, node⟩ := e
      rw [Node.withStepsKv, List.map_cons, ih]

theorem withStepsArray_eq (step : NodeType → DecodeStep) (array_childs : List Node) :
    Node.withStepsArray step array_childs = array_childs.map (Node.withSteps step) := by
  induction array_childs with
  | nil => rw [Node.withStepsArray, List.map_nil]
  | cons node array_childs ih => rw [Node.withStepsArray, List.map_cons, ih]

theorem size_label (node : Node) :
    node.size = (labelText node.key).length + Node.size { node with key := [] } := by
  obtain ⟨step, type, key, value, kv_childs, array_childs⟩ := node
  simp [labelText_length, Node.size]

/-- What encode appends behind the label. -/
def encodeContent (node : Node) : Option (List UInt8) :=
  match node.type with
  | .string => (encodeChars node.value).map fun value => 34 :: (value ++ [34])
  | .object => (encodeKvChilds false node.kv_childs).map fun texts => 123 :: (texts ++ [125])
  | .array => (encodeArrayChilds false node.array_childs).map fun texts => 91 :: (texts ++ [93])
  | _ => some node.value

theorem encode_eq (node : Node) :
    encode node = do
      let label ← encodeLabel node.key
      let text ← encodeContent node
      return label ++ text := by
  obtain ⟨step, type, key, value, kv_childs, array_childs⟩ := node
  rw [encode]
  cases type <;> rfl

theorem printed_string {step : DecodeStep} {key value : List UInt8} (label : PlainString key)
    (plain : PlainString value) :
    Printed ⟨step, .string, key, value, [], []⟩ (34 :: (value ++ [34])) := by
  have closed := closed_string plain
  have reread : Node.reread ⟨step, .string, key, value, [], []⟩ =
      { decode_step := .end_, type := .string, value := value } := by rfl
  refine ⟨?_, ?_, reread ▸ closed.denotes _, fun _ => reread ▸ closed.denotes _⟩
  · rw [encode_eq]
    exact (encodeLabel_yields label).pair (plain.encodeChars.map (by simp; omega))
  · rw [List.length_append, size_label]
    simp [Node.size]

theorem printed_number {step : DecodeStep} {type : NodeType} {key value : List UInt8}
    (label : PlainString key) (number : Number type value) :
    Printed ⟨step, type, key, value, [], []⟩ value := by
  have denotes := number.numeral.denotes
  have content : encodeContent ⟨step, type, key, value, [], []⟩ = some value := by
    cases number <;> rfl
  have reread : Node.reread ⟨step, type, key, value, [], []⟩ =
      { decode_step := .type, type := type, value := value } := by cases number <;> rfl
  refine ⟨?_, ?_, reread ▸ denotes.behind rfl, fun _ => reread ▸ denotes.behind rfl⟩
  · rw [encode_eq, content]
    exact (encodeLabel_yields label).pair (.inl rfl)
  · rw [List.length_append, size_label]
    cases number <;> simp [Node.size]

theorem printed_symbol {step : DecodeStep} {type : NodeType} {key value : List UInt8}
    (label : PlainString key) (inside : (type, value) ∈ symbols) :
    Printed ⟨step, type, key, value, [], []⟩ value := by
  have type_ : type = .boolean ∨ type = .null := by
    simp only [symbols, List.mem_cons, Prod.mk.injEq, List.not_mem_nil, or_false] at inside
    tauto
  have content : encodeContent ⟨step, type, key, value, [], []⟩ = some value := by
    rcases type_ with rfl | rfl <;> rfl
  have reread : Node.reread ⟨step, type, key, value, [], []⟩ =
      { decode_step := .end_, type := type, value := value } := by
    rcases type_ with rfl | rfl <;> rfl
  refine ⟨?_, ?_, reread ▸ denotes_symbol inside, ?_⟩
  · rw [encode_eq, content]
    exact (encodeLabel_yields label).pair (.inl rfl)
  · rw [List.length_append, size_label]
    rcases type_ with rfl | rfl <;> simp [Node.size]
  · rintro ⟨-, -, boolean, null⟩
    exact absurd type_ (by simp [boolean, null])

/-- A printed node as an element of a list. -/
theorem Printed.elementText {node : Node} {text : List UInt8} (h : Printed node text)
    (element : Elemental node) : Yields (encode node) text ∧ text.length = node.size := by
  have none_ : labelText node.key = [] := if_pos element.1
  refine ⟨?_, ?_⟩
  · have yields := h.yields
    rwa [none_, List.nil_append] at yields
  · have size := h.size
    rwa [none_, List.nil_append] at size

theorem solid_reread (node : Node) : solid node.reread = solid node := by
  obtain ⟨step, type, key, value, kv_childs, array_childs⟩ := node
  rw [Node.reread, Node.withSteps, withStepsKv_eq, withStepsArray_eq]
  simp [solid]

/-- What has no key is read as it is, up to the steps. -/
theorem reread_keyless {node : Node} (keyless : node.key = []) :
    node.reread = node.withSteps endStep := by
  obtain ⟨step, type, key, value, kv_childs, array_childs⟩ := node
  rw [Node.reread, Node.withSteps]
  cases keyless
  rfl

theorem printed_array {step : DecodeStep} {key : List UInt8} {array_childs : List Node}
    (label : PlainString key) (elements : ∀ node ∈ array_childs, Elemental node)
    (values : ∀ node ∈ array_childs, ∃ text, Printed node text) :
    ∃ text, Printed ⟨step, .array, key, [], [], array_childs⟩ text := by
  obtain ⟨es, rfl, printed⟩ := exists_texts values
  have element (e : List UInt8 × Node) (inside : e ∈ es) : Elemental e.2 :=
    elements e.2 (List.mem_map_of_mem inside)
  have texts (e : List UInt8 × Node) (inside : e ∈ es) :=
    (printed e inside).elementText (element e inside)
  refine ⟨arrayText es, ?_⟩
  have reads : Closed (arrayText (es.map fun e => (e.1, e.2.reread)))
      (arrayNode ((es.map fun e => (e.1, e.2.reread)).map (·.2))) := by
    refine @closed_array (fun c => c = 44 ∨ c = 93) (.inl rfl) (.inr rfl) _ fun e he => ?_
    obtain ⟨e', inside, rfl⟩ := List.mem_map.mp he
    exact (printed e' inside).element (element e' inside)
  have text : arrayText (es.map fun e => (e.1, e.2.reread)) = arrayText es := by
    rw [arrayText, arrayText, insideText, insideText, List.map_map]
    rfl
  have node : arrayNode ((es.map fun e => (e.1, e.2.reread)).map (·.2)) =
      Node.reread ⟨step, .array, key, [], [], es.map (·.2)⟩ := by
    rw [Node.reread, Node.withSteps, Node.withStepsKv, withStepsArray_eq, arrayNode]
    congr 1
    rw [List.filter_eq_self.mpr, List.map_map, List.map_map]
    · exact List.map_congr_left fun e he => reread_keyless (element e he).1
    · intro node inside
      obtain ⟨e', he', rfl⟩ := List.mem_map.mp inside
      obtain ⟨e, he, rfl⟩ := List.mem_map.mp he'
      exact (solid_reread e.2).trans (element e he).2.1
  rw [text, node] at reads
  refine ⟨?_, ?_, reads.denotes _, fun _ => reads.denotes _⟩
  · rw [encode_eq]
    refine (encodeLabel_yields label).pair ?_
    exact (encodeArrayChilds_inside fun e he => (texts e he).1).map (by simp; omega)
  · rw [List.length_append, size_label]
    have size := insideText_size fun e he => (texts e he).2
    simp [Node.size, arrayText, size]

/-- A printed member, as a text and a node. -/
def memberOf (e : List UInt8 × Node) : Member := ⟨e.2.key, e.1, e.2.reread⟩

theorem memberOf_child (e : List UInt8 × Node) :
    (memberOf e).child = (e.2.key, e.2.withSteps endStep) := by
  obtain ⟨text, step, type, key, value, kv_childs, array_childs⟩ := e
  rw [memberOf, Member.child, Node.reread, Node.withSteps]

theorem memberOf_text {e : List UInt8 × Node} (some_ : e.2.key ≠ []) :
    (memberOf e).element.1 = labelText e.2.key ++ e.1 := by
  rw [labelText, if_neg some_]
  simp [memberOf, Member.element, memberText]

theorem insideText_members {es : List (List UInt8 × Node)} (some_ : ∀ e ∈ es, e.2.key ≠ []) :
    insideText ((es.map memberOf).map Member.element) =
      insideText (es.map fun e => (labelText e.2.key ++ e.1, e.2)) := by
  rw [insideText, insideText, List.map_map, List.map_map, List.map_map]
  congr 1
  exact List.map_congr_left fun e he => memberOf_text (some_ e he)

/-- The members in the order of their keys are the children again. -/
theorem objectNode_members {step : DecodeStep} {key : List UInt8} {es : List (List UInt8 × Node)}
    (sorted : (es.map fun e => (e.2.key, e.2)).Pairwise fun a b => before a.1 b.1 = true) :
    objectNode (es.map memberOf) =
      Node.reread ⟨step, .object, key, [], es.map fun e => (e.2.key, e.2), []⟩ := by
  have childs : (es.map memberOf).map Member.child =
      Node.withStepsKv endStep (es.map fun e => (e.2.key, e.2)) := by
    rw [withStepsKv_eq, List.map_map, List.map_map]
    exact List.map_congr_left fun e _ => memberOf_child e
  have sorted_ : ((es.map memberOf).map Member.child).Pairwise
      fun a b => before a.1 b.1 = true := by
    rw [childs, withStepsKv_eq]
    exact List.pairwise_map.mpr sorted
  have all := (kv_childs_sorted sorted_).trans childs
  rw [Node.reread, Node.withSteps, Node.withStepsArray, ← all]
  rfl

theorem printed_object {step : DecodeStep} {key : List UInt8}
    {kv_childs : List (List UInt8 × Node)} (label : PlainString key)
    (names : ∀ e ∈ kv_childs, PlainName e.1 ∧ e.2.key = e.1)
    (sorted : kv_childs.Pairwise fun a b => before a.1 b.1 = true)
    (values : ∀ e ∈ kv_childs, ∃ text, Printed e.2 text) :
    ∃ text, Printed ⟨step, .object, key, [], kv_childs, []⟩ text ∧
      Closed text (Node.reread ⟨step, .object, key, [], kv_childs, []⟩) := by
  have nodes : ∀ node ∈ kv_childs.map (·.2), ∃ text, Printed node text := by
    intro node inside
    obtain ⟨e, he, rfl⟩ := List.mem_map.mp inside
    exact values e he
  obtain ⟨es, same, printed⟩ := exists_texts nodes
  have kv : kv_childs = es.map fun e => (e.2.key, e.2) := by
    have keys : kv_childs = (kv_childs.map (·.2)).map fun node => (node.key, node) := by
      rw [List.map_map]
      conv_lhs => rw [← List.map_id kv_childs]
      exact List.map_congr_left fun e he => Prod.ext (names e he).2.symm rfl
    rw [keys, ← same, List.map_map]
    rfl
  subst kv
  have named (e : List UInt8 × Node) (inside : e ∈ es) : PlainName e.2.key :=
    (names _ (List.mem_map_of_mem inside)).1
  have valid : ∀ m ∈ es.map memberOf, m.Valid := by
    intro m hm
    obtain ⟨e, he, rfl⟩ := List.mem_map.mp hm
    exact ⟨(named e he).1, fun quote => (named e he).2 34 quote (by decide), (printed e he).member⟩
  have texts : ∀ e' ∈ es.map fun e => (labelText e.2.key ++ e.1, e.2),
      Yields (encode e'.2) e'.1 ∧ e'.1.length = e'.2.size := by
    intro e' inside
    obtain ⟨e, he, rfl⟩ := List.mem_map.mp inside
    exact ⟨(printed e he).yields, (printed e he).size⟩
  have reads := closed_object valid
  rw [@objectNode_members step key es sorted] at reads
  have text := insideText_members fun e he => (named e he).1
  have list : (es.map fun e => (labelText e.2.key ++ e.1, e.2)).map (·.2) =
      (es.map fun e => (e.2.key, e.2)).map (·.2) := by
    rw [List.map_map, List.map_map]
    rfl
  refine ⟨_, ⟨?_, ?_, reads.denotes _, fun _ => reads.denotes _⟩, reads⟩
  · rw [encode_eq]
    refine (encodeLabel_yields label).pair ?_
    have inside := encodeArrayChilds_inside fun e he => (texts e he).1
    rw [list, ← encodeKvChilds_eq, ← text] at inside
    exact inside.map (by simp; omega)
  · have size := insideText_size fun e he => (texts e he).2
    rw [list, ← sizeKv_eq, ← text] at size
    rw [List.length_append, size_label]
    simpa [Node.size, objectText] using size

theorem Printable.printed {node : Node} (h : Printable node) (label : PlainString node.key) :
    ∃ text, Printed node text := by
  induction h with
  | string plain => exact ⟨_, printed_string label plain⟩
  | number number => exact ⟨_, printed_number label number⟩
  | symbol inside => exact ⟨_, printed_symbol label inside⟩
  | @object step key kv_childs names sorted values ih =>
      have each (e : List UInt8 × Node) (inside : e ∈ kv_childs) : ∃ text, Printed e.2 text := by
        obtain ⟨⟨-, plain⟩, same⟩ := names e inside
        exact ih e inside (same ▸ plain)
      obtain ⟨text, printed, -⟩ := printed_object label names sorted each
      exact ⟨text, printed⟩
  | @array step key array_childs elements values ih =>
      refine printed_array label elements fun node inside => ih node inside ?_
      rw [(elements node inside).1]
      exact fun c none_ => by cases none_

/-- The text of an object is read back to its last bracket. -/
theorem Printable.closed {root : Node} (h : Printable root) (object : root.type = .object) :
    ∃ text, Yields (jsonEncode root) text ∧ text.length = Node.size { root with key := [] } ∧
      Closed text root.reread := by
  cases h with
  | string plain => cases object
  | number number =>
      cases object
      cases number
  | symbol inside =>
      cases object
      simp [symbols] at inside
  | array elements values => cases object
  | @object step key kv_childs names sorted values =>
      have each (e : List UInt8 × Node) (inside : e ∈ kv_childs) : ∃ text, Printed e.2 text := by
        obtain ⟨⟨-, plain⟩, same⟩ := names e inside
        exact (values e inside).printed (same ▸ plain)
      obtain ⟨text, printed, closed⟩ :=
        @printed_object step [] kv_childs (fun c none_ => by cases none_) names sorted each
      exact ⟨text, printed.yields, printed.size, closed⟩

mutual

theorem withSteps_withSteps (f g : NodeType → DecodeStep) :
    ∀ node : Node, (node.withSteps f).withSteps g = node.withSteps g
  | ⟨_, _, _, _, kv_childs, array_childs⟩ => by
      rw [Node.withSteps, Node.withSteps, Node.withSteps, withStepsKv_withStepsKv f g kv_childs,
        withStepsArray_withStepsArray f g array_childs]

theorem withStepsKv_withStepsKv (f g : NodeType → DecodeStep) :
    ∀ kv_childs, Node.withStepsKv g (Node.withStepsKv f kv_childs) = Node.withStepsKv g kv_childs
  | [] => by rw [Node.withStepsKv]
  | (_, node) :: rest => by
      rw [Node.withStepsKv, Node.withStepsKv, Node.withStepsKv, withSteps_withSteps f g node,
        withStepsKv_withStepsKv f g rest]

theorem withStepsArray_withStepsArray (f g : NodeType → DecodeStep) :
    ∀ array_childs, Node.withStepsArray g (Node.withStepsArray f array_childs) =
      Node.withStepsArray g array_childs
  | [] => by rw [Node.withStepsArray]
  | node :: rest => by
      rw [Node.withStepsArray, Node.withStepsArray, Node.withStepsArray,
        withSteps_withSteps f g node, withStepsArray_withStepsArray f g rest]

end

theorem erase_reread (node : Node) : node.reread.erase = Node.erase { node with key := [] } := by
  have same : node.reread = Node.withSteps endStep { node with key := [] } := by
    obtain ⟨step, type, key, value, kv_childs, array_childs⟩ := node
    rw [Node.reread, Node.withSteps, Node.withSteps]
  rw [same]
  exact withSteps_withSteps _ _ _

/-- The text of the tree is accepted and gives the tree; encode has cleared the key of the
root. -/
def RoundTrips (root : Node) : Prop :=
  ∃ text, jsonEncode root = some text ∧ (jsonDecode text).status = .ok ∧
    (jsonDecode text).value.erase = Node.erase { root with key := [] }

theorem tree_round_trips_iff {root : Node} (h : Printable root) (object : root.type = .object) :
    RoundTrips root ↔ Node.size { root with key := [] } ≤ 2 ^ 31 := by
  obtain ⟨text, yields, size, closed⟩ := h.closed object
  have within := closed.jsonDecode_within
  rw [← size]
  constructor
  · rintro ⟨t, printed, ok, -⟩
    rw [yields.eq_of_some printed] at ok
    by_contra long
    exact within.2 (Nat.lt_of_not_le long) ok
  · intro small
    obtain ⟨ok, value, -⟩ := within.1 small
    exact ⟨text, yields.eq_some small, ok, by rw [value, erase_reread]⟩

/-- An object with a member a that has this string. -/
def stringTree (value : List UInt8) : Node where
  decode_step := .end_
  kv_childs := [([97], ⟨.end_, .string, [97], value, [], []⟩)]

theorem stringTree_printable {value : List UInt8} (plain : PlainString value) :
    Printable (stringTree value) := by
  have name : PlainString [97] := by
    intro c inside
    rw [List.mem_singleton.mp inside]
    decide
  refine .object (fun e he => ?_) (List.pairwise_singleton _ _) fun e he => ?_
  · rw [List.mem_singleton.mp he]
    exact ⟨⟨List.cons_ne_nil _ _, name⟩, rfl⟩
  · rw [List.mem_singleton.mp he]
    exact .string plain

theorem stringTree_size (value : List UInt8) :
    Node.size { stringTree value with key := [] } = value.length + 8 := by
  simp only [stringTree, Node.size, Node.sizeKv, ne_eq, not_true_eq_false, if_false,
    List.length_singleton, reduceCtorEq, not_false_eq_true, if_true]
  omega

/-- An object of a number, an array of an empty array and a string, and a symbol. -/
def nestedTree : Node where
  decode_step := .end_
  kv_childs :=
    [([97], ⟨.type, .float, [97], bytes "-1.5", [], []⟩),
      ([98], ⟨.end_, .array, [98], [], [], [⟨.end_, .array, [], [], [],
        [⟨.type, .integer, [], bytes "7", [], []⟩]⟩, ⟨.end_, .string, [], [120, 121], [], []⟩]⟩),
      ([99], ⟨.end_, .null, [99], bytes "null", [], []⟩)]

theorem plainString_of {s : List UInt8}
    (h : s.all fun c => !([34, 92, 8, 12, 9, 10, 13] : List UInt8).contains c) : PlainString s := by
  intro c inside
  simpa using List.all_eq_true.mp h c inside

theorem nestedTree_printable : Printable nestedTree := by
  have digits (n : UInt8) (h : isDigit n = true) : ∀ b ∈ [n], isDigit b = true := fun b hb => by
    rw [List.mem_singleton.mp hb]
    exact h
  have seven : Integer (bytes "7") := .plain (digits 55 rfl)
  have one : Integer (bytes "-1") := .negative (digits 49 rfl)
  refine .object ?_ ?_ ?_
  · simp only [List.forall_mem_cons, List.not_mem_nil, false_imp_iff, implies_true, and_true]
    exact ⟨⟨List.cons_ne_nil _ _, plainString_of rfl⟩, ⟨List.cons_ne_nil _ _, plainString_of rfl⟩,
      List.cons_ne_nil _ _, plainString_of rfl⟩
  · simp only [List.pairwise_cons, List.forall_mem_cons]
    decide
  · simp only [List.forall_mem_cons, List.not_mem_nil, false_imp_iff, implies_true, and_true]
    refine ⟨.number (.float one (digits 53 rfl)), .array ?_ ?_, .symbol (by decide)⟩
    · simp only [List.forall_mem_cons, List.not_mem_nil, false_imp_iff, implies_true, and_true]
      exact ⟨⟨rfl, rfl, by decide⟩, rfl, rfl, by decide⟩
    · simp only [List.forall_mem_cons, List.not_mem_nil, false_imp_iff, implies_true, and_true]
      refine ⟨.array ?_ ?_, .string (plainString_of rfl)⟩
      · simp only [List.forall_mem_cons, List.not_mem_nil, false_imp_iff, implies_true, and_true]
        exact ⟨rfl, rfl, by decide⟩
      · simp only [List.forall_mem_cons, List.not_mem_nil, false_imp_iff, implies_true, and_true]
        exact .number (.integer seven)

theorem nestedTree_round_trips : RoundTrips nestedTree :=
  (tree_round_trips_iff nestedTree_printable rfl).mpr (by decide)

/-- A string that is too long for the limit is printed, or not even that, and not read. -/
theorem hugeString_lost :
    ¬ ∀ root : Node, Printable root → root.type = .object → RoundTrips root := by
  intro all
  have plain : PlainString (List.replicate (2 ^ 31) 97) := by
    intro c inside
    rw [List.eq_of_mem_replicate inside]
    decide
  have tree := stringTree_printable plain
  obtain ⟨t, printed, ok, -⟩ := all _ tree rfl
  obtain ⟨text, yields, size, closed⟩ := tree.closed rfl
  rw [stringTree_size, List.length_replicate] at size
  rw [yields.eq_of_some printed] at ok
  exact closed.jsonDecode_within.2 (by unfold limit; omega) ok

end Trees

end HZRobot.Json
