import HZRobot.JsonDocument
import HZRobot.JsonTree

/-!
What decode makes of a document. Whatever blanks the text has, an accepted one gives a tree
in which the members of an object are sorted and the elements of an array that have no
value and no children are missing.
-/

namespace HZRobot.Json

/-- A std::map of these entries, as they come. -/
def arrange {ν : Type} (es : List (List UInt8 × ν)) : List (List UInt8 × ν) :=
  es.foldl (fun childs e => OrderedMap.emplace before e.1 e.2 childs) []

theorem arrange_map {ν ν' : Type} (f : List UInt8 × ν → ν') (es : List (List UInt8 × ν)) :
    arrange (es.map fun e => (e.1, f e)) = (arrange es).map fun e => (e.1, f e) :=
  OrderedMap.foldl_emplace_map before f es []

theorem mem_arrange {ν : Type} {es : List (List UInt8 × ν)} {e : List UInt8 × ν}
    (h : e ∈ arrange es) : e ∈ es := by
  rcases OrderedMap.mem_foldl_emplace before h with none_ | inside
  · cases none_
  · exact inside

theorem arrange_perm {ν : Type} {es : List (List UInt8 × ν)} (distinct : (es.map Prod.fst).Nodup) :
    (arrange es).Perm es := by
  refine OrderedMap.foldl_emplace_perm before [] ?_
  rw [List.nil_append]
  refine (List.pairwise_map.mp distinct).imp fun {a b} other => ?_
  by_cases less : a.1 < b.1
  · exact .inl (decide_eq_true less)
  by_cases more : b.1 < a.1
  · exact .inr (decide_eq_true more)
  · exact absurd (Std.Trichotomous.trichotomous a.1 b.1 less more) other

namespace Doc

mutual

/-- What decode makes of a document. -/
def node : Doc → Node
  | .atom type text => { decode_step := endStep type, type := type, value := text }
  | .string chars => { decode_step := .end_, type := .string, value := chars }
  | .array elements => arrayNode (nodes elements)
  | .object members =>
      { decode_step := .end_, type := .object, kv_childs := arrange (entries members) }

def nodes : List Doc → List Node
  | [] => []
  | d :: ds => node d :: nodes ds

def entries : List (List UInt8 × Doc) → List (List UInt8 × Node)
  | [] => []
  | (key, d) :: ms => (key, { node d with key := key }) :: entries ms

end

theorem nodes_eq (ds : List Doc) : nodes ds = ds.map node := by
  induction ds with
  | nil => rw [nodes, List.map_nil]
  | cons d ds ih => rw [nodes, List.map_cons, ih]

/-- The node of a member. -/
def memberNode (m : List UInt8 × Doc) : Node := { node m.2 with key := m.1 }

theorem entries_eq (ms : List (List UInt8 × Doc)) :
    entries ms = ms.map fun m => (m.1, memberNode m) := by
  induction ms with
  | nil => rw [entries, List.map_nil]
  | cons m ms ih =>
      obtain ⟨key, d⟩ := m
      rw [entries, List.map_cons, ih, memberNode]

theorem node_key (d : Doc) : d.node.key = [] := by
  cases d with
  | atom type text => rw [node]
  | string chars => rw [node]
  | array elements => rw [node]; rfl
  | object members => rw [node]

end Doc

section Reading

variable {data p q : List UInt8} {pos : Nat}

/-- The cursor stands before a byte that ends neither an element nor a member. -/
def Stuck (data : List UInt8) (pos : Nat) : Prop :=
  ∃ p b q, data = p ++ b :: q ∧ p.length = pos ∧ isBlank b = false ∧ ¬ Separates b

/-- The node is there and the cursor has at most blanks before it up to target, or the
cursor is stuck. -/
def Arrives (data : List UInt8) (node : Node) (target : Nat) (n : Node) (stop : Nat) : Prop :=
  stop ≤ limit ∧ (Stuck data stop ∨ n = node ∧ ∃ p w q, data = p ++ (w ++ q) ∧ Blanks w ∧
    p.length = stop ∧ stop + w.length = target)

/-- Blanks in front of an element change nothing. -/
theorem decodeWith_behind_blanks {decode_step : DecodeStep}
    {parse_object : Node → Nat → DecodeStep → UInt8 → Decoded Event Node}
    (step : decode_step = .key ∨ decode_step = .type) {w : List UInt8} {x : UInt8}
    (split : data = p ++ (w ++ x :: q)) (blanks : Blanks w) (visible : isBlank x = false)
    (here : p.length = pos) (start : pos ≤ limit) {post : Node → Nat → Prop}
    (h : pos + w.length ≤ limit → (decodeWith parse_object { decode_step := decode_step } data
      (pos + w.length)).Gives post) :
    (decodeWith parse_object { decode_step := decode_step } data pos).Gives post := by
  have passed := scan_within visible blanks split here start
  have behind : data = (p ++ w) ++ x :: q := by rw [split, List.append_assoc]
  have there : (p ++ w).length = pos + w.length := by rw [List.length_append, here]
  rcases step with rfl | rfl
  · rw [decodeWith, decodeKey, if_pos rfl]
    refine passed.andThen_gives fun inside => ?_
    have again := (skipSpace_within visible behind there (by omega)).1 inside
    have rest := h (by omega)
    rw [decodeWith, decodeKey, if_pos rfl] at rest
    have next := again.gives_of_andThen rest
    exact next
  · rw [decodeWith, decodeKey, if_neg (by decide), decodeType, if_pos rfl]
    refine passed.andThen_gives fun inside => ?_
    have again := (skipSpace_within visible behind there (by omega)).1 inside
    have rest := h (by omega)
    rw [decodeWith, decodeKey, if_neg (by decide), decodeType, if_pos rfl] at rest
    have next := again.gives_of_andThen rest
    exact next

/-- One round of parse_object, up to the byte behind the element. -/
theorem round_gives {decode_step : DecodeStep} {symbol c : UInt8} {target fuel : Nat}
    {sub_node : Node}
    (reads : (decodeWith (parseObject data fuel) { decode_step := decode_step } data pos).Gives
      (Arrives data sub_node target)) (split : data = p ++ c :: q) (here : p.length = target)
    (ends : c = 44 ∨ c = symbol) (mark : Separates symbol) (node : Node)
    {post : Node → Nat → Prop}
    (last : c = symbol → target + 1 ≤ limit →
      post { addChild node sub_node with decode_step := .end_ } (target + 1))
    (more : c = 44 → symbol ≠ 44 → target + 1 ≤ limit →
      (parseObject data fuel (addChild node sub_node) (target + 1) decode_step symbol).Gives post) :
    (parseObject data (fuel + 1) node pos decode_step symbol).Gives post := by
  rw [parseObject]
  refine reads.andThen fun n stop arrives => ?_
  obtain ⟨inside, ⟨p', b, q', split', here', visible, other⟩ |
    ⟨rfl, p', w, q', split', blanks, here', reached⟩⟩ := arrives
  · refine (skipSpace_within visible split' here' inside).andThen_gives fun inside' => ?_
    refine (readAt_within split' here' (by omega)).andThen_gives fun _ => ?_
    have noSymbol : b ≠ symbol := by
      rintro rfl
      exact other mark
    have noComma : b ≠ 44 := by
      rintro rfl
      exact other (.inl rfl)
    rw [if_neg noSymbol, if_neg noComma]
    intro ok
    cases ok
  · have visible : isBlank c = false := by
      rcases ends with rfl | rfl
      · rfl
      · exact mark.visible
    have whole : (p' ++ w) ++ q' = p ++ c :: q := by rw [← split, split', List.append_assoc]
    obtain ⟨-, rfl⟩ := List.append_inj whole (by rw [List.length_append, here', reached, here])
    refine (scan_within visible blanks split' here' inside).andThen_gives fun inside' => ?_
    rw [reached] at inside' ⊢
    refine (readAt_within split here (by omega)).andThen_gives fun _ => ?_
    by_cases closes : c = symbol
    · rw [if_pos closes]
      exact fun _ => last closes inside'
    · have comma := ends.resolve_right closes
      rw [if_neg closes, if_pos comma]
      exact more comma (fun same => closes (comma.trans same.symm)) inside'

end Reading

/-- decode, from the first byte of the value on, reads the text as this document, to where the
element ends, whatever the key is. -/
def Reads (t : List UInt8) (d : Doc) : Prop :=
  ∀ {data p w q : List UInt8} {c : UInt8} {pos fuel : Nat}, data = p ++ (t ++ (w ++ c :: q)) →
    Blanks w → Separates c → p.length = pos → pos ≤ limit → t.length ≤ fuel → ∀ key,
      (decodeText { decode_step := .type, key := key } data pos
        (decodeValue (parseObject data fuel))).Gives
          (Arrives data { d.node with key := key } (pos + t.length + w.length))

/-- The text of what parse_object reads in one round. -/
def Round (decode_step : DecodeStep) (t : List UInt8) (sub_node : Node) : Prop :=
  ∀ {data p q : List UInt8} {c : UInt8} {pos fuel : Nat}, data = p ++ (t ++ c :: q) →
    Separates c → p.length = pos → pos ≤ limit → t.length ≤ fuel →
      (decodeWith (parseObject data fuel) { decode_step := decode_step } data pos).Gives
        (Arrives data sub_node (pos + t.length))

section Rounds

theorem element_round {e : ElementText × Doc} (valid : Element.Valid e)
    (reads : Reads e.1.value e.2) : Round .type (elementText e) e.2.node := by
  obtain ⟨⟨before, value, behind⟩, d⟩ := e
  obtain ⟨blanks, spelled⟩ := valid
  dsimp only at blanks spelled reads
  intro data p q c pos fuel split ends here start deep
  obtain ⟨x, u, head, visible, -⟩ := spelled.head
  have size : (elementText (⟨before, value, behind⟩, d)).length =
      before.length + value.length + behind.length := by
    simp [elementText, ElementText.text, Nat.add_assoc]
  have value_ : data = (p ++ before) ++ (value ++ (behind ++ c :: q)) := by
    simp [split, elementText, ElementText.text]
  have there : (p ++ before).length = pos + before.length := by rw [List.length_append, here]
  have front : data = p ++ (before ++ x :: (u ++ (behind ++ c :: q))) := by
    simp [value_, head]
  refine decodeWith_behind_blanks (.inr rfl) front blanks.1 visible here start fun inside => ?_
  have first : data = (p ++ before) ++ x :: (u ++ (behind ++ c :: q)) := by
    rw [front, List.append_assoc]
  have deep' : value.length ≤ fuel := by omega
  have text := reads value_ blanks.2 ends there inside deep' []
  rw [keyless_eq d.node_key] at text
  have stop : pos + (elementText (⟨before, value, behind⟩, d)).length =
      pos + before.length + value.length + behind.length := by omega
  rw [stop, decodeWith, decodeKey, if_neg (by decide), decodeType, if_pos rfl]
  refine (skipSpace_within visible first there inside).andThen_gives fun inside' => ?_
  rw [decodeColon, if_pos rfl]
  exact Decoded.Returns.andThen_gives ⟨rfl, rfl, rfl⟩ text

/-- Behind the name: blanks, the colon, and the element. -/
theorem colon_gives {data p q : List UInt8} {c : UInt8} {pos fuel : Nat} {name behind : List UInt8}
    {e : ElementText × Doc} (some_ : name ≠ []) (blanks : Blanks behind) (valid : Element.Valid e)
    (reads : Reads e.1.value e.2)
    (split : data = p ++ (behind ++ 58 :: (elementText e ++ c :: q))) (ends : Separates c)
    (here : p.length = pos) (start : pos ≤ limit) (deep : (elementText e).length ≤ fuel) :
    (decodeType { decode_step := .type, key := name } data pos
      (decodeValue (parseObject data fuel))).Gives
        (Arrives data { e.2.node with key := name }
          (pos + behind.length + 1 + (elementText e).length)) := by
  obtain ⟨⟨front, value, back⟩, d⟩ := e
  obtain ⟨around, spelled⟩ := valid
  dsimp only at around spelled reads
  obtain ⟨x, u, head, visible, -⟩ := spelled.head
  have size : (elementText (⟨front, value, back⟩, d)).length =
      front.length + value.length + back.length := by
    simp [elementText, ElementText.text, Nat.add_assoc]
  have colon : data = (p ++ behind) ++ 58 :: (elementText (⟨front, value, back⟩, d) ++ c :: q) := by
    rw [split, List.append_assoc]
  have element : data = (p ++ behind ++ [58]) ++ (front ++ x :: (u ++ (back ++ c :: q))) := by
    simp [colon, elementText, ElementText.text, head]
  have value_ : data = (p ++ behind ++ [58] ++ front) ++ (value ++ (back ++ c :: q)) := by
    simp [element, head]
  have atColon : (p ++ behind).length = pos + behind.length := by rw [List.length_append, here]
  have atElement : (p ++ behind ++ [58]).length = pos + behind.length + 1 := by
    rw [List.length_append, atColon]
    rfl
  have atValue : (p ++ behind ++ [58] ++ front).length =
      pos + behind.length + 1 + front.length := by
    rw [List.length_append, atElement]
  have stop : pos + behind.length + 1 + (elementText (⟨front, value, back⟩, d)).length =
      pos + behind.length + 1 + front.length + value.length + back.length := by omega
  rw [stop, decodeType, if_pos rfl]
  refine (scan_within (by decide) blanks split here start).andThen_gives fun inside => ?_
  have skips : (decodeColon { decode_step := .type, key := name } data
      (pos + behind.length)).ReturnsWithin limit (pos + behind.length + 1 + front.length + 1) ()
        (pos + behind.length + 1 + front.length) := by
    rw [decodeColon, if_neg some_]
    refine (readAt_within colon atColon (by omega)).andThen (by omega) fun inside => ?_
    rw [if_pos rfl]
    exact scan_within visible around.1 element atElement inside
  refine skips.andThen_gives fun inside => ?_
  exact reads value_ around.2 ends atValue (by omega) (by omega) name

theorem entry_round {m : MemberText × Doc} (valid : Entry.Valid m) (some_ : m.1.name ≠ [])
    (reads : Reads m.1.element.value m.2) :
    Round .key (entryText m) { m.2.node with key := m.1.name } := by
  obtain ⟨⟨before, name, behind, e⟩, d⟩ := m
  obtain ⟨chars, around, blanks, spelled⟩ := valid
  dsimp only at chars around blanks spelled reads some_
  intro data p q c pos fuel split ends here start deep
  have plain : 34 ∉ name := fun inside => (chars 34 inside).2.1 rfl
  have size : (entryText (⟨before, name, behind, e⟩, d)).length =
      before.length + 1 + name.length + 1 + behind.length + 1 + e.text.length := by
    simp only [entryText, MemberText.text, List.length_append, List.length_cons, List.length_nil]
    omega
  have front : data =
      p ++ (before ++ 34 :: (name ++ 34 :: (behind ++ 58 :: (e.text ++ c :: q)))) := by
    simp [split, entryText, MemberText.text]
  refine decodeWith_behind_blanks (.inl rfl) front around.1 (by decide) here start fun inside => ?_
  have quote : data =
      (p ++ before) ++ 34 :: (name ++ 34 :: (behind ++ 58 :: (e.text ++ c :: q))) := by
    rw [front, List.append_assoc]
  have atQuote : (p ++ before).length = pos + before.length := by rw [List.length_append, here]
  have name_ : data =
      (p ++ before ++ [34]) ++ (name ++ 34 :: (behind ++ 58 :: (e.text ++ c :: q))) := by
    simp [front]
  have atName : (p ++ before ++ [34]).length = pos + before.length + 1 := by
    rw [List.length_append, atQuote]
    rfl
  have rest : data =
      (p ++ before ++ [34] ++ name ++ [34]) ++ (behind ++ 58 :: (e.text ++ c :: q)) := by
    simp [front]
  have atRest : (p ++ before ++ [34] ++ name ++ [34]).length =
      pos + before.length + 1 + name.length + 1 := by
    rw [List.length_append, List.length_append, atName]
    rfl
  have stop : pos + (entryText (⟨before, name, behind, e⟩, d)).length =
      pos + before.length + 1 + name.length + 1 + behind.length + 1 +
        (elementText (e, d)).length := by
    rw [size]
    show _ = pos + before.length + 1 + name.length + 1 + behind.length + 1 + e.text.length
    omega
  rw [stop, decodeWith, decodeKey, if_pos rfl]
  refine (skipSpace_within (by decide) quote atQuote inside).andThen_gives fun _ => ?_
  refine (readAt_within quote atQuote inside).andThen_gives fun inside => ?_
  rw [if_pos (.inr rfl)]
  refine (find_within plain name_ atName inside).andThen_gives fun inside => ?_
  rw [slice_eq name_ atName]
  have deep' : (elementText (e, d)).length ≤ fuel := by
    show e.text.length ≤ fuel
    omega
  exact colon_gives some_ around.2 ⟨blanks, spelled⟩ reads rest ends atRest inside deep'

/-- parse_object over items, to the closing bracket. -/
theorem items_give {ι : Type} {text : ι → List UInt8} {sub : ι → Node} {decode_step : DecodeStep}
    {symbol : UInt8} (mark : Separates symbol) (other : symbol ≠ 44) {is : List ι} (some_ : is ≠ [])
    (each : ∀ i ∈ is, Round decode_step (text i) (sub i)) {data p q : List UInt8} {pos fuel : Nat}
    (split : data = p ++ ([44].intercalate (is.map text) ++ symbol :: q)) (here : p.length = pos)
    (start : pos ≤ limit) (deep : ([44].intercalate (is.map text)).length < fuel) (node : Node) :
    (parseObject data fuel node pos decode_step symbol).Gives fun n stop =>
      n = { (is.map sub).foldl addChild node with decode_step := .end_ } ∧
        stop = pos + ([44].intercalate (is.map text)).length + 1 ∧ stop ≤ limit := by
  induction is generalizing p pos fuel node with
  | nil => exact absurd rfl some_
  | cons i is ih =>
      obtain ⟨fuel, rfl⟩ : ∃ left, fuel = left + 1 := ⟨fuel - 1, by omega⟩
      rw [text_of_items] at split
      have there : (p ++ text i).length = pos + (text i).length := by rw [List.length_append, here]
      by_cases last : is = []
      · subst last
        rw [if_pos rfl] at split
        have single : [44].intercalate ([i].map text) = text i := List.intercalate_singleton
        rw [single] at deep ⊢
        have behind : data = (p ++ text i) ++ symbol :: q := by rw [split, List.append_assoc]
        have deep' : (text i).length ≤ fuel := by omega
        have reads := each i List.mem_cons_self split mark here start deep'
        refine round_gives reads behind there (.inr rfl) mark node (fun _ inside => ?_)
          fun same _ => absurd same other
        exact ⟨rfl, rfl, inside⟩
      · rw [if_neg last] at split
        have size : ([44].intercalate ((i :: is).map text)).length =
            (text i).length + 1 + ([44].intercalate (is.map text)).length := by
          rw [List.map_cons, List.intercalate_cons_of_ne_nil (by simpa using last)]
          simp
          omega
        rw [size] at deep ⊢
        have behind : data =
            (p ++ text i) ++ 44 :: ([44].intercalate (is.map text) ++ symbol :: q) := by
          rw [split, List.append_assoc]
        have rest : data =
            (p ++ text i ++ [44]) ++ ([44].intercalate (is.map text) ++ symbol :: q) := by
          simp [behind]
        have atRest : (p ++ text i ++ [44]).length = pos + (text i).length + 1 := by
          rw [List.length_append, there]
          rfl
        have deep' : (text i).length ≤ fuel := by omega
        have less : ([44].intercalate (is.map text)).length < fuel := by omega
        have reads := each i List.mem_cons_self split (.inl rfl) here start deep'
        refine round_gives reads behind there (.inl rfl) mark node
          (fun same => absurd same.symm other) fun _ _ inside => ?_
        have later := ih last (fun i' mem => each i' (List.mem_cons_of_mem _ mem)) rest atRest
          inside less (addChild node (sub i))
        refine later.mono fun n stop arrived => ?_
        obtain ⟨rfl, rfl, inside'⟩ := arrived
        exact ⟨rfl, by omega, inside'⟩

/-- parse_object over blanks: the node that decode gives at the bracket is dropped. -/
theorem blanks_give {decode_step : DecodeStep} {symbol : UInt8} (close : Closing decode_step symbol)
    (step : decode_step = .key ∨ decode_step = .type) (mark : Separates symbol)
    (other : symbol ≠ 44) {w : List UInt8} (blanks : Blanks w) {data p q : List UInt8}
    {pos fuel : Nat} (split : data = p ++ (w ++ symbol :: q)) (here : p.length = pos)
    (start : pos ≤ limit) (deep : 0 < fuel) (node : Node) :
    (parseObject data fuel node pos decode_step symbol).Gives fun n stop =>
      n = { node with decode_step := .end_ } ∧ stop = pos + w.length + 1 ∧ stop ≤ limit := by
  obtain ⟨fuel, rfl⟩ : ∃ left, fuel = left + 1 := ⟨fuel - 1, by omega⟩
  obtain ⟨visible, -, closes⟩ := close
  have behind : data = (p ++ w) ++ symbol :: q := by rw [split, List.append_assoc]
  have there : (p ++ w).length = pos + w.length := by rw [List.length_append, here]
  have reads : (decodeWith (parseObject data fuel) { decode_step := decode_step } data pos).Gives
      (Arrives data { decode_step := decode_step } (pos + w.length)) := by
    refine decodeWith_behind_blanks step split blanks visible here start fun inside => ?_
    refine (closes behind there inside).gives.mono fun n stop found => ?_
    obtain ⟨rfl, rfl, -⟩ := found
    exact ⟨inside, .inr ⟨rfl, p ++ w, [], symbol :: q, behind, blanks_nil, there, rfl⟩⟩
  refine round_gives reads behind there (.inr rfl) mark node (fun _ inside => ?_)
    fun same _ => absurd same other
  exact ⟨rfl, rfl, inside⟩

end Rounds

/-- The text of an object, an array or a string, which is read no further than its end. -/
def ReadsToEnd (t : List UInt8) (d : Doc) : Prop :=
  ∀ {data p q : List UInt8} {pos fuel : Nat}, data = p ++ (t ++ q) → p.length = pos →
    pos ≤ limit → t.length ≤ fuel → ∀ key,
      (decodeText { decode_step := .type, key := key } data pos
        (decodeValue (parseObject data fuel))).Gives fun n stop =>
          n = { d.node with key := key } ∧ stop = pos + t.length ∧ stop ≤ limit

section Texts

theorem ReadsToEnd.reads {t : List UInt8} {d : Doc} (h : ReadsToEnd t d) : Reads t d := by
  intro data p w q c pos fuel split blanks ends here start deep key
  refine (h split here start deep key).mono fun n stop found => ?_
  obtain ⟨rfl, rfl, inside⟩ := found
  exact ⟨inside, .inr ⟨rfl, p ++ t, w, c :: q, by rw [split, List.append_assoc], blanks,
    by rw [List.length_append, here], rfl⟩⟩

theorem Unescaped.plain {chars : List UInt8} (h : Unescaped chars) : PlainString chars := by
  intro c inside listed
  obtain ⟨visible, noQuote, noEscape⟩ := h c inside
  simp only [List.mem_cons, List.not_mem_nil, or_false] at listed
  rcases listed with rfl | rfl | rfl | rfl | rfl | rfl | rfl
  · exact noQuote rfl
  · exact noEscape rfl
  all_goals exact absurd visible (by decide)

theorem string_ends {chars : List UInt8} (plain : Unescaped chars) :
    ReadsToEnd (34 :: (chars ++ [34])) (.string chars) := by
  intro data p q pos fuel split here start deep key
  have closed := (closed_string plain.plain).reads split here start deep key
  refine closed.gives.mono fun n stop found => ?_
  obtain ⟨rfl, rfl, inside⟩ := found
  rw [Doc.node]
  exact ⟨rfl, rfl, inside⟩

/-- decode at an opening bracket runs parse_object behind it. -/
theorem bracket_ends {t inner : List UInt8} {d : Doc} {opening symbol : UInt8} {type : NodeType}
    {decode_step : DecodeStep} (text : t = opening :: (inner ++ [symbol]))
    (kind : (opening = 123 ∧ type = .object ∧ decode_step = .key ∧ symbol = 125) ∨
      (opening = 91 ∧ type = .array ∧ decode_step = .type ∧ symbol = 93))
    (between : ∀ {data p q : List UInt8} {pos fuel : Nat}, data = p ++ (inner ++ symbol :: q) →
      p.length = pos → pos ≤ limit → inner.length < fuel → ∀ key,
        (parseObject data fuel { decode_step := .value, type := type, key := key } pos decode_step
          symbol).Gives fun n stop =>
            n = { d.node with key := key } ∧ stop = pos + inner.length + 1 ∧ stop ≤ limit) :
    ReadsToEnd t d := by
  intro data p q pos fuel split here start deep key
  have size : t.length = inner.length + 2 := by simp [text]
  have first : data = p ++ opening :: (inner ++ symbol :: q) := by simp [split, text]
  have rest : data = (p ++ [opening]) ++ (inner ++ symbol :: q) := by simp [first]
  have there : (p ++ [opening]).length = pos + 1 := by rw [List.length_append, here]; rfl
  rw [decodeText]
  refine (readAt_within first here start).andThen_gives fun inside => ?_
  have deep' : inner.length < fuel := by omega
  have found := between rest there inside deep' key
  have stop : pos + t.length = pos + 1 + inner.length + 1 := by omega
  rw [stop]
  rcases kind with ⟨rfl, rfl, rfl, rfl⟩ | ⟨rfl, rfl, rfl, rfl⟩
  · rw [if_pos rfl]
    exact found
  · rw [if_neg (by decide), if_pos rfl]
    exact found

theorem emptyArray_ends {w : List UInt8} (blanks : Blanks w) :
    ReadsToEnd (91 :: (w ++ [93])) (.array []) := by
  refine bracket_ends rfl (.inr ⟨rfl, rfl, rfl, rfl⟩)
    fun {data p q pos fuel} split here start deep key => ?_
  refine (blanks_give closing_array (.inr rfl) (.inr (.inl rfl)) (by decide) blanks split here start
    (by omega) _).mono fun n stop found => ?_
  obtain ⟨rfl, rfl, inside⟩ := found
  rw [Doc.node]
  exact ⟨rfl, rfl, inside⟩

theorem emptyObject_ends {w : List UInt8} (blanks : Blanks w) :
    ReadsToEnd (123 :: (w ++ [125])) (.object []) := by
  refine bracket_ends rfl (.inl ⟨rfl, rfl, rfl, rfl⟩)
    fun {data p q pos fuel} split here start deep key => ?_
  refine (blanks_give closing_object (.inl rfl) (.inr (.inr rfl)) (by decide) blanks split here start
    (by omega) _).mono fun n stop found => ?_
  obtain ⟨rfl, rfl, inside⟩ := found
  rw [Doc.node]
  exact ⟨rfl, rfl, inside⟩

theorem array_ends {es : List (ElementText × Doc)} (some_ : es ≠ [])
    (valid : ∀ e ∈ es, Element.Valid e) (reads : ∀ e ∈ es, Reads e.1.value e.2) :
    ReadsToEnd (91 :: ([44].intercalate (es.map elementText) ++ [93])) (.array (es.map Prod.snd)) := by
  refine bracket_ends rfl (.inr ⟨rfl, rfl, rfl, rfl⟩)
    fun {data p q pos fuel} split here start deep key => ?_
  have rounds : ∀ e ∈ es, Round .type (elementText e) e.2.node :=
    fun e he => element_round (valid e he) (reads e he)
  refine (items_give (.inr (.inl rfl)) (by decide) some_ rounds split here start deep _).mono
    fun n stop found => ?_
  obtain ⟨rfl, rfl, inside⟩ := found
  refine ⟨?_, rfl, inside⟩
  have keyless : ∀ sub_node ∈ es.map fun e => e.2.node, sub_node.key = [] := by
    intro sub_node mem
    obtain ⟨e, -, rfl⟩ := List.mem_map.mp mem
    exact e.2.node_key
  rw [foldl_addChild_array keyless, Doc.node, Doc.nodes_eq, List.map_map]
  rfl

theorem object_ends {ms : List (MemberText × Doc)} (some_ : ms ≠ [])
    (valid : ∀ m ∈ ms, Entry.Valid m) (named : ∀ m ∈ ms, m.1.name ≠ [])
    (reads : ∀ m ∈ ms, Reads m.1.element.value m.2) :
    ReadsToEnd (123 :: ([44].intercalate (ms.map entryText) ++ [125])) (.object (ms.map entryOf)) := by
  refine bracket_ends rfl (.inl ⟨rfl, rfl, rfl, rfl⟩)
    fun {data p q pos fuel} split here start deep key => ?_
  have rounds : ∀ m ∈ ms, Round .key (entryText m) { m.2.node with key := m.1.name } :=
    fun m hm => entry_round (valid m hm) (named m hm) (reads m hm)
  refine (items_give (.inr (.inr rfl)) (by decide) some_ rounds split here start deep _).mono
    fun n stop found => ?_
  obtain ⟨rfl, rfl, inside⟩ := found
  refine ⟨?_, rfl, inside⟩
  have keys : ∀ sub_node ∈ ms.map fun m => { m.2.node with key := m.1.name },
      sub_node.key ≠ [] := by
    intro sub_node mem
    obtain ⟨m, hm, rfl⟩ := List.mem_map.mp mem
    exact named m hm
  rw [foldl_addChild_named keys, Doc.node, Doc.entries_eq, arrange, List.map_map, List.foldl_map,
    List.foldl_map]
  rfl

end Texts

section Atoms

/-- Without an exponent a number is one for the parser, too. -/
theorem number_of_json {sign int frac : List UInt8} (signed : sign = [] ∨ sign = [45])
    (int_ : JsonInt int) (frac_ : JsonFrac frac) : ∃ type, Number type (sign ++ int ++ frac) := by
  obtain ⟨some_, digits⟩ := int_.all_digits
  obtain ⟨d, ds, rfl⟩ := List.exists_cons_of_ne_nil some_
  have whole : Integer (sign ++ d :: ds) := by
    rcases signed with rfl | rfl
    · exact .plain digits
    · exact .negative digits
  cases frac_ with
  | none =>
      rw [List.append_nil]
      exact ⟨_, .integer whole⟩
  | digits all =>
      obtain ⟨some', digits'⟩ := all
      obtain ⟨d', ds', rfl⟩ := List.exists_cons_of_ne_nil some'
      exact ⟨_, .float whole digits'⟩

theorem Number.endStep_type {type : NodeType} {text : List UInt8} (h : Number type text) :
    endStep type = .type := by
  cases h <;> rfl

theorem Behind.noNumber {c : UInt8} (h : Behind c) : NoNumber c := by
  have other := h.no_number
  simp only [isNumberChar, Bool.or_eq_false_iff] at other
  exact other.1.1.1

/-- parse_number stops at an exponent, which no list goes on with. -/
theorem number_reads {text : List UInt8} (number : JsonNumber text) :
    Reads text (.atom (numberType text) text) := by
  obtain @⟨sign, int, frac, exp, signed, int_, frac_, exp_⟩ := number
  obtain ⟨type, front⟩ := number_of_json signed int_ frac_
  intro data p w q c pos fuel split blanks ends here start deep key
  cases exp_ with
  | none =>
      rw [List.append_nil] at split ⊢
      obtain ⟨b, q', next, behind⟩ := behind_blanks blanks (.inr ends) q
      rw [next] at split
      refine (front.numeral.decodeText_within split behind.noNumber here start _ _).gives.mono
        fun n stop found => ?_
      obtain ⟨rfl, rfl, inside⟩ := found
      refine ⟨by omega, .inr ⟨?_, _, w, c :: q, by rw [next, List.append_assoc]; exact split, blanks,
        by rw [List.length_append, here], rfl⟩⟩
      have kind := front.numeral.type_eq
      rw [Doc.node, numberType, kind, front.endStep_type]
  | @digits e sign' ds letter signed' all =>
      have stuck : data = p ++ (sign ++ int ++ frac ++ e :: (sign' ++ ds ++ (w ++ c :: q))) := by
        rw [split, List.append_assoc, List.cons_append]
      have mark : NoNumber e ∧ isBlank e = false ∧ ¬ Separates e := by
        rcases letter with rfl | rfl
        · refine ⟨rfl, rfl, ?_⟩
          rintro (h | h | h) <;> cases h
        · refine ⟨rfl, rfl, ?_⟩
          rintro (h | h | h) <;> cases h
      refine (front.numeral.decodeText_within stuck mark.1 here start _ _).gives.mono
        fun n stop found => ?_
      obtain ⟨rfl, rfl, inside⟩ := found
      refine ⟨by omega, .inl ⟨_, e, _, by rw [List.append_assoc]; exact stuck, ?_, mark.2⟩⟩
      rw [List.length_append, here]

theorem parseSymbol_gives {symbol data p w q : List UInt8} {c : UInt8} {pos : Nat}
    (split : data = p ++ (symbol ++ (w ++ c :: q))) (blanks : Blanks w) (ends : Separates c)
    (here : p.length = pos) (start : pos ≤ limit) (short : symbol.length < limit) (node : Node)
    (type : NodeType) :
    (parseSymbol node data pos type symbol).Gives
      (Arrives data { node with type := type, value := symbol, decode_step := .end_ }
        (pos + symbol.length + w.length)) := by
  have behind : data = (p ++ symbol) ++ (w ++ c :: q) := by rw [split, List.append_assoc]
  have there : (p ++ symbol).length = pos + symbol.length := by rw [List.length_append, here]
  have last : data = (p ++ symbol ++ w) ++ c :: q := by simp [behind]
  have atLast : (p ++ symbol ++ w).length = pos + symbol.length + w.length := by
    rw [List.length_append, there]
  rw [parseSymbol]
  by_cases reached : pos + symbol.length ≤ limit
  · refine (scan_within ends.visible blanks behind there reached).andThen_gives fun inside => ?_
    refine (readAt_within last atLast (by omega)).andThen_gives fun _ => ?_
    split
    · intro ok
      cases ok
    · exact fun _ => ⟨by dsimp only; omega, .inr ⟨rfl, _, [], c :: q, last, blanks_nil, atLast, rfl⟩⟩
  · have size : data.length = pos + symbol.length + (w ++ c :: q).length := by
      rw [behind, List.length_append, there]
    have some_ : 0 < (w ++ c :: q).length := by simp
    have more : pos + symbol.length < data.length := by omega
    have stops := skipSpace_beyond (by omega) (by omega) more
    intro ok
    rw [Decoded.andThen_stopped stops] at ok
    exact absurd ok stops

/-- Up to the symbols, no other kind of value begins with this byte. -/
theorem decodeText_symbol_gives {data p q : List UInt8} {ch : UInt8} {pos : Nat} {node : Node}
    {next : Node → Nat → Decoded Event Node} {post : Node → Nat → Prop}
    (split : data = p ++ ch :: q) (here : p.length = pos) (start : pos ≤ limit)
    (letter : isDigit ch = false) (other : ch ∉ [123, 91, 45, 34, 39])
    (k : (decodeSymbol node data pos next symbols).Gives post) :
    (decodeText node data pos next).Gives post := by
  simp only [List.mem_cons, List.not_mem_nil, or_false, not_or] at other
  obtain ⟨brace, bracket, minus, quote, apostrophe⟩ := other
  rw [decodeText]
  refine (readAt_within split here start).andThen_gives fun _ => ?_
  rw [if_neg brace, if_neg bracket]
  refine (startsNumber_other data pos letter minus).andThen_gives ?_
  rw [if_neg Bool.false_ne_true, if_neg (by simp [quote, apostrophe])]
  exact k

theorem symbol_reads {type : NodeType} {symbol : List UInt8} (inside : (type, symbol) ∈ symbols) :
    Reads symbol (.atom type symbol) := by
  obtain ⟨ch, t, head, few, letter, visible, other⟩ := symbol_head inside
  intro data p w q c pos fuel split blanks ends here start deep key
  have size : symbol.length = t.length + 1 := by rw [head]; rfl
  have first : data = p ++ ch :: (t ++ (w ++ c :: q)) := by rw [split, head]; rfl
  have drop : data.drop pos = symbol ++ (w ++ c :: q) := by rw [split, ← here, List.drop_left]
  have short : symbol.length < limit := by
    unfold limit
    omega
  refine decodeText_symbol_gives first here start letter other ?_
  obtain ⟨events, same⟩ := decodeSymbol_eq inside drop
    { decode_step := .type, key := key } (decodeValue (parseObject data fuel))
  rw [same]
  have gives := parseSymbol_gives split blanks ends here start short
    { decode_step := .type, key := key } type
  have step : endStep type = .end_ := by
    have all : ∀ e ∈ symbols, endStep e.1 = .end_ := by decide
    exact all _ inside
  rw [Doc.node, step]
  exact gives

end Atoms

/-- What a JSON text spells the parser reads, if it reads the text at all. -/
theorem Spells.reads {t : List UInt8} {d : Doc} (h : Spells t d) (keyed : d.Keyed) :
    Reads t d ∧ ((∃ ds, d = .array ds) ∨ (∃ ms, d = .object ms) → ReadsToEnd t d) := by
  induction h with
  | symbol inside => exact ⟨symbol_reads inside, by simp⟩
  | number number => exact ⟨number_reads number, by simp⟩
  | string chars =>
      have ends := @string_ends _ chars
      exact ⟨ends.reads, fun _ => ends⟩
  | emptyArray blanks =>
      have ends := @emptyArray_ends _ blanks
      exact ⟨ends.reads, fun _ => ends⟩
  | array some_ blanks values ih =>
      cases keyed with
      | array elements =>
          have valid := fun e he => Element.Valid.mk (blanks e he) (values e he)
          have ends := @array_ends _ some_ valid fun e he =>
            (ih e he (elements e.2 (List.mem_map_of_mem he))).1
          exact ⟨ends.reads, fun _ => ends⟩
  | emptyObject blanks =>
      have ends := @emptyObject_ends _ blanks
      exact ⟨ends.reads, fun _ => ends⟩
  | object some_ names blanks values ih =>
      cases keyed with
      | object distinct named values_ =>
          have valid := fun m hm =>
            Entry.Valid.mk (names m hm).1 (names m hm).2 (blanks m hm) (values m hm)
          have ends := @object_ends _ some_ valid
            (fun m hm => named (entryOf m) (List.mem_map_of_mem hm)) fun m hm =>
              (ih m hm (values_ (entryOf m) (List.mem_map_of_mem hm))).1
          exact ⟨ends.reads, fun _ => ends⟩

/-- The text of an object or an array, with what it says. -/
structure Container (s : List UInt8) (d : Doc) : Prop where
  text : Says s d
  kind : (∃ ds, d = .array ds) ∨ ∃ ms, d = .object ms
  keyed : d.Keyed

/-- An accepted text ends within the reach of int32 and gives its document. -/
theorem Container.decoded {s : List UInt8} {d : Doc} (h : Container s d)
    (accepted : (jsonDecode s).status = .ok) :
    (jsonDecode s).value = d.node ∧
      ∃ e : ElementText, s = e.text ∧ Spells e.value d ∧ e.value.length ≤ limit := by
  obtain ⟨⟨e, rfl, before, behind, spelled⟩, kind, keyed⟩ := h
  obtain ⟨x, u, head, visible, -⟩ := spelled.head
  have ends : ReadsToEnd e.value d := (spelled.reads keyed).2 kind
  have front : e.text = [] ++ (e.before ++ x :: (u ++ e.behind)) := by
    simp [ElementText.text, head]
  have value_ : e.text = e.before ++ (e.value ++ e.behind) := by
    simp [ElementText.text]
  have found : (jsonDecode e.text).Gives fun n stop =>
      n = d.node ∧ stop = e.before.length + e.value.length ∧ stop ≤ limit := by
    have size : e.value.length ≤ e.text.length + 1 := by
      rw [value_, List.length_append, List.length_append]
      omega
    have passed := scan_within visible before front List.length_nil (Nat.zero_le limit)
    rw [Nat.zero_add] at passed
    rw [jsonDecode, decode, decodeWith, decodeKey, if_neg (by decide), decodeType, if_pos rfl]
    refine passed.andThen_gives fun inside => ?_
    rw [decodeColon, if_pos rfl]
    refine Decoded.Returns.andThen_gives ⟨rfl, rfl, rfl⟩ ?_
    have text := ends value_ rfl (by omega) size []
    rw [keyless_eq d.node_key] at text
    exact text
  obtain ⟨node, stop, inside⟩ := found accepted
  exact ⟨node, e, rfl, spelled, by omega⟩

end HZRobot.Json
