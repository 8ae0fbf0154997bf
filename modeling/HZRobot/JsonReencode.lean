import HZRobot.JsonDecoded

/-!
A reply that is decoded and encoded again. encode prints the tree that decode has made, and
the text denotes the value of the reply unless an element was dropped.
-/

namespace HZRobot.Json

namespace Doc

mutual

/-- What the text says that encode prints. -/
def canon : Doc → Doc
  | .atom type text => .atom type text
  | .string chars => .string chars
  | .array elements => .array (canonElements elements)
  | .object members => .object (arrange (canonMembers members))

def canonElements : List Doc → List Doc
  | [] => []
  | d :: ds => if solid d.node then canon d :: canonElements ds else canonElements ds

def canonMembers : List (List UInt8 × Doc) → List (List UInt8 × Doc)
  | [] => []
  | (key, d) :: ms => (key, canon d) :: canonMembers ms

end

theorem canonElements_eq (ds : List Doc) :
    canonElements ds = (ds.filter fun d => solid d.node).map canon := by
  induction ds with
  | nil => rw [canonElements, List.filter_nil, List.map_nil]
  | cons d ds ih =>
      rw [canonElements, List.filter_cons]
      split
      · rw [List.map_cons, ih]
      · exact ih

theorem canonMembers_eq (ms : List (List UInt8 × Doc)) :
    canonMembers ms = ms.map fun m => (m.1, canon m.2) := by
  induction ms with
  | nil => rw [canonMembers, List.map_nil]
  | cons m ms ih =>
      obtain ⟨key, d⟩ := m
      rw [canonMembers, List.map_cons, ih]

end Doc

section Printing

theorem encodeArrayChilds_texts {es : List (List UInt8 × Node)}
    (h : ∀ e ∈ es, encode e.2 = some e.1) (flag : Bool) :
    encodeArrayChilds flag (es.map (·.2)) =
      some ((if flag ∧ es ≠ [] then [44] else []) ++ insideText es) := by
  induction es generalizing flag with
  | nil =>
      rw [List.map_nil, encodeArrayChilds]
      simp [insideText]
  | cons e es ih =>
      rw [List.map_cons, encodeArrayChilds, h e List.mem_cons_self,
        ih fun e' he => h e' (List.mem_cons_of_mem _ he)]
      by_cases last : es = []
      · subst last
        simp [insideText]
      · rw [insideText_more e last]
        simp [last]

/-- A node is printed with its label in front. -/
theorem encode_labelled {d : Doc} {key t : List UInt8} (plain : PlainString key)
    (small : key.length ≤ limit) (content : encodeContent d.node = some t) :
    encode { d.node with key := key } = some (labelText key ++ t) := by
  have label : encodeLabel key = some (labelText key) := by
    unfold encodeLabel labelText
    by_cases none_ : key = []
    · rw [if_neg (by simpa using none_), if_pos none_]
    · rw [if_pos none_, if_neg none_, plain.encodeChars.eq_some small]
      rfl
  have content' : encodeContent { d.node with key := key } = some t := content
  rw [encode_eq, label, content']
  rfl

/-- What decode makes of the document is printed as the text of what is left of it. -/
def Prints (d : Doc) : Prop := ∃ t, encodeContent d.node = some t ∧ Spells t d.canon

theorem prints_array {ds : List Doc} (h : ∀ d ∈ ds, Prints d) : Prints (.array ds) := by
  have kept : ∀ d ∈ ds.filter fun d => solid d.node, Prints d :=
    fun d mem => h d (List.mem_filter.mp mem).1
  obtain ⟨pairs, same, printed⟩ := exists_paired kept
  have texts : ∀ e ∈ pairs.map fun x => (x.2, x.1.node), encode e.2 = some e.1 := by
    intro e mem
    obtain ⟨x, hx, rfl⟩ := List.mem_map.mp mem
    have plain : PlainString [] := fun c none_ => by cases none_
    have node := encode_labelled plain (Nat.zero_le _) (printed x hx).1
    rw [keyless_eq x.1.node_key] at node
    exact node
  have all := encodeArrayChilds_texts texts false
  refine ⟨91 :: (insideText (pairs.map fun x => (x.2, x.1.node)) ++ [93]), ?_, ?_⟩
  · have nodes : (pairs.map fun x => (x.2, x.1.node)).map (·.2) =
        (Doc.nodes ds).filter solid := by
      have filtered : solid ∘ Doc.node = fun d => solid d.node := rfl
      rw [List.map_map, Doc.nodes_eq, List.filter_map, filtered, ← same, List.map_map]
      rfl
    rw [nodes] at all
    rw [Doc.node]
    show (encodeArrayChilds false ((Doc.nodes ds).filter solid)).map _ = _
    rw [all]
    simp
  · rw [Doc.canon, Doc.canonElements_eq, ← same, List.map_map, insideText, List.map_map]
    by_cases none_ : pairs = []
    · subst none_
      exact .emptyArray blanks_nil
    · have spelled := @Spells.array (pairs.map fun x => (⟨[], x.2, []⟩, x.1.canon))
        (by simpa using none_) (fun e mem => ?_) fun e mem => ?_
      · rw [List.map_map, List.map_map] at spelled
        simpa [ElementText.text, Function.comp_def] using spelled
      · obtain ⟨x, -, rfl⟩ := List.mem_map.mp mem
        exact ⟨blanks_nil, blanks_nil⟩
      · obtain ⟨x, hx, rfl⟩ := List.mem_map.mp mem
        exact (printed x hx).2

theorem prints_object {ms : List (List UInt8 × Doc)}
    (names : ∀ m ∈ ms, m.1 ≠ [] ∧ Unescaped m.1 ∧ m.1.length ≤ limit)
    (h : ∀ m ∈ ms, Prints m.2) : Prints (.object ms) := by
  have kept : ∀ m ∈ arrange ms, Prints m.2 := fun m mem => h m (mem_arrange mem)
  obtain ⟨pairs, same, printed⟩ := exists_paired kept
  have named (x : (List UInt8 × Doc) × List UInt8) (hx : x ∈ pairs) :
      x.1.1 ≠ [] ∧ Unescaped x.1.1 ∧ x.1.1.length ≤ limit :=
    names x.1 (mem_arrange (same ▸ List.mem_map_of_mem hx))
  have texts : ∀ e ∈ pairs.map fun x =>
      (labelText x.1.1 ++ x.2, Doc.memberNode x.1), encode e.2 = some e.1 := by
    intro e mem
    obtain ⟨x, hx, rfl⟩ := List.mem_map.mp mem
    exact encode_labelled (named x hx).2.1.plain (named x hx).2.2 (printed x hx).1
  have all := encodeArrayChilds_texts texts false
  refine ⟨123 :: (insideText (pairs.map fun x =>
    (labelText x.1.1 ++ x.2, Doc.memberNode x.1)) ++ [125]), ?_, ?_⟩
  · have nodes : (pairs.map fun x =>
        (labelText x.1.1 ++ x.2, Doc.memberNode x.1)).map (·.2) =
        (arrange (Doc.entries ms)).map Prod.snd := by
      rw [Doc.entries_eq, arrange_map Doc.memberNode, ← same,
        List.map_map, List.map_map, List.map_map]
      rfl
    rw [nodes, ← encodeKvChilds_eq] at all
    rw [Doc.node]
    show (encodeKvChilds false (arrange (Doc.entries ms))).map _ = _
    rw [all]
    rfl
  · rw [Doc.canon, Doc.canonMembers_eq, @arrange_map _ _ fun m => Doc.canon m.2, ← same,
      List.map_map, insideText, List.map_map]
    by_cases none_ : pairs = []
    · subst none_
      exact .emptyObject blanks_nil
    · have spelled := @Spells.object
        (pairs.map fun x => (⟨[], x.1.1, [], ⟨[], x.2, []⟩⟩, x.1.2.canon)) (by simpa using none_)
        (fun m mem => ?_) (fun m mem => ?_) fun m mem => ?_
      · rw [List.map_map, List.map_map] at spelled
        have labels : pairs.map (fun x => labelText x.1.1 ++ x.2) =
            pairs.map fun x => 34 :: (x.1.1 ++ [34]) ++ 58 :: x.2 := by
          refine List.map_congr_left fun x hx => ?_
          rw [labelText, if_neg (named x hx).1]
          simp
        simpa [MemberText.text, ElementText.text, Function.comp_def, labels] using spelled
      · obtain ⟨x, hx, rfl⟩ := List.mem_map.mp mem
        exact ⟨(named x hx).2.1, blanks_nil, blanks_nil⟩
      · obtain ⟨x, hx, rfl⟩ := List.mem_map.mp mem
        exact ⟨blanks_nil, blanks_nil⟩
      · obtain ⟨x, hx, rfl⟩ := List.mem_map.mp mem
        exact (printed x hx).2

theorem Spells.prints {t : List UInt8} {d : Doc} (h : Spells t d) (keyed : d.Keyed)
    (small : t.length ≤ limit) : Prints d := by
  induction h with
  | @symbol type text inside =>
      have kinds : ∀ e ∈ symbols, e.1 = .boolean ∨ e.1 = .null := by decide
      refine ⟨text, ?_, .symbol inside⟩
      rw [Doc.node]
      rcases kinds _ inside with rfl | rfl <;> rfl
  | @number text number =>
      refine ⟨text, ?_, .number number⟩
      rw [Doc.node, numberType]
      split <;> rfl
  | @string chars unescaped =>
      refine ⟨34 :: (chars ++ [34]), ?_, .string unescaped⟩
      rw [List.length_cons, List.length_append] at small
      rw [Doc.node]
      show (encodeChars chars).map _ = _
      rw [unescaped.plain.encodeChars.eq_some (by omega)]
      rfl
  | emptyArray blanks => exact prints_array fun d none_ => by cases none_
  | @array es some_ blanks values ih =>
      cases keyed with
      | array elements =>
          refine prints_array fun d mem => ?_
          obtain ⟨e, he, rfl⟩ := List.mem_map.mp mem
          refine ih e he (elements e.2 mem) ?_
          have part := (infix_intercalate (List.mem_map_of_mem (f := fun e => e.1.text) he)).length_le
          have value_ : e.1.value.length ≤ e.1.text.length := by
            simp [ElementText.text]
            omega
          rw [List.length_cons, List.length_append] at small
          omega
  | emptyObject blanks =>
      exact prints_object (fun m none_ => by cases none_) fun m none_ => by cases none_
  | @object ms some_ names blanks values ih =>
      cases keyed with
      | object distinct named values_ =>
          have part (m : MemberText × Doc) (hm : m ∈ ms) : m.1.text.length ≤ limit := by
            have := (infix_intercalate (List.mem_map_of_mem (f := fun m => m.1.text) hm)).length_le
            rw [List.length_cons, List.length_append] at small
            omega
          refine prints_object (fun m mem => ?_) fun m mem => ?_
          · obtain ⟨m', hm', rfl⟩ := List.mem_map.mp mem
            refine ⟨named _ mem, (names m' hm').1, ?_⟩
            have size := part m' hm'
            simp only [MemberText.text, List.length_append, List.length_cons] at size
            dsimp only
            omega
          · obtain ⟨m', hm', rfl⟩ := List.mem_map.mp mem
            refine ih m' hm' (values_ _ mem) ?_
            have size := part m' hm'
            simp only [MemberText.text, ElementText.text, List.length_append, List.length_cons] at size
            omega

end Printing

namespace Doc

/-- Nothing that an array keeps. -/
def Bare (d : Doc) : Prop := d = .string [] ∨ d = .array [] ∨ d = .object []

/-- No array has an element that is an empty string, an empty array or an empty object. -/
inductive Full : Doc → Prop
  | atom {type : NodeType} {text : List UInt8} : Full (.atom type text)
  | string {chars : List UInt8} : Full (.string chars)
  | array {ds : List Doc} (elements : ∀ d ∈ ds, ¬ Bare d) (later : ∀ d ∈ ds, Full d) :
      Full (.array ds)
  | object {ms : List (List UInt8 × Doc)} (values : ∀ m ∈ ms, Full m.2) : Full (.object ms)

theorem Bare.dropped {d : Doc} (h : d.Bare) : solid d.node = false := by
  rcases h with rfl | rfl | rfl
  · rw [node]
    rfl
  · rw [node, nodes]
    rfl
  · rw [node, entries]
    rfl

end Doc

section Values

theorem arrange_ne_nil {ν : Type} {es : List (List UInt8 × ν)} (some_ : es ≠ []) :
    arrange es ≠ [] := by
  obtain ⟨e, es, rfl⟩ := List.exists_cons_of_ne_nil some_
  have first := @OrderedMap.mem_foldl_emplace_of_mem _ _ before es [(e.1, e.2)] (e.1, e.2)
    List.mem_cons_self
  exact List.ne_nil_of_mem first

/-- In a text without bare elements only what is bare itself would be dropped. -/
theorem Spells.solid {t : List UInt8} {d : Doc} (h : Spells t d) (full : d.Full)
    (some_ : ¬ d.Bare) : solid d.node = true := by
  induction h with
  | symbol inside =>
      obtain ⟨c, u, rfl, -⟩ := head_of_atom (.inl inside)
      rw [Doc.node]
      simp [Json.solid]
  | number number =>
      obtain ⟨c, u, rfl, -⟩ := number.head
      rw [Doc.node]
      simp [Json.solid]
  | @string chars unescaped =>
      rw [Doc.node]
      have other : chars ≠ [] := fun none_ => some_ (.inl (by rw [none_]))
      simp [Json.solid, other]
  | emptyArray blanks => exact absurd (.inr (.inl rfl)) some_
  | @array es nonempty blanks values ih =>
      cases full with
      | array elements later =>
          obtain ⟨e, es, rfl⟩ := List.exists_cons_of_ne_nil nonempty
          have mem := List.mem_map_of_mem (f := Prod.snd) (List.mem_cons_self (a := e) (l := es))
          have kept := ih e List.mem_cons_self (later _ mem) (elements _ mem)
          rw [Doc.node, List.map_cons, Doc.nodes, arrayNode, List.filter_cons_of_pos kept]
          simp [Json.solid]
  | emptyObject blanks => exact absurd (.inr (.inr rfl)) some_
  | @object ms nonempty names blanks values ih =>
      have entries : Doc.entries (ms.map fun m => (m.1.name, m.2)) ≠ [] := by
        rw [Doc.entries_eq]
        simpa using nonempty
      have kept := List.length_pos_of_ne_nil (arrange_ne_nil entries)
      rw [Doc.node]
      simp [Json.solid, kept]

/-- The members that are printed are those of the text. -/
theorem memberValue_canon {ms : List (List UInt8 × Doc)} (distinct : (ms.map Prod.fst).Nodup)
    {name : List UInt8} {v : Value} :
    Doc.memberValue (arrange (Doc.canonMembers ms)) name = some v ↔
      ∃ d, (name, d) ∈ ms ∧ d.canon.value = v := by
  have names : (Doc.canonMembers ms).map Prod.fst = ms.map Prod.fst := by
    rw [Doc.canonMembers_eq, List.map_map]
    rfl
  have perm := arrange_perm (names ▸ distinct)
  have distinct' : ((arrange (Doc.canonMembers ms)).map Prod.fst).Nodup :=
    (perm.map Prod.fst).nodup_iff.mpr (names ▸ distinct)
  rw [Doc.memberValue_eq_some_iff distinct']
  constructor
  · rintro ⟨d', mem, rfl⟩
    have inside := perm.mem_iff.mp mem
    rw [Doc.canonMembers_eq] at inside
    obtain ⟨m, hm, same⟩ := List.mem_map.mp inside
    cases same
    exact ⟨m.2, hm, rfl⟩
  · rintro ⟨d, mem, rfl⟩
    refine ⟨d.canon, perm.mem_iff.mpr ?_, rfl⟩
    rw [Doc.canonMembers_eq]
    exact List.mem_map_of_mem (f := fun m => (m.1, m.2.canon)) mem

theorem array_value_iff {ds : List Doc} (solid_ : ∀ d ∈ ds, d.Full → ¬ d.Bare → solid d.node = true)
    (each : ∀ d ∈ ds, d.canon.value = d.value ↔ d.Full) :
    (Doc.array ds).canon.value = (Doc.array ds).value ↔ (Doc.array ds).Full := by
  rw [Doc.canon, Doc.value, Doc.value, Doc.arrayValues_eq, Doc.arrayValues_eq, Doc.canonElements_eq,
    List.map_map]
  constructor
  · intro same
    have lists := Value.array.inj same
    have all : ∀ d ∈ ds, solid d.node = true := by
      refine List.length_filter_eq_length_iff.mp ?_
      simpa using congrArg List.length lists
    rw [List.filter_eq_self.mpr all] at lists
    refine .array (fun d mem bare => ?_) fun d mem =>
      (each d mem).mp (List.map_inj_left.mp lists d mem)
    have dropped := bare.dropped
    rw [all d mem] at dropped
    cases dropped
  · intro full
    cases full with
    | array elements later =>
        have all : ∀ d ∈ ds, solid d.node = true :=
          fun d mem => solid_ d mem (later d mem) (elements d mem)
        rw [List.filter_eq_self.mpr all]
        congr 1
        exact List.map_congr_left fun d mem => (each d mem).mpr (later d mem)

theorem object_value_iff {ms : List (List UInt8 × Doc)} (distinct : (ms.map Prod.fst).Nodup)
    (each : ∀ m ∈ ms, m.2.canon.value = m.2.value ↔ m.2.Full) :
    (Doc.object ms).canon.value = (Doc.object ms).value ↔ (Doc.object ms).Full := by
  rw [Doc.canon, Doc.value, Doc.value]
  constructor
  · intro same
    refine .object fun m mem => (each m mem).mp ?_
    have here : Doc.memberValue ms m.1 = some m.2.value :=
      (Doc.memberValue_eq_some_iff distinct).mpr ⟨m.2, mem, rfl⟩
    rw [← Value.object.inj same, memberValue_canon distinct] at here
    obtain ⟨d, mem', value⟩ := here
    have entry : m = (m.1, d) := List.inj_on_of_nodup_map distinct mem mem' rfl
    have doc : m.2 = d := congrArg Prod.snd entry
    rw [← doc] at value
    exact value
  · intro full
    cases full with
    | object values =>
        congr 1
        funext name
        refine Option.ext fun v => ?_
        rw [memberValue_canon distinct, Doc.memberValue_eq_some_iff distinct]
        constructor
        · rintro ⟨d, mem, rfl⟩
          exact ⟨d, mem, ((each _ mem).mpr (values _ mem)).symm⟩
        · rintro ⟨d, mem, rfl⟩
          exact ⟨d, mem, (each _ mem).mpr (values _ mem)⟩

theorem Spells.canon_value_iff {t : List UInt8} {d : Doc} (h : Spells t d) (keyed : d.Keyed) :
    d.canon.value = d.value ↔ d.Full := by
  induction h with
  | symbol inside =>
      rw [Doc.canon]
      exact iff_of_true rfl .atom
  | number number =>
      rw [Doc.canon]
      exact iff_of_true rfl .atom
  | string chars =>
      rw [Doc.canon]
      exact iff_of_true rfl .string
  | emptyArray blanks =>
      exact array_value_iff (fun d none_ => by cases none_) fun d none_ => by cases none_
  | array some_ blanks values ih =>
      cases keyed with
      | array elements =>
          refine array_value_iff (fun d mem => ?_) fun d mem => ?_
          · obtain ⟨e, he, rfl⟩ := List.mem_map.mp mem
            exact (values e he).solid
          · obtain ⟨e, he, rfl⟩ := List.mem_map.mp mem
            exact ih e he (elements _ mem)
  | emptyObject blanks => exact object_value_iff .nil fun m none_ => by cases none_
  | object some_ names blanks values ih =>
      cases keyed with
      | object distinct named values_ =>
          refine object_value_iff distinct fun m mem => ?_
          obtain ⟨m', hm', rfl⟩ := List.mem_map.mp mem
          exact ih m' hm' (values_ _ mem)

end Values

/-- The text that encode makes of what decode has read has the same JSON value. -/
def Preserved (s : List UInt8) : Prop :=
  ∃ out v, jsonEncode (jsonDecode s).value = some out ∧ Means s v ∧ Means out v

/-- The value of an accepted text survives exactly where no array has an element that is an
empty string, an empty array or an empty object. -/
theorem reencoded_iff {s : List UInt8} {d : Doc} (h : Container s d)
    (accepted : (jsonDecode s).status = .ok) : Preserved s ↔ d.Full := by
  obtain ⟨node, e, -, spelled, small⟩ := h.decoded accepted
  obtain ⟨t, content, printed⟩ := spelled.prints h.keyed small
  have plain : PlainString [] := fun c none_ => by cases none_
  have out : jsonEncode (jsonDecode s).value = some t := by
    rw [node]
    exact encode_labelled plain (Nat.zero_le _) content
  have before_ : Means s d.value := ⟨d, h.text, rfl⟩
  have after_ : Means t d.canon.value :=
    ⟨d.canon, ⟨⟨[], t, []⟩, by simp [ElementText.text], blanks_nil, blanks_nil, printed⟩, rfl⟩
  rw [← spelled.canon_value_iff h.keyed]
  constructor
  · rintro ⟨out', v, printed', means, means'⟩
    rw [out] at printed'
    cases printed'
    rw [after_.unique means', before_.unique means]
  · intro same
    exact ⟨t, d.value, out, before_, same ▸ after_⟩

/-- An object with two members, true under b and an empty string under a. -/
def twoMembers : List UInt8 :=
  [123, 34, 98, 34, 58, 116, 114, 117, 101, 44, 34, 97, 34, 58, 34, 34, 125]

theorem twoMembers_container :
    Container twoMembers (.object [([98], .atom .boolean (bytes "true")), ([97], .string [])]) where
  text := by
    refine ⟨⟨[], twoMembers, []⟩, rfl, blanks_nil, blanks_nil, ?_⟩
    refine @Spells.object [(⟨[], [98], [], ⟨[], bytes "true", []⟩⟩, .atom .boolean (bytes "true")),
      (⟨[], [97], [], ⟨[], [34, 34], []⟩⟩, .string [])] (List.cons_ne_nil _ _) ?_ ?_ ?_
    all_goals simp only [List.forall_mem_cons, List.not_mem_nil, false_imp_iff, implies_true, and_true]
    · simp [Unescaped, blanks_nil]
    · simp [blanks_nil]
    · exact ⟨.symbol (by decide), @Spells.string [] fun c none_ => by cases none_⟩
  kind := .inr ⟨_, rfl⟩
  keyed := by
    refine .object (by decide) (by simp) ?_
    simp only [List.forall_mem_cons, List.not_mem_nil, false_imp_iff, implies_true, and_true]
    exact ⟨.atom, .string⟩

theorem twoMembers_preserved : Preserved twoMembers := by
  refine (reencoded_iff twoMembers_container (by decide +kernel)).mpr (.object ?_)
  simp only [List.forall_mem_cons, List.not_mem_nil, false_imp_iff, implies_true, and_true]
  exact ⟨.atom, .string⟩

/-- The empty string in an array. -/
theorem emptyElement_lost :
    Container [91, 34, 34, 93] (.array [.string []]) ∧
      (jsonDecode [91, 34, 34, 93]).status = .ok ∧ ¬ Preserved [91, 34, 34, 93] := by
  have spelled : Spells [91, 34, 34, 93] (.array [.string []]) := by
    refine @Spells.array [(⟨[], [34, 34], []⟩, .string [])] (List.cons_ne_nil _ _) ?_ ?_
    · simp [blanks_nil]
    · simp only [List.forall_mem_cons, List.not_mem_nil, false_imp_iff, implies_true, and_true]
      exact @Spells.string [] fun c none_ => by cases none_
  have text : Says [91, 34, 34, 93] (.array [.string []]) :=
    ⟨⟨[], [91, 34, 34, 93], []⟩, rfl, blanks_nil, blanks_nil, spelled⟩
  have keyed : (Doc.array [.string []]).Keyed := by
    refine .array ?_
    simp only [List.forall_mem_cons, List.not_mem_nil, false_imp_iff, implies_true, and_true]
    exact .string
  refine ⟨⟨text, .inl ⟨_, rfl⟩, keyed⟩, by decide +kernel, ?_⟩
  rintro ⟨out, v, printed, means, means'⟩
  have out_ : out = [91, 93] := Option.some.inj (printed.symm.trans (by decide +kernel))
  have none_ : Means [91, 93] (Doc.array []).value :=
    ⟨_, ⟨⟨[], [91, 93], []⟩, rfl, blanks_nil, blanks_nil, .emptyArray blanks_nil⟩, rfl⟩
  rw [out_] at means'
  have value := Means.unique ⟨_, text, rfl⟩ means
  rw [means'.unique none_] at value
  have lists := Value.array.inj value
  exact absurd (congrArg List.length lists) (by decide)

end HZRobot.Json
