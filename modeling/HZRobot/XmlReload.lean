import HZRobot.XmlRoundTrip

/-!
A saved document loads again. What is written has no NUL and no CR that loading would take
for more than it is, and it ends in the `>` of a node and an LF, so that the stamp comes
to no halt.
-/

namespace HZRobot.Xml

theorem raw_of_no_control {value : List UInt8} (h : ∀ c ∈ value, 32 < c) : raw value = true := by
  simp only [raw, Bool.and_eq_true, Bool.not_eq_true', List.contains_eq_mem,
    decide_eq_false_iff_not]
  exact ⟨fun zero => absurd (h 0 zero) (by decide), fun cr => absurd (h 13 cr) (by decide)⟩

theorem raw_name {name : List UInt8} (h : isName name = true) : raw name = true :=
  raw_of_no_control fun _ hc => (nameChar_bytes (isNameChar_of_mem h hc)).1

theorem raw_flatMap {α : Type} {f : α → List UInt8} {l : List α}
    (h : ∀ a ∈ l, raw (f a) = true) : raw (l.flatMap f) = true := by
  induction l with
  | nil => rfl
  | cons a l ih =>
      rw [List.flatMap_cons, raw_append, h a List.mem_cons_self,
        ih fun b hb => h b (List.mem_cons_of_mem a hb)]
      rfl

/-- A CR is printed as a reference, and so is a NUL. -/
theorem raw_encodeChar (c : UInt8) : raw (encodeChar c) = true := by
  exact forall_byte (P := fun c => raw (encodeChar c) = true) (by decide +kernel) c

theorem raw_value (value : List UInt8) : raw (value.flatMap encodeChar) = true :=
  raw_flatMap fun c _ => raw_encodeChar c

theorem raw_cons {c : UInt8} (control : 32 < c) (value : List UInt8) :
    raw (c :: value) = raw value := by
  have single : raw [c] = true :=
    raw_of_no_control fun d hd => by rwa [List.mem_singleton.mp hd]
  rw [← List.singleton_append, raw_append, single, Bool.true_and]

section Raw

variable {encoding : Encoding}

theorem Attribute.print_raw {a : Attribute} (isNamed : named encoding a.name = true)
    (plain : plainAttribute encoding a = true) : raw a.print = true := by
  obtain ⟨q, isQuote, printed⟩ := Attribute.print_eq isNamed plain
  have quote : 32 < q := by
    rcases isQuote with rfl | rfl <;> decide
  rw [printed, raw_append, raw_name (named_isName isNamed), raw_cons (by decide),
    raw_cons quote, raw_append, raw_value, raw_cons quote]
  rfl

theorem printField_raw {name value : List UInt8} (isName : raw name = true)
    (plain : plainField encoding value = true) : raw (printField name value) = true := by
  simp only [plainField, Bool.and_eq_true] at plain
  have ends : raw [61, 34] = true ∧ raw [34, 32] = true := by decide
  rw [printField]
  split_ifs
  · rfl
  · rw [cstr_raw plain.1.1.1, raw_append, raw_append, raw_append, isName, plain.1.1.1, ends.1,
      ends.2]
    rfl

mutual

/-- A node is printed without NUL and CR. -/
theorem Node.print_raw : ∀ (n : Node) (depth : Nat), n.formed encoding = true →
    n.plain encoding = true → raw (n.print depth) = true
  | .element value attributes children, depth, formed, plain => by
      simp only [Node.formed, Bool.and_eq_true, List.all_eq_true, decide_eq_true_eq] at formed
      simp only [Node.plain, Bool.and_eq_true, List.all_eq_true] at plain
      obtain ⟨⟨⟨isNamed, names⟩, -⟩, formed⟩ := formed
      obtain ⟨values, plain⟩ := plain
      have isRaw := raw_name (named_isName isNamed)
      have list : raw (attributes.flatMap (fun a => 32 :: a.print)) = true :=
        raw_flatMap fun a ha => by
          rw [← List.singleton_append, raw_append, Attribute.print_raw (names a ha) (values a ha)]
          rfl
      obtain ⟨close, whole, shape⟩ := Element.print_eq value attributes children depth
        (named_isName isNamed)
      rw [whole, raw_append, raw_indent, raw_cons (by decide), raw_append, isRaw, raw_append, list]
      rcases shape with ⟨-, rfl⟩ | ⟨spaces, -, white, rfl⟩
      · rfl
      · rw [raw_cons (by decide), raw_append, printContent_raw children (depth + 1) formed plain,
          raw_append, white, raw_append, raw_append, isRaw]
        rfl
  | .text value false, depth, _, plain => by
      simp only [Node.plain, Bool.and_eq_true] at plain
      have printed : (Node.text value false).print depth = cstr (encodeString value) := by
        rw [Node.print, Text.print, if_neg Bool.false_ne_true]
      rw [printed, (print_value plain.1.1).1]
      exact raw_value value
  | .text value true, depth, formed, _ => by
      rw [Node.formed, Bool.and_eq_true] at formed
      rw [Node.print, Text.print, if_pos rfl, cstr_raw formed.1]
      simp only [raw_append, raw_indent, formed.1]
      rfl
  | .comment value, depth, formed, _ => by
      rw [Node.formed, Bool.and_eq_true] at formed
      rw [Node.print, Comment.print, cstr_raw formed.1]
      simp only [raw_append, raw_indent, formed.1]
      rfl
  | .unknown value, depth, formed, _ => by
      rw [Node.formed, Bool.and_eq_true, Bool.and_eq_true] at formed
      rw [Node.print, Unknown.print, cstr_raw formed.1.1]
      simp only [raw_append, raw_indent, formed.1.1]
      rfl
  | .declaration version enc standalone, depth, _, plain => by
      rw [Node.plain, Bool.and_eq_true, Bool.and_eq_true] at plain
      rw [Node.print, Declaration.print, raw_append, raw_append, raw_append, raw_append,
        printField_raw (by rfl) plain.1.1, printField_raw (by rfl) plain.1.2,
        printField_raw (by rfl) plain.2]
      rfl

theorem printContent_raw : ∀ (ns : List Node) (depth : Nat), contentFormed encoding ns = true →
    contentPlain encoding ns = true → raw (printContent depth ns) = true
  | [], _, _, _ => rfl
  | n :: ns, depth, formed, plain => by
      simp only [contentFormed, Bool.and_eq_true] at formed
      simp only [contentPlain, Bool.and_eq_true] at plain
      have line : raw (if n.toText then [] else [10]) = true := by
        split <;> rfl
      rw [printContent, raw_append, raw_append, line, Node.print_raw n depth formed.1.1.1 plain.1,
        printContent_raw ns depth formed.2 plain.2]
      rfl

end

end Raw

section Top

variable {encoding : Encoding} {ns : List Node}

end Top

/-- A document is what the loop over its nodes reads. -/
theorem Document.parse_gives {text : List UInt8} {bom : Bool} {children : List Node}
    {r : Pointer} (steady : Steady text) (small : text.length < 2 ^ 29) (nonempty : children ≠ [])
    (some : text ≠ [])
    (marked : [0xEF, 0xBB, 0xBF].isPrefixOf text = bom)
    (reads : Gives (readDocument (text.length + 1) (firstEncoding .unknown bom)
      (skipWhiteSpace (firstEncoding .unknown bom) (.some text))) (children, r)) :
    Document.parse .unknown text = .ok ⟨children, none, bom⟩ := by
  have room : Cursor.Room ⟨0, 0⟩ text :=
    ⟨Int.le_refl 0, by simp only; omega, Int.le_refl 0, by simp only; omega⟩
  have outcome := reads ⟨text, ⟨0, 0⟩, none⟩ ⟨steady, room, rfl⟩
  unfold Document.parse
  rw [if_neg some, marked]
  dsimp only [StateT.run]
  rw [decide_eq_true rfl, Bool.true_and]
  change Meets _ _ (readDocument (text.length + 1) (if bom = true then .utf8 else .unknown)
    (skipWhiteSpace (if bom = true then .utf8 else .unknown) (.some text)) ⟨text, ⟨0, 0⟩, none⟩) at outcome
  split
  · case h_1 f failed =>
      rw [failed] at outcome
      exact outcome.elim
  · case h_2 ns p d ended =>
      rw [ended] at outcome
      obtain ⟨same, -, -, calm⟩ := outcome
      obtain ⟨rfl, rfl⟩ := Prod.mk.inj same
      rw [if_neg fun empty => nonempty empty.1, show d.error = none from calm]

end HZRobot.Xml
