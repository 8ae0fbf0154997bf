import HZRobot.XmlPrinted

/-!
A printed document is read back. Nothing goes wrong on the way: the stamp finds whole
characters, no error is set, and each node is read up to where its printing ends.
-/

namespace HZRobot.Xml

/-- An EF has the bytes behind it that the stamp looks for. -/
def Steady (p : List UInt8) : Prop := ∀ rest, 0xEF :: rest <:+ p → 2 ≤ rest.length

/-- Reading has met no error and the stamp will come to no halt. -/
def Calm (d : ParsingData) : Prop := Steady d.stamp ∧ d.cursor.Room d.stamp ∧ d.error = none

/-- From a calm state the parser ends in this result and a calm state. -/
def Gives {α : Type} (m : Parser α) (a : α) : Prop :=
  Ends (fun _ => False) Calm m fun b d => b = a ∧ Calm d

section Rules

variable {α β : Type}

theorem Gives.pure (a : α) : Gives (pure a) a := Ends.pure fun _ calm => ⟨rfl, calm⟩

theorem Gives.bind {m : Parser α} {k : α → Parser β} {a : α} {b : β} (hm : Gives m a)
    (hk : Gives (k a) b) : Gives (m >>= k) b := by
  refine Ends.bind hm fun c d ⟨same, calm⟩ => ?_
  rw [same]
  exact hk d calm

theorem Gives.lift {x : Except Fault α} {a : α} (h : x = .ok a) :
    Gives (liftM x : Parser α) a := by
  rw [h]
  exact fun d calm => ⟨rfl, calm⟩

end Rules

theorem stamp_gives (encoding : Encoding) (now : List UInt8) : Gives (stamp encoding now) () := by
  intro d calm
  have never (f : Fault) : f = .endless ∧ CutShort d.stamp (· = 0xEF) → False := by
    rintro ⟨-, c, rest, inside, short, rfl⟩
    have two := calm.1 rest inside
    have three : utf8ByteTable 0xEF = 3 := by decide
    omega
  refine ((stamp_halts now ⟨List.suffix_refl d.stamp, calm.2.1⟩).allow never).mono ?_
  rintro r ⟨⟨after, room⟩, same⟩
  exact ⟨rfl, fun rest inside => calm.1 rest (inside.trans after), room, same.trans calm.2.2⟩

theorem skipSpaces_white {encoding : Encoding} {spaces : List UInt8}
    (white : ∀ c ∈ spaces, isSpace c = true) (rest : List UInt8) :
    skipSpaces encoding (spaces ++ rest) = skipSpaces encoding rest := by
  induction spaces with
  | nil => rfl
  | cons c spaces ih =>
      have isWhite := white c List.mem_cons_self
      have other : c ≠ 0xEF := by
        rintro rfl
        cases isWhite
      rw [List.cons_append, skipSpaces, if_neg (by simp [markAt_of_ne _ other]), if_pos isWhite]
      exact ih fun d hd => white d (List.mem_cons_of_mem c hd)

theorem skipWhiteSpace_white {encoding : Encoding} {spaces rest : List UInt8}
    (white : ∀ c ∈ spaces, isSpace c = true) (nonempty : rest ≠ []) :
    skipWhiteSpace encoding (some (spaces ++ rest)) = skipWhiteSpace encoding (some rest) := by
  have all {p : List UInt8} (hp : p ≠ []) :
      skipWhiteSpace encoding (some p) = some (skipSpaces encoding p) := by
    cases p with
    | nil => exact absurd rfl hp
    | cons c p => rfl
  rw [all nonempty, all (by simp [nonempty]), skipSpaces_white white]

theorem skipWhiteSpace_solid_of {encoding : Encoding} {c : UInt8} {rest : List UInt8}
    (noMark : markAt encoding (c :: rest) = false) (noSpace : isSpace c = false) :
    skipWhiteSpace encoding (some (c :: rest)) = some (c :: rest) := by
  rw [skipWhiteSpace, skipSpaces_of_solid noMark noSpace]
  exact List.cons_ne_nil c rest

theorem skipWhiteSpace_named {encoding : Encoding} {name rest : List UInt8}
    (h : named encoding name = true) (behind : EndsName rest) :
    skipWhiteSpace encoding (some (name ++ rest)) = some (name ++ rest) := by
  rw [named, Bool.and_eq_true, Bool.not_eq_true'] at h
  obtain ⟨isName, noMark⟩ := h
  obtain ⟨c, t, rfl, notChar⟩ := behind
  have same : markAt encoding (name ++ c :: t) = markAt encoding name := by
    have chars : ∀ m ∈ byteOrderMarks, ∀ b ∈ m, isNameChar b = true := by decide +kernel
    unfold markAt
    congr 1
    rw [Bool.eq_iff_iff, List.any_eq_true, List.any_eq_true]
    refine exists_congr fun m => and_congr_right fun hm => ?_
    have outside : c ∉ m := fun inside => by
      rw [chars m hm c inside] at notChar
      cases notChar
    rw [isPrefixOf_append outside]
  cases name with
  | nil => cases isName
  | cons d name =>
      have noSpace := (nameChar_bytes (isNameChar_of_mem isName List.mem_cons_self)).2.2.2.2.2.2.2.2
      exact skipWhiteSpace_solid_of (same.trans noMark) noSpace

theorem EndsName.cons {c : UInt8} (rest : List UInt8) (h : isNameChar c = false) :
    EndsName (c :: rest) := ⟨c, rest, rfl, h⟩

theorem named_isName {encoding : Encoding} {name : List UInt8} (h : named encoding name = true) :
    isName name = true := by
  rw [named, Bool.and_eq_true] at h
  exact h.1

/-- A name begins with none of the characters that end a tag. -/
theorem cons_of_isName {name : List UInt8} (h : isName name = true) :
    ∃ d t, name = d :: t ∧ isNameStart d = true ∧ d ≠ 47 ∧ d ≠ 62 := by
  cases name with
  | nil => cases h
  | cons d t =>
      have char := nameChar_bytes (isNameChar_of_mem h List.mem_cons_self)
      rw [isName, Bool.and_eq_true] at h
      exact ⟨d, t, rfl, h.1, char.2.2.2.2.1, char.2.2.2.2.2.2.2.1⟩

/-- A quoted value is read up to its quote. -/
theorem parseValue_gives {document : Bool} {encoding : Encoding} {name value printed : List UInt8}
    {q : UInt8} {rest : List UInt8} (isQuote : q = 34 ∨ q = 39)
    (kept : readText encoding false [q] (some (printed ++ q :: rest)) = .ok (value, some rest)) :
    Gives (Attribute.parseValue document encoding name (some (q :: (printed ++ q :: rest))))
      (⟨name, value⟩, some rest) := by
  rw [Attribute.parseValue, if_pos isQuote.symm]
  exact (Gives.lift kept).bind (Gives.pure _)

/-- An attribute is its name, an `=` and its value in quotes. -/
theorem Attribute.parse_gives {document : Bool} {encoding : Encoding}
    {name value printed : List UInt8} {q : UInt8} {rest : List UInt8}
    (isNamed : named encoding name = true) (isQuote : q = 34 ∨ q = 39)
    (kept : readText encoding false [q] (some (printed ++ q :: rest)) = .ok (value, some rest)) :
    Gives (Attribute.parse document encoding
      (some (name ++ 61 :: q :: (printed ++ q :: rest)))) (⟨name, value⟩, some rest) := by
  have behind : EndsName (61 :: q :: (printed ++ q :: rest)) := EndsName.cons _ (by decide)
  have equal : skipWhiteSpace encoding (some (61 :: q :: (printed ++ q :: rest))) =
      some (61 :: q :: (printed ++ q :: rest)) :=
    skipWhiteSpace_solid_of (markAt_of_ne _ (by decide)) (by decide)
  have quote : skipWhiteSpace encoding (some (q :: (printed ++ q :: rest))) =
      some (q :: (printed ++ q :: rest)) := by
    refine skipWhiteSpace_solid_of (markAt_of_ne _ ?_) ?_
    · rcases isQuote with rfl | rfl <;> decide
    · rcases isQuote with rfl | rfl <;> decide
  obtain ⟨d, t, start, -⟩ := cons_of_isName (named_isName isNamed)
  unfold Attribute.parse
  rw [skipWhiteSpace_named isNamed behind]
  split
  · case h_1 impossible => cases impossible
  · case h_2 impossible => simp [start] at impossible
  · case h_3 begin _ same =>
      obtain rfl := Option.some.inj same
      refine (stamp_gives encoding _).bind ?_
      rw [readName_append (named_isName isNamed) behind]
      dsimp only
      rw [equal]
      show Gives (Attribute.parseValue document encoding name
        (skipWhiteSpace encoding (some (q :: (printed ++ q :: rest))))) _
      rw [quote]
      exact parseValue_gives isQuote kept

theorem plainAttribute_spec {encoding : Encoding} {a : Attribute}
    (h : plainAttribute encoding a = true) :
    a.name.length < 2 ^ 31 ∧ plainValue encoding a.value = true := by
  simpa only [plainAttribute, Bool.and_eq_true, decide_eq_true_eq] using h

theorem Attribute.print_eq {encoding : Encoding} {a : Attribute}
    (isNamed : named encoding a.name = true) (plain : plainAttribute encoding a = true) :
    ∃ q, (q = 34 ∨ q = 39) ∧
      a.print = a.name ++ 61 :: q :: (a.value.flatMap encodeChar ++ [q]) := by
  obtain ⟨short, plain⟩ := plainAttribute_spec plain
  have isName_ := named_isName isNamed
  refine ⟨if (cstr a.value).contains 34 then 39 else 34, ?_, ?_⟩
  · split_ifs
    · exact .inr rfl
    · exact .inl rfl
  · rw [Attribute.print, encodeString_name isName_ short, cstr_name isName_, (print_value plain).1]
    simp

theorem white_singleton {c : UInt8} (h : isSpace c = true) : ∀ d ∈ [c], isSpace d = true := by
  intro d hd
  rw [List.mem_singleton.mp hd]
  exact h

theorem length_le_flatMap (f : Attribute → List UInt8) (attributes : List Attribute) :
    attributes.length ≤ (attributes.flatMap fun a => 32 :: f a).length := by
  induction attributes with
  | nil => exact Nat.le_refl 0
  | cons a attributes ih =>
      rw [List.flatMap_cons, List.length_append, List.length_cons, List.length_cons]
      omega

/-- The attributes are read one by one, up to what closes the tag. -/
theorem readAttributes_gives {encoding : Encoding} {tail : List UInt8} {tagEnd : TagEnd}
    (nonempty : tail ≠ [])
    (closes : ∀ fuel seen, Gives (readAttributes encoding (fuel + 1) seen (some tail))
      (seen, tagEnd)) (attributes seen : List Attribute) (fuel : Nat)
    (enough : attributes.length < fuel)
    (names : ∀ a ∈ attributes, named encoding a.name = true)
    (plain : ∀ a ∈ attributes, plainAttribute encoding a = true)
    (distinct : ((seen ++ attributes).map (·.name)).Nodup) :
    Gives (readAttributes encoding fuel seen
      (some (attributes.flatMap (fun a => 32 :: a.print) ++ tail)))
      (seen ++ attributes, tagEnd) := by
  induction attributes generalizing seen fuel with
  | nil =>
      obtain ⟨fuel, rfl⟩ := Nat.exists_eq_succ_of_ne_zero (Nat.ne_of_gt enough)
      rw [List.append_nil]
      exact closes fuel seen
  | cons a attributes ih =>
      obtain ⟨fuel, rfl⟩ : ∃ m, fuel = m + 1 := Nat.exists_eq_succ_of_ne_zero (by omega)
      have isNamed := names a List.mem_cons_self
      obtain ⟨q, isQuote, printed⟩ := Attribute.print_eq isNamed (plain a List.mem_cons_self)
      have steps := (print_value (plainAttribute_spec (plain a List.mem_cons_self)).2).2
      have later := ih (seen ++ [a]) fuel (by simpa using enough)
        (fun b hb => names b (List.mem_cons_of_mem a hb))
        (fun b hb => plain b (List.mem_cons_of_mem a hb)) (by simpa using distinct)
      rw [List.append_assoc, List.singleton_append] at later
      have shape : (a :: attributes).flatMap (fun a => 32 :: a.print) ++ tail =
          [32] ++ (a.name ++ 61 :: q :: (a.value.flatMap encodeChar ++
            q :: (attributes.flatMap (fun a => 32 :: a.print) ++ tail))) := by
        simp [printed]
      have more : attributes.flatMap (fun a => 32 :: a.print) ++ tail ≠ [] := by
        simp [nonempty]
      rw [shape]
      generalize attributes.flatMap (fun a => 32 :: a.print) ++ tail = rest at later more ⊢
      have kept : readText encoding false [q] (some (a.value.flatMap encodeChar ++ q :: rest)) =
          .ok (a.value, some rest) := readText_kept (readKept_encoded isQuote _ _ steps) more
      have attrib : Gives (Attribute.parse true encoding
          (some (a.name ++ 61 :: q :: (a.value.flatMap encodeChar ++ q :: rest))))
            (⟨a.name, a.value⟩, some rest) :=
        Attribute.parse_gives isNamed isQuote kept
      have behind : EndsName (61 :: q :: (a.value.flatMap encodeChar ++ q :: rest)) :=
        EndsName.cons _ (by decide)
      have skipped : skipWhiteSpace encoding
          (some ([32] ++ (a.name ++ 61 :: q :: (a.value.flatMap encodeChar ++ q :: rest)))) =
            some (a.name ++ 61 :: q :: (a.value.flatMap encodeChar ++ q :: rest)) := by
        rw [skipWhiteSpace_white (white_singleton (by decide)) (by simp),
          skipWhiteSpace_named isNamed behind]
      have fresh : ¬ seen.any (·.name = a.name) = true := by
        rw [List.any_eq_true]
        rintro ⟨b, hb, same⟩
        rw [List.map_append, List.nodup_append] at distinct
        exact distinct.2.2 _ (List.mem_map_of_mem hb) _ (List.mem_map_of_mem List.mem_cons_self)
          (of_decide_eq_true same)
      obtain ⟨d, t, start, -, notSlash, notEnd⟩ := cons_of_isName (named_isName isNamed)
      rw [readAttributes, skipped]
      split
      · case h_1 none => cases none
      · case h_2 empty => simp [start] at empty
      · case h_3 slash => simp [start, notSlash] at slash
      · case h_4 ends => simp [start, notEnd] at ends
      · case h_5 begin _ _ _ same =>
          obtain rfl := Option.some.inj same
          refine attrib.bind ?_
          dsimp only
          split
          · case h_1 none => cases none
          · case h_2 empty => exact absurd (Option.some.inj empty) more
          · case h_3 r _ same =>
              obtain rfl := Option.some.inj same
              rw [if_neg fresh]
              exact later

theorem skipWhiteSpace_byte {encoding : Encoding} {c : UInt8} (rest : List UInt8)
    (other : c ≠ 0xEF) (noSpace : isSpace c = false) :
    skipWhiteSpace encoding (some (c :: rest)) = some (c :: rest) :=
  skipWhiteSpace_solid_of (markAt_of_ne rest other) noSpace

theorem readAttributes_empty (encoding : Encoding) (t : List UInt8) (fuel : Nat)
    (seen : List Attribute) :
    Gives (readAttributes encoding (fuel + 1) seen (some (bytes " />" ++ t)))
      (seen, .empty (some t)) := by
  have skipped : skipWhiteSpace encoding (some (bytes " />" ++ t)) = some (47 :: 62 :: t) := by
    have white : skipWhiteSpace encoding (some ([32] ++ 47 :: 62 :: t)) =
        skipWhiteSpace encoding (some (47 :: 62 :: t)) :=
      skipWhiteSpace_white (white_singleton (by decide)) (List.cons_ne_nil _ _)
    exact white.trans (skipWhiteSpace_byte _ (by decide) (by decide))
  rw [readAttributes, skipped]
  exact Gives.pure _

theorem readAttributes_content (encoding : Encoding) (t : List UInt8) (fuel : Nat)
    (seen : List Attribute) :
    Gives (readAttributes encoding (fuel + 1) seen (some (62 :: t))) (seen, .content t) := by
  rw [readAttributes, skipWhiteSpace_byte t (by decide) (by decide)]
  exact Gives.pure _

section Nodes

variable {encoding : Encoding} {readValue : Pointer → Parser (List Node × Pointer)}

/-- An element is read through its attributes and what is behind its tag. -/
theorem Element.parse_gives {value tail : List UInt8} {attributes : List Attribute}
    {tagEnd : TagEnd} {r : Node × Pointer} (isNamed : named encoding value = true)
    (names : ∀ a ∈ attributes, named encoding a.name = true)
    (plain : ∀ a ∈ attributes, plainAttribute encoding a = true)
    (distinct : (attributes.map (·.name)).Nodup) (behind : EndsName tail)
    (closes : ∀ fuel seen, Gives (readAttributes encoding (fuel + 1) seen (some tail))
      (seen, tagEnd))
    (content : Gives (Element.parseContent readValue encoding value attributes tagEnd) r) :
    Gives (Element.parse readValue encoding
      (some (60 :: (value ++ (attributes.flatMap (fun a => 32 :: a.print) ++ tail))))) r := by
  have nonempty : tail ≠ [] := by
    obtain ⟨c, t, rfl, -⟩ := behind
    exact List.cons_ne_nil c t
  have behindName : EndsName (attributes.flatMap (fun a => 32 :: a.print) ++ tail) := by
    cases attributes with
    | nil => exact behind
    | cons a attributes => exact EndsName.cons _ (by decide)
  have enough : attributes.length <
      (attributes.flatMap (fun a => 32 :: a.print) ++ tail).length + 1 := by
    have each := length_le_flatMap Attribute.print attributes
    rw [List.length_append]
    omega
  have attrs := readAttributes_gives nonempty closes attributes [] _ enough names plain
    (by simpa using distinct)
  generalize attributes.flatMap (fun a => 32 :: a.print) ++ tail = rest at behindName attrs ⊢
  rw [Element.parse, skipWhiteSpace_lt]
  refine (stamp_gives encoding _).bind ?_
  split
  · case h_1 p same =>
      obtain rfl := (List.cons.inj same).2
      rw [skipWhiteSpace_named isNamed behindName]
      dsimp only
      rw [readName_append (named_isName isNamed) behindName]
      obtain ⟨c, t, rfl, -⟩ := behindName
      exact attrs.bind content
  · case h_2 other => exact absurd rfl (other _)

/-- Behind its content an element finds the end tag with its name. -/
theorem Element.parseContent_gives {value : List UInt8} {attributes : List Attribute}
    {children : List Node} {p t : List UInt8}
    (content : Gives (readValue (some p))
      (children, some (bytes "</" ++ (value ++ 62 :: t)))) :
    Gives (Element.parseContent readValue encoding value attributes (.content p))
      (.element value attributes children, some t) := by
  have ends : stringEqual (bytes "</" ++ value) false (bytes "</" ++ (value ++ 62 :: t)) = true := by
    rw [stringEqual, if_neg Bool.false_ne_true, List.isPrefixOf_iff_prefix, ← List.append_assoc]
    exact List.prefix_append _ _
  have after : (bytes "</" ++ (value ++ 62 :: t)).drop (bytes "</" ++ value).length = 62 :: t := by
    rw [← List.append_assoc, List.drop_left]
  refine content.bind ?_
  show Gives (if stringEqual (bytes "</" ++ value) false (bytes "</" ++ (value ++ 62 :: t)) then
    _ else _) _
  rw [if_pos ends, after, skipWhiteSpace_byte t (by decide) (by decide)]
  exact Gives.pure _

/-- A value is found before its end tag, which begins with one character twice and ends with
another. -/
theorem splitBefore_tag {x y : UInt8} (other : x ≠ y) {value : List UInt8}
    (without : find [x, x, y] value = none) (t : List UInt8) :
    splitBefore [x, x, y] (value ++ [x, x, y] ++ t) = (value, [x, x, y] ++ t) := by
  have first : ∀ i < value.length, ¬ [x, x, y] <+: (value ++ [x, x, y] ++ t).drop i := by
    intro i hi here
    rw [List.append_assoc, List.drop_append_of_le_length (Nat.le_of_lt hi)] at here
    have part := (List.drop_suffix i value).isInfix
    have some : value.drop i ≠ [] := by simpa using hi
    generalize value.drop i = w at here part some
    rcases w with _ | ⟨a, _ | ⟨b, _ | ⟨c, w⟩⟩⟩
    · exact some rfl
    · simp only [List.cons_append, List.nil_append, List.cons_prefix_cons] at here
      exact other here.2.2.1.symm
    · simp only [List.cons_append, List.nil_append, List.cons_prefix_cons] at here
      exact other here.2.2.1.symm
    · simp only [List.cons_append, List.cons_prefix_cons] at here
      obtain ⟨rfl, rfl, rfl, -⟩ := here
      refine find_eq_none_iff.mp without (List.IsInfix.trans ?_ part)
      exact List.IsPrefix.isInfix ⟨w, rfl⟩
  rw [splitBefore, find_first [x, x, y] value t first]
  simp

theorem cstr_raw {value : List UInt8} (h : raw value = true) : cstr value = value := by
  simp only [raw, Bool.and_eq_true, Bool.not_eq_true', List.contains_eq_mem,
    decide_eq_false_iff_not] at h
  exact cstr_eq_self h.1

theorem Comment.parse_gives {value t : List UInt8} (without : find (bytes "-->") value = none) :
    Gives (Comment.parse encoding (some (bytes "<!--" ++ (value ++ (bytes "-->" ++ t)))))
      (.comment value, some t) := by
  have split : splitBefore (bytes "-->") (value ++ (bytes "-->" ++ t)) =
      (value, bytes "-->" ++ t) := by
    rw [← List.append_assoc]
    exact splitBefore_tag (by decide) without t
  have inside : (60 :: (bytes "!--" ++ (value ++ (bytes "-->" ++ t)))).drop 4 =
      value ++ (bytes "-->" ++ t) := rfl
  show Gives (Comment.parse encoding (some (60 :: (bytes "!--" ++ (value ++ (bytes "-->" ++ t)))))) _
  rw [Comment.parse, skipWhiteSpace_lt]
  refine (stamp_gives encoding _).bind ?_
  rw [if_neg (List.cons_ne_nil _ _), if_pos (by rfl)]
  rw [inside, split]
  exact Gives.pure _

theorem Unknown.parse_gives {value t : List UInt8} (without : 62 ∉ value) :
    Gives (Unknown.parse encoding (some (60 :: (value ++ 62 :: t)))) (.unknown value, some t) := by
  have chars : ∀ c ∈ value, decide (c ≠ 62) = true := by
    intro c hc
    exact decide_eq_true fun gt => without (gt ▸ hc)
  have takes : (value ++ 62 :: t).takeWhile (· ≠ 62) = value := by
    rw [List.takeWhile_append_of_pos chars]
    simp
  have drops : (value ++ 62 :: t).dropWhile (· ≠ 62) = 62 :: t := by
    rw [List.dropWhile_append_of_pos chars]
    simp
  rw [Unknown.parse, skipWhiteSpace_lt]
  refine (stamp_gives encoding _).bind ?_
  show Gives (Pure.pure (Node.unknown ((value ++ 62 :: t).takeWhile (· ≠ 62)),
    some ((value ++ 62 :: t).dropWhile (· ≠ 62)).tail)) _
  rw [takes, drops]
  exact Gives.pure _

theorem Text.parse_cdata_gives {value t : List UInt8} (nonempty : t ≠ [])
    (without : find (bytes "]]>") value = none) :
    Gives (Text.parse true encoding (some (bytes "<![CDATA[" ++ (value ++ (bytes "]]>" ++ t)))))
      (.text value true, some t) := by
  have split : splitBefore (bytes "]]>") (value ++ (bytes "]]>" ++ t)) =
      (value, bytes "]]>" ++ t) := by
    rw [← List.append_assoc]
    exact splitBefore_tag (by decide) without t
  have closes : readText encoding false (bytes "]]>") (some (bytes "]]>" ++ t)) =
      .ok ([], some t) := by
    have stops : readKept encoding (bytes "]]>") (bytes "]]>" ++ t) =
        .ok ([], some (bytes "]]>" ++ t)) := by
      show readKept encoding (bytes "]]>") (93 :: ([93, 62] ++ t)) = _
      rw [readKept, if_pos (by rfl)]
      rfl
    rw [readText, if_neg Bool.false_ne_true]
    dsimp only
    rw [if_neg Bool.false_ne_true, stops]
    cases t with
    | nil => exact absurd rfl nonempty
    | cons c t => rfl
  rw [Text.parse]
  refine (stamp_gives encoding _).bind ?_
  have inside : (bytes "<![CDATA[" ++ (value ++ (bytes "]]>" ++ t))).drop 9 =
      value ++ (bytes "]]>" ++ t) := rfl
  have start : bytes "<![CDATA[" ++ (value ++ (bytes "]]>" ++ t)) ≠ [] := List.cons_ne_nil _ _
  rw [if_neg start, if_pos (by rfl), if_pos (by rfl), inside, split]
  exact (Gives.lift closes).bind (Gives.pure _)

theorem skipWhiteSpace_space {rest : List UInt8} (nonempty : rest ≠ []) :
    skipWhiteSpace encoding (some (32 :: rest)) = skipWhiteSpace encoding (some rest) := by
  have white : ∀ c ∈ [(32 : UInt8)], isSpace c = true := white_singleton (by decide)
  exact skipWhiteSpace_white white nonempty

/-- One round of a declaration's loop, behind a space. -/
theorem readFields_space {c : UInt8} {p : List UInt8} (other : c ≠ 0xEF)
    (noSpace : isSpace c = false) (f : Fields) (fuel : Nat) :
    readFields encoding (fuel + 1) f (some (32 :: c :: p)) =
      if stringEqual (bytes "version") true (c :: p) then
        Attribute.parse false encoding (some (c :: p)) >>= fun r =>
          readFields encoding fuel { f with version := cstr r.1.value } r.2
      else if stringEqual (bytes "encoding") true (c :: p) then
        Attribute.parse false encoding (some (c :: p)) >>= fun r =>
          readFields encoding fuel { f with encoding := cstr r.1.value } r.2
      else if stringEqual (bytes "standalone") true (c :: p) then
        Attribute.parse false encoding (some (c :: p)) >>= fun r =>
          readFields encoding fuel { f with standalone := cstr r.1.value } r.2
      else
        readFields encoding fuel f (some ((c :: p).dropWhile fun c => c ≠ 62 && !isSpace c)) := by
  rw [readFields, skipWhiteSpace_space (List.cons_ne_nil _ _), skipWhiteSpace_byte _ other noSpace]
  · exact nofun
  · exact nofun

/-- A declaration ends at its `?>`. -/
theorem readFields_end (f : Fields) (t : List UInt8) (n : Nat) :
    Gives (readFields encoding (n + 2) f (some (32 :: (bytes "?>" ++ t)))) (f, some t) := by
  have start : bytes "?>" ++ t = 63 :: 62 :: t := rfl
  have version : stringEqual (bytes "version") true (63 :: 62 :: t) = false := rfl
  have encod : stringEqual (bytes "encoding") true (63 :: 62 :: t) = false := rfl
  have standalone : stringEqual (bytes "standalone") true (63 :: 62 :: t) = false := rfl
  rw [start, readFields_space (by decide) (by decide), version, encod, standalone,
    if_neg Bool.false_ne_true, if_neg Bool.false_ne_true, if_neg Bool.false_ne_true]
  exact Gives.pure _

/-- A field is read as it was printed; one that is empty was not printed. -/
theorem readFields_field {name value rest : List UInt8} {f : Fields} {r : Fields × Pointer}
    {k : Nat} (set : List UInt8 → Fields) (isNamed : named encoding name = true)
    (plain : plainField encoding value = true) (unset : set [] = f)
    (step : ∀ fuel p, readFields encoding (fuel + 1) f (some (32 :: (name ++ p))) =
      Attribute.parse false encoding (some (name ++ p)) >>= fun r =>
        readFields encoding fuel (set (cstr r.1.value)) r.2)
    (later : ∀ n, Gives (readFields encoding (n + k) (set value) (some (32 :: rest))) r) (n : Nat) :
    Gives (readFields encoding (n + (k + 1)) f (some (32 :: (printField name value ++ rest)))) r := by
  by_cases empty : value = []
  · rw [printField, if_pos empty, List.nil_append, ← Nat.add_assoc, Nat.add_right_comm, ← unset]
    rw [empty] at later
    exact later (n + 1)
  · simp only [plainField, Bool.and_eq_true, Bool.not_eq_true', List.contains_eq_mem,
      decide_eq_false_iff_not] at plain
    obtain ⟨⟨⟨isRaw, noQuote⟩, noEntity⟩, steps⟩ := plain
    have printed : printField name value ++ rest =
        name ++ 61 :: 34 :: (value ++ 34 :: 32 :: rest) := by
      rw [printField, if_neg empty, cstr_raw isRaw]
      simp
    have kept : readText encoding false [34] (some (value ++ 34 :: 32 :: rest)) =
        .ok (value, some (32 :: rest)) :=
      readText_kept (readKept_raw _ _ noQuote noEntity steps) (List.cons_ne_nil _ _)
    rw [printed, ← Nat.add_assoc, step]
    refine (Attribute.parse_gives isNamed (.inl rfl) kept).bind ?_
    show Gives (readFields encoding (n + k) (set (cstr value)) (some (32 :: rest))) r
    rw [cstr_raw isRaw]
    exact later n

theorem Declaration.parse_gives {version enc standalone : List UInt8} (t : List UInt8)
    (h : (Node.declaration version enc standalone).plain encoding = true) :
    Gives (Declaration.parse encoding (some (Declaration.print version enc standalone ++ t)))
      (.declaration version enc standalone, some t) := by
  rw [Node.plain, Bool.and_eq_true, Bool.and_eq_true] at h
  obtain ⟨⟨hv, he⟩, hs⟩ := h
  have isNamed (name : List UInt8) (h : isName name = true) (low : name.head? ≠ some 0xEF) :
      named encoding name = true := by
    cases name with
    | nil => cases h
    | cons c name =>
        rw [named, h, markAt_of_ne name fun lead => low (by rw [lead]; rfl)]
        rfl
  have fields (n : Nat) : Gives (readFields encoding (n + 5) ⟨[], [], []⟩
      (some (32 :: (printField (bytes "version") version ++
        (printField (bytes "encoding") enc ++
          (printField (bytes "standalone") standalone ++ (bytes "?>" ++ t)))))))
      (⟨version, enc, standalone⟩, some t) := by
    refine readFields_field (fun v => ⟨v, [], []⟩)
      (isNamed (bytes "version") (by decide) (by decide)) hv rfl (fun fuel p => ?_)
      (fun n => ?_) n
    · have start : bytes "version" ++ p = 118 :: (bytes "ersion" ++ p) := rfl
      have here : stringEqual (bytes "version") true (118 :: (bytes "ersion" ++ p)) = true := rfl
      rw [start, readFields_space (by decide) (by decide), if_pos here]
    refine readFields_field (fun v => ⟨version, v, []⟩)
      (isNamed (bytes "encoding") (by decide) (by decide)) he rfl (fun fuel p => ?_)
      (fun n => ?_) n
    · have start : bytes "encoding" ++ p = 101 :: (bytes "ncoding" ++ p) := rfl
      have other : stringEqual (bytes "version") true (101 :: (bytes "ncoding" ++ p)) = false := rfl
      have here : stringEqual (bytes "encoding") true (101 :: (bytes "ncoding" ++ p)) = true := rfl
      rw [start, readFields_space (by decide) (by decide), other, if_neg Bool.false_ne_true,
        if_pos here]
    refine readFields_field (fun v => ⟨version, enc, v⟩)
      (isNamed (bytes "standalone") (by decide) (by decide)) hs rfl (fun fuel p => ?_)
      (readFields_end _ t) n
    · have start : bytes "standalone" ++ p = 115 :: (bytes "tandalone" ++ p) := rfl
      have other : stringEqual (bytes "version") true (115 :: (bytes "tandalone" ++ p)) = false := rfl
      have another : stringEqual (bytes "encoding") true (115 :: (bytes "tandalone" ++ p)) = false :=
        rfl
      have here : stringEqual (bytes "standalone") true (115 :: (bytes "tandalone" ++ p)) = true :=
        rfl
      rw [start, readFields_space (by decide) (by decide), other, another,
        if_neg Bool.false_ne_true, if_neg Bool.false_ne_true, if_pos here]
  have printed : Declaration.print version enc standalone ++ t =
      60 :: (bytes "?xml" ++ 32 :: (printField (bytes "version") version ++
        (printField (bytes "encoding") enc ++
          (printField (bytes "standalone") standalone ++ (bytes "?>" ++ t))))) := by
    have tag : bytes "<?xml " = 60 :: (bytes "?xml" ++ [32]) := rfl
    rw [Declaration.print, tag]
    simp
  rw [printed]
  generalize 32 :: (printField (bytes "version") version ++ (printField (bytes "encoding") enc ++
    (printField (bytes "standalone") standalone ++ (bytes "?>" ++ t)))) = p at fields ⊢
  have inside : (60 :: (bytes "?xml" ++ p)).drop 5 = p := rfl
  have room : (60 :: (bytes "?xml" ++ p)).length + 1 = p.length + 1 + 5 := by
    have tag : (bytes "?xml").length = 4 := rfl
    rw [List.length_cons, List.length_append, tag]
    omega
  rw [Declaration.parse, skipWhiteSpace_lt]
  dsimp only
  rw [if_pos (by rfl), inside, room]
  exact (stamp_gives encoding _).bind ((fields _).bind (Gives.pure _))

end Nodes

section Content

variable {encoding : Encoding} {fuel : Nat}

theorem indent_white (depth : Nat) : ∀ c ∈ indent depth, isSpace c = true := by
  induction depth with
  | zero => exact List.forall_mem_nil _
  | succ depth ih =>
      intro c hc
      rcases List.mem_append.mp hc with here | later
      · have four : ∀ c ∈ bytes "    ", isSpace c = true := by decide +kernel
        exact four c here
      · exact ih c later

theorem kindOf_name {d : UInt8} (h : isNameStart d = true) (u : List UInt8) :
    kindOf (d :: u) = .element := by
  have all : ∀ c, isNameStart c = true → toLower c ≠ 63 ∧ c ≠ 33 :=
    forall_byte (by decide +kernel)
  obtain ⟨noQuestion, noBang⟩ := all d h
  have first (tag : List UInt8) : stringEqual (60 :: 33 :: tag) false (60 :: d :: u) = false := by
    rw [stringEqual_cons, stringEqual_of_ne noBang, Bool.and_false]
  have question : stringEqual (bytes "<?xml") true (60 :: d :: u) = false := by
    rw [← Bool.not_eq_true, stringEqual, if_pos rfl, List.isPrefixOf_iff_prefix]
    rintro ⟨t, ht⟩
    exact noQuestion (List.cons.inj (List.cons.inj ht).2).1.symm
  have comment : stringEqual (bytes "<!--") false (60 :: d :: u) = false := first _
  have data : stringEqual (bytes "<![CDATA[") false (60 :: d :: u) = false := first _
  have bang : stringEqual (bytes "<!") false (60 :: d :: u) = false := first _
  rw [kindOf, question, comment, data, bang]
  exact if_pos h

/-- The content of an element is read back from its printing, whatever white space is before
it and before the end tag. -/
def ReadsBack (encoding : Encoding) (fuel : Nat) : Prop :=
  ∀ (ns : List Node) (depth : Nat) (spaces t p : List UInt8), contentFormed encoding ns = true →
    contentPlain encoding ns = true → (∀ c ∈ spaces, isSpace c = true) →
    skipWhiteSpace encoding (some p) =
      skipWhiteSpace encoding (some (printContent depth ns ++ (spaces ++ 60 :: 47 :: t))) →
    p.length < fuel → Gives (readValue encoding fuel (some p)) (ns, some (60 :: 47 :: t))

/-- A node stands between white space: behind a `<` it is read up to its end. -/
inductive Printed (encoding : Encoding) (fuel : Nat) (n : Node) (printed : List UInt8) : Prop
  | between (spaces body trail : List UInt8) (whole : printed = spaces ++ 60 :: (body ++ trail))
      (before : ∀ c ∈ spaces, isSpace c = true) (behind : ∀ c ∈ trail, isSpace c = true)
      (noEnd : n.inContent = true → ∃ c u, body = c :: u ∧ c ≠ 47)
      (gives : ∀ t, (body ++ (trail ++ t)).length < fuel →
        Gives (Node.parse (readValue encoding fuel) encoding
          (some (60 :: (body ++ (trail ++ t)))) (kindOf (body ++ (trail ++ t))))
          (n, some (trail ++ t)))

theorem Comment.printed {value : List UInt8}
    (formed : (Node.comment value).formed encoding = true) (depth : Nat) :
    Printed encoding fuel (.comment value) ((Node.comment value).print depth) := by
  rw [Node.formed, Bool.and_eq_true, decide_eq_true_eq] at formed
  obtain ⟨isRaw, without⟩ := formed
  refine .between (indent depth) (bytes "!--" ++ (value ++ bytes "-->")) [] ?_
    (indent_white depth) (List.forall_mem_nil _) (fun _ => ⟨33, _, rfl, by decide⟩) fun t _ => ?_
  · have tag : bytes "<!--" = 60 :: bytes "!--" := rfl
    rw [Node.print, Comment.print, cstr_raw isRaw, tag]
    simp
  · have kind (p : List UInt8) : kindOf (bytes "!--" ++ p) = .comment := rfl
    rw [List.append_assoc, List.append_assoc, kind]
    exact Comment.parse_gives without

theorem Unknown.printed {value : List UInt8}
    (formed : (Node.unknown value).formed encoding = true) (depth : Nat) :
    Printed encoding fuel (.unknown value) ((Node.unknown value).print depth) := by
  simp only [Node.formed, Bool.and_eq_true, Bool.not_eq_true', List.contains_eq_mem,
    decide_eq_false_iff_not, decide_eq_true_eq] at formed
  obtain ⟨⟨isRaw, without⟩, kind⟩ := formed
  refine .between (indent depth) (value ++ [62]) [] ?_ (indent_white depth)
    (List.forall_mem_nil _) ?_ fun t _ => ?_
  · have tags : bytes "<" = [60] ∧ bytes ">" = [62] := ⟨rfl, rfl⟩
    rw [Node.print, Unknown.print, cstr_raw isRaw, tags.1, tags.2]
    simp
  · intro inContent
    cases value with
    | nil => exact ⟨62, [], rfl, by decide⟩
    | cons c value =>
        refine ⟨c, value ++ [62], rfl, ?_⟩
        rintro rfl
        cases inContent
  · rw [List.append_assoc, List.singleton_append, kindOf_append, kind]
    exact Unknown.parse_gives without

theorem Text.printed {value : List UInt8}
    (formed : (Node.text value true).formed encoding = true) (depth : Nat) :
    Printed encoding fuel (.text value true) ((Node.text value true).print depth) := by
  rw [Node.formed, Bool.and_eq_true, decide_eq_true_eq] at formed
  obtain ⟨isRaw, without⟩ := formed
  have white : ∀ c ∈ [(10 : UInt8)], isSpace c = true := white_singleton (by decide)
  refine .between ([10] ++ indent depth) (bytes "![CDATA[" ++ (value ++ bytes "]]>")) [10] ?_ ?_
    white (fun _ => ⟨33, _, rfl, by decide⟩) fun t _ => ?_
  · have tag : bytes "<![CDATA[" = 60 :: bytes "![CDATA[" := rfl
    rw [Node.print, Text.print, if_pos rfl, cstr_raw isRaw, tag]
    simp
  · intro c hc
    rcases List.mem_append.mp hc with here | later
    · exact white c here
    · exact indent_white depth c later
  · have kind (p : List UInt8) : kindOf (bytes "![CDATA[" ++ p) = .cdata := rfl
    rw [List.append_assoc, List.append_assoc, kind]
    exact Text.parse_cdata_gives (List.cons_ne_nil _ _) without

theorem Declaration.printed {version enc standalone : List UInt8}
    (plain : (Node.declaration version enc standalone).plain encoding = true) (depth : Nat) :
    Printed encoding fuel (.declaration version enc standalone)
      ((Node.declaration version enc standalone).print depth) := by
  have start : Declaration.print version enc standalone =
      60 :: (Declaration.print version enc standalone).tail := rfl
  refine .between [] (Declaration.print version enc standalone).tail [] ?_
    (List.forall_mem_nil _) (List.forall_mem_nil _) (fun _ => ⟨63, _, rfl, by decide⟩) fun t _ => ?_
  · rw [List.append_nil]
    exact start
  · have kind : kindOf ((Declaration.print version enc standalone).tail ++ t) = .declaration := rfl
    rw [List.nil_append, kind, ← List.cons_append, ← start]
    exact Declaration.parse_gives t plain

theorem raw_append (a b : List UInt8) : raw (a ++ b) = (raw a && raw b) := by
  simp only [raw, List.contains_eq_mem, List.mem_append, Bool.decide_or, Bool.not_or]
  grind

theorem raw_indent (depth : Nat) : raw (indent depth) = true := by
  induction depth with
  | zero => rfl
  | succ depth ih =>
      rw [indent, raw_append, ih]
      rfl

/-- An element is printed as an empty tag or around its content. -/
theorem Element.print_eq (value : List UInt8) (attributes : List Attribute)
    (children : List Node) (depth : Nat) (isNamed : isName value = true) :
    ∃ close, (Node.element value attributes children).print depth = indent depth ++
        60 :: (value ++ (attributes.flatMap (fun a => 32 :: a.print) ++ close)) ∧
      ((children = [] ∧ close = bytes " />") ∨
        ∃ spaces, (∀ c ∈ spaces, isSpace c = true) ∧ raw spaces = true ∧
          close = 62 :: (printContent (depth + 1) children ++
            (spaces ++ (bytes "</" ++ (value ++ [62]))))) := by
  unfold Node.print
  rw [cstr_name isNamed]
  split
  · exact ⟨bytes " />", by simp, .inl ⟨rfl, rfl⟩⟩
  · case h_2 text cdata =>
      refine ⟨62 :: (printContent (depth + 1) [.text text cdata] ++
        ([] ++ (bytes "</" ++ (value ++ [62])))), ?_, .inr ⟨[], List.forall_mem_nil _, rfl, rfl⟩⟩
      simp [printContent, Node.toText, Node.print]
  · case h_3 =>
      have white : ∀ c ∈ [10] ++ indent depth, isSpace c = true := by
        intro c hc
        rcases List.mem_append.mp hc with here | later
        · exact white_singleton (by decide) c here
        · exact indent_white depth c later
      refine ⟨62 :: (printContent (depth + 1) children ++
        (([10] ++ indent depth) ++ (bytes "</" ++ (value ++ [62])))), ?_,
          .inr ⟨_, white, ?_, rfl⟩⟩
      · simp
      · rw [raw_append, raw_indent]
        rfl

theorem Element.printed {value : List UInt8} {attributes : List Attribute}
    {children : List Node} (formed : (Node.element value attributes children).formed encoding = true)
    (plain : (Node.element value attributes children).plain encoding = true) (depth : Nat)
    (back : ReadsBack encoding fuel) :
    Printed encoding fuel (.element value attributes children)
      ((Node.element value attributes children).print depth) := by
  simp only [Node.formed, Bool.and_eq_true, List.all_eq_true, decide_eq_true_eq] at formed
  simp only [Node.plain, Bool.and_eq_true, List.all_eq_true] at plain
  obtain ⟨⟨⟨isNamed, names⟩, distinct⟩, formed⟩ := formed
  obtain ⟨values, plain⟩ := plain
  obtain ⟨close, whole, shape⟩ := Element.print_eq value attributes children depth
    (named_isName isNamed)
  obtain ⟨d, u, start, isStart, notSlash, -⟩ := cons_of_isName (named_isName isNamed)
  refine .between (indent depth) (value ++ (attributes.flatMap (fun a => 32 :: a.print) ++ close))
    [] (by rw [whole, List.append_nil]) (indent_white depth) (List.forall_mem_nil _)
    (fun _ => ⟨d, _, by rw [start]; rfl, notSlash⟩) fun t enough => ?_
  have kind : kindOf (value ++ (attributes.flatMap (fun a => 32 :: a.print) ++ close) ++ ([] ++ t)) =
      .element := by
    rw [start]
    exact kindOf_name isStart _
  rw [kind, List.nil_append, List.append_assoc, List.append_assoc]
  show Gives (Element.parse (readValue encoding fuel) encoding _) _
  rcases shape with ⟨rfl, rfl⟩ | ⟨spaces, white, -, rfl⟩
  · refine Element.parse_gives isNamed names values distinct (EndsName.cons _ (by decide))
      (readAttributes_empty encoding t) (Gives.pure _)
  · refine Element.parse_gives isNamed names values distinct (EndsName.cons _ (by decide))
      (readAttributes_content encoding _) (Element.parseContent_gives ?_)
    refine back children (depth + 1) spaces (value ++ 62 :: t)
      (printContent (depth + 1) children ++ (spaces ++ (bytes "</" ++ (value ++ [62]))) ++ t)
      formed plain white ?_ ?_
    · have endTag : bytes "</" = [60, 47] := rfl
      simp [endTag]
    · simp only [List.length_append, List.length_cons, List.nil_append] at enough ⊢
      omega

theorem Node.printed {n : Node} (formed : n.formed encoding = true)
    (plain : n.plain encoding = true) (notText : n.isText = false) (depth : Nat)
    (back : ReadsBack encoding fuel) : Printed encoding fuel n (n.print depth) := by
  cases n with
  | element value attributes children => exact Element.printed formed plain depth back
  | text value cdata =>
      cases cdata with
      | true => exact Text.printed formed depth
      | false => cases notText
  | comment value => exact Comment.printed formed depth
  | unknown value => exact Unknown.printed formed depth
  | declaration version enc standalone => exact Declaration.printed plain depth

end Content

end HZRobot.Xml
