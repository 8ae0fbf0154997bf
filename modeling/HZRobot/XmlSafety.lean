import HZRobot.Outcomes
import HZRobot.XmlForm

/-!
What reading a document can end in. Pointers and stamps stay within the text, each node
takes at least a character, and a fault is explained by the last bytes of the text.
-/

namespace HZRobot.Xml

/-- The last character of the text, by its first byte, takes more bytes than there are. -/
def CutShort (text : List UInt8) (lead : UInt8 → Prop) : Prop :=
  ∃ c rest, c :: rest <:+ text ∧ rest.length + 1 < utf8ByteTable c ∧ lead c

/-- Nothing stands behind white space or a mark at the end. -/
def EndsInSpace (text : List UInt8) : Prop :=
  (∃ c, [c] <:+ text ∧ isSpace c = true) ∨ ∃ mark ∈ byteOrderMarks, mark <:+ text

/-- Which faults a text can lead to. -/
def Explained (text : List UInt8) : Fault → Prop
  | .overrun => CutShort text fun _ => True
  | .endless => CutShort text (· = 0xEF)
  | .assertion => EndsInSpace text
  | .fuel => False

theorem EndsInSpace.mono {p text : List UInt8} (h : EndsInSpace p) (suffix : p <:+ text) :
    EndsInSpace text := by
  rcases h with ⟨c, last, space⟩ | ⟨mark, isMark, last⟩
  · exact .inl ⟨c, last.trans suffix, space⟩
  · exact .inr ⟨mark, isMark, last.trans suffix⟩

theorem skipSpaces_suffix (encoding : Encoding) (p : List UInt8) : skipSpaces encoding p <:+ p := by
  induction p using skipSpaces.induct encoding with
  | case1 => rw [skipSpaces]
  | case2 c rest mark ih =>
      rw [skipSpaces, if_pos mark]
      exact ih.trans ((List.drop_suffix 2 rest).trans (List.suffix_cons c rest))
  | case3 c rest noMark space ih =>
      rw [skipSpaces, if_neg noMark, if_pos space]
      exact ih.trans (List.suffix_cons c rest)
  | case4 c rest noMark noSpace => rw [skipSpaces, if_neg noMark, if_neg noSpace]

/-- A text is skipped to its end only over white space or a mark there. -/
theorem endsInSpace_of_skipSpaces {encoding : Encoding} {p : List UInt8} (nonempty : p ≠ [])
    (h : skipSpaces encoding p = []) : EndsInSpace p := by
  induction p using skipSpaces.induct encoding with
  | case1 => exact absurd rfl nonempty
  | case2 c rest mark ih =>
      rw [skipSpaces, if_pos mark] at h
      by_cases last : rest.drop 2 = []
      · simp only [markAt, Bool.and_eq_true, List.any_eq_true] at mark
        obtain ⟨m, isMark, front⟩ := mark.2
        have three : ∀ m ∈ byteOrderMarks, m.length = 3 := by decide
        have length : (c :: rest).length ≤ 3 := by
          have le := List.drop_eq_nil_iff.mp last
          rw [List.length_cons]
          omega
        have whole := (List.isPrefixOf_iff_prefix.mp front).eq_of_length_le
          (length.trans (three m isMark).ge)
        exact .inr ⟨m, isMark, whole ▸ List.suffix_refl _⟩
      · exact (ih last h).mono ((List.drop_suffix 2 rest).trans (List.suffix_cons c rest))
  | case3 c rest noMark space ih =>
      rw [skipSpaces, if_neg noMark, if_pos space] at h
      cases rest with
      | nil => exact .inl ⟨c, List.suffix_refl _, space⟩
      | cons d rest => exact (ih (List.cons_ne_nil d rest) h).mono (List.suffix_cons c _)
  | case4 c rest noMark noSpace =>
      rw [skipSpaces, if_neg noMark, if_neg noSpace] at h
      cases h

theorem skipWhiteSpace_suffix {encoding : Encoding} {p q : List UInt8}
    (h : skipWhiteSpace encoding (some p) = some q) : q <:+ p := by
  cases p with
  | nil => cases h
  | cons c rest =>
      cases h
      exact skipSpaces_suffix encoding (c :: rest)

theorem getChar_meets {encoding : Encoding} {p text : List UInt8} (nonempty : p ≠ [])
    (suffix : p <:+ text) :
    Meets (Explained text) (fun r => Past p r.2) (getChar encoding p) := by
  cases outcome : getChar encoding p with
  | ok r => exact getChar_past outcome
  | error f =>
      unfold getChar at outcome
      split at outcome
      · exact absurd rfl nonempty
      · case h_2 c rest =>
          split at outcome
          · cases outcome
          · split at outcome
            · cases outcome
            · case isFalse many short =>
                cases outcome
                refine ⟨c, rest, suffix, ?_, trivial⟩
                unfold charLength at short many
                split at short
                · simpa using short
                · case isFalse one => exact absurd (if_neg one) many

/-- The pointer is not before this one, or null. -/
def From (p : List UInt8) (q : Pointer) : Prop := ∀ r ∈ q, r <:+ p

theorem Past.from {p : List UInt8} {q : Pointer} (h : Past p q) : From p q :=
  fun r hr => (h r hr).1

theorem From.trans {p r : List UInt8} {q : Pointer} (h : From r q) (suffix : r <:+ p) :
    From p q :=
  fun s hs => (h s hs).trans suffix

theorem From.here (p : List UInt8) : From p (some p) := by
  rintro r ⟨⟩
  exact List.suffix_refl p

theorem From.null (p : List UInt8) : From p none := nofun

/-- A loop over text stops before the tag or at the end, if it is not null. -/
def StopsAt (endTag p : List UInt8) (q : Pointer) : Prop :=
  ∀ r ∈ q, r <:+ p ∧ (r = [] ∨ stringEqual endTag false r = true)

theorem StopsAt.null (endTag p : List UInt8) : StopsAt endTag p none := nofun

theorem StopsAt.atEnd (endTag p : List UInt8) : StopsAt endTag p (some []) := by
  rintro r ⟨⟩
  exact ⟨List.nil_suffix, .inl rfl⟩

theorem StopsAt.here {endTag p : List UInt8} (h : stringEqual endTag false p = true) :
    StopsAt endTag p (some p) := by
  rintro r ⟨⟩
  exact ⟨List.suffix_refl p, .inr h⟩

theorem StopsAt.trans {endTag p r : List UInt8} {q : Pointer} (h : StopsAt endTag r q)
    (suffix : r <:+ p) : StopsAt endTag p q :=
  fun s hs => ⟨(h s hs).1.trans suffix, (h s hs).2⟩

theorem readKept_meets {encoding : Encoding} {endTag : List UInt8} {text : List UInt8}
    (p : List UInt8) (suffix : p <:+ text) :
    Meets (Explained text) (fun r => StopsAt endTag p r.2) (readKept encoding endTag p) := by
  induction length : p.length using Nat.strong_induction_on generalizing p with
  | _ n ih =>
      subst length
      cases p with
      | nil =>
          rw [readKept]
          exact StopsAt.atEnd _ _
      | cons c rest =>
          by_cases here : stringEqual endTag false (c :: rest)
          · rw [readKept, if_pos here]
            exact StopsAt.here here
          · rw [readKept_char here]
            refine (getChar_meets (List.cons_ne_nil c rest) suffix).bind fun r past => ?_
            rcases r with ⟨cs, _ | q⟩
            · exact StopsAt.null _ _
            · obtain ⟨after, shorter⟩ := past q rfl
              exact Meets.map ((ih _ shorter q (after.trans suffix) rfl).mono
                fun r h => h.trans after)

theorem readCondensed_meets {encoding : Encoding} {endTag : List UInt8} {text : List UInt8}
    (p : List UInt8) (whitespace : Bool) (suffix : p <:+ text) :
    Meets (Explained text) (fun r => StopsAt endTag p r.2)
      (readCondensed encoding endTag whitespace p) := by
  induction length : p.length using Nat.strong_induction_on generalizing p whitespace with
  | _ n ih =>
      subst length
      cases p with
      | nil =>
          rw [readCondensed]
          exact StopsAt.atEnd _ _
      | cons c rest =>
          by_cases here : stringEqual endTag false (c :: rest)
          · rw [readCondensed, if_pos here]
            exact StopsAt.here here
          by_cases space : isSpace c
          · have after := List.suffix_cons c rest
            rw [readCondensed, if_neg here, if_pos space]
            exact (ih _ (Nat.lt_succ_self _) rest true (after.trans suffix) rfl).mono
              fun r h => h.trans after
          · rw [readCondensed_char here space]
            refine (getChar_meets (List.cons_ne_nil c rest) suffix).bind fun r past => ?_
            rcases r with ⟨cs, _ | q⟩
            · exact StopsAt.null _ _
            · obtain ⟨after, shorter⟩ := past q rfl
              exact Meets.map ((ih _ shorter q false (after.trans suffix) rfl).mono
                fun r h => h.trans after)

/-- What is behind the tag, the tag stands before. -/
theorem behind_spec {p endTag r : List UInt8} {q : Pointer} (h : StopsAt endTag p q)
    (gone : behind endTag q = some r) : endTag ++ r <:+ p ∧ r ≠ [] := by
  unfold behind at gone
  split at gone
  · case h_1 c rest =>
      split at gone
      · cases gone
      · case h_2 s nonempty =>
          cases gone
          obtain ⟨here, stop⟩ := h _ rfl
          refine ⟨?_, nonempty⟩
          rcases stop with empty | tagged
          · cases empty
          · obtain ⟨t, ht⟩ := List.isPrefixOf_iff_prefix.mp tagged
            rw [← ht, List.drop_left, ht]
            exact here
  · cases gone

theorem readText_meets {encoding : Encoding} {trimWhiteSpace : Bool} {endTag text : List UInt8}
    (p : List UInt8) (suffix : p <:+ text) :
    Meets (Explained text) (fun r => ∀ q, r.2 = some q → endTag ++ q <:+ p ∧ q ≠ [])
      (readText encoding trimWhiteSpace endTag (some p)) := by
  unfold readText
  split
  · exact nofun
  · case h_2 q start =>
      have from_p : q <:+ p := by
        cases trimWhiteSpace with
        | true => exact skipWhiteSpace_suffix start
        | false =>
            cases start
            exact List.suffix_refl _
      have within := from_p.trans suffix
      have loop : Meets (Explained text) (fun r => StopsAt endTag q r.2)
          (if trimWhiteSpace then readCondensed encoding endTag false q
            else readKept encoding endTag q) := by
        cases trimWhiteSpace with
        | true => exact readCondensed_meets q false within
        | false => exact readKept_meets q within
      refine Meets.map (loop.mono fun r h s gone => ?_)
      obtain ⟨front, nonempty⟩ := behind_spec h gone
      exact ⟨front.trans from_p, nonempty⟩

/-- Behind a tag the pointer has gone on. -/
theorem past_of_tagged {endTag p : List UInt8} {q : Pointer} (positive : 0 < endTag.length)
    (h : ∀ r, q = some r → endTag ++ r <:+ p ∧ r ≠ []) : Past p q := by
  intro r hr
  obtain ⟨front, -⟩ := h r hr
  refine ⟨(List.suffix_append endTag r).trans front, ?_⟩
  have le := front.length_le
  rw [List.length_append] at le
  omega

/-- The row and the column stay ints over so much text: a byte takes a row or at most four
columns. -/
structure Cursor.Room (cursor : Cursor) (p : List UInt8) : Prop where
  row : 0 ≤ cursor.row
  rows : cursor.row + p.length < 2 ^ 31
  col : 0 ≤ cursor.col
  cols : cursor.col + 4 * p.length < 2 ^ 31

/-- The stamp is in the text, and the cursor has room for what is behind it. -/
def Placed (text : List UInt8) (d : ParsingData) : Prop :=
  d.stamp <:+ text ∧ d.cursor.Room d.stamp

/-- While a document is read: the stamp is placed, and this holds if no error is set. -/
def Reading (text : List UInt8) (fact : Prop) (d : ParsingData) : Prop :=
  Placed text d ∧ (d.error = none → fact)

/-- The parser ends with a result of this kind, which has this form unless an error is set;
else the text explains the fault. What held without an error holds still. -/
def Reads (text : List UInt8) {α : Type} (m : Parser α) (kind form : α → Prop) : Prop :=
  ∀ fact, Ends (Explained text) (Reading text fact) m
    fun a d => kind a ∧ Reading text (fact ∧ form a) d

section Rules

variable {text : List UInt8} {α β : Type}

theorem Reads.pure {kind form : α → Prop} {a : α} (hk : kind a) (hf : form a) :
    Reads text (pure a : Parser α) kind form :=
  fun _ => Ends.pure fun _ hs => ⟨hk, hs.1, fun ok => ⟨hs.2 ok, hf⟩⟩

theorem Reads.bind {kind form : α → Prop} {kind' form' : β → Prop} {m : Parser α}
    {k : α → Parser β} (hm : Reads text m kind form)
    (hk : ∀ a, kind a → Reads text (k a) kind' fun b => form a → form' b) :
    Reads text (m >>= k) kind' form' := by
  refine fun fact => (hm fact).bind fun a s ⟨ha, hs⟩ => ?_
  refine (hk a ha (fact ∧ form a) s hs).mono fun r ⟨hr, stamp, ok⟩ => ⟨hr, stamp, fun none => ?_⟩
  obtain ⟨⟨before, formed⟩, now⟩ := ok none
  exact ⟨before, now formed⟩

theorem Reads.throw {kind form : α → Prop} {f : Fault} (h : Explained text f) :
    Reads text (throw f : Parser α) kind form :=
  fun _ => Ends.throw h

theorem Reads.lift {kind : α → Prop} {x : Except Fault α}
    (h : Meets (Explained text) kind x) :
    Reads text (liftM x : Parser α) kind fun _ => True :=
  fun _ => (Ends.lift h).mono fun _ _ ⟨ha, hs⟩ => ⟨ha, hs.1, fun ok => ⟨hs.2 ok, trivial⟩⟩

theorem Reads.mono {kind form kind' form' : α → Prop} {m : Parser α}
    (h : Reads text m kind form) (hk : ∀ a, kind a → kind' a)
    (hf : ∀ a, kind a → form a → form' a) : Reads text m kind' form' :=
  fun fact => (h fact).mono fun a _ ⟨ha, hs⟩ =>
    ⟨hk a ha, hs.1, fun ok => ⟨(hs.2 ok).1, hf a ha (hs.2 ok).2⟩⟩

end Rules

/-- The stamp stays where it is only at an EF without the two bytes that go with it. -/
theorem stampStep_stays {encoding : Encoding} {c : UInt8} {rest : List UInt8}
    (stays : stampStep encoding (c :: rest) = 0) : c = 0xEF ∧ rest.length + 1 < utf8ByteTable c := by
  unfold stampStep at stays
  split at stays
  · cases stays
  · cases stays
  · case h_3 heq =>
      cases heq
      split at stays
      · split at stays
        · cases stays
        · case isFalse short =>
            have three : utf8ByteTable 239 = 3 := by decide
            exact ⟨rfl, by omega⟩
      · cases stays
  · case h_4 heq =>
      cases heq
      split at stays
      · cases stays
      · have positive : 0 < charLength encoding c := charLength_pos encoding c
        omega
  · case h_5 heq => cases heq

namespace Cursor.Room

variable {cursor : Cursor} {c : UInt8} {rest : List UInt8}

theorem tail (room : cursor.Room (c :: rest)) : cursor.Room rest := by
  obtain ⟨row, rows, col, cols⟩ := room
  rw [List.length_cons] at rows cols
  exact ⟨row, by omega, col, by omega⟩

theorem advance (room : cursor.Room (c :: rest)) (encoding : Encoding) :
    (cursor.advance encoding (c :: rest)).Room rest := by
  obtain ⟨row, rows, col, cols⟩ := room
  rw [List.length_cons] at rows cols
  have step : cursor.col.tdiv tabsize = cursor.col / 4 := Int.tdiv_eq_ediv_of_nonneg col
  rw [Cursor.advance]
  split_ifs
  · exact ⟨by simp only [toInt32]; omega, by simp only [toInt32]; omega, Int.le_refl 0,
      by simp only; omega⟩
  · rw [step, tabsize]
    exact ⟨row, by simp only; omega, by simp only [toInt32]; omega, by simp only [toInt32]; omega⟩
  · exact ⟨row, by omega, col, by omega⟩
  · exact ⟨row, by simp only; omega, by simp only [toInt32]; omega, by simp only [toInt32]; omega⟩

end Cursor.Room

theorem stampTo_meets {encoding : Encoding} {text : List UInt8} (now skip : Nat)
    (p : List UInt8) (cursor : Cursor) (suffix : p <:+ text) (room : cursor.Room p) :
    Meets (fun f => f = .endless ∧ CutShort text (· = 0xEF))
      (fun r => r.1 <:+ text ∧ r.2.Room r.1) (stampTo encoding now skip p cursor) := by
  induction p generalizing skip cursor with
  | nil =>
      unfold stampTo
      exact ⟨List.nil_suffix, room⟩
  | cons c rest ih =>
      have after := (List.suffix_cons c rest).trans suffix
      cases skip with
      | succ skip =>
          rw [stampTo]
          exact ih skip cursor after room.tail
      | zero =>
          rw [stampTo]
          split
          · split
            · case h_1 stays =>
                obtain ⟨lead, short⟩ := stampStep_stays stays
                exact ⟨rfl, c, rest, suffix, short, lead⟩
            · case h_2 skip _ => exact ih skip _ after (room.advance encoding)
          · exact ⟨suffix, room⟩

/-- From a placed stamp the next one is placed, or the text is cut short; the row and the
column do not fail their assertions. -/
theorem stamp_halts {encoding : Encoding} {text : List UInt8} (now : List UInt8)
    {d : ParsingData} (placed : Placed text d) :
    Meets (fun f => f = .endless ∧ CutShort text (· = 0xEF))
      (fun r => Placed text r.2 ∧ r.2.error = d.error) (stamp encoding now d) := by
  refine (stampTo_meets _ 0 _ _ placed.1 placed.2).bind fun r after => ?_
  have row := after.2.row
  have col := after.2.col
  rw [if_pos (by omega)]
  exact ⟨after, rfl⟩

theorem stamp_meets {encoding : Encoding} {text : List UInt8} (now : List UInt8)
    {d : ParsingData} (placed : Placed text d) :
    Meets (Explained text) (fun r => Placed text r.2 ∧ r.2.error = d.error)
      (stamp encoding now d) := by
  refine (stamp_halts now placed).allow ?_
  rintro f ⟨rfl, short⟩
  exact short

theorem stamp_reads {encoding : Encoding} {text : List UInt8} (now : List UInt8) :
    Reads text (stamp encoding now) (fun _ => True) fun _ => True :=
  fun _ _ hd => (stamp_meets now hd.1).mono fun _ ⟨suffix, same⟩ =>
    ⟨trivial, suffix, fun ok => ⟨hd.2 (same ▸ ok), trivial⟩⟩

/-- An error is set from here on. -/
theorem setError_reads {encoding : Encoding} {text : List UInt8} (error : ErrorId)
    (pError : Pointer) :
    Reads text (setError error pError encoding) (fun _ => True) fun _ => False := by
  intro fact d hd
  unfold setError
  split
  · case h_1 e set => exact ⟨trivial, hd.1, fun ok => absurd (set.symm.trans ok) nofun⟩
  · exact ⟨trivial, hd.1, nofun⟩
  · refine (stamp_meets (d := { d with error := some error }) _ hd.1).mono ?_
    rintro r ⟨suffix, same⟩
    exact ⟨trivial, suffix, fun ok => absurd (same.symm.trans ok) nofun⟩

theorem readName_some {p name q : List UInt8} (h : readName p = (name, some q)) :
    p = name ++ q ∧ isName name = true := by
  cases p with
  | nil => cases h
  | cons c rest =>
      rw [readName] at h
      split at h
      · case isTrue starts =>
          have char : isNameChar c = true := isNameChar_of_start starts
          cases h
          refine ⟨List.takeWhile_append_dropWhile.symm, ?_⟩
          rw [List.takeWhile_cons, if_pos char, isName, starts, Bool.true_and, List.all_eq_true]
          exact fun d hd => List.mem_takeWhile_imp hd
      · cases h

theorem Attribute.failed_reads {document : Bool} {encoding : Encoding} {text : List UInt8}
    (attrib : Attribute) (p : Pointer) :
    Reads text (Attribute.failed document encoding attrib p) (fun r => r = (attrib, none))
      fun _ => True := by
  unfold Attribute.failed
  cases document with
  | false => exact Reads.pure rfl trivial
  | true => exact (setError_reads _ _).bind fun _ _ => Reads.pure rfl fun _ => trivial

theorem Attribute.parseValue_reads {document : Bool} {encoding : Encoding} {text : List UInt8}
    (name : List UInt8) {p : List UInt8} {q : Pointer} (start : From p q) (suffix : p <:+ text) :
    Reads text (Attribute.parseValue document encoding name q)
      (fun r => From p r.2 ∧ r.1.name = name) fun _ => True := by
  have failed (value : List UInt8) (r : Pointer) :
      Reads text (Attribute.failed document encoding ⟨name, value⟩ r)
        (fun r => From p r.2 ∧ r.1.name = name) fun _ => True := by
    refine (Attribute.failed_reads _ _).mono ?_ fun _ _ _ => trivial
    rintro r rfl
    exact ⟨From.null p, rfl⟩
  unfold Attribute.parseValue
  split
  · exact failed _ _
  · exact failed _ _
  · case h_3 c rest =>
      have here : c :: rest <:+ p := start _ rfl
      split
      · have inside := (List.suffix_cons c rest).trans here
        refine (Reads.lift (readText_meets rest (inside.trans suffix))).bind fun r tagged => ?_
        have past : Past rest r.2 := past_of_tagged (show 0 < [c].length from Nat.one_pos) tagged
        exact Reads.pure ⟨past.from.trans inside, rfl⟩ fun _ => trivial
      · split
        · case h_1 d after stop =>
            split
            · exact failed _ _
            · refine Reads.pure ⟨?_, rfl⟩ trivial
              rintro r ⟨⟩
              exact (stop ▸ List.dropWhile_suffix _).trans here
        · exact Reads.pure ⟨by rintro r ⟨⟩; exact List.nil_suffix, rfl⟩ trivial

theorem markAt_of_append {encoding : Encoding} {name rest : List UInt8}
    (h : markAt encoding (name ++ rest) = false) : markAt encoding name = false := by
  rw [← Bool.not_eq_true] at h ⊢
  intro mark
  apply h
  simp only [markAt, Bool.and_eq_true, List.any_eq_true] at mark ⊢
  obtain ⟨utf8, m, isMark, front⟩ := mark
  rw [List.isPrefixOf_iff_prefix] at front
  exact ⟨utf8, m, isMark, List.isPrefixOf_iff_prefix.mpr (front.trans (List.prefix_append _ _))⟩

/-- What is left after white space begins with neither white space nor a mark. -/
theorem skipSpaces_stops (encoding : Encoding) (p : List UInt8) :
    markAt encoding (skipSpaces encoding p) = false ∧
      ∀ c rest, skipSpaces encoding p = c :: rest → isSpace c = false := by
  induction p using skipSpaces.induct encoding with
  | case1 =>
      rw [skipSpaces]
      exact ⟨by cases encoding <;> decide, nofun⟩
  | case2 c rest mark ih =>
      rw [skipSpaces, if_pos mark]
      exact ih
  | case3 c rest noMark space ih =>
      rw [skipSpaces, if_neg noMark, if_pos space]
      exact ih
  | case4 c rest noMark noSpace =>
      rw [skipSpaces, if_neg noMark, if_neg noSpace]
      refine ⟨by simpa using noMark, ?_⟩
      rintro c rest ⟨⟩
      simpa using noSpace

theorem skipWhiteSpace_some {encoding : Encoding} {p q : List UInt8}
    (h : skipWhiteSpace encoding (some p) = some q) : skipSpaces encoding p = q := by
  cases p with
  | nil => cases h
  | cons c rest => exact Option.some.inj h

theorem named_of_readName {encoding : Encoding} {p start name q : List UInt8}
    (skipped : skipWhiteSpace encoding (some p) = some start)
    (h : readName start = (name, some q)) :
    named encoding name = true ∧ q <:+ start ∧ q.length < start.length := by
  obtain ⟨rfl, isName⟩ := readName_some h
  have noMark := (skipSpaces_stops encoding p).1
  rw [skipWhiteSpace_some skipped] at noMark
  rw [named, isName, markAt_of_append noMark]
  refine ⟨rfl, List.suffix_append _ _, ?_⟩
  cases name with
  | nil => cases isName
  | cons c name => simp only [List.length_append, List.length_cons]; omega

theorem Attribute.parse_reads {document : Bool} {encoding : Encoding} {text p : List UInt8}
    (suffix : p <:+ text) :
    Reads text (Attribute.parse document encoding (some p)) (fun r => Past p r.2)
      fun r => r.2 ≠ none → named encoding r.1.name = true := by
  have failed {form : Prop} (attrib : Attribute) (r : Pointer) :
      Reads text (Attribute.failed document encoding attrib r) (fun r => Past p r.2)
        fun r => form → r.2 ≠ none → named encoding r.1.name = true := by
    refine (Attribute.failed_reads _ _).mono ?_ ?_
    · rintro r rfl
      exact Past.null p
    · rintro r rfl - - some
      exact absurd rfl some
  unfold Attribute.parse
  split
  · exact Reads.pure (Past.null p) fun some => absurd rfl some
  · exact Reads.pure (Past.null p) fun some => absurd rfl some
  · case h_3 start _ skipped =>
      have here := skipWhiteSpace_suffix skipped
      refine (stamp_reads start).bind fun _ _ => ?_
      split
      · exact failed _ _
      · exact failed _ _
      · case h_3 name q _ read =>
          obtain ⟨named, behind, shorter⟩ := named_of_readName skipped read
          split
          · case h_1 value equal =>
              have inside : value <:+ q :=
                (List.suffix_cons 61 value).trans (skipWhiteSpace_suffix equal)
              have within := (inside.trans (behind.trans here))
              refine (Attribute.parseValue_reads name (p := value) ?_ (within.trans suffix)).mono
                ?_ ?_
              · intro r hr
                exact skipWhiteSpace_suffix hr
              · rintro r ⟨from_value, -⟩
                refine fun s hs => ⟨(from_value s hs).trans within, ?_⟩
                have le := ((from_value s hs).trans inside).length_le
                have le' := here.length_le
                omega
              · rintro r ⟨-, same⟩ - - -
                rw [same]
                exact named
          · exact failed _ _

theorem skipSpaces_of_solid {encoding : Encoding} {c : UInt8} {rest : List UInt8}
    (noMark : markAt encoding (c :: rest) = false) (noSpace : isSpace c = false) :
    skipSpaces encoding (c :: rest) = c :: rest := by
  rw [skipSpaces, if_neg (by simp [noMark]), if_neg (by simp [noSpace])]

/-- Marks begin with an EF. -/
theorem markAt_of_ne {encoding : Encoding} {c : UInt8} (rest : List UInt8) (other : c ≠ 0xEF) :
    markAt encoding (c :: rest) = false := by
  rw [markAt, Bool.and_eq_false_iff]
  refine .inr ?_
  simp [byteOrderMarks, List.isPrefixOf, other.symm]

theorem skipWhiteSpace_lt (encoding : Encoding) (rest : List UInt8) :
    skipWhiteSpace encoding (some (60 :: rest)) = some (60 :: rest) := by
  rw [skipWhiteSpace, skipSpaces_of_solid (markAt_of_ne rest (by decide)) (by decide)]
  exact nofun

theorem raw_of_subset {value text : List UInt8} (sub : value ⊆ text) (h : raw text = true) :
    raw value = true := by
  simp only [raw, Bool.and_eq_true, Bool.not_eq_true', List.contains_eq_mem,
    decide_eq_false_iff_not] at h ⊢
  exact ⟨fun zero => h.1 (sub zero), fun cr => h.2 (sub cr)⟩

/-- The text before a tag does not hold it. -/
theorem splitBefore_spec {tag p value q : List UInt8} (positive : 0 < tag.length)
    (h : splitBefore tag p = (value, q)) : p = value ++ q ∧ find tag value = none := by
  unfold splitBefore at h
  split at h
  · case h_1 i found =>
      cases h
      refine ⟨(List.take_append_drop i p).symm, ?_⟩
      cases inside : find tag (p.take i) with
      | none => rfl
      | some j =>
          have twice := find_append inside (p.drop i)
          rw [List.take_append_drop, found] at twice
          have room := find_le inside
          cases twice
          rw [List.length_take] at room
          omega
  · case h_2 notFound =>
      cases h
      exact ⟨(List.append_nil p).symm, notFound⟩

/-- A node that was read at a `<` before these characters. -/
def Built (text : List UInt8) (encoding : Encoding) (rest : List UInt8) (n : Node) : Prop :=
  raw text = true → n.formed encoding = true ∧ n.isText = false ∧
    (rest.head? ≠ some 47 → n.inContent = true)

section Nodes

variable {encoding : Encoding} {text rest : List UInt8}

theorem Comment.parse_reads (suffix : 60 :: rest <:+ text) :
    Reads text (Comment.parse encoding (some (60 :: rest))) (fun r => Past (60 :: rest) r.2)
      fun r => Built text encoding rest r.1 := by
  rw [Comment.parse, skipWhiteSpace_lt]
  refine (stamp_reads _).bind fun _ _ => ?_
  rw [if_neg (List.cons_ne_nil _ _)]
  split
  · case isTrue opens =>
      have inside : (60 :: rest).drop 4 <:+ rest := List.drop_suffix 3 rest
      have built {value q : List UInt8}
          (split : splitBefore (bytes "-->") ((60 :: rest).drop 4) = (value, q)) :
          Built text encoding rest (.comment value) := by
        obtain ⟨whole, without⟩ := splitBefore_spec (by decide) split
        intro clean
        have sub : value ⊆ text := by
          intro c hc
          apply (inside.trans ((List.suffix_cons 60 rest).trans suffix)).subset
          rw [whole]
          exact List.mem_append_left q hc
        refine ⟨?_, rfl, fun _ => rfl⟩
        rw [Node.formed, raw_of_subset sub clean, without]
        rfl
      split
      · case h_1 value split =>
          refine Reads.pure ?_ fun _ => built split
          rintro r ⟨⟩
          exact ⟨List.nil_suffix, Nat.succ_pos _⟩
      · case h_2 value q _ split =>
          refine Reads.pure ?_ fun _ => built split
          obtain ⟨whole, -⟩ := splitBefore_spec (by decide) split
          have after : q.drop 3 <:+ rest :=
            (List.drop_suffix 3 q).trans ((whole ▸ List.suffix_append value q).trans inside)
          rintro r ⟨⟩
          exact ⟨after.trans (List.suffix_cons 60 rest), Nat.lt_succ_of_le after.length_le⟩
  · exact (setError_reads _ _).bind fun _ _ => Reads.pure (Past.null _) nofun

theorem Unknown.parse_reads (kind : kindOf rest = .unknown) (suffix : 60 :: rest <:+ text) :
    Reads text (Unknown.parse encoding (some (60 :: rest))) (fun r => Past (60 :: rest) r.2)
      fun r => Built text encoding rest r.1 := by
  rw [Unknown.parse, skipWhiteSpace_lt]
  refine (stamp_reads _).bind fun _ _ => ?_
  refine Reads.pure ?_ fun _ => ?_
  · have after : (rest.dropWhile (· ≠ 62)).tail <:+ rest :=
      (List.tail_suffix _).trans (List.dropWhile_suffix _)
    rintro r ⟨⟩
    exact ⟨after.trans (List.suffix_cons 60 rest), Nat.lt_succ_of_le after.length_le⟩
  · intro clean
    have sub : rest.takeWhile (· ≠ 62) ⊆ text := fun c hc =>
      ((List.suffix_cons 60 rest).trans suffix).subset ((List.takeWhile_prefix _).subset hc)
    have without : 62 ∉ rest.takeWhile (· ≠ 62) := fun h => by
      simpa using List.mem_takeWhile_imp h
    have same : kindOf (rest.takeWhile (· ≠ 62)) = .unknown := by
      rw [← kind]
      have whole := (List.takeWhile_append_dropWhile (p := (· ≠ (62 : UInt8))) (l := rest))
      cases stop : rest.dropWhile (· ≠ 62) with
      | nil => rw [stop, List.append_nil] at whole; rw [whole]
      | cons c t =>
          have gt : c = 62 := by
            have first := List.head?_dropWhile_not (· ≠ (62 : UInt8)) rest
            rw [stop] at first
            simpa using first
          rw [stop, gt] at whole
          rw [← kindOf_append _ t, whole]
    refine ⟨?_, rfl, ?_⟩
    · rw [Node.formed, raw_of_subset sub clean, same]
      simpa using without
    · intro noEnd
      cases rest with
      | nil => rfl
      | cons c rest =>
          rw [Node.inContent, List.takeWhile_cons]
          split
          · simpa using noEnd
          · rfl

theorem Text.parse_cdata_reads (suffix : 60 :: rest <:+ text) :
    Reads text (Text.parse true encoding (some (60 :: rest))) (fun r => Past (60 :: rest) r.2)
      fun r => Built text encoding rest r.1 := by
  rw [Text.parse]
  refine (stamp_reads _).bind fun _ _ => ?_
  rw [if_neg (List.cons_ne_nil _ _), if_pos (by rw [Bool.true_or])]
  split
  · case isTrue opens =>
      have inside : (60 :: rest).drop 9 <:+ rest := List.drop_suffix 8 rest
      have within : rest <:+ text := (List.suffix_cons 60 rest).trans suffix
      cases split : splitBefore (bytes "]]>") ((60 :: rest).drop 9) with
      | mk value q =>
          obtain ⟨whole, without⟩ := splitBefore_spec (by decide) split
          have behind : q <:+ rest := (whole ▸ List.suffix_append value q).trans inside
          refine (Reads.lift (readText_meets q (behind.trans within))).bind fun r tagged => ?_
          have past : Past q r.2 := past_of_tagged (by decide) tagged
          refine Reads.pure (past.trans (behind.trans (List.suffix_cons 60 rest))) fun _ _ => ?_
          intro clean
          have sub : value ⊆ text := fun c hc =>
            (inside.trans within).subset (whole ▸ List.mem_append_left q hc)
          refine ⟨?_, rfl, fun _ => rfl⟩
          rw [Node.formed, raw_of_subset sub clean, without]
          rfl
  · exact (setError_reads _ _).bind fun _ _ => Reads.pure (Past.null _) nofun

theorem skipWhiteSpace_none {p : List UInt8} (h : skipWhiteSpace encoding (some p) = none) :
    p = [] := by
  cases p with
  | nil => rfl
  | cons c rest => cases h

/-- What is read over in a declaration, with the white space before it. -/
theorem readOver_past {p q : List UInt8} (skipped : skipWhiteSpace encoding (some p) = some q)
    (nonempty : q ≠ []) (noEnd : ∀ r, p ≠ 62 :: r) :
    Past p (some (q.dropWhile fun c => c ≠ 62 && !isSpace c)) := by
  have behind := skipWhiteSpace_suffix skipped
  have passed := List.dropWhile_suffix (fun c : UInt8 => c ≠ 62 && !isSpace c) (l := q)
  rintro r ⟨⟩
  refine ⟨passed.trans behind, Nat.lt_of_le_of_ne (passed.trans behind).length_le fun same => ?_⟩
  have whole := (passed.trans behind).eq_of_length same
  have start : q = p := behind.eq_of_length (le_antisymm behind.length_le (same ▸ passed.length_le))
  cases q with
  | nil => exact nonempty rfl
  | cons c q =>
      have noSpace := (skipSpaces_stops encoding p).2 c q (skipWhiteSpace_some skipped)
      have goes : (c ≠ 62 && !isSpace c) = true := by
        have other : c ≠ 62 := fun gt => noEnd q (by rw [← start, gt])
        simp [other, noSpace]
      rw [List.dropWhile_cons, if_pos goes, ← start] at whole
      have short := (List.dropWhile_suffix (fun c : UInt8 => c ≠ 62 && !isSpace c) (l := q)).length_le
      rw [whole, List.length_cons] at short
      omega

theorem readFields_reads {p : List UInt8} (suffix : p <:+ text) (fuel : Nat) (f : Fields)
    (q : Pointer) (start : From p q) (enough : 0 < fuel ∧ ∀ r ∈ q, r.length < fuel) :
    Reads text (readFields encoding fuel f q) (fun r => From p r.2) fun _ => True := by
  induction fuel generalizing f q with
  | zero => exact absurd enough.1 (Nat.lt_irrefl 0)
  | succ fuel ih =>
      unfold readFields
      split
      · case h_1 fuel => cases fuel
      · exact Reads.pure (From.null p) trivial
      · exact Reads.pure (From.null p) trivial
      · case h_4 r _ =>
          have here := start _ rfl
          refine Reads.pure ?_ trivial
          rintro s ⟨⟩
          exact (List.suffix_cons 62 r).trans here
      · case h_5 f _ _ _ _ here nonempty noEnd same =>
          obtain rfl : fuel = _ := Nat.succ.inj same
          have within := start _ rfl
          have next {r : Pointer} (past : Past here r) (f : Fields) :
              Reads text (readFields encoding fuel f r) (fun r => From p r.2) fun _ => True := by
            have le := enough.2 here rfl
            have positive : 0 < here.length := List.length_pos_of_ne_nil nonempty
            refine ih f r (past.from.trans within) ⟨by omega, fun t ht => ?_⟩
            have shorter := (past t ht).2
            omega
          split
          · case h_1 skipped => exact absurd (skipWhiteSpace_none skipped) nonempty
          · case h_2 skipped =>
              have ends := endsInSpace_of_skipSpaces nonempty (skipWhiteSpace_some skipped)
              exact Reads.throw (ends.mono (within.trans suffix))
          · case h_3 s rest skipped =>
              have behind := skipWhiteSpace_suffix skipped
              have attrib (f : Attribute → Fields) :
                  Reads text (Attribute.parse false encoding (some s) >>= fun r =>
                    readFields encoding fuel (f r.1) r.2) (fun r => From p r.2) fun _ => True :=
                (Attribute.parse_reads (behind.trans (within.trans suffix))).bind fun r past =>
                  (next (past.trans behind) _).mono (fun _ h => h) fun _ _ _ _ => trivial
              split
              · exact attrib fun a => { f with version := cstr a.value }
              split
              · exact attrib fun a => { f with encoding := cstr a.value }
              split
              · exact attrib fun a => { f with standalone := cstr a.value }
              · exact next (readOver_past skipped rest noEnd) f

theorem Declaration.parse_reads (suffix : 60 :: rest <:+ text) :
    Reads text (Declaration.parse encoding (some (60 :: rest))) (fun r => Past (60 :: rest) r.2)
      fun r => Built text encoding rest r.1 := by
  rw [Declaration.parse, skipWhiteSpace_lt]
  dsimp only
  split
  · have inside : (60 :: rest).drop 5 <:+ rest := List.drop_suffix 4 rest
    have fields : Reads text (readFields encoding ((60 :: rest).length + 1) ⟨[], [], []⟩
        (some ((60 :: rest).drop 5))) (fun r => From ((60 :: rest).drop 5) r.2) fun _ => True := by
      refine readFields_reads (inside.trans ((List.suffix_cons 60 rest).trans suffix)) _ _ _
        (From.here _) ⟨Nat.succ_pos _, ?_⟩
      rintro r ⟨⟩
      have le := inside.length_le
      rw [List.length_cons]
      omega
    refine (stamp_reads _).bind fun _ _ => fields.bind fun r start => ?_
    refine Reads.pure (fun s hs => ?_) fun _ _ _ => ⟨rfl, rfl, fun _ => rfl⟩
    have within := (start s hs).trans inside
    exact ⟨within.trans (List.suffix_cons 60 rest), Nat.lt_succ_of_le within.length_le⟩
  · exact (setError_reads _ _).bind fun _ _ => Reads.pure (Past.null _) nofun

/-- Attributes that an element may have. -/
def Attributes (encoding : Encoding) (attributes : List Attribute) : Prop :=
  (∀ a ∈ attributes, named encoding a.name = true) ∧ (attributes.map (·.name)).Nodup

/-- Where the tag ends, the content or what follows the element begins. -/
def TagEnd.pointer : TagEnd → Pointer
  | .content p => some p
  | .empty p => p

theorem Attributes.append {attributes : List Attribute} {attrib : Attribute}
    (h : Attributes encoding attributes) (name : named encoding attrib.name = true)
    (fresh : ¬ attributes.any (·.name = attrib.name) = true) :
    Attributes encoding (attributes ++ [attrib]) := by
  refine ⟨fun a ha => ?_, ?_⟩
  · rcases List.mem_append.mp ha with old | new
    · exact h.1 a old
    · rw [List.mem_singleton.mp new]
      exact name
  · rw [List.map_append, List.nodup_append]
    refine ⟨h.2, List.nodup_singleton _, ?_⟩
    rintro n hn m hm rfl
    obtain ⟨a, ha, rfl⟩ := List.mem_map.mp hn
    apply fresh
    rw [List.any_eq_true]
    exact ⟨a, ha, decide_eq_true (List.mem_singleton.mp hm)⟩

theorem readAttributes_reads {p : List UInt8} (suffix : p <:+ text) (fuel : Nat)
    (attributes : List Attribute) (q : Pointer) (start : From p q)
    (enough : 0 < fuel ∧ ∀ r ∈ q, r.length < fuel) :
    Reads text (readAttributes encoding fuel attributes q) (fun r => From p r.2.pointer)
      fun r => Attributes encoding attributes → Attributes encoding r.1 := by
  induction fuel generalizing attributes q with
  | zero => exact absurd enough.1 (Nat.lt_irrefl 0)
  | succ fuel ih =>
      have failed {form : List Attribute × TagEnd → Prop} (error : ErrorId) (r : Pointer)
          (other : List Attribute) :
          Reads text (do
              setError error r encoding
              return (other, TagEnd.empty none)) (fun r => From p r.2.pointer) form :=
        (setError_reads _ _).bind fun _ _ => Reads.pure (From.null p) nofun
      cases q with
      | none => exact failed _ _ _
      | some here =>
          have within := start _ rfl
          rw [readAttributes]
          split
          · exact failed _ _ _
          · exact failed _ _ _
          · case h_3 slash skipped =>
              have behind := skipWhiteSpace_suffix skipped
              split
              · case h_1 after =>
                  refine Reads.pure ?_ id
                  rintro s ⟨⟩
                  exact ((List.suffix_append [47, 62] after).trans behind).trans within
              · exact failed _ _ _
          · case h_4 after skipped =>
              refine Reads.pure ?_ id
              rintro s ⟨⟩
              exact ((List.suffix_cons 62 after).trans (skipWhiteSpace_suffix skipped)).trans within
          · case h_5 begin _ _ _ skipped =>
              have behind := skipWhiteSpace_suffix skipped
              refine (Attribute.parse_reads ((behind.trans within).trans suffix)).bind ?_
              rintro ⟨attrib, r⟩ past
              dsimp only
              split
              · exact failed _ _ _
              · exact failed _ _ _
              · case h_3 r _ =>
                  obtain ⟨after, shorter⟩ := past r rfl
                  split
                  · exact failed _ _ _
                  · case isFalse fresh =>
                      have le := enough.2 here rfl
                      have le' := behind.length_le
                      refine (ih (attributes ++ [attrib]) (some r) ?_ ⟨by omega, ?_⟩).mono
                        (fun _ h => h) fun s _ rest name good => ?_
                      · rintro s ⟨⟩
                        exact (after.trans behind).trans within
                      · rintro s ⟨⟩
                        omega
                      · exact rest (good.append (name nofun) fresh)

theorem ne_nil_of_element (element : kindOf rest = .element) : rest ≠ [] := by
  rintro rfl
  revert element
  decide

theorem Element.parse_reads {readValue : Pointer → Parser (List Node × Pointer)}
    (suffix : 60 :: rest <:+ text) (element : kindOf rest = .element)
    (content : ∀ p, p <:+ rest → Reads text (readValue (some p)) (fun r => From p r.2)
      fun r => raw text = true → contentFormed encoding r.1 = true) :
    Reads text (Element.parse readValue encoding (some (60 :: rest)))
      (fun r => Past (60 :: rest) r.2) fun r => Built text encoding rest r.1 := by
  have failed {form : Node × Pointer → Prop} (error : ErrorId) (q : Pointer) (n : Node) :
      Reads text (do
          setError error q encoding
          return (n, none)) (fun r => Past (60 :: rest) r.2) form :=
    (setError_reads _ _).bind fun _ _ => Reads.pure (Past.null _) nofun
  have gone {q : Pointer} (h : From rest q) : Past (60 :: rest) q := fun r hr =>
    ⟨(h r hr).trans (List.suffix_cons 60 rest), Nat.lt_succ_of_le (h r hr).length_le⟩
  have inside : rest <:+ text := (List.suffix_cons 60 rest).trans suffix
  rw [Element.parse, skipWhiteSpace_lt]
  refine (stamp_reads _).bind fun _ _ => ?_
  split
  case h_2 other => exact absurd rfl (other rest)
  case h_1 same =>
  cases same
  split
  · case h_1 skipped => exact absurd (skipWhiteSpace_none skipped) (ne_nil_of_element element)
  · case h_2 pErr skipped =>
      have here := skipWhiteSpace_suffix skipped
      split
      · exact failed _ _ _
      · exact failed _ _ _
      · case h_3 value p _ read =>
          obtain ⟨name, behind, -⟩ := named_of_readName skipped read
          have within := behind.trans here
          refine (readAttributes_reads (within.trans inside) (p.length + 1) [] (some p)
            (From.here p) ⟨Nat.succ_pos _, by rintro r ⟨⟩; exact Nat.lt_succ_self _⟩).bind ?_
          rintro ⟨attributes, tagEnd⟩ start
          have built {children : List Node}
              (attrs : Attributes encoding [] → Attributes encoding attributes)
              (formed : raw text = true → contentFormed encoding children = true) :
              Built text encoding rest (.element value attributes children) := by
            intro clean
            obtain ⟨names, distinct⟩ := attrs ⟨nofun, List.nodup_nil⟩
            refine ⟨?_, rfl, fun _ => rfl⟩
            rw [Node.formed, name, List.all_eq_true.mpr names, decide_eq_true distinct,
              formed clean]
            rfl
          cases tagEnd with
          | empty q =>
              exact Reads.pure (gone (start.trans within)) fun attrs _ => built attrs fun _ => rfl
          | content q =>
              have after : q <:+ rest := (start q rfl).trans within
              refine (content q after).bind ?_
              rintro ⟨children, r⟩ ends
              dsimp only
              split
              · exact failed _ _ _
              · exact failed _ _ _
              · case h_3 r _ =>
                  split
                  · split
                    · case h_1 s closed =>
                        refine Reads.pure (gone ?_) fun formed attrs _ => built attrs formed
                        rintro t ⟨⟩
                        exact ((List.suffix_cons 62 s).trans (skipWhiteSpace_suffix closed)).trans
                          ((List.drop_suffix _ r).trans ((ends r rfl).trans after))
                    · exact failed _ _ _
                  · exact failed _ _ _

theorem Node.parse_reads {readValue : Pointer → Parser (List Node × Pointer)} {kind : Kind}
    (suffix : 60 :: rest <:+ text) (found : kindOf rest = kind)
    (content : ∀ p, p <:+ rest → Reads text (readValue (some p)) (fun r => From p r.2)
      fun r => raw text = true → contentFormed encoding r.1 = true) :
    Reads text (Node.parse readValue encoding (some (60 :: rest)) kind)
      (fun r => Past (60 :: rest) r.2) fun r => Built text encoding rest r.1 := by
  cases kind with
  | declaration => exact Declaration.parse_reads suffix
  | comment => exact Comment.parse_reads suffix
  | cdata => exact Text.parse_cdata_reads suffix
  | unknown => exact Unknown.parse_reads found suffix
  | element => exact Element.parse_reads suffix found content

end Nodes

/-- The encoding a document begins with. -/
def firstEncoding (encoding : Encoding) (useMicrosoftBOM : Bool) : Encoding :=
  if useMicrosoftBOM then .utf8 else encoding

end HZRobot.Xml
