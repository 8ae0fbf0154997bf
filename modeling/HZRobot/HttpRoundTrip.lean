import HZRobot.HttpFragments

/-!
response::decode_header reads back what response::encode wrote. The header block is
a list of lines; the separators the decoder looks for are the ones the encoder put
between the parts, since the parts themselves do not hold them.
-/

namespace HZRobot.Http

/-- The parts of a response that survive encoding and decoding. -/
structure Response.Encodable (r : Response) : Prop where
  version_some : r.version ≠ []
  version_blank : 32 ∉ r.version
  version_nul : 0 ∉ r.version
  version_line : ¬ crlf <:+: r.version
  status : r.status_code < 2 ^ 16
  key_nul : ∀ e ∈ r.entrys, 0 ∉ e.key
  key_line : ∀ e ∈ r.entrys, ¬ crlf <:+: e.key
  key_colon : ∀ e ∈ r.entrys, ¬ bytes ": " <:+: e.key
  key_length : ∀ e ∈ r.entrys, e.key ≠ bytes "Content-Length"
  not_chunked : ∀ e ∈ r.entrys, ¬ (e.key = bytes "Transfer-Encoding" ∧ e.value = bytes "chunked")
  value_nul : ∀ e ∈ r.entrys, 0 ∉ e.value
  value_line : ∀ e ∈ r.entrys, ¬ crlf <:+: e.value
  /-- The greatest size of a std::string. -/
  body_size : r.body.length < 2 ^ 63

theorem not_crlf_prefix {line : List UInt8} (some_ : line ≠ []) (h : ¬ crlf <:+: line)
    (rest : List UInt8) : ¬ crlf <+: line ++ crlf ++ rest := by
  rintro ⟨t, heq⟩
  match line with
  | [] => exact some_ rfl
  | [c] =>
      simp only [crlf, List.cons_append, List.nil_append, List.cons.injEq] at heq
      exact absurd heq.2.1 (by decide)
  | c :: d :: line =>
      simp only [crlf, List.cons_append, List.nil_append, List.cons.injEq] at heq
      obtain ⟨rfl, rfl, -⟩ := heq
      exact h ⟨[], line, rfl⟩

theorem find_terminator_line {line : List UInt8} (h : ¬ crlf <:+: line) (rest : List UInt8) :
    find terminator (line ++ crlf ++ rest) =
      if crlf <+: rest then some line.length
      else (find terminator rest).map (· + (line.length + 2)) := by
  induction line with
  | nil =>
      have here : terminator <+: 13 :: 10 :: rest ↔ crlf <+: rest := by
        simp [terminator, crlf, List.cons_prefix_cons]
      have next : ¬ terminator <+: 10 :: rest := by
        simp [terminator, crlf, List.cons_prefix_cons]
      show find terminator (13 :: 10 :: rest) = _
      rw [find]
      by_cases start : crlf <+: rest
      · rw [if_pos (here.mpr start), if_pos start]
        rfl
      · rw [if_neg (fun t => start (here.mp t)), if_neg start, find, if_neg next, Option.map_map]
        rfl
  | cons c line ih =>
      have notHere : ¬ terminator <+: c :: (line ++ crlf ++ rest) := fun start =>
        not_crlf_prefix (List.cons_ne_nil c line) h rest
          ((List.prefix_append crlf crlf).trans start)
      have inner : ¬ crlf <:+: line := fun inside => h (inside.trans (List.suffix_cons c line).isInfix)
      rw [List.cons_append, List.cons_append, find, if_neg notHere, ih inner]
      split
      · rfl
      · rw [Option.map_map]
        congr 1

def joinLines (lines : List (List UInt8)) : List UInt8 := lines.flatMap (· ++ crlf)

/-- The empty line is the first one behind the lines. -/
theorem find_terminator_lines {line : List UInt8} {lines : List (List UInt8)}
    (h : ∀ l ∈ line :: lines, l ≠ [] ∧ ¬ crlf <:+: l) (t : List UInt8) :
    find terminator (joinLines (line :: lines) ++ crlf ++ t) =
      some ((joinLines (line :: lines)).length - 2) := by
  induction lines generalizing line with
  | nil =>
      have shape : joinLines [line] ++ crlf ++ t = line ++ crlf ++ (crlf ++ t) := by
        simp [joinLines]
      rw [shape, find_terminator_line (h line List.mem_cons_self).2,
        if_pos (List.prefix_append _ _)]
      simp [joinLines, crlf]
  | cons next lines ih =>
      have others : ∀ l ∈ next :: lines, l ≠ [] ∧ ¬ crlf <:+: l :=
        fun l hl => h l (List.mem_cons_of_mem line hl)
      have shape : joinLines (line :: next :: lines) ++ crlf ++ t =
          line ++ crlf ++ (joinLines (next :: lines) ++ crlf ++ t) := by
        simp [joinLines]
      have notHere : ¬ crlf <+: joinLines (next :: lines) ++ crlf ++ t := by
        have first := others next List.mem_cons_self
        have more := not_crlf_prefix first.1 first.2 (joinLines lines ++ crlf ++ t)
        simpa [joinLines] using more
      rw [shape, find_terminator_line (h line List.mem_cons_self).2, if_neg notHere, ih others,
        Option.map_some]
      congr 1
      simp only [joinLines, List.flatMap_cons, List.length_append, crlf, List.length_cons,
        List.length_nil]
      omega

section Block

variable {α : Type*} (add : α → List UInt8 → List UInt8 → α)

theorem decodeLines_entry {key value rest : List UInt8} (colon : ¬ bytes ": " <:+: key)
    (line : ¬ crlf <:+: value) (more : 2 ≤ rest.length) (a : α) :
    decodeLines add 2 (key ++ bytes ": " ++ value ++ crlf ++ rest) a =
      decodeLines add 2 rest (add a key value) := by
  have pair : bytes ": " = [58, 32] := by decide
  have first : cut (bytes ": ") (key ++ bytes ": " ++ value ++ crlf ++ rest) =
      some (key, value ++ crlf ++ rest) := by
    have found := cut_pair (by decide : (58 : UInt8) ≠ 32) (pair ▸ colon) (value ++ crlf ++ rest)
    rw [pair]
    simpa using found
  have second : cut crlf (value ++ crlf ++ rest) = some (value, rest) :=
    cut_pair (by decide) line rest
  have long : 2 < (key ++ bytes ": " ++ value ++ crlf ++ rest).length := by
    simp only [List.length_append, crlf, List.length_cons, List.length_nil]
    omega
  exact decodeLines_line add long first second a

theorem decodeLines_entries {es : List Entry} (colon : ∀ e ∈ es, ¬ bytes ": " <:+: e.key)
    (line : ∀ e ∈ es, ¬ crlf <:+: e.value) (a : α) :
    decodeLines add 2 (es.flatMap encodeEntry ++ crlf) a =
      (.decoded, es.foldl (fun a e => add a e.key e.value) a) := by
  induction es generalizing a with
  | nil => exact decodeLines_short add (by decide) a
  | cons e es ih =>
      have shape : (e :: es).flatMap encodeEntry ++ crlf =
          e.key ++ bytes ": " ++ e.value ++ crlf ++ (es.flatMap encodeEntry ++ crlf) := by
        simp [encodeEntry]
      rw [shape, decodeLines_entry add (colon e List.mem_cons_self) (line e List.mem_cons_self)
        (by simp [crlf])]
      exact ih (fun d hd => colon d (List.mem_cons_of_mem e hd))
        (fun d hd => line d (List.mem_cons_of_mem e hd)) _

theorem not_crlf_of_no_cr {s : List UInt8} (h : 13 ∉ s) : ¬ crlf <:+: s :=
  fun inside => h (inside.subset (by simp [crlf]))

/-- Two texts without a line end have none between them, where a letter stands that is in no line end. -/
theorem not_crlf_append {a b : List UInt8} {c : UInt8} (hc : c ∉ crlf) (ha : ¬ crlf <:+: a)
    (hb : ¬ crlf <:+: b) : ¬ crlf <:+: a ++ c :: b := fun inside =>
  (infix_of_separator inside hc).elim ha hb

/-- A start line, the lines of the entries and the empty line. -/
def headBlock (start : List UInt8) (es : List Entry) : List UInt8 :=
  start ++ crlf ++ (es.flatMap encodeEntry ++ crlf)

/-- The separators of the block are only between its parts. -/
structure HeadText (start : List UInt8) (es : List Entry) : Prop where
  start_some : start ≠ []
  start_line : ¬ crlf <:+: start
  start_nul : 0 ∉ start
  entries : ∀ e ∈ es,
    ¬ bytes ": " <:+: e.key ∧ ¬ crlf <:+: e.key ∧ 0 ∉ e.key ∧ ¬ crlf <:+: e.value ∧ 0 ∉ e.value

def headLines (start : List UInt8) (es : List Entry) : List (List UInt8) :=
  start :: es.map fun e => e.key ++ bytes ": " ++ e.value

theorem headBlock_lines (start : List UInt8) (es : List Entry) :
    headBlock start es = joinLines (headLines start es) ++ crlf := by
  have entry : encodeEntry = fun e => e.key ++ bytes ": " ++ e.value ++ crlf := rfl
  rw [headBlock, headLines, joinLines, entry]
  simp [List.flatMap_map]

namespace HeadText

variable {start : List UInt8} {es : List Entry} (ok : HeadText start es)

include ok

theorem lines_text : ∀ l ∈ headLines start es, l ≠ [] ∧ ¬ crlf <:+: l ∧ 0 ∉ l := by
  have colon : bytes ": " = [58, 32] := by decide
  intro l hl
  rcases List.mem_cons.mp hl with rfl | field
  · exact ⟨ok.start_some, ok.start_line, ok.start_nul⟩
  · obtain ⟨e, he, rfl⟩ := List.mem_map.mp field
    have text := ok.entries e he
    rw [colon]
    refine ⟨by simp, ?_, by simp [text.2.2.1, text.2.2.2.2]⟩
    have pair := not_crlf_append (c := 58) (by decide) text.2.1
      (not_crlf_append (c := 32) (a := []) (by decide) (by decide) text.2.2.2.1)
    simpa using pair

/-- The empty line of the block is the first one. -/
theorem find_terminator (t : List UInt8) :
    ∃ h, find terminator (headBlock start es ++ t) = some h ∧
      (headBlock start es).length = h + 4 := by
  have lines : ∀ l ∈ headLines start es, l ≠ [] ∧ ¬ crlf <:+: l := fun l hl =>
    ⟨(ok.lines_text l hl).1, (ok.lines_text l hl).2.1⟩
  have found := find_terminator_lines lines t
  have size : 2 ≤ (joinLines (headLines start es)).length := by
    rw [headLines, joinLines, List.flatMap_cons]
    simp only [List.length_append, crlf, List.length_cons, List.length_nil]
    omega
  rw [headBlock_lines]
  refine ⟨_, found, ?_⟩
  show _ = (joinLines (headLines start es)).length - 2 + 4
  rw [List.length_append]
  simp only [crlf, List.length_cons, List.length_nil]
  omega

theorem no_nul : 0 ∉ headBlock start es := by
  rw [headBlock_lines, joinLines]
  simp only [List.mem_append, List.mem_flatMap, not_or, not_exists, not_and]
  exact ⟨fun l hl => ⟨(ok.lines_text l hl).2.2, by decide⟩, by decide⟩

end HeadText

/-- A block is decoded word by word and line by line, whatever stands behind it. -/
theorem decodeBlock_headBlock (first second third : α → List UInt8 → α)
    {word word' word'' : List UInt8} {es : List Entry}
    (ok : HeadText (word ++ 32 :: (word' ++ 32 :: word'')) es) (blank : 32 ∉ word)
    (blank' : 32 ∉ word') (a : α) (t : List UInt8) :
    decodeBlock add first second third a
        (headBlock (word ++ 32 :: (word' ++ 32 :: word'')) es ++ t) =
      (.decoded, es.foldl (fun a e => add a e.key e.value) (third (second (first a word) word') word'')) := by
  apply decodeBlock_append
  have text := cstr_eq_self ok.no_nul
  obtain ⟨h, found, size⟩ := ok.find_terminator []
  rw [List.append_nil] at found
  have line : ¬ crlf <:+: word'' := fun inside => ok.start_line <|
    inside.trans ⟨word ++ 32 :: (word' ++ [32]), [], by simp⟩
  have shape : headBlock (word ++ 32 :: (word' ++ 32 :: word'')) es =
      word ++ 32 :: (word' ++ 32 :: (word'' ++ crlf ++ (es.flatMap encodeEntry ++ crlf))) := by
    rw [headBlock]
    simp
  have first_ := cut_single blank (word' ++ 32 :: (word'' ++ crlf ++ (es.flatMap encodeEntry ++ crlf)))
  have second_ := cut_single blank' (word'' ++ crlf ++ (es.flatMap encodeEntry ++ crlf))
  have third_ : cut crlf (word'' ++ crlf ++ (es.flatMap encodeEntry ++ crlf)) =
      some (word'', es.flatMap encodeEntry ++ crlf) := cut_pair (by decide) line _
  rw [← shape] at first_
  have space : bytes " " = [32] := by decide
  have bound : (headBlock (word ++ 32 :: (word' ++ 32 :: word'')) es).length - (h + 2) = 2 := by omega
  unfold decodeBlock
  simp only [text, found, space, first_, second_, third_, bound]
  exact decodeLines_entries add (fun e he => (ok.entries e he).1)
    (fun e he => (ok.entries e he).2.2.2.1) _

end Block

/-- Entries of an encodable response are only added. -/
theorem foldl_addField {es : List Entry} (length : ∀ e ∈ es, e.key ≠ bytes "Content-Length")
    (chunked : ∀ e ∈ es, ¬ (e.key = bytes "Transfer-Encoding" ∧ e.value = bytes "chunked"))
    (r : Response) :
    es.foldl (fun r e => r.addField e.key e.value) r = { r with entrys := r.entrys ++ es } := by
  induction es generalizing r with
  | nil => simp
  | cons e es ih =>
      have added : r.addField e.key e.value = { r with entrys := r.entrys ++ [e] } := by
        rw [Response.addField, if_neg (length e List.mem_cons_self),
          if_neg (chunked e List.mem_cons_self)]
      rw [List.foldl_cons, added, ih (fun d hd => length d (List.mem_cons_of_mem e hd))
        (fun d hd => chunked d (List.mem_cons_of_mem e hd))]
      simp

theorem strtoll_decimal_self {n : Nat} (h : n < 2 ^ 63) : strtoll (decimal n) = n := by
  have read : strtoll (decimal n ++ []) = min (2 ^ 63 - 1) (n : Int) := strtoll_decimal n (by simp)
  rw [List.append_nil] at read
  rw [read]
  omega

theorem toUint64_decimal {n : Nat} (h : n < 2 ^ 63) : toUint64 (decimal n) = n := by
  rw [toUint64, strtoll_decimal_self h]
  omega

theorem status_decimal {n : Nat} (h : n < 2 ^ 16) : toUint16 (atoi (decimal n)) = n := by
  rw [atoi, strtoll_decimal_self (by omega), toUint16, toInt32]
  omega

/-- The lines of the header block behind the status line. -/
def Response.fields (r : Response) : List Entry :=
  r.entrys ++
    if 0 < r.body.length then [⟨bytes "Content-Length", decimal r.body.length⟩] else []

/-- The response object after decoding the header of a response. -/
def Response.received (old r : Response) : Response :=
  { old with
    version := r.version
    status_code := r.status_code
    status_desc := getStatusCodeDesc r.status_code
    entrys := old.entrys ++ r.entrys
    content_length := if 0 < r.body.length then r.body.length else old.content_length }

def Response.statusLine (r : Response) : List UInt8 :=
  r.version ++ bytes " " ++ decimal r.status_code ++ bytes " " ++ getStatusCodeDesc r.status_code

theorem head_eq (r : Response) :
    r.head = r.statusLine ++ crlf ++ (r.fields.flatMap encodeEntry ++ crlf) := by
  have length : encodeContentLength r.body =
      (if 0 < r.body.length then [⟨bytes "Content-Length", decimal r.body.length⟩] else []).flatMap
        encodeEntry := by
    unfold encodeContentLength
    split
    · simp [encodeEntry, show bytes "Content-Length: " = bytes "Content-Length" ++ bytes ": " by
        decide]
    · rfl
  rw [Response.head, Response.fields, length, Response.statusLine]
  simp

theorem getStatusCodeDesc_text (status : Nat) :
    ¬ crlf <:+: getStatusCodeDesc status ∧ 0 ∉ getStatusCodeDesc status := by
  have table : (statusCodeDesc.all fun d => decide (¬ crlf <:+: bytes d.2 ∧ 0 ∉ bytes d.2)) = true := by
    decide
  unfold getStatusCodeDesc
  split
  · decide
  · case h_2 d found =>
      exact of_decide_eq_true (List.all_eq_true.mp table d (List.mem_of_find?_eq_some found))

theorem decimal_text (n : Nat) : 13 ∉ decimal n ∧ 0 ∉ decimal n ∧ 32 ∉ decimal n := by
  have digit (b : UInt8) (hb : b ∈ decimal n) : 48 ≤ b := (decimal_digit hb).1
  refine ⟨fun h => ?_, fun h => ?_, fun h => ?_⟩
  · exact absurd (digit _ h) (by decide)
  · exact absurd (digit _ h) (by decide)
  · exact absurd (digit _ h) (by decide)

namespace Response.Encodable

variable {r : Response} (ok : r.Encodable)

include ok

theorem statusLine_text : r.statusLine ≠ [] ∧ ¬ crlf <:+: r.statusLine ∧ 0 ∉ r.statusLine := by
  have blank : bytes " " = [32] := by decide
  have desc := getStatusCodeDesc_text r.status_code
  have number := decimal_text r.status_code
  have shape : r.statusLine =
      r.version ++ 32 :: (decimal r.status_code ++ 32 :: getStatusCodeDesc r.status_code) := by
    rw [statusLine, blank]
    simp
  rw [shape]
  refine ⟨?_, ?_, ?_⟩
  · simp
  · exact not_crlf_append (by decide) ok.version_line
      (not_crlf_append (by decide) (not_crlf_of_no_cr number.1) desc.1)
  · simp [ok.version_nul, number.2.1, desc.2]

theorem fields_text : ∀ e ∈ r.fields,
    ¬ bytes ": " <:+: e.key ∧ ¬ crlf <:+: e.key ∧ 0 ∉ e.key ∧ ¬ crlf <:+: e.value ∧ 0 ∉ e.value := by
  intro e he
  rcases List.mem_append.mp he with entry | length
  · exact ⟨ok.key_colon e entry, ok.key_line e entry, ok.key_nul e entry, ok.value_line e entry,
      ok.value_nul e entry⟩
  · have single : e = ⟨bytes "Content-Length", decimal r.body.length⟩ := by
      split at length
      · exact List.mem_singleton.mp length
      · cases length
    rw [single]
    have number := decimal_text r.body.length
    have key : ¬ bytes ": " <:+: bytes "Content-Length" ∧ ¬ crlf <:+: bytes "Content-Length" ∧
        0 ∉ bytes "Content-Length" := by decide
    exact ⟨key.1, key.2.1, key.2.2, not_crlf_of_no_cr number.1, number.2.1⟩

theorem received_eq (old : Response) :
    r.fields.foldl (fun r e => r.addField e.key e.value)
      { old with
        version := r.version
        status_code := r.status_code
        status_desc := getStatusCodeDesc r.status_code } = old.received r := by
  rw [fields, List.foldl_append, foldl_addField ok.key_length ok.not_chunked, received]
  split
  · rw [List.foldl_cons, List.foldl_nil, addField, if_pos rfl, toUint64_decimal ok.body_size]
  · rfl

end Response.Encodable

theorem Response.Encodable.headText {r : Response} (ok : r.Encodable) :
    HeadText r.statusLine r.fields :=
  ⟨ok.statusLine_text.1, ok.statusLine_text.2.1, ok.statusLine_text.2.2, ok.fields_text⟩

/-- The empty line of an encoded response is the one that ends its header block. -/
theorem find_terminator_head {r : Response} (ok : r.Encodable) (t : List UInt8) :
    ∃ h, find terminator (r.head ++ t) = some h ∧ r.head.length = h + 4 := by
  rw [head_eq]
  exact ok.headText.find_terminator t

/-- decode_header reads an encoded header back, whatever stands behind it. -/
theorem decodeHeader_head {r : Response} (ok : r.Encodable) (old : Response) (t : List UInt8) :
    decodeHeader old (r.head ++ t) = (.decoded, old.received r) := by
  have number := decimal_text r.status_code
  have words : r.statusLine = r.version ++ 32 :: (decimal r.status_code ++ 32 ::
      getStatusCodeDesc r.status_code) := by
    rw [Response.statusLine, show bytes " " = [32] by decide]
    simp
  have text := ok.headText
  rw [words] at text
  rw [decodeHeader_eq_decodeBlock, head_eq, words]
  refine (decodeBlock_headBlock _ _ _ _ text ok.version_blank number.2.2 old t).trans ?_
  rw [← ok.received_eq, Response.setVersion, Response.setStatusCode, Response.setStatusDesc,
    status_decimal ok.status]

theorem received_length (r : Response) :
    (({} : Response).received r).content_length = r.body.length := by
  unfold Response.received
  dsimp only
  split
  · rfl
  · omega

/-- Any bytes of an encoded response, in any fragments: the client waits or has it whole. -/
theorem feed_encoded {r : Response} (ok : r.Encodable) (block : r.head.length ≤ 1024)
    {fs : List (List UInt8)} {t : List UInt8} (nonempty : ∀ f ∈ fs, f ≠ [])
    (whole : fs.flatten ++ t = r.head ++ r.body) :
    feed (headerClient []) fs =
      if fs.flatten.length < r.head.length + r.body.length then .waiting
      else .done r.version r.status_code r.entrys r.body.length r.body := by
  obtain ⟨h, found, size⟩ := find_terminator_head ok r.body
  rw [← whole] at found
  have sizes := congrArg List.length whole
  rw [List.length_append, List.length_append] at sizes
  rcases find_in_prefix found with ⟨here, room⟩ | ⟨missing, room⟩
  · have block_ : ([] ++ fs.flatten).take (h + 4) = r.head := by
      have front := congrArg (List.take (h + 4)) whole
      rw [List.take_append_of_le_length room, ← size, List.take_left] at front
      rw [List.nil_append, ← size, front]
    have decoded : decodeHeader {} (([] ++ fs.flatten).take (h + 4)) =
        (.decoded, ({} : Response).received r) := by
      have read := decodeHeader_head ok {} []
      rwa [List.append_nil, ← block_] at read
    have fits : ([] ++ fs.flatten).length ≤ h + 4 + (({} : Response).received r).content_length := by
      rw [received_length, List.nil_append]
      omega
    have early : ([] : List UInt8).length < h + 4 := Nat.succ_pos _
    rw [feed_decoded nonempty early (by omega) here rfl decoded fits, bodyOutcome, received_length,
      List.nil_append]
    by_cases short : fs.flatten.length < r.head.length + r.body.length
    · rw [if_pos short, if_pos (by omega)]
    · have rest : t = [] := List.eq_nil_of_length_eq_zero (by omega)
      rw [rest, List.append_nil] at whole
      have body : fs.flatten.drop (h + 4) = r.body := by rw [whole, ← size, List.drop_left]
      rw [if_neg short, if_neg (by omega), body]
      rfl
  · have small : ([] : List UInt8).length < 1024 := by decide
    have outcome := feed_unterminated nonempty small missing
    rw [List.nil_append] at outcome
    rw [outcome, if_pos (by omega), if_pos (by omega)]

/-- Before the last fragment every call returns true and the client waits; with the last
fragment the response is done. -/
theorem framing_survives (r : Response) (m : List UInt8) (fs : List (List UInt8))
    (ok : r.Encodable) (block : r.head.length ≤ 1024) (encoded : r.encode = some m)
    (nonempty : ∀ f ∈ fs, f ≠ []) (whole : fs.flatten = m) :
    (∀ gs, gs <+: fs → gs ≠ fs → feed (headerClient []) gs = .waiting) ∧
      feed (headerClient []) fs =
        .done r.version r.status_code r.entrys r.body.length r.body := by
  have message : m = r.head ++ r.body := by
    rw [Response.encode, if_neg ok.version_some] at encoded
    exact (Option.some.inj encoded).symm
  subst message
  refine ⟨fun gs front proper => ?_, ?_⟩
  · obtain ⟨hs, rfl⟩ := front
    have left : hs.flatten ≠ [] := by
      intro empty
      cases hs with
      | nil => exact proper (List.append_nil gs).symm
      | cons f hs =>
          rw [List.flatten_cons, List.append_eq_nil_iff] at empty
          exact nonempty f (by simp) empty.1
    rw [List.flatten_append] at whole
    have sizes := congrArg List.length whole
    have := List.length_pos_iff.mpr left
    rw [List.length_append, List.length_append] at sizes
    rw [feed_encoded ok block (fun g hg => nonempty g (by simp [hg])) whole, if_pos (by omega)]
  · have all : fs.flatten ++ [] = r.head ++ r.body := by rw [List.append_nil, whole]
    have sizes := congrArg List.length whole
    rw [List.length_append] at sizes
    rw [feed_encoded ok block nonempty all, if_neg (by omega)]

theorem short_reply_survives :
    (∀ gs, gs <+: [bytes "HTTP/1.1 200 OK\r\nContent-Length: 1\r\n\r", bytes "\n", bytes "a"] →
        gs ≠ [bytes "HTTP/1.1 200 OK\r\nContent-Length: 1\r\n\r", bytes "\n", bytes "a"] →
          feed (headerClient []) gs = .waiting) ∧
      feed (headerClient [])
          [bytes "HTTP/1.1 200 OK\r\nContent-Length: 1\r\n\r", bytes "\n", bytes "a"] =
        .done (bytes "HTTP/1.1") 200 [] 1 (bytes "a") := by
  have ok : Response.Encodable { body := bytes "a" } := by
    constructor <;> simp <;> decide
  exact framing_survives { body := bytes "a" } _ _ ok (by decide) rfl (by decide) (by decide)

end HZRobot.Http
