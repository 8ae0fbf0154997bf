import HZRobot.ConfigUploadLines

/-!
A well-formed upload is written byte for byte exactly when the branch finds the
boundary of its Content-Type where it ends the content and takes the Content-Type
line of the part for one. While the loop reads lines that hold no NUL the counter
is the position in the stream.
-/

namespace HZRobot.ConfigUpload
open Config

/-- The unquoted boundary at the end of a Content-Type. -/
structure Boundary where
  token : List UInt8
  noSpace : ∀ x ∈ token, isSpace x = false
  noColon : 58 ∉ token
  noNul : 0 ∉ token
  solid : ∃ x ∈ token, x ≠ 45
  short : token.length + 2 < 102399

/-- A line of a part header, without its CRLF. -/
structure HeaderLine where
  text : List UInt8
  noLf : 10 ∉ text
  noNul : 0 ∉ text
  short : text.length < 102399

/-- A line that is neither a Content-Disposition nor a Content-Type line. -/
def HeaderLine.Other (o : HeaderLine) : Prop :=
  ¬ bytes "Content-Disposition:" <:+: o.text ∧ ¬ bytes "Content-Type:" <:+: o.text

/-- A multipart body with one configuration file. The Content-Disposition line
ends in its filename parameter; before it are no dot and no configuration name. -/
structure Submission where
  boundary : Boundary
  file : ConfigName
  above : List HeaderLine
  disposition : HeaderLine
  between : List HeaderLine
  type : HeaderLine
  content : List UInt8
  lastCrlf : Bool
  above_other : ∀ o ∈ above, o.Other
  between_other : ∀ o ∈ between, o.Other
  parameters : List UInt8
  disposition_text : disposition.text =
    bytes "Content-Disposition:" ++ parameters ++ bytes "filename=\"" ++ file.text ++ bytes ".xml\""
  noDot : 46 ∉ parameters
  noName : ∀ name : ConfigName, ¬ name.text <:+:
    bytes "Content-Disposition:" ++ parameters ++ bytes "filename=\""
  type_is : bytes "Content-Type:" <:+: type.text

def lines (os : List HeaderLine) : List UInt8 := os.flatMap fun o => o.text ++ crlf

def Submission.delimiter (s : Submission) : List UInt8 := bytes "--" ++ s.boundary.token

/-- Everything in front of the content. -/
def Submission.head (s : Submission) : List UInt8 :=
  s.delimiter ++ crlf ++ lines s.above ++ (s.disposition.text ++ crlf) ++ lines s.between ++
    (s.type.text ++ crlf) ++ crlf

def Submission.body (s : Submission) : List UInt8 :=
  s.head ++ s.content ++ crlf ++ s.delimiter ++ bytes "--" ++ if s.lastCrlf then crlf else []

def Submission.contentType (s : Submission) (front : List UInt8) : List UInt8 :=
  front ++ bytes "boundary=" ++ s.boundary.token

/-- A line as the loop sees it, with the carriage return of its CRLF. -/
theorem getline_header {text : List UInt8} (rest : List UInt8) (noLf : 10 ∉ text)
    (noNul : 0 ∉ text) (short : text.length < 102399) :
    (Stream.at (text ++ crlf ++ rest)).getline = (text ++ [13], Stream.at rest) ∧
      cstr (text ++ [13]) = text ++ [13] := by
  constructor
  · have noLf' : 10 ∉ text ++ [13] := by simp [noLf]
    have := getline_line rest noLf' (by simp [maxCharSize]; omega)
    simpa [crlf] using this
  · exact cstr_eq_self (by simp [noNul])

theorem infix_header {word text : List UInt8} (hw : word ≠ []) (noCr : 13 ∉ word) :
    word <:+: text ++ [13] ↔ word <:+: text := by
  constructor
  · intro h
    rcases infix_of_separator h noCr with left | right
    · exact left
    · exact absurd (List.infix_nil.mp right) hw
  · intro h
    exact h.trans (List.prefix_append text [13]).isInfix

theorem isDisposition_header (text : List UInt8) :
    isDisposition (text ++ [13]) = true ↔ bytes "Content-Disposition:" <:+: text := by
  rw [isDisposition, find_isSome_iff, infix_header (by decide) (by decide)]

theorem isType_header (text : List UInt8) :
    isType (text ++ [13]) = true ↔ bytes "Content-Type:" <:+: text := by
  rw [isType, find_isSome_iff, infix_header (by decide) (by decide)]

theorem readLines_header {text : List UInt8} (rest : List UInt8) (noLf : 10 ∉ text)
    (noNul : 0 ∉ text) (short : text.length < 102399) :
    readLines (Stream.at (text ++ crlf ++ rest)) =
      (text ++ [13], Stream.at rest) :: readLines (Stream.at rest) := by
  obtain ⟨line, whole⟩ := getline_header rest noLf noNul short
  rw [readLines, dif_pos (by rw [line]; rfl), line, whole]

theorem isHead_disposition {text : List UInt8} (h : bytes "Content-Disposition:" <:+: text)
    (stream : Stream) : isHead (text ++ [13], stream) = true := by
  simp [isHead, (isDisposition_header text).mpr h]

theorem HeaderLine.Other.isHead {o : HeaderLine} (other : o.Other) (stream : Stream) :
    isHead (o.text ++ [13], stream) = true := by
  have notType := mt (isType_header o.text).mp other.2
  simp [ConfigUpload.isHead, notType]

theorem dispositions_others {os : List HeaderLine} (other : ∀ o ∈ os, o.Other)
    (rest : List UInt8) : dispositions (readLines (Stream.at (lines os ++ rest))) =
      dispositions (readLines (Stream.at rest)) := by
  induction os with
  | nil => rfl
  | cons o os ih =>
      have notDisposition := mt (isDisposition_header o.text).mp (other o (by simp)).1
      have notType := mt (isType_header o.text).mp (other o (by simp)).2
      have step : lines (o :: os) ++ rest = o.text ++ crlf ++ (lines os ++ rest) := by
        simp [lines]
      rw [step, readLines_header _ o.noLf o.noNul o.short, dispositions_cons, if_neg notDisposition,
        if_neg notType, ih fun p hp => other p (by simp [hp])]

theorem behindType_others {os : List HeaderLine} (other : ∀ o ∈ os, o.Other) (n : Nat)
    (rest : List UInt8) : behindType n (readLines (Stream.at (lines os ++ rest))) =
      behindType (n + (lines os).length) (readLines (Stream.at rest)) := by
  induction os generalizing n with
  | nil => rfl
  | cons o os ih =>
      have step : lines (o :: os) ++ rest = o.text ++ crlf ++ (lines os ++ rest) := by
        simp [lines]
      have count : n + ((o.text ++ [13]).length + 1) + (lines os).length =
          n + (lines (o :: os)).length := by
        simp [lines, crlf]
        omega
      rw [step, readLines_header _ o.noLf o.noNul o.short,
        behindType_head ((other o (by simp)).isHead _), ih fun p hp => other p (by simp [hp]), count]

namespace Submission
variable (s : Submission)

/-- The Content-Disposition line up to the file name. -/
def named : List UInt8 := bytes "Content-Disposition:" ++ s.parameters ++ bytes "filename=\""

theorem disposition_line : s.disposition.text ++ [13] =
    s.named ++ s.file.text ++ 46 :: (bytes "xml" ++ 34 :: [13]) := by
  rw [s.disposition_text, show bytes ".xml\"" = 46 :: (bytes "xml" ++ [34]) by decide]
  simp [named]

theorem postfixOf_disposition : postfixOf (s.disposition.text ++ [13]) = some (bytes ".xml") := by
  have short := congrArg List.length s.disposition_line
  have bound := s.disposition.short
  have noDot : 46 ∉ s.named ++ s.file.text := by
    have constant : 46 ∉ bytes "Content-Disposition:" ∧ 46 ∉ bytes "filename=\"" := by decide
    have name : 46 ∉ s.file.text := by cases s.file <;> decide
    simp [named, s.noDot, constant, name]
  have dot := find_single noDot (bytes "xml" ++ 34 :: [13])
  have quote := rfind_single (show (34 : UInt8) ∉ [13] by decide)
    (s.named ++ s.file.text ++ 46 :: bytes "xml")
  rw [← s.disposition_line] at dot
  rw [show s.named ++ s.file.text ++ 46 :: bytes "xml" ++ 34 :: [13] =
    s.disposition.text ++ [13] by rw [s.disposition_line]; simp] at quote
  have length : (s.named ++ s.file.text ++ 46 :: bytes "xml").length =
      (s.named ++ s.file.text).length + 4 := by
    rw [List.length_append]
    rfl
  have size : sub64 ((s.named ++ s.file.text).length + 4) (s.named ++ s.file.text).length = 4 := by
    simp only [List.length_append, List.length_cons] at short bound ⊢
    simp only [sub64]
    omega
  simp only [postfixOf, show bytes "." = [46] by decide, dot, quote, length, position,
    Option.getD_some, size, substr]
  rw [if_neg, s.disposition_line, List.drop_left]
  · rfl
  · rw [s.disposition_line, List.length_append]
    omega

theorem configName_disposition : configName (s.disposition.text ++ [13]) = some s.file := by
  have found (name : ConfigName) :
      (find name.text (s.disposition.text ++ [13])).isSome ↔ name = s.file := by
    rw [find_isSome_iff]
    constructor
    · intro h
      rw [s.disposition_text] at h
      have noQuote : 34 ∉ name.text := by cases name <;> decide
      have split : bytes "Content-Disposition:" ++ s.parameters ++ bytes "filename=\"" ++
          s.file.text ++ bytes ".xml\"" ++ [13] =
          (bytes "Content-Disposition:" ++ s.parameters ++ bytes "filename=") ++
            34 :: (s.file.text ++ bytes ".xml\"" ++ [13]) := by
        rw [show bytes "filename=\"" = bytes "filename=" ++ [34] by decide]
        simp
      rw [split] at h
      rcases infix_of_separator h noQuote with left | right
      · refine absurd (left.trans ?_) (s.noName name)
        rw [show bytes "filename=\"" = bytes "filename=" ++ [34] by decide]
        rw [← List.append_assoc]
        exact (List.prefix_append _ _).isInfix
      · revert right
        cases name <;> cases s.file <;> decide
    · rintro rfl
      rw [s.disposition_line, List.append_assoc]
      exact (List.prefix_append _ _).isInfix.trans (List.suffix_append _ _).isInfix
  have mysql : (find (bytes "mysql_config") (s.disposition.text ++ [13])).isSome ↔
      ConfigName.mysql_config = s.file := found .mysql_config
  have photo : (find (bytes "photo_config") (s.disposition.text ++ [13])).isSome ↔
      ConfigName.photo_config = s.file := found .photo_config
  have server : (find (bytes "server_config") (s.disposition.text ++ [13])).isSome ↔
      ConfigName.server_config = s.file := found .server_config
  simp only [configName, mysql, photo, server]
  cases s.file <;> rfl

/-- The bytes in front of the last boundary. -/
def front : List UInt8 := s.head ++ s.content ++ crlf ++ bytes "--"

theorem rfind_boundary : rfind s.boundary.token s.body = some s.front.length := by
  have split : s.body = s.front ++ s.boundary.token ++
      (bytes "--" ++ if s.lastCrlf then crlf else []) := by
    simp [body, front, delimiter]
  rw [split]
  apply rfind_last
  intro i hi again
  obtain ⟨x, hx, notDash⟩ := s.boundary.solid
  refine notDash (eq_of_shifted (c := 45) hi again ?_ x hx)
  intro y hy shared
  have noSpace := s.boundary.noSpace y shared
  have ending : y = 45 ∨ isSpace y = true := by
    revert hy
    cases s.lastCrlf
    · have : (bytes "--").all fun z => z = 45 || isSpace z := by decide
      simpa using List.all_eq_true.mp this y
    · have : (bytes "--" ++ crlf).all fun z => z = 45 || isSpace z := by decide
      simpa using List.all_eq_true.mp this y
  simpa [noSpace] using ending

/-- What stands behind the Content-Type line. -/
def afterType : List UInt8 :=
  crlf ++ (s.content ++ crlf ++ s.delimiter ++ bytes "--" ++ if s.lastCrlf then crlf else [])

theorem delimiter_line : ∃ first : HeaderLine, first.text = s.delimiter ∧ first.Other := by
  have dashes : 10 ∉ bytes "--" ∧ 0 ∉ bytes "--" ∧ 58 ∉ bytes "--" := by decide
  have noColon : 58 ∉ s.delimiter := by simp [delimiter, dashes, s.boundary.noColon]
  have noLf : 10 ∉ s.delimiter := by
    have : 10 ∉ s.boundary.token := fun lf => by simpa [isSpace] using s.boundary.noSpace 10 lf
    simp [delimiter, dashes, this]
  have noNul : 0 ∉ s.delimiter := by simp [delimiter, dashes, s.boundary.noNul]
  have short : s.delimiter.length < 102399 := by
    have := s.boundary.short
    simp only [delimiter, List.length_append, show (bytes "--").length = 2 by decide]
    omega
  exact ⟨⟨s.delimiter, noLf, noNul, short⟩, rfl, fun h => noColon (h.subset (by decide)),
    fun h => noColon (h.subset (by decide))⟩

theorem body_lines {first : HeaderLine} (h : first.text = s.delimiter) :
    s.body = lines (first :: s.above) ++ (s.disposition.text ++ crlf ++ (lines s.between ++
      (s.type.text ++ crlf ++ s.afterType))) := by
  simp [h, afterType, body, head, lines]

theorem isDisposition_disposition : bytes "Content-Disposition:" <:+: s.disposition.text := by
  rw [s.disposition_text, List.append_assoc, List.append_assoc, List.append_assoc]
  exact (List.prefix_append _ _).isInfix

/-- The Content-Disposition line stands alone unless the Content-Type line is one too. -/
theorem dispositions_body : ∃ more, dispositions (readLines (Stream.at s.body)) =
      (s.disposition.text ++ [13]) :: more ∧
    (more = [] ↔ ¬ bytes "Content-Disposition:" <:+: s.type.text) := by
  obtain ⟨first, text, other⟩ := s.delimiter_line
  have others : ∀ o ∈ first :: s.above, o.Other := by
    intro o ho
    rcases List.mem_cons.mp ho with rfl | ho
    · exact other
    · exact s.above_other o ho
  rw [s.body_lines text, dispositions_others others,
    readLines_header _ s.disposition.noLf s.disposition.noNul s.disposition.short,
    dispositions_cons, if_pos ((isDisposition_header _).mpr s.isDisposition_disposition),
    dispositions_others s.between_other,
    readLines_header _ s.type.noLf s.type.noNul s.type.short, dispositions_cons]
  refine ⟨_, rfl, ?_⟩
  simp only [isDisposition_header, isType_header, s.type_is, if_true]
  split
  · case isTrue again => simp [again]
  · case isFalse alone => simp [alone]

/-- The counter is the position of the content in the body. -/
theorem behindType_body (alone : ¬ bytes "Content-Disposition:" <:+: s.type.text) :
    behindType 0 (readLines (Stream.at s.body)) = some (s.head.length,
      s.content ++ (crlf ++ s.delimiter ++ bytes "--" ++ if s.lastCrlf then crlf else [])) := by
  obtain ⟨first, text, other⟩ := s.delimiter_line
  have others : ∀ o ∈ first :: s.above, o.Other := by
    intro o ho
    rcases List.mem_cons.mp ho with rfl | ho
    · exact other
    · exact s.above_other o ho
  have notHead : isHead (s.type.text ++ [13], Stream.at s.afterType) = false := by
    have isType_ := (isType_header _).mpr s.type_is
    have notDisposition := mt (isDisposition_header _).mp alone
    simp [isHead, isType_, notDisposition]
  obtain ⟨line, whole⟩ := getline_header (s.content ++ crlf ++ s.delimiter ++ bytes "--" ++
    if s.lastCrlf then crlf else []) (show 10 ∉ [] by simp) (by simp) (by simp)
  have empty : (Stream.at s.afterType).getline = ([13], Stream.at (s.content ++ crlf ++
      s.delimiter ++ bytes "--" ++ if s.lastCrlf then crlf else [])) := line
  have count : 0 + (lines (first :: s.above)).length + ((s.disposition.text ++ [13]).length + 1) +
      (lines s.between).length + ((s.type.text ++ [13]).length + 1) +
      ((cstr [13]).length + 1) = s.head.length := by
    rw [show cstr [13] = [13] from whole]
    simp [head, lines, crlf, text]
    omega
  rw [s.body_lines text, behindType_others others,
    readLines_header _ s.disposition.noLf s.disposition.noNul s.disposition.short,
    behindType_head (isHead_disposition s.isDisposition_disposition _),
    behindType_others s.between_other,
    readLines_header _ s.type.noLf s.type.noNul s.type.short, behindType, notHead, empty]
  simp only [Bool.false_eq_true, if_false, Stream.at, count, List.append_assoc]

theorem front_length : s.front.length = s.head.length + s.content.length + 4 := by
  simp [front, crlf, show (bytes "--").length = 2 by decide]
  omega

/-- Where the Content-Type line of the part holds the text of a Content-Disposition
too, the content is empty. Elsewhere the word behind the first boundary= begins its
last occurrence where the last boundary begins, or in front of it, if the content
is empty. -/
def Recognised (before : List UInt8) : Prop :=
  if bytes "Content-Disposition:" <:+: s.type.text then s.content = []
  else ∃ word p, boundaryWord (s.contentType before) = some word ∧ rfind word s.body = some p ∧
    (p = s.front.length ∨ s.content = [] ∧ 2 ≤ p ∧ p ≤ s.front.length)

theorem endsAt_iff (word : List UInt8) : EndsAt word s.body s.content ↔
    if bytes "Content-Disposition:" <:+: s.type.text then s.content = []
    else ∃ p, rfind word s.body = some p ∧
      (p = s.front.length ∨ s.content = [] ∧ 2 ≤ p ∧ p ≤ s.front.length) := by
  obtain ⟨more, here, single⟩ := s.dispositions_body
  rw [EndsAt, here, List.tail_cons]
  by_cases again : bytes "Content-Disposition:" <:+: s.type.text
  · have several : more ≠ [] := fun empty => single.mp empty again
    simp [several, again]
  · rw [if_pos (single.mpr again), if_neg again, s.behindType_body again, front_length]
    dsimp only
    constructor
    · rintro ⟨tail, rest, ⟨p, found, place⟩ | ⟨rfl, -⟩⟩
      · refine ⟨p, found, ?_⟩
        rcases place with ends | ⟨empty, low, high⟩
        · exact .inl ends
        · rw [empty]
          exact .inr ⟨rfl, low, high⟩
      · rw [List.append_right_inj] at rest
        simp [crlf] at rest
    · rintro ⟨p, found, place⟩
      refine ⟨_, rfl, .inl ⟨p, found, ?_⟩⟩
      rcases place with ends | ⟨empty, low, high⟩
      · exact .inl ends
      · rw [empty] at high
        exact .inr ⟨empty, low, high⟩

end Submission

theorem transstring2_token (b : Boundary) : transstring2 b.token = b.token := by
  have noSpace := b.noSpace
  have solid := b.solid
  cases h : b.token with
  | nil =>
      rw [h] at solid
      simp at solid
  | cons c rest =>
      have first : isSpace c = false := noSpace c (by simp [h])
      rw [transstring2, List.dropWhile_cons_of_neg (by simp [first]), List.takeWhile_eq_self_iff]
      intro x hx
      simp [noSpace x (by rw [h]; exact hx)]

theorem find_boundary {front : List UInt8} (token : List UInt8)
    (first : ¬ bytes "boundary=" <:+: front ++ bytes "boundary") :
    find (bytes "boundary=") (front ++ bytes "boundary=" ++ token) = some front.length := by
  apply find_first
  intro i hi here
  have split : front ++ bytes "boundary=" ++ token =
      (front ++ bytes "boundary") ++ (61 :: token) := by
    rw [show bytes "boundary=" = bytes "boundary" ++ [61] by decide]
    simp
  have room : i ≤ (front ++ bytes "boundary").length := by
    rw [List.length_append]
    omega
  rw [split, List.drop_append_of_le_length room] at here
  have inside : bytes "boundary=" <+: (front ++ bytes "boundary").drop i := by
    refine List.prefix_of_prefix_length_le here (List.prefix_append _ _) ?_
    rw [List.length_drop, List.length_append, show (bytes "boundary=").length = 9 by decide,
      show (bytes "boundary").length = 8 by decide]
    omega
  exact first (inside.isInfix.trans (List.drop_suffix _ _).isInfix)

theorem Submission.boundaryWord_contentType (s : Submission) (before : List UInt8) :
    ∃ word, boundaryWord (s.contentType before) = some word := by
  have found : (find (bytes "boundary=") (s.contentType before)).isSome := by
    rw [find_isSome_iff, contentType]
    exact (List.suffix_append before _).isInfix.trans (List.prefix_append _ _).isInfix
  obtain ⟨n, found⟩ := Option.isSome_iff_exists.mp found
  exact ⟨_, by rw [boundaryWord, found, Option.map_some]⟩

/-- The branch writes to the file of the submission and to no other. -/
theorem Submission.files_after (parse : List UInt8 → Option (List XmlNode)) (s : Submission)
    (w : World) {path before word : List UInt8} (named : namesConfig path = true)
    (read : boundaryWord (s.contentType before) = some word) :
    (handleConfigs parse path (s.contentType before) s.body w).2.files =
      Function.update w.files s.file (some (written word s.body)) := by
  obtain ⟨n, found, rfl⟩ := Option.map_eq_some_iff.mp read
  obtain ⟨more, here, -⟩ := s.dispositions_body
  have target : opened s.body = some s.file := by
    rw [opened, here, List.head?_cons, Option.bind_some, accepted, s.postfixOf_disposition,
      if_pos rfl, s.configName_disposition]
  rw [handleConfigs, if_pos named, found]
  dsimp only
  rw [receive_files, filesAfter, target]

theorem Submission.boundaryWord_first (s : Submission) {before : List UInt8}
    (first : ¬ bytes "boundary=" <:+: before ++ bytes "boundary") :
    boundaryWord (s.contentType before) = some s.boundary.token := by
  have length : before.length + 9 = (before ++ bytes "boundary=").length := by
    rw [List.length_append]
    rfl
  rw [boundaryWord, contentType, find_boundary s.boundary.token first, Option.map_some, length,
    List.drop_left, transstring2_token]

/-- A boundary that is the first one of the Content-Type is recognised. -/
theorem Submission.recognised (s : Submission) {before : List UInt8}
    (first : ¬ bytes "boundary=" <:+: before ++ bytes "boundary")
    (alone : ¬ bytes "Content-Disposition:" <:+: s.type.text) : s.Recognised before := by
  rw [Recognised, if_neg alone]
  exact ⟨_, _, s.boundaryWord_first first, s.rfind_boundary, .inl rfl⟩

/-- The configs branch writes the content of a well-formed upload, and nothing else,
exactly when it recognises its boundary. -/
theorem upload_written_iff (parse : List UInt8 → Option (List XmlNode)) (s : Submission)
    (w : World) {path before : List UInt8} (named : namesConfig path = true)
    (fits : s.body.length < 2 ^ 63) :
    (handleConfigs parse path (s.contentType before) s.body w).2.files =
      Function.update w.files s.file (some s.content) ↔ s.Recognised before := by
  obtain ⟨word, read⟩ := s.boundaryWord_contentType before
  rw [s.files_after parse w named read, Submission.Recognised]
  simp only [read, Option.some.injEq, exists_and_left, exists_eq_left']
  rw [← s.endsAt_iff, ← written_eq_iff fits]
  constructor
  · intro same
    have := congrFun same s.file
    rwa [Function.update_self, Function.update_self, Option.some.injEq] at this
  · intro same
    rw [same]

/-- A file of a NUL, a line end and a boundary-like text. -/
def smallSubmission : Submission where
  boundary := ⟨bytes "-x", fun x hx => by
    have : (bytes "-x").all fun x => !isSpace x := by decide
    simpa using List.all_eq_true.mp this x hx,
    by decide, by decide, ⟨120, by decide⟩, by decide⟩
  file := .photo_config
  above := []
  disposition := ⟨bytes "Content-Disposition: filename=\"photo_config.xml\"",
    by decide, by decide, by decide⟩
  between := []
  type := ⟨bytes "Content-Type: text/xml", by decide, by decide, by decide⟩
  content := 0 :: 13 :: 10 :: bytes "--x"
  lastCrlf := true
  above_other := by simp
  between_other := by simp
  parameters := bytes " "
  disposition_text := by decide
  noDot := by decide
  noName := by
    intro name
    cases name <;> decide
  type_is := by decide

def freshWorld : World :=
  ⟨fun _ => none, ⟨0, []⟩, ⟨[], 0, [], 0, [], [], [], [], 0, 0⟩, ⟨[], [], [], [], []⟩⟩

theorem small_upload_written :
    (handleConfigs (fun _ => none) (bytes "./robot/configs/photo_config")
      (smallSubmission.contentType (bytes "multipart/form-data; ")) smallSubmission.body
      freshWorld).2.files =
      Function.update freshWorld.files .photo_config (some (0 :: 13 :: 10 :: bytes "--x")) :=
  (upload_written_iff _ smallSubmission freshWorld (by decide) (by decide)).mpr
    (smallSubmission.recognised (by decide) (by decide))

/-- A Content-Type line that also has the words of the other header. -/
def twofoldSubmission : Submission :=
  { smallSubmission with
    type := ⟨bytes "Content-Type: text/xml; note=Content-Disposition:", by decide, by decide, by decide⟩
    type_is := by decide }

theorem twofold_upload_emptied :
    ¬ (handleConfigs (fun _ => none) (bytes "./robot/configs/photo_config")
      (twofoldSubmission.contentType (bytes "multipart/form-data; ")) twofoldSubmission.body
      freshWorld).2.files =
      Function.update freshWorld.files .photo_config (some twofoldSubmission.content) := by
  obtain ⟨word, read⟩ := twofoldSubmission.boundaryWord_contentType (bytes "multipart/form-data; ")
  intro same
  have fits : twofoldSubmission.body.length < 2 ^ 63 := by decide +kernel
  have named : namesConfig (bytes "./robot/configs/photo_config") = true := by decide
  have target := twofoldSubmission.files_after (fun _ => none) freshWorld named read
  have wrote := congrFun (target.symm.trans same) .photo_config
  rw [show twofoldSubmission.file = .photo_config from rfl, Function.update_self,
    Function.update_self, Option.some.injEq, written_eq_iff fits,
    twofoldSubmission.endsAt_iff, if_pos (by decide)] at wrote
  exact absurd wrote (by decide)

end HZRobot.ConfigUpload
