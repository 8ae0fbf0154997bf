import HZRobot.Config
import HZRobot.HttpParser

/-!
Forwarding a request to the robot. The /api/v2 branch rebuilds the request field
by field; the reader below is the one a server has, line by line up to the empty
line, with the body as long as Content-Length says.
-/

namespace HZRobot.Http
open Config

inductive Verb where
  | get
  | post
  | head
  | delete_
  | put
  | other
  deriving DecidableEq, Repr

/-- The request as Beast hands it over; no Content-Type is the empty one. -/
structure Incoming where
  method : Verb
  target : List UInt8
  content_type : List UInt8
  body : List UInt8
  deriving DecidableEq, Repr

def pathCat (base path : List UInt8) : List UInt8 :=
  if base = [] then path
  else (if base.getLast? = some 47 then base.dropLast else base) ++ path

/-- The two checks at the start of handle_request. -/
def validated (req : Incoming) : Bool :=
  (req.method = .post || req.method = .get || req.method = .head) &&
    req.target.head? = some 47 && (find (bytes "..") req.target).isNone &&
    (find (bytes "//") req.target).isNone

/-- transstring: the first word of the text. -/
def transstring (s : List UInt8) : List UInt8 :=
  (s.dropWhile isSpace).takeWhile fun c => !isSpace c

def Verb.forwarded : Verb → List UInt8
  | .post => bytes "POST"
  | .get => bytes "GET"
  | .delete_ => bytes "DELETE"
  | .put => bytes "PUT"
  | _ => []

def forwardedRequest (config : ServerConfig) (req : Incoming) : Request where
  method := req.method.forwarded
  url := pathCat [] req.target
  host := config.robot_ip ++ bytes ":" ++ config.robot_port
  content_type := if req.content_type = [] then [] else transstring req.content_type
  body := req.body

/-- The bytes sync_client sends for a request; none when the branch is not taken
or encode refuses. -/
def forward (doc_root : List UInt8) (config : ServerConfig) (req : Incoming) :
    Option (List UInt8) :=
  if validated req ∧ (find (bytes "./api/v2/") (pathCat doc_root req.target)).isSome then
    (forwardedRequest config req).encode
  else none

structure ReadRequest where
  method : List UInt8
  target : List UInt8
  headers : List (List UInt8 × List UInt8)
  body : List UInt8

def ReadRequest.header (r : ReadRequest) (name : String) : Option (List UInt8) :=
  (r.headers.find? fun h => h.1 = bytes name).map Prod.snd

/-- The header lines up to the empty one, and what follows it. -/
def readHeaders (s : List UInt8) : Option (List (List UInt8 × List UInt8) × List UInt8) :=
  match _h : cut crlf s with
  | none => none
  | some (line, rest) =>
      if line = [] then some ([], rest)
      else match cut (bytes ": ") line with
        | none => none
        | some header => (readHeaders rest).map fun p => (header :: p.1, p.2)
termination_by s.length
decreasing_by
  have := congrArg List.length (cut_spec _h)
  simp only [List.length_append, crlf, List.length_cons] at this
  omega

def readRequest (s : List UInt8) : Option ReadRequest := do
  let (line, rest) ← cut crlf s
  let (method, line) ← cut (bytes " ") line
  let (target, _) ← cut (bytes " ") line
  let (headers, body) ← readHeaders rest
  let r : ReadRequest := ⟨method, target, headers, body⟩
  guard (body.length = ((r.header "Content-Length").map digitsValue).getD 0)
  return r

def Verb.text : Verb → List UInt8
  | .get => bytes "GET"
  | .post => bytes "POST"
  | .head => bytes "HEAD"
  | .delete_ => bytes "DELETE"
  | .put => bytes "PUT"
  | .other => []

/-- The robot reads the incoming request, with its own Host. -/
def Faithful (config : ServerConfig) (req : Incoming) : Prop :=
  ∃ out r, forward (bytes ".") config req = some out ∧ readRequest out = some r ∧
    r.method = req.method.text ∧ r.target = req.target ∧
    r.header "Content-Type" = (if req.content_type = [] then none else some req.content_type) ∧
    r.header "Host" = some (config.robot_ip ++ bytes ":" ++ config.robot_port) ∧
    (req.body ≠ [] → r.header "Content-Length" = some (decimal req.body.length)) ∧
    r.body = req.body

theorem cut_crlf {line : List UInt8} (h : ¬ crlf <:+: line) (rest : List UInt8) :
    cut crlf (line ++ crlf ++ rest) = some (line, rest) := cut_pair (by decide) h rest

theorem cut_here {c : UInt8} {word : List UInt8} (rest : List UInt8) :
    cut (c :: word) (c :: word ++ rest) = some ([], rest) :=
  cut_first (c :: word) [] rest (by simp)

theorem not_crlf_of_noCr {line : List UInt8} (h : 13 ∉ line) : ¬ crlf <:+: line :=
  fun inside => h (inside.subset (by simp [crlf]))

/-- A header line whose name has neither a colon nor a carriage return. -/
theorem readHeaders_field {name text value rest : List UInt8} (named : name ≠ [])
    (noColon : 58 ∉ name) (noCr : 13 ∉ name) (h : cut crlf text = some (value, rest)) :
    readHeaders (name ++ bytes ": " ++ text) =
      (readHeaders rest).map fun p => ((name, value) :: p.1, p.2) := by
  have colon : bytes ": " = [58, 32] := by decide
  have line : cut crlf (name ++ bytes ": " ++ text) =
      some (name ++ bytes ": " ++ value, rest) := by
    rw [crlf, cut_prepend (by simp [colon, noCr]), ← crlf, h]
    rfl
  have field : cut (bytes ": ") (name ++ bytes ": " ++ value) = some (name, value) := by
    rw [List.append_assoc, colon, cut_prepend noColon, cut_here]
    simp
  rw [readHeaders, line]
  simp only [List.append_eq_nil_iff, named, false_and, if_false, field]

theorem readHeaders_end (body : List UInt8) : readHeaders (crlf ++ body) = some ([], body) := by
  rw [readHeaders, show cut crlf (crlf ++ body) = some ([], body) from cut_here body]
  simp

def contentLengthHeader (body : List UInt8) : List (List UInt8 × List UInt8) :=
  if 0 < body.length then [(bytes "Content-Length", decimal body.length)] else []

theorem readHeaders_tail (body : List UInt8) :
    readHeaders (encodeContentLength body ++ crlf ++ body) = some (contentLengthHeader body, body) := by
  by_cases some_ : 0 < body.length
  · have noCr : 13 ∉ decimal body.length := fun h => by
      have := decimal_digit h
      revert this
      decide
    have text : encodeContentLength body ++ crlf ++ body =
        bytes "Content-Length" ++ bytes ": " ++ (decimal body.length ++ crlf ++ (crlf ++ body)) := by
      rw [encodeContentLength, if_pos some_,
        show bytes "Content-Length: " = bytes "Content-Length" ++ bytes ": " by decide]
      simp
    rw [text, readHeaders_field (by decide) (by decide) (by decide)
      (cut_crlf (not_crlf_of_noCr noCr) _), readHeaders_end, contentLengthHeader, if_pos some_]
    rfl
  · rw [encodeContentLength, contentLengthHeader, if_neg some_, if_neg some_, List.nil_append]
    exact readHeaders_end body

theorem transstring_noSpace {s : List UInt8} {c : UInt8} (h : c ∈ transstring s) :
    isSpace c = false := by
  have := List.mem_takeWhile_imp h
  simpa using this

/-- Only a text without blanks is its own first word. -/
theorem transstring_eq_self_iff {s : List UInt8} :
    transstring s = s ↔ ∀ c ∈ s, isSpace c = false := by
  constructor
  · intro h c hc
    rw [← h] at hc
    exact transstring_noSpace hc
  · intro h
    have keep : s.dropWhile isSpace = s := by
      cases s with
      | nil => rfl
      | cons c s => exact List.dropWhile_cons_of_neg (by simp [h c])
    rw [transstring, keep, List.takeWhile_eq_self_iff]
    intro c hc
    simp [h c hc]

section
variable (config : ServerConfig) (req : Incoming)

def host : List UInt8 := config.robot_ip ++ bytes ":" ++ config.robot_port

/-- The Content-Type the branch passes on. -/
def passedType : List UInt8 :=
  if req.content_type = [] then [] else transstring req.content_type

def typeHeader : List (List UInt8 × List UInt8) :=
  if passedType req = [] then [] else [(bytes "Content-Type", passedType req)]

/-- The request line and the headers as sent. -/
def sentLine : List UInt8 :=
  req.method.text ++ bytes " " ++ req.target ++ bytes " " ++ bytes "HTTP/1.1"

def sentHeaders : List UInt8 :=
  (if (passedType req).length ≠ 0 then bytes "Content-Type: " ++ passedType req ++ crlf else []) ++
    bytes "Accept: */* " ++ crlf ++ (bytes "Host: " ++ host config ++ crlf) ++
    encodeContentLength req.body ++ crlf ++ req.body

theorem readHeaders_sent {value rest : List UInt8}
    (h : cut crlf (host config ++ crlf ++ (encodeContentLength req.body ++ crlf ++ req.body)) =
      some (value, rest)) :
    readHeaders (sentHeaders config req) = (readHeaders rest).map fun p =>
      (typeHeader req ++ (bytes "Accept", bytes "*/* ") :: (bytes "Host", value) :: p.1, p.2) := by
  have host_ : readHeaders (bytes "Host" ++ bytes ": " ++ (host config ++ crlf ++
      (encodeContentLength req.body ++ crlf ++ req.body))) = _ :=
    readHeaders_field (by decide) (by decide) (by decide) h
  have accept : readHeaders (bytes "Accept" ++ bytes ": " ++ (bytes "*/* " ++ crlf ++
      (bytes "Host" ++ bytes ": " ++ (host config ++ crlf ++
        (encodeContentLength req.body ++ crlf ++ req.body))))) = _ :=
    readHeaders_field (by decide) (by decide) (by decide)
      (cut_crlf (not_crlf_of_noCr (by decide)) _)
  have acceptText : bytes "Accept: */* " = bytes "Accept" ++ bytes ": " ++ bytes "*/* " := by decide
  have hostText : bytes "Host: " = bytes "Host" ++ bytes ": " := by decide
  by_cases none_ : passedType req = []
  · have text : sentHeaders config req = bytes "Accept" ++ bytes ": " ++ (bytes "*/* " ++ crlf ++
        (bytes "Host" ++ bytes ": " ++ (host config ++ crlf ++
          (encodeContentLength req.body ++ crlf ++ req.body)))) := by
      simp [sentHeaders, none_, acceptText, hostText]
    rw [text, accept, host_, Option.map_map, typeHeader, if_pos none_]
    rfl
  · have noCr : 13 ∉ passedType req := by
      intro cr
      rw [passedType] at cr
      split at cr
      · cases cr
      · have := transstring_noSpace cr
        revert this
        decide
    have text : sentHeaders config req = bytes "Content-Type" ++ bytes ": " ++ (passedType req ++
        crlf ++ (bytes "Accept" ++ bytes ": " ++ (bytes "*/* " ++ crlf ++
        (bytes "Host" ++ bytes ": " ++ (host config ++ crlf ++
          (encodeContentLength req.body ++ crlf ++ req.body)))))) := by
      simp [sentHeaders, none_, acceptText, hostText,
        show bytes "Content-Type: " = bytes "Content-Type" ++ bytes ": " by decide]
    rw [text, readHeaders_field (by decide) (by decide) (by decide)
      (cut_crlf (not_crlf_of_noCr noCr) _), accept, host_, Option.map_map, Option.map_map,
      typeHeader, if_neg none_]
    rfl

end

section
variable {config : ServerConfig} {req : Incoming}

/-- What the branch sends for a validated GET or POST under /api/v2/. -/
theorem forward_sent (verb : req.method = .get ∨ req.method = .post)
    (valid : validated req = true) (api : bytes "/api/v2/" <+: req.target) :
    forward (bytes ".") config req = some (sentLine req ++ crlf ++ sentHeaders config req) := by
  have path : (find (bytes "./api/v2/") (pathCat (bytes ".") req.target)).isSome := by
    rw [find_isSome_iff]
    obtain ⟨rest, hrest⟩ := api
    rw [← hrest]
    exact ⟨[], rest, rfl⟩
  have target : req.target ≠ [] := by
    rintro empty
    simp [validated, empty] at valid
  have method : req.method.forwarded ≠ [] := by
    rcases verb with h | h <;> rw [h] <;> decide
  have text : req.method.forwarded = req.method.text := by
    rcases verb with h | h <;> rw [h] <;> rfl
  rw [forward, if_pos ⟨valid, path⟩, Request.encode, if_neg]
  · simp [forwardedRequest, pathCat, text, sentLine, sentHeaders, passedType, host]
  · simp [forwardedRequest, pathCat, method, target, show bytes "HTTP/1.1" ≠ [] by decide]

theorem noLetter {c : UInt8} {verb : Verb} (h : c = 13 ∨ c = 32) : c ∉ verb.text := by
  rcases h with rfl | rfl <;> cases verb <;> decide

/-- Reading the request line leaves the header lines. -/
theorem readRequest_sent (noSpace : ∀ c ∈ req.target, isSpace c = false)
    (headers : List UInt8) :
    readRequest (sentLine req ++ crlf ++ headers) = (readHeaders headers).bind fun p =>
      let r : ReadRequest := ⟨req.method.text, req.target, p.1, p.2⟩
      if p.2.length = ((r.header "Content-Length").map digitsValue).getD 0 then some r else none := by
  have targetSpace : 32 ∉ req.target := fun h => by
    have := noSpace 32 h
    revert this
    decide
  have targetCr : 13 ∉ req.target := fun h => by
    have := noSpace 13 h
    revert this
    decide
  have space : bytes " " = [32] := by decide
  have noCr : 13 ∉ sentLine req := by
    simp [sentLine, space, targetCr, noLetter, show 13 ∉ bytes "HTTP/1.1" by decide]
  have line : cut crlf (sentLine req ++ crlf ++ headers) = some (sentLine req, headers) :=
    cut_crlf (not_crlf_of_noCr noCr) headers
  have method : cut (bytes " ") (sentLine req) =
      some (req.method.text, req.target ++ bytes " " ++ bytes "HTTP/1.1") := by
    rw [sentLine, List.append_assoc, List.append_assoc, List.append_assoc, space,
      cut_prepend (noLetter (.inr rfl)), cut_here]
    simp
  have target : cut (bytes " ") (req.target ++ bytes " " ++ bytes "HTTP/1.1") =
      some (req.target, bytes "HTTP/1.1") := by
    rw [List.append_assoc, space, cut_prepend targetSpace, cut_here]
    simp
  rw [readRequest, line]
  simp only [Option.bind_eq_bind, Option.bind_some, method, target, guard]
  cases readHeaders headers with
  | none => rfl
  | some p =>
      simp only [Option.bind_some]
      split <;> rfl

theorem host_not_length : bytes "Host" ≠ bytes "Content-Length" := by decide

/-- Looking a header up behind the Content-Type and Accept lines. -/
theorem find_header {name : String} {value : List UInt8}
    {hs : List (List UInt8 × List UInt8)} (notType : bytes name ≠ bytes "Content-Type")
    (notAccept : bytes name ≠ bytes "Accept") :
    ((typeHeader req ++ (bytes "Accept", value) :: hs).find? fun h => h.1 = bytes name) =
      hs.find? fun h => h.1 = bytes name := by
  unfold typeHeader
  split <;> simp [notType.symm, notAccept.symm]

/-- Where a Host without a line end stands, the whole reading is known. -/
theorem readRequest_whole (noSpace : ∀ c ∈ req.target, isSpace c = false)
    (noCrlf : ¬ crlf <:+: host config) :
    readRequest (sentLine req ++ crlf ++ sentHeaders config req) =
      some ⟨req.method.text, req.target, typeHeader req ++ (bytes "Accept", bytes "*/* ") ::
        (bytes "Host", host config) :: contentLengthHeader req.body, req.body⟩ := by
  let r : ReadRequest := ⟨req.method.text, req.target, typeHeader req ++
    (bytes "Accept", bytes "*/* ") :: (bytes "Host", host config) :: contentLengthHeader req.body,
    req.body⟩
  have length : req.body.length = ((r.header "Content-Length").map digitsValue).getD 0 := by
    rw [ReadRequest.header, find_header (by decide) (by decide),
      List.find?_cons_of_neg (by simp [host_not_length]), contentLengthHeader]
    split
    · simp [digitsValue_decimal]
    · case isFalse empty =>
        simp only [List.find?_nil, Option.map_none, Option.getD_none]
        omega
  rw [readRequest_sent noSpace, readHeaders_sent config req (cut_crlf noCrlf _),
    readHeaders_tail, Option.map_some, Option.bind_some]
  exact if_pos length

theorem host_whole {value rest tail : List UInt8}
    (h : cut crlf (host config ++ crlf ++ tail) = some (value, rest)) (same : value = host config) :
    ¬ crlf <:+: host config := by
  intro inside
  cases found : cut crlf (host config) with
  | none => exact cut_eq_none_iff.mp found inside
  | some p =>
      have early := cut_append found (crlf ++ tail)
      rw [← List.append_assoc, h] at early
      have length := congrArg List.length (cut_spec found)
      simp only [Option.some.injEq, Prod.mk.injEq] at early
      rw [← early.1, same] at length
      simp [crlf] at length

theorem header_type {name value : List UInt8} {body : List UInt8} :
    ((typeHeader req ++ (bytes "Accept", name) :: (bytes "Host", value) ::
      contentLengthHeader body).find? fun h => h.1 = bytes "Content-Type").map Prod.snd =
      if passedType req = [] then none else some (passedType req) := by
  have accept : bytes "Accept" ≠ bytes "Content-Type" := by decide
  have host_ : bytes "Host" ≠ bytes "Content-Type" := by decide
  have length : bytes "Content-Length" ≠ bytes "Content-Type" := by decide
  unfold typeHeader contentLengthHeader
  split
  · split <;> simp [accept, host_, length]
  · simp

/-- What a faithful forwarding says about the Content-Type and the address. -/
theorem clean_of_faithful (verb : req.method = .get ∨ req.method = .post)
    (valid : validated req = true) (api : bytes "/api/v2/" <+: req.target)
    (noSpace : ∀ c ∈ req.target, isSpace c = false) (h : Faithful config req) :
    (∀ c ∈ req.content_type, isSpace c = false) ∧ ¬ crlf <:+: host config := by
  obtain ⟨out, r, sent, read, -, -, type, hosted, -, -⟩ := h
  rw [forward_sent verb valid api, Option.some.injEq] at sent
  subst sent
  have clean : ¬ crlf <:+: host config := by
    cases line : cut crlf (host config ++ crlf ++
        (encodeContentLength req.body ++ crlf ++ req.body)) with
    | none => exact fun _ => cut_eq_none_iff.mp line ⟨host config, _, rfl⟩
    | some p =>
        refine host_whole line ?_
        rw [readRequest_sent noSpace, readHeaders_sent config req line] at read
        cases rest : readHeaders p.2 with
        | none => simp [rest] at read
        | some q =>
            simp only [rest, Option.map_some, Option.bind_some,
              Option.ite_none_right_eq_some] at read
            obtain ⟨-, ⟨⟩⟩ := read
            rw [ReadRequest.header, find_header (by decide) (by decide),
              List.find?_cons_of_pos (by simp)] at hosted
            exact Option.some.inj hosted
  refine ⟨?_, clean⟩
  rw [readRequest_whole noSpace clean, Option.some.injEq] at read
  subst read
  rw [ReadRequest.header, header_type, passedType] at type
  rw [← transstring_eq_self_iff]
  by_cases none_ : req.content_type = []
  · rw [none_]
    rfl
  · rw [if_neg none_, if_neg none_] at type
    split at type
    · cases type
    · exact Option.some.inj type

/-- The branch forwards faithfully exactly when the Content-Type has no blank, and
the configured address no line end. -/
theorem forward_faithful_iff (verb : req.method = .get ∨ req.method = .post)
    (valid : validated req = true) (api : bytes "/api/v2/" <+: req.target)
    (noSpace : ∀ c ∈ req.target, isSpace c = false) :
    Faithful config req ↔
      (∀ c ∈ req.content_type, isSpace c = false) ∧ ¬ crlf <:+: host config := by
  refine ⟨clean_of_faithful verb valid api noSpace, ?_⟩
  rintro ⟨noBlank, clean⟩
  refine ⟨_, _, forward_sent verb valid api, readRequest_whole noSpace clean, rfl, rfl, ?_, ?_, ?_,
    rfl⟩
  · rw [ReadRequest.header, header_type, passedType, transstring_eq_self_iff.mpr noBlank]
    by_cases none_ : req.content_type = [] <;> simp [none_]
  · rw [ReadRequest.header, find_header (by decide) (by decide),
      List.find?_cons_of_pos (by simp)]
    rfl
  · intro some_
    rw [ReadRequest.header, find_header (by decide) (by decide),
      List.find?_cons_of_neg (by simp [host_not_length]), contentLengthHeader,
      if_pos (List.length_pos_of_ne_nil some_)]
    simp

def someRobot : ServerConfig :=
  ⟨[], 0, [], 0, bytes "10.0.0.5", bytes "8080", [], [], 0, 0⟩

def jsonPost : Incoming :=
  ⟨.post, bytes "/api/v2/move?x=1", bytes "application/json", bytes "{}"⟩

theorem json_post_faithful : Faithful someRobot jsonPost := by
  refine (forward_faithful_iff (.inr rfl) (by decide) (by decide) ?_).mpr ⟨?_, by decide⟩
  · have : jsonPost.target.all fun c => !isSpace c := by decide
    intro c hc
    simpa using List.all_eq_true.mp this c hc
  · have : jsonPost.content_type.all fun c => !isSpace c := by decide
    intro c hc
    simpa using List.all_eq_true.mp this c hc

/-- The space in front of the boundary parameter ends the word passed on. -/
def multipartPost : Incoming :=
  ⟨.post, bytes "/api/v2/upload", bytes "multipart/form-data; boundary=x", bytes "--x--"⟩

theorem multipart_post_not_faithful : ¬ Faithful someRobot multipartPost := by
  intro faithful
  have noSpace : ∀ c ∈ multipartPost.target, isSpace c = false := by
    have : multipartPost.target.all fun c => !isSpace c := by decide
    intro c hc
    simpa using List.all_eq_true.mp this c hc
  have noBlank := (clean_of_faithful (.inr rfl) (by decide) (by decide) noSpace faithful).1
  have blank := noBlank 32 (by decide)
  revert blank
  decide

end

end HZRobot.Http
