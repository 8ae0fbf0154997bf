import HZRobot.ByteSearch
import HZRobot.CNumbers

/-!
Requests and responses of the HTTP client: request::encode, response::encode and
response::decode_header. The decoder walks a NUL-terminated text with strstr, and
writes a NUL over the space behind the status code, which ends the text atoi reads.
With fewer than two spaces in the header block that place lies behind the block, in
bytes the client goes on to read.
-/

namespace HZRobot.Http

structure Entry where
  key : List UInt8
  value : List UInt8
  deriving DecidableEq, Repr

structure Request where
  method : List UInt8 := []
  url : List UInt8 := []
  version : List UInt8 := bytes "HTTP/1.1"
  host : List UInt8 := []
  content_type : List UInt8 := []
  entrys : List Entry := []
  body : List UInt8 := []
  deriving DecidableEq, Repr

structure Response where
  version : List UInt8 := bytes "HTTP/1.1"
  status_code : Nat := 200
  status_desc : List UInt8 := []
  entrys : List Entry := []
  content_length : Nat := 0
  is_chunk : Bool := false
  body : List UInt8 := []
  deriving DecidableEq, Repr

def statusCodeDesc : List (Nat × String) :=
  [(101, "Switching Protocols"), (200, "OK"), (201, "Created"), (202, "Accepted"),
    (203, "Non-Authoritative Information (for DNS)"), (204, "No Content"),
    (205, "Reset Content"), (206, "Partial Content"), (300, "Multiple Choices"),
    (301, "Moved Permanently"), (302, "Moved Temporarily"), (303, "See Other"),
    (304, "Not Modified"), (305, "Use Proxy"), (307, "Redirect Keep Verb"),
    (400, "Bad Request"), (401, "Unauthorized"), (402, "Payment Required"),
    (403, "Forbidden"), (404, "Not Found"), (405, "Bad Request"), (406, "Not Acceptable"),
    (407, "Proxy Authentication Required"), (408, "Request Timed-Out"), (409, "Conflict"),
    (410, "Gone"), (411, "Length Required"), (412, "Precondition Failed"),
    (413, "Request Entity Too Large"), (414, "Request, URI Too Large"),
    (415, "Unsupported Media Type"), (500, "Internal Server Error"), (501, "Not Implemented"),
    (502, "Bad Gateway"), (503, "Server Unavailable"), (504, "Gateway Timed-Out"),
    (505, "HTTP Version not supported")]

def getStatusCodeDesc (status : Nat) : List UInt8 :=
  match statusCodeDesc.find? fun d => d.1 = status with
  | none => bytes "unknown"
  | some d => bytes d.2

def encodeEntry (e : Entry) : List UInt8 := e.key ++ bytes ": " ++ e.value ++ crlf

def encodeContentLength (body : List UInt8) : List UInt8 :=
  if 0 < body.length then bytes "Content-Length: " ++ decimal body.length ++ crlf else []

/-- request::encode; none where it returns false. -/
def Request.encode (r : Request) : Option (List UInt8) :=
  if r.method = [] ∨ r.url = [] ∨ r.version = [] then none
  else some (r.method ++ bytes " " ++ r.url ++ bytes " " ++ r.version ++ crlf ++
    (if r.content_type.length ≠ 0 then bytes "Content-Type: " ++ r.content_type ++ crlf else []) ++
    bytes "Accept: */* " ++ crlf ++
    (bytes "Host: " ++ r.host ++ crlf) ++
    r.entrys.flatMap encodeEntry ++ encodeContentLength r.body ++ crlf ++ r.body)

/-- The header block of response::encode, with the empty line. -/
def Response.head (r : Response) : List UInt8 :=
  r.version ++ bytes " " ++ decimal r.status_code ++ bytes " " ++
    getStatusCodeDesc r.status_code ++ crlf ++
    r.entrys.flatMap encodeEntry ++ encodeContentLength r.body ++ crlf

/-- response::encode; none where it returns false. -/
def Response.encode (r : Response) : Option (List UInt8) :=
  if r.version = [] then none else some (r.head ++ r.body)

def Response.clear (r : Response) : Response := { r with content_length := 0, entrys := [] }

/-- What decode_header makes of one line. -/
def Response.addField (r : Response) (key value : List UInt8) : Response :=
  if key = bytes "Content-Length" then { r with content_length := toUint64 value }
  else if key = bytes "Transfer-Encoding" ∧ value = bytes "chunked" then { r with is_chunk := true }
  else { r with entrys := r.entrys ++ [⟨key, value⟩] }

/-- How decode_header ends: -1, the length_error of assign on a null end, or the length. -/
inductive Decode where
  | rejected
  | threw
  | decoded
  deriving DecidableEq, Repr

section

variable {α : Type*} (add : α → List UInt8 → List UInt8 → α)

/-- The loop over the header lines; it goes on while more than bound bytes are left. -/
def decodeLines (bound : Nat) (data : List UInt8) (a : α) : Decode × α :=
  if bound < data.length then
    match _h : cut (bytes ": ") data with
    | none => (.rejected, a)
    | some (key, rest) =>
        match _g : cut crlf rest with
        | none => (.threw, a)
        | some (value, rest) => decodeLines bound rest (add a key value)
  else (.decoded, a)
termination_by data.length
decreasing_by
  have first := congrArg List.length (cut_spec _h)
  have second := congrArg List.length (cut_spec _g)
  simp only [List.length_append] at first second
  have : (bytes ": ").length = 2 := by decide
  omega

theorem decodeLines_short {bound : Nat} {data : List UInt8} (short : data.length ≤ bound) (a : α) :
    decodeLines add bound data a = (.decoded, a) := by
  rw [decodeLines, if_neg (by omega)]

theorem decodeLines_rejected {bound : Nat} {data : List UInt8} (more : bound < data.length)
    (missing : cut (bytes ": ") data = none) (a : α) :
    decodeLines add bound data a = (.rejected, a) := by
  rw [decodeLines, if_pos more]
  split
  · rfl
  · case h_2 found => rw [missing] at found; cases found

theorem decodeLines_threw {bound : Nat} {data key rest : List UInt8} (more : bound < data.length)
    (first : cut (bytes ": ") data = some (key, rest)) (missing : cut crlf rest = none) (a : α) :
    decodeLines add bound data a = (.threw, a) := by
  rw [decodeLines, if_pos more]
  split
  · case h_1 found => rw [first] at found; cases found
  · case h_2 found =>
      rw [first] at found
      cases found
      split
      · rfl
      · case h_2 found' => rw [missing] at found'; cases found'

theorem decodeLines_line {bound : Nat} {data key rest value next : List UInt8}
    (more : bound < data.length) (first : cut (bytes ": ") data = some (key, rest))
    (second : cut crlf rest = some (value, next)) (a : α) :
    decodeLines add bound data a = decodeLines add bound next (add a key value) := by
  rw [decodeLines, if_pos more]
  split
  · case h_1 found => rw [first] at found; cases found
  · case h_2 found =>
      rw [first] at found
      cases found
      split
      · case h_1 found' => rw [second] at found'; cases found'
      · case h_2 found' =>
          rw [second] at found'
          cases found'
          rfl

/-- What one line comes to. -/
theorem line_cases (bound : Nat) (data : List UInt8) :
    data.length ≤ bound ∨
      (bound < data.length ∧
        (cut (bytes ": ") data = none ∨
          ∃ key rest, cut (bytes ": ") data = some (key, rest) ∧
            (cut crlf rest = none ∨
              ∃ value next, cut crlf rest = some (value, next) ∧ next.length < data.length))) := by
  refine (Nat.lt_or_ge bound data.length).symm.imp_right fun more => ⟨more, ?_⟩
  cases colon : cut (bytes ": ") data with
  | none => exact .inl rfl
  | some p =>
      refine .inr ⟨p.1, p.2, rfl, ?_⟩
      cases ending : cut crlf p.2 with
      | none => exact .inl rfl
      | some q =>
          refine .inr ⟨q.1, q.2, rfl, ?_⟩
          have size := congrArg List.length (cut_spec (a := p.1) (b := p.2) colon)
          have size' := congrArg List.length (cut_spec (a := q.1) (b := q.2) ending)
          simp only [List.length_append, crlf, List.length_cons, List.length_nil] at size size'
          omega

end

/-- The loop of response::decode_header. -/
def decodeEntries (bound : Nat) (data : List UInt8) (r : Response) : Decode × Response :=
  decodeLines Response.addField bound data r

theorem decodeEntries_eq (bound : Nat) (data : List UInt8) (r : Response) :
    decodeEntries bound data r =
      if bound < data.length then
        match cut (bytes ": ") data with
        | none => (.rejected, r)
        | some (key, rest) =>
            match cut crlf rest with
            | none => (.threw, r)
            | some (value, rest) => decodeEntries bound rest (r.addField key value)
      else (.decoded, r) := by
  unfold decodeEntries
  rcases line_cases bound data with
    short | ⟨more, missing | ⟨key, rest, colon, missing | ⟨value, next, ending, less⟩⟩⟩
  · rw [decodeLines_short _ short, if_neg (by omega)]
  · rw [decodeLines_rejected _ more missing, if_pos more, missing]
  · rw [decodeLines_threw _ more colon missing, if_pos more, colon]
    dsimp only
    rw [missing]
  · rw [decodeLines_line _ more colon ending, if_pos more, colon]
    dsimp only
    rw [ending]

/-- response::decode_header on the memory from data on: what it returns, and the response. -/
def decodeHeader (r : Response) (data : List UInt8) : Decode × Response :=
  let text := cstr data
  match find (crlf ++ crlf) text with
  | none => (.rejected, r)
  | some header_end =>
      match cut (bytes " ") text with
      | none => (.rejected, r)
      | some (version, data) =>
          match cut (bytes " ") data with
          | none => (.rejected, { r with version := version })
          | some (code, data) =>
              match cut crlf data with
              | none => (.rejected, { r with version := version, status_code := toUint16 (atoi code) })
              | some (desc, data) =>
                  decodeEntries (text.length - (header_end + 2)) data
                    { r with
                      version := version, status_code := toUint16 (atoi code), status_desc := desc }

/-- The memory behind decode_header: a NUL stands for the second space, wherever that lies. -/
def decodeHeaderMemory (data : List UInt8) : List UInt8 :=
  let text := cstr data
  match find (crlf ++ crlf) text with
  | none => data
  | some _ =>
      match cut (bytes " ") text with
      | none => data
      | some (version, rest) =>
          match cut (bytes " ") rest with
          | none => data
          | some (code, _) => data.set (version.length + 1 + code.length) 0

theorem decodeHeaderMemory_length (data : List UInt8) :
    (decodeHeaderMemory data).length = data.length := by
  unfold decodeHeaderMemory
  dsimp only
  split
  · rfl
  · split
    · rfl
    · split
      · rfl
      · exact List.length_set

end HZRobot.Http
