import HZRobot.HttpParser
import HZRobot.OrderedMap

/-!
Header blocks. response::decode_header and request::decode_header cut a start line at
two spaces and a CRLF and then take lines apart, each search going on to the NUL behind
the buffer. One definition with the fields as parameters serves both; the result is a
function of the block alone exactly when every separator is found inside it.
-/

namespace HZRobot.Http

def terminator : List UInt8 := crlf ++ crlf

variable {α : Type*}

section

variable (add : α → List UInt8 → List UInt8 → α)

/-- Lines that decode by themselves decode the same with anything behind them. -/
theorem decodeLines_append {bound : Nat} {data t : List UInt8} {a a' : α}
    (h : decodeLines add bound data a = (.decoded, a')) :
    decodeLines add (bound + t.length) (data ++ t) a = (.decoded, a') := by
  induction m : data.length using Nat.strongRecOn generalizing data a with
  | ind m ih =>
      rcases line_cases bound data with
        short | ⟨more, missing | ⟨key, rest, colon, missing | ⟨value, next, ending, less⟩⟩⟩
      · rw [decodeLines_short add short] at h
        rw [decodeLines_short add (by rw [List.length_append]; omega), h]
      · rw [decodeLines_rejected add more missing] at h
        cases h
      · rw [decodeLines_threw add more colon missing] at h
        cases h
      · rw [decodeLines_line add more colon ending] at h
        rw [decodeLines_line add (by rw [List.length_append]; omega) (cut_append colon t)
          (cut_append ending t)]
        exact ih _ (by omega) h rfl

variable (first second third : α → List UInt8 → α)

/-- decode_header on the memory from data on. -/
def decodeBlock (a : α) (data : List UInt8) : Decode × α :=
  let text := cstr data
  match find terminator text with
  | none => (.rejected, a)
  | some header_end =>
      match cut (bytes " ") text with
      | none => (.rejected, a)
      | some (word, data) =>
          let a := first a word
          match cut (bytes " ") data with
          | none => (.rejected, a)
          | some (word, data) =>
              let a := second a word
              match cut crlf data with
              | none => (.rejected, a)
              | some (word, data) =>
                  decodeLines add (text.length - (header_end + 2)) data (third a word)

/-- A header that decodes by itself decodes the same with anything behind it. -/
theorem decodeBlock_append {a a' : α} {data : List UInt8}
    (h : decodeBlock add first second third a data = (.decoded, a')) (t : List UInt8) :
    decodeBlock add first second third a (data ++ t) = (.decoded, a') := by
  obtain ⟨u, text⟩ := cstr_append data t
  unfold decodeBlock at h ⊢
  rw [text]
  cases terminated : find terminator (cstr data) with
  | none => simp [terminated] at h
  | some header_end =>
      have room := find_le terminated
      simp only [terminator, List.length_append, crlf, List.length_cons, List.length_nil] at room
      simp only [terminated, find_append terminated u] at h ⊢
      cases start : cut (bytes " ") (cstr data) with
      | none => simp [start] at h
      | some p =>
          simp only [start, cut_append start u] at h ⊢
          cases middle : cut (bytes " ") p.2 with
          | none => simp [middle] at h
          | some q =>
              simp only [middle, cut_append middle u] at h ⊢
              cases ending : cut crlf q.2 with
              | none => simp [ending] at h
              | some l =>
                  simp only [ending, cut_append ending u] at h ⊢
                  have bound : (cstr data ++ u).length - (header_end + 2) =
                      (cstr data).length - (header_end + 2) + u.length := by
                    rw [List.length_append]
                    omega
                  rw [bound]
                  exact decodeLines_append add h

end

/-- A request as the server fills it. -/
structure ReceivedRequest extends Request where
  url_parameters : List (List UInt8 × List UInt8) := []
  content_length : Nat := 0
  deriving DecidableEq, Repr

def parametersLess (a b : List UInt8) : Bool := decide (a < b)

/-- The loop over the parameters behind the question mark. The search for = does not
stop at the next &, and the length of the value is then taken modulo 2^64. -/
def urlParameters (parameters : List UInt8) (map : List (List UInt8 × List UInt8)) :
    List (List UInt8 × List UInt8) :=
  if _h : parameters = [] then map
  else
    let pa_pos := (find (bytes "&") parameters).getD parameters.length
    urlParameters (parameters.drop (pa_pos + 1))
      (match find (bytes "=") parameters with
        | none => map
        | some k_pos =>
            OrderedMap.emplace parametersLess (parameters.take k_pos)
              ((parameters.drop (k_pos + 1)).take ((pa_pos + 2 ^ 64 - (k_pos + 1)) % 2 ^ 64)) map)
termination_by parameters.length
decreasing_by
  have := List.length_pos_iff.mpr _h
  rw [List.length_drop]
  omega

namespace ReceivedRequest

def setMethod (r : ReceivedRequest) (method : List UInt8) : ReceivedRequest :=
  { r with method := method }

def setUrl (r : ReceivedRequest) (url : List UInt8) : ReceivedRequest :=
  match find (bytes "?") url with
  | none => { r with url := url }
  | some pos =>
      { r with
        url := url.take pos
        url_parameters := urlParameters (url.drop (pos + 1)) r.url_parameters }

def setVersion (r : ReceivedRequest) (version : List UInt8) : ReceivedRequest :=
  { r with version := version }

def addField (r : ReceivedRequest) (key value : List UInt8) : ReceivedRequest :=
  if key = bytes "Content-Length" then { r with content_length := toUint64 value }
  else if key = bytes "Host" then { r with host := value }
  else { r with entrys := r.entrys ++ [⟨key, value⟩] }

/-- request::decode_header. -/
def decodeHeader (r : ReceivedRequest) (data : List UInt8) : Decode × ReceivedRequest :=
  decodeBlock addField setMethod setUrl setVersion r data

end ReceivedRequest

def Response.setVersion (r : Response) (version : List UInt8) : Response :=
  { r with version := version }

def Response.setStatusCode (r : Response) (code : List UInt8) : Response :=
  { r with status_code := toUint16 (atoi code) }

def Response.setStatusDesc (r : Response) (desc : List UInt8) : Response :=
  { r with status_desc := desc }

/-- response::decode_header is an instance, too. -/
theorem decodeHeader_eq_decodeBlock (r : Response) (data : List UInt8) :
    decodeHeader r data = decodeBlock Response.addField Response.setVersion
      Response.setStatusCode Response.setStatusDesc r data := by
  unfold decodeHeader decodeBlock
  rw [terminator]
  cases terminated : find (crlf ++ crlf) (cstr data) with
  | none => simp only [terminated]
  | some header_end =>
      cases first : cut (bytes " ") (cstr data) with
      | none => simp only [terminated, first]
      | some p =>
          cases second : cut (bytes " ") p.2 with
          | none => simp only [terminated, first, second, Response.setVersion]
          | some q =>
              cases third : cut crlf q.2 with
              | none =>
                  simp only [terminated, first, second, third, Response.setVersion,
                    Response.setStatusCode]
              | some l =>
                  simp only [terminated, first, second, third]
                  rfl

/-- More than the last line end is left, and each line is found inside the block. -/
inductive Lines : List UInt8 → Prop
  | done {data : List UInt8} (short : data.length ≤ 2) : Lines data
  | line {data key rest value next : List UInt8} (more : 2 < data.length)
      (colon : cut (bytes ": ") data = some (key, rest))
      (ending : cut crlf rest = some (value, next)) (later : Lines next) : Lines data

/-- Two spaces, a CRLF and the lines, each separator inside the block. -/
def Separated (block : List UInt8) : Prop :=
  ∃ method url version rest rest' lines, cut (bytes " ") block = some (method, rest) ∧
    cut (bytes " ") rest = some (url, rest') ∧ cut crlf rest' = some (version, lines) ∧ Lines lines

section

variable (add : α → List UInt8 → List UInt8 → α)

theorem decodeLines_decoded_iff {data : List UInt8} {a : α} :
    (decodeLines add 2 data a).1 = .decoded ↔ Lines data := by
  induction m : data.length using Nat.strongRecOn generalizing data a with
  | ind m ih =>
      rcases line_cases 2 data with
        short | ⟨more, missing | ⟨key, rest, colon, missing | ⟨value, next, ending, less⟩⟩⟩
      · rw [decodeLines_short add short]
        exact ⟨fun _ => .done short, fun _ => rfl⟩
      · rw [decodeLines_rejected add more missing]
        refine ⟨fun h => (by cases h), fun h => ?_⟩
        cases h with
        | done short => omega
        | line _ colon => rw [missing] at colon; cases colon
      · rw [decodeLines_threw add more colon missing]
        refine ⟨fun h => (by cases h), fun h => ?_⟩
        cases h with
        | done short => omega
        | line _ colon' ending =>
            rw [colon] at colon'
            cases colon'
            rw [missing] at ending
            cases ending
      · rw [decodeLines_line add more colon ending, ih _ (by omega) rfl]
        refine ⟨.line more colon ending, fun h => ?_⟩
        cases h with
        | done short => omega
        | line _ colon' ending' later =>
            rw [colon] at colon'
            cases colon'
            rw [ending] at ending'
            cases ending'
            exact later

/-- Behind a block these bytes make every search succeed. -/
def filler : List UInt8 := bytes " " ++ (bytes " " ++ (crlf ++ (bytes ": " ++ crlf)))

theorem decodeLines_filled {bound : Nat} {data : List UInt8} (room : 4 ≤ bound)
    (ending : bytes ": " ++ crlf <:+ data) (a : α) :
    (decodeLines add bound data a).1 = .decoded := by
  induction m : data.length using Nat.strongRecOn generalizing data a with
  | ind m ih =>
      obtain ⟨key, rest, colon, inside, -⟩ := cut_of_suffix ending
      have line : crlf ++ [] <:+ rest := by simpa using inside
      obtain ⟨value, next, stop, -⟩ := cut_of_suffix line
      by_cases more : bound < data.length
      · rw [decodeLines_line add more colon stop]
        have back : next <:+ data := (suffix_of_cut stop).trans (suffix_of_cut colon)
        by_cases again : bound < next.length
        · have less : next.length < data.length := by
            have size := congrArg List.length (cut_spec colon)
            have size' := congrArg List.length (cut_spec stop)
            simp only [List.length_append, crlf, List.length_cons, List.length_nil] at size size'
            omega
          have four : (bytes ": " ++ crlf).length = 4 := by decide
          exact ih _ (by omega)
            (List.suffix_of_suffix_length_le ending back (by omega)) _ rfl
        · rw [decodeLines_short add (by omega)]
      · rw [decodeLines_short add (by omega)]

variable (first second third : α → List UInt8 → α)

theorem decodeBlock_filled {block : List UInt8} {i : Nat} (found : find terminator block = some i)
    (size : block.length = i + 4) (plain : 0 ∉ block) (a : α) :
    (decodeBlock add first second third a (block ++ filler)).1 = .decoded := by
  have text : cstr (block ++ filler) = block ++ filler := by
    refine cstr_eq_self fun zero => ?_
    rcases List.mem_append.mp zero with inside | behind
    · exact plain inside
    · exact absurd behind (by decide)
  have ending : filler <:+ block ++ filler := List.suffix_append _ _
  obtain ⟨method, rest, start, ending, -⟩ := cut_of_suffix ending
  obtain ⟨url, rest', middle, ending, -⟩ := cut_of_suffix ending
  obtain ⟨version, lines, stop, ending, -⟩ := cut_of_suffix ending
  have eight : filler.length = 8 := by decide
  simp only [decodeBlock, text, find_append found, start, middle, stop]
  exact decodeLines_filled add (by rw [List.length_append]; omega) ending _

theorem decodeBlock_decoded_iff {block : List UInt8} {i : Nat}
    (found : find terminator block = some i) (size : block.length = i + 4) (plain : 0 ∉ block)
    (a : α) : (decodeBlock add first second third a block).1 = .decoded ↔ Separated block := by
  have bound : block.length - (i + 2) = 2 := by omega
  unfold decodeBlock
  simp only [cstr_eq_self plain, found, bound]
  cases start : cut (bytes " ") block with
  | none => simp [Separated, start]
  | some p =>
      obtain ⟨method, rest⟩ := p
      cases middle : cut (bytes " ") rest with
      | none => simp [Separated, start, middle]
      | some q =>
          obtain ⟨url, rest'⟩ := q
          cases stop : cut crlf rest' with
          | none => simp [Separated, start, middle, stop]
          | some l =>
              obtain ⟨version, lines⟩ := l
              simp [Separated, start, middle, stop, decodeLines_decoded_iff]

/-- The bytes behind the block do not matter, and no value runs out of the buffer. -/
def BodyIndependent (decode : α → List UInt8 → Decode × α) (block : List UInt8) : Prop :=
  ∀ a behind behind', decode a (block ++ behind) = decode a (block ++ behind') ∧
    (decode a (block ++ behind)).1 ≠ .threw

theorem decodeBlock_independent_iff {block : List UInt8} {i : Nat} [Nonempty α]
    (found : find terminator block = some i) (size : block.length = i + 4) (plain : 0 ∉ block) :
    BodyIndependent (decodeBlock add first second third) block ↔ Separated block := by
  constructor
  · intro independent
    obtain ⟨a⟩ := ‹Nonempty α›
    have same := (independent a [] filler).1
    rw [List.append_nil] at same
    rw [← decodeBlock_decoded_iff add first second third found size plain a, same]
    exact decodeBlock_filled add first second third found size plain a
  · intro separated a behind behind'
    have alone := (decodeBlock_decoded_iff add first second third found size plain a).mpr separated
    have whole (t : List UInt8) := decodeBlock_append add first second third
      (Prod.ext alone rfl : decodeBlock add first second third a block = (.decoded, _)) t
    rw [whole behind, whole behind']
    exact ⟨rfl, by simp⟩

end

/-- For a header block without NUL both decoders depend on the block alone, and no
search for the end of a value fails, exactly when the separators are in the block. -/
theorem header_independent_iff {block : List UInt8} {i : Nat}
    (found : find terminator block = some i) (size : block.length = i + 4) (plain : 0 ∉ block) :
    (BodyIndependent decodeHeader block ↔ Separated block) ∧
      (BodyIndependent ReceivedRequest.decodeHeader block ↔ Separated block) := by
  refine ⟨?_, ?_⟩
  · have same : decodeHeader = decodeBlock Response.addField Response.setVersion
        Response.setStatusCode Response.setStatusDesc :=
      funext fun r => funext fun data => decodeHeader_eq_decodeBlock r data
    have : Nonempty Response := ⟨{}⟩
    rw [same]
    exact decodeBlock_independent_iff _ _ _ _ found size plain
  · have : Nonempty ReceivedRequest := ⟨{}⟩
    exact decodeBlock_independent_iff _ _ _ _ found size plain

def plainBlock : List UInt8 := bytes "HTTP/1.1 200 OK\r\nAge: 1\r\n\r\n"

theorem plainBlock_independent_iff :
    (BodyIndependent decodeHeader plainBlock ↔ Separated plainBlock) ∧
      (BodyIndependent ReceivedRequest.decodeHeader plainBlock ↔ Separated plainBlock) :=
  header_independent_iff (i := 23) (by decide) (by decide) (by decide)

def colonlessBlock : List UInt8 := bytes "HTTP/1.1 200 OK\r\nAge\r\n\r\n"

theorem colonlessBlock_rejected : (decodeHeader {} colonlessBlock).1 = .rejected := by
  have text : cstr colonlessBlock = colonlessBlock := by decide
  have found : find terminator colonlessBlock = some 20 := by decide
  have start : cut (bytes " ") colonlessBlock =
      some (bytes "HTTP/1.1", bytes "200 OK\r\nAge\r\n\r\n") := by decide
  have middle : cut (bytes " ") (bytes "200 OK\r\nAge\r\n\r\n") =
      some (bytes "200", bytes "OK\r\nAge\r\n\r\n") := by decide
  have stop : cut crlf (bytes "OK\r\nAge\r\n\r\n") = some (bytes "OK", bytes "Age\r\n\r\n") := by
    decide
  have missing : cut (bytes ": ") (bytes "Age\r\n\r\n") = none := by decide
  rw [decodeHeader_eq_decodeBlock]
  simp only [decodeBlock, text, found, start, middle, stop]
  rw [decodeLines_rejected _ (by decide) missing]

/-- The line without a colon takes the one it needs from the body. -/
theorem colonlessBlock_dependent : ¬ BodyIndependent decodeHeader colonlessBlock := by
  intro independent
  have same := (independent {} [] filler).1
  rw [List.append_nil] at same
  have alone := colonlessBlock_rejected
  rw [same, decodeHeader_eq_decodeBlock,
    decodeBlock_filled _ _ _ _ (i := 20) (by decide) (by decide) (by decide)] at alone
  cases alone

end HZRobot.Http
