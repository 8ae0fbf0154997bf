import HZRobot.HttpRoundTrip

/-!
Requests on the server's side. request::decode_header reads back the start line and the
fields that request::encode wrote, and splits the query of the url into parameters, where
the search for = runs over the end of a parameter that has none.
-/

namespace HZRobot.Http

section Splitting

/-- A text is one piece, or a piece, the separator and the pieces of the rest. -/
theorem splitOn_induction {α : Type*} [DecidableEq α] (sep : α)
    {motive : List α → List (List α) → Prop}
    (last : ∀ piece, sep ∉ piece → motive piece [piece])
    (more : ∀ piece rest, sep ∉ piece → motive rest (rest.splitOn sep) →
      motive (piece ++ sep :: rest) (piece :: rest.splitOn sep)) (s : List α) :
    motive s (s.splitOn sep) := by
  induction size : s.length using Nat.strongRecOn generalizing s with
  | ind n ih =>
      by_cases inside : sep ∈ s
      · obtain ⟨piece, rest, split, first⟩ := List.eq_append_cons_of_mem inside
        rw [split, List.splitOn_append_cons_self_of_not_mem first]
        refine more piece rest first (ih rest.length ?_ rest rfl)
        rw [← size, split, List.length_append, List.length_cons]
        omega
      · rw [List.splitOn_eq_singleton inside]
        exact last s inside

theorem mem_splitOn {α : Type*} [DecidableEq α] {sep c : α} (other : c ≠ sep) (s : List α) :
    c ∈ s ↔ ∃ piece ∈ s.splitOn sep, c ∈ piece := by
  induction s using splitOn_induction sep with
  | last piece none_ => simp
  | more piece rest first ih => simp [ih, other]

theorem not_mem_of_mem_splitOn {α : Type*} [DecidableEq α] {sep : α} {s piece : List α}
    (h : piece ∈ s.splitOn sep) : sep ∉ piece := by
  induction s using splitOn_induction sep with
  | last whole none_ => rwa [List.mem_singleton.mp h]
  | more first_ rest first ih =>
      rcases List.mem_cons.mp h with rfl | later
      · exact first
      · exact ih later

end Splitting

section Query

abbrev Parameters := List (List UInt8 × List UInt8)

/-- The parameters of a query: the pieces between & that hold =, each cut at the first one;
the first value of a key is kept. -/
def parameterMap (query : List UInt8) : Parameters :=
  ((query.splitOn 38).filterMap (cut (bytes "="))).foldl
    (fun map e => OrderedMap.emplace parametersLess e.1 e.2 map) []

/-- No piece without = stands before one with it. -/
def Ordered (query : List UInt8) : Prop :=
  (query.splitOn 38).Pairwise fun piece later => 61 ∈ later → 61 ∈ piece

instance Ordered.decidable (query : List UInt8) : Decidable (Ordered query) :=
  inferInstanceAs (Decidable (List.Pairwise _ _))

theorem urlParameters_nil (map : Parameters) : urlParameters [] map = map := by
  rw [urlParameters, dif_pos rfl]

/-- What one round puts into the map. -/
def putParameter (pa_pos : Nat) (parameters : List UInt8) (map : Parameters) : Parameters :=
  match find (bytes "=") parameters with
  | none => map
  | some k_pos =>
      OrderedMap.emplace parametersLess (parameters.take k_pos)
        ((parameters.drop (k_pos + 1)).take ((pa_pos + 2 ^ 64 - (k_pos + 1)) % 2 ^ 64)) map

theorem urlParameters_last {piece : List UInt8} (none_ : 38 ∉ piece) (map : Parameters) :
    urlParameters piece map = putParameter piece.length piece map := by
  by_cases empty : piece = []
  · subst empty
    rw [urlParameters_nil]
    rfl
  · have missing : find (bytes "&") piece = none := find_eq_none_iff.mpr fun inside =>
      none_ (inside.subset (by decide))
    rw [urlParameters, dif_neg empty, missing]
    dsimp only [Option.getD_none]
    rw [List.drop_eq_nil_of_le (Nat.le_succ _), urlParameters_nil]
    rfl

theorem urlParameters_more {piece : List UInt8} (first : 38 ∉ piece) (rest : List UInt8)
    (map : Parameters) :
    urlParameters (piece ++ 38 :: rest) map =
      urlParameters rest (putParameter piece.length (piece ++ 38 :: rest) map) := by
  have found : find (bytes "&") (piece ++ 38 :: rest) = some piece.length := find_single first rest
  have behind : (piece ++ 38 :: rest).drop (piece.length + 1) = rest := by
    rw [← List.drop_drop, List.drop_left]
    rfl
  rw [urlParameters, dif_neg (by simp), found]
  dsimp only [Option.getD_some]
  rw [behind]
  rfl

/-- With = in the piece, the piece is cut there. -/
theorem putParameter_cut {key value : List UInt8} (first : 61 ∉ key) (rest : List UInt8)
    (small : (key ++ 61 :: value).length < 2 ^ 64) (map : Parameters) :
    putParameter (key ++ 61 :: value).length (key ++ 61 :: value ++ rest) map =
      OrderedMap.emplace parametersLess key value map := by
  have split : key ++ 61 :: value ++ rest = key ++ 61 :: (value ++ rest) := by simp
  have found : find (bytes "=") (key ++ 61 :: (value ++ rest)) = some key.length :=
    find_single first _
  have front : (key ++ 61 :: (value ++ rest)).take key.length = key := List.take_left
  have behind : (key ++ 61 :: (value ++ rest)).drop (key.length + 1) = value ++ rest := by
    rw [← List.drop_drop, List.drop_left]
    rfl
  have size : ((key ++ 61 :: value).length + 2 ^ 64 - (key.length + 1)) % 2 ^ 64 = value.length := by
    rw [List.length_append, List.length_cons] at small ⊢
    omega
  rw [split, putParameter, found]
  dsimp only
  rw [front, behind, size, List.take_left]

theorem putParameter_none {parameters : List UInt8} (none_ : 61 ∉ parameters) (pa_pos : Nat)
    (map : Parameters) : putParameter pa_pos parameters map = map := by
  have missing : find (bytes "=") parameters = none := find_eq_none_iff.mpr fun inside =>
    none_ (inside.subset (by decide))
  rw [putParameter, missing]

theorem cut_equals {piece : List UInt8} (inside : 61 ∈ piece) :
    ∃ key value, piece = key ++ 61 :: value ∧ 61 ∉ key ∧
      cut (bytes "=") piece = some (key, value) := by
  obtain ⟨key, value, split, first⟩ := List.eq_append_cons_of_mem inside
  exact ⟨key, value, split, first, split ▸ cut_single first value⟩

theorem cut_equals_none {piece : List UInt8} (none_ : 61 ∉ piece) : cut (bytes "=") piece = none :=
  cut_eq_none_iff.mpr fun inside => none_ (inside.subset (by decide))

theorem urlParameters_ordered {query : List UInt8} (small : query.length < 2 ^ 64)
    (ordered : Ordered query) (map : Parameters) :
    urlParameters query map = ((query.splitOn 38).filterMap (cut (bytes "="))).foldl
      (fun map e => OrderedMap.emplace parametersLess e.1 e.2 map) map := by
  rw [Ordered] at ordered
  induction query using splitOn_induction (38 : UInt8) generalizing map with
  | last piece none_ =>
      rw [urlParameters_last none_]
      by_cases inside : 61 ∈ piece
      · obtain ⟨key, value, rfl, first, halves⟩ := cut_equals inside
        have put := putParameter_cut first [] small map
        rw [List.append_nil] at put
        rw [put, List.filterMap_cons_some halves]
        rfl
      · rw [putParameter_none inside, List.filterMap_cons_none (cut_equals_none inside)]
        rfl
  | more piece rest first ih =>
      obtain ⟨front, later⟩ := List.pairwise_cons.mp ordered
      rw [List.length_append, List.length_cons] at small
      rw [urlParameters_more first]
      by_cases inside : 61 ∈ piece
      · obtain ⟨key, value, rfl, noEquals, halves⟩ := cut_equals inside
        rw [putParameter_cut noEquals _ (by omega), List.filterMap_cons_some halves, List.foldl_cons]
        exact ih (by omega) later _
      · have nowhere : 61 ∉ piece ++ 38 :: rest := by
          have behind : 61 ∉ rest := fun equals => by
            have held : ∃ piece ∈ rest.splitOn 38, 61 ∈ piece :=
              (mem_splitOn (by decide) rest).mp equals
            obtain ⟨b, hb, has⟩ := held
            exact inside (front b hb has)
          simp [inside, behind]
        rw [putParameter_none nowhere, List.filterMap_cons_none (cut_equals_none inside)]
        exact ih (by omega) later _

theorem putParameter_keeps {pa_pos : Nat} {parameters : List UInt8} {map : Parameters}
    {e : List UInt8 × List UInt8} (h : e ∈ map) : e ∈ putParameter pa_pos parameters map := by
  unfold putParameter
  split
  · exact h
  · exact OrderedMap.mem_emplace_of_mem _ h

theorem urlParameters_keeps {query : List UInt8} {map : Parameters} {e : List UInt8 × List UInt8}
    (h : e ∈ map) : e ∈ urlParameters query map := by
  induction query using splitOn_induction (38 : UInt8) generalizing map with
  | last piece none_ =>
      rw [urlParameters_last none_]
      exact putParameter_keeps h
  | more piece rest first ih =>
      rw [urlParameters_more first]
      exact ih (putParameter_keeps h)

theorem emplace_key (key value : List UInt8) (map : Parameters) :
    ∃ e ∈ OrderedMap.emplace parametersLess key value map, e.1 = key := by
  by_cases apart : ∀ e ∈ map, parametersLess key e.1 = true ∨ parametersLess e.1 key = true
  · exact ⟨_, OrderedMap.mem_emplace_self _ value apart, rfl⟩
  · simp only [not_forall, not_or] at apart
    obtain ⟨e, he, above, below⟩ := apart
    have total : Std.Trichotomous (α := List UInt8) (· < ·) := inferInstance
    have same : e.1 = key := total.trichotomous e.1 key (fun less => below (decide_eq_true less))
      fun less => above (decide_eq_true less)
    exact ⟨e, OrderedMap.mem_emplace_of_mem _ he, same⟩

/-- A piece without = takes the next one with it into a key. -/
theorem urlParameters_disordered {query : List UInt8} (disordered : ¬ Ordered query)
    (map : Parameters) : ∃ e ∈ urlParameters query map, 38 ∈ e.1 := by
  rw [Ordered] at disordered
  induction query using splitOn_induction (38 : UInt8) generalizing map with
  | last piece none_ => exact absurd (List.pairwise_singleton _ _) disordered
  | more piece rest first ih =>
      rw [urlParameters_more first]
      by_cases later : (rest.splitOn 38).Pairwise fun piece later => 61 ∈ later → 61 ∈ piece
      · have swallowed : 61 ∉ piece ∧ 61 ∈ rest := by
          by_contra other
          refine disordered (List.pairwise_cons.mpr ⟨fun b hb has => ?_, later⟩)
          by_contra missing
          exact other ⟨missing, (mem_splitOn (by decide) rest).mpr ⟨b, hb, has⟩⟩
        obtain ⟨missing, has⟩ := swallowed
        obtain ⟨key, value, split, noEquals⟩ := List.eq_append_cons_of_mem has
        have whole : piece ++ 38 :: rest = (piece ++ 38 :: key) ++ 61 :: value := by simp [split]
        have found : find (bytes "=") (piece ++ 38 :: rest) = some (piece ++ 38 :: key).length := by
          have nowhere : 61 ∉ piece ++ 38 :: key := by simp [missing, noEquals]
          rw [whole]
          exact find_single nowhere value
        have taken : (piece ++ 38 :: rest).take (piece ++ 38 :: key).length = piece ++ 38 :: key := by
          rw [whole]
          exact List.take_left
        rw [putParameter, found]
        dsimp only
        rw [taken]
        obtain ⟨e, he, same⟩ := emplace_key (piece ++ 38 :: key) _ map
        exact ⟨e, urlParameters_keeps he, by simp [same]⟩
      · exact ih later _

/-- No key of the map holds an &. -/
theorem parameterMap_keys {query : List UInt8} {e : List UInt8 × List UInt8}
    (h : e ∈ parameterMap query) : 38 ∉ e.1 := by
  rcases OrderedMap.mem_foldl_emplace parametersLess h with none_ | listed
  · cases none_
  · obtain ⟨piece, inside, halves⟩ := List.mem_filterMap.mp listed
    intro bad
    have whole := cut_spec (a := e.1) (b := e.2) halves
    refine not_mem_of_mem_splitOn inside ?_
    rw [whole]
    exact List.mem_append_left _ (List.mem_append_left _ bad)

/-- The lines behind the start line leave a part of the result alone that no field changes. -/
theorem decodeLines_keeps {α β : Type*} {add : α → List UInt8 → List UInt8 → α} {part : α → β}
    (same : ∀ a key value, part (add a key value) = part a) (bound : Nat) (data : List UInt8)
    (a : α) : part (decodeLines add bound data a).2 = part a := by
  induction m : data.length using Nat.strongRecOn generalizing data a with
  | ind m ih =>
      rcases line_cases bound data with
        short | ⟨more, missing | ⟨key, rest, colon, missing | ⟨value, next, ending, less⟩⟩⟩
      · rw [decodeLines_short add short]
      · rw [decodeLines_rejected add more missing]
      · rw [decodeLines_threw add more colon missing]
      · rw [decodeLines_line add more colon ending, ih _ (by omega) next _ rfl, same]

/-- The path and the parameters are what the url gives, whatever follows the start line. -/
theorem decodeHeader_url {r : ReceivedRequest} {data method url rest rest' : List UInt8}
    (ended : (find terminator (cstr data)).isSome)
    (first : cut (bytes " ") (cstr data) = some (method, rest))
    (second : cut (bytes " ") rest = some (url, rest')) :
    (r.decodeHeader data).2.url = ((r.setMethod method).setUrl url).url ∧
      (r.decodeHeader data).2.url_parameters = ((r.setMethod method).setUrl url).url_parameters := by
  obtain ⟨header_end, found⟩ := Option.isSome_iff_exists.mp ended
  have kept (a : ReceivedRequest) (key value : List UInt8) :
      ((a.addField key value).url, (a.addField key value).url_parameters) =
        (a.url, a.url_parameters) := by
    unfold ReceivedRequest.addField
    split
    · rfl
    split
    · rfl
    · rfl
  rw [ReceivedRequest.decodeHeader, decodeBlock]
  simp only [found, first, second]
  cases cut crlf rest' with
  | none => exact ⟨rfl, rfl⟩
  | some line =>
      have lines := @decodeLines_keeps _ _ _ (fun a : ReceivedRequest => (a.url, a.url_parameters))
        kept ((cstr data).length - (header_end + 2)) line.2
        (((r.setMethod method).setUrl url).setVersion line.1)
      exact Prod.ext_iff.mp lines

/-- A request without parameters gets those of the query. -/
theorem decodeHeader_parameters {r : ReceivedRequest} (fresh : r.url_parameters = [])
    {data method url rest rest' path query : List UInt8}
    (ended : (find terminator (cstr data)).isSome)
    (first : cut (bytes " ") (cstr data) = some (method, rest))
    (second : cut (bytes " ") rest = some (url, rest'))
    (mark : cut (bytes "?") url = some (path, query)) :
    (r.decodeHeader data).2.url = path ∧
      (r.decodeHeader data).2.url_parameters = urlParameters query [] := by
  obtain ⟨url_, parameters⟩ := decodeHeader_url (r := r) ended first second
  obtain ⟨pos, found, halves⟩ := Option.map_eq_some_iff.mp mark
  have halves' : url.take pos = path ∧ url.drop (pos + 1) = query := Prod.ext_iff.mp halves
  have set : (r.setMethod method).setUrl url =
      { r.setMethod method with url := path, url_parameters := urlParameters query [] } := by
    rw [ReceivedRequest.setUrl, found]
    dsimp only
    rw [halves'.1, halves'.2]
    show { r.setMethod method with
      url := path, url_parameters := urlParameters query r.url_parameters } = _
    rw [fresh]
  rw [url_, parameters, set]
  exact ⟨rfl, rfl⟩

/-- The parameters are split one by one and the url ends before the question mark. -/
def SplitPerParameter (r : ReceivedRequest) (data path query : List UInt8) : Prop :=
  (r.decodeHeader data).2.url_parameters = parameterMap query ∧ (r.decodeHeader data).2.url = path

/-- A request that was cleared or is new gets the parameters one by one exactly when no piece
without = stands before one with it. -/
theorem split_per_parameter_iff (r : ReceivedRequest) (fresh : r.url_parameters = [])
    {data method url rest rest' path query : List UInt8} (room : data.length < 2 ^ 64)
    (ended : (find terminator (cstr data)).isSome)
    (first : cut (bytes " ") (cstr data) = some (method, rest))
    (second : cut (bytes " ") rest = some (url, rest'))
    (mark : cut (bytes "?") url = some (path, query)) :
    SplitPerParameter r data path query ↔ Ordered query := by
  have small : query.length < 2 ^ 64 := by
    have sizes := (suffix_of_cut first).length_le
    have sizes' := congrArg List.length (cut_spec second)
    have sizes'' := (suffix_of_cut mark).length_le
    have whole := cstr_length_le data
    simp only [List.length_append] at sizes'
    omega
  obtain ⟨url_, parameters⟩ := decodeHeader_parameters fresh ended first second mark
  rw [SplitPerParameter, url_, parameters]
  constructor
  · rintro ⟨same, -⟩
    by_contra disordered
    obtain ⟨e, he, bad⟩ := urlParameters_disordered disordered []
    rw [same] at he
    exact parameterMap_keys he bad
  · exact fun ordered => ⟨urlParameters_ordered small ordered [], rfl⟩

theorem search_split :
    SplitPerParameter {} (bytes "GET /s?q=a=b&n= HTTP/1.1\r\n\r\n") (bytes "/s") (bytes "q=a=b&n=") ↔
      Ordered (bytes "q=a=b&n=") :=
  @split_per_parameter_iff {} rfl _ (bytes "GET") (bytes "/s?q=a=b&n=")
    (bytes "/s?q=a=b&n= HTTP/1.1\r\n\r\n") (bytes "HTTP/1.1\r\n\r\n") _ _ (by decide) (by decide)
    (by decide) (by decide) (by decide)

/-- A flag in front takes the next parameter into its key. -/
theorem flag_swallows : ¬ ∀ data method url rest rest' path query : List UInt8,
    (find terminator (cstr data)).isSome → cut (bytes " ") (cstr data) = some (method, rest) →
      cut (bytes " ") rest = some (url, rest') → cut (bytes "?") url = some (path, query) →
        SplitPerParameter {} data path query := by
  intro all
  have ended : (find terminator (cstr (bytes "GET /s?v&q=a HTTP/1.1\r\n\r\n"))).isSome := by decide
  have first : cut (bytes " ") (cstr (bytes "GET /s?v&q=a HTTP/1.1\r\n\r\n")) =
      some (bytes "GET", bytes "/s?v&q=a HTTP/1.1\r\n\r\n") := by decide
  have second : cut (bytes " ") (bytes "/s?v&q=a HTTP/1.1\r\n\r\n") =
      some (bytes "/s?v&q=a", bytes "HTTP/1.1\r\n\r\n") := by decide
  have mark : cut (bytes "?") (bytes "/s?v&q=a") = some (bytes "/s", bytes "v&q=a") := by decide
  have split := all _ _ _ _ _ _ _ ended first second mark
  obtain ⟨-, parameters⟩ := decodeHeader_parameters (r := {}) rfl ended first second mark
  obtain ⟨e, he, bad⟩ := urlParameters_disordered (by decide : ¬ Ordered (bytes "v&q=a")) []
  rw [← parameters, split.1] at he
  exact parameterMap_keys he bad

end Query

section Encoded

/-- A part of a request: no line end and no NUL. -/
def OneLine (s : List UInt8) : Prop := 13 ∉ s ∧ 10 ∉ s ∧ 0 ∉ s

/-- The parts of a request that survive encoding and decoding. -/
structure Request.Encodable (r : Request) : Prop where
  method_line : OneLine r.method
  method_blank : 32 ∉ r.method
  url_line : OneLine r.url
  url_blank : 32 ∉ r.url
  url_mark : 63 ∉ r.url
  version_line : OneLine r.version
  host_line : OneLine r.host
  content_type_line : OneLine r.content_type
  key_line : ∀ e ∈ r.entrys, OneLine e.key
  key_colon : ∀ e ∈ r.entrys, ¬ bytes ": " <:+: e.key
  key_other : ∀ e ∈ r.entrys, e.key ≠ bytes "Content-Length" ∧ e.key ≠ bytes "Host"
  value_line : ∀ e ∈ r.entrys, OneLine e.value
  /-- The greatest size of a std::string. -/
  body_size : r.body.length < 2 ^ 63

namespace Request

/-- The fields that encode puts in front of the entries. -/
def ownFields (r : Request) : List Entry :=
  if r.content_type ≠ [] then [⟨bytes "Content-Type", r.content_type⟩] else []

def accept : Entry := ⟨bytes "Accept", bytes "*/* "⟩

def lengthField (body : List UInt8) : List Entry :=
  if 0 < body.length then [⟨bytes "Content-Length", decimal body.length⟩] else []

/-- The lines behind the start line. -/
def fields (r : Request) : List Entry :=
  r.ownFields ++ accept :: ⟨bytes "Host", r.host⟩ :: (r.entrys ++ lengthField r.body)

def startLine (r : Request) : List UInt8 := r.method ++ 32 :: (r.url ++ 32 :: r.version)

theorem encode_eq {r : Request} {m : List UInt8} (encoded : r.encode = some m) :
    (r.method ≠ [] ∧ r.url ≠ [] ∧ r.version ≠ []) ∧ m = headBlock r.startLine r.fields ++ r.body := by
  unfold encode at encoded
  split at encoded
  · cases encoded
  · case isFalse filled =>
    refine ⟨by simpa only [not_or] using filled, ?_⟩
    have type_ : (if r.content_type.length ≠ 0 then
        bytes "Content-Type: " ++ r.content_type ++ crlf else []) =
          r.ownFields.flatMap encodeEntry := by
      have name : bytes "Content-Type: " = bytes "Content-Type" ++ bytes ": " := by decide
      unfold ownFields
      by_cases none_ : r.content_type = []
      · simp [none_]
      · simp [none_, encodeEntry, name]
    have length : encodeContentLength r.body = (lengthField r.body).flatMap encodeEntry := by
      have name : bytes "Content-Length: " = bytes "Content-Length" ++ bytes ": " := by decide
      unfold encodeContentLength lengthField
      split
      · simp [encodeEntry, name]
      · rfl
    have accept_ : bytes "Accept: */* " ++ crlf = encodeEntry accept := by decide
    have host : bytes "Host: " ++ r.host ++ crlf = encodeEntry ⟨bytes "Host", r.host⟩ := by
      have name : bytes "Host: " = bytes "Host" ++ bytes ": " := by decide
      simp [encodeEntry, name]
    have space : bytes " " = [32] := by decide
    rw [← Option.some.inj encoded, type_, length, host, space, headBlock, fields, startLine]
    simp only [List.flatMap_append, List.flatMap_cons, ← accept_, List.append_assoc,
      List.cons_append, List.nil_append]

end Request

theorem OneLine.not_crlf {s : List UInt8} (h : OneLine s) : ¬ crlf <:+: s := not_crlf_of_no_cr h.1

/-- The fields that encode adds are told by their names. -/
theorem ownName_text : ∀ key ∈ [bytes "Content-Type", bytes "Host", bytes "Content-Length"],
    ¬ bytes ": " <:+: key ∧ ¬ crlf <:+: key ∧ 0 ∉ key := by
  decide

theorem ownField_text {key value : List UInt8}
    (name : key ∈ [bytes "Content-Type", bytes "Host", bytes "Content-Length"])
    (line : ¬ crlf <:+: value) (nul : 0 ∉ value) :
    ¬ bytes ": " <:+: key ∧ ¬ crlf <:+: key ∧ 0 ∉ key ∧ ¬ crlf <:+: value ∧ 0 ∉ value := by
  obtain ⟨colon, line', nul'⟩ := ownName_text key name
  exact ⟨colon, line', nul', line, nul⟩

namespace Request.Encodable

variable {r : Request} (ok : r.Encodable)

include ok

theorem fields_text : ∀ e ∈ r.fields,
    ¬ bytes ": " <:+: e.key ∧ ¬ crlf <:+: e.key ∧ 0 ∉ e.key ∧ ¬ crlf <:+: e.value ∧ 0 ∉ e.value := by
  intro e he
  rcases List.mem_append.mp he with type_ | behind
  · unfold ownFields at type_
    split at type_
    · rw [List.mem_singleton.mp type_]
      exact ownField_text (by simp) ok.content_type_line.not_crlf ok.content_type_line.2.2
    · cases type_
  rcases List.mem_cons.mp behind with rfl | behind
  · decide
  rcases List.mem_cons.mp behind with rfl | behind
  · exact ownField_text (by simp) ok.host_line.not_crlf ok.host_line.2.2
  rcases List.mem_append.mp behind with entry | length
  · exact ⟨ok.key_colon e entry, (ok.key_line e entry).not_crlf, (ok.key_line e entry).2.2,
      (ok.value_line e entry).not_crlf, (ok.value_line e entry).2.2⟩
  · unfold lengthField at length
    split at length
    · rw [List.mem_singleton.mp length]
      have number := decimal_text r.body.length
      exact ownField_text (by simp) (not_crlf_of_no_cr number.1) number.2.1
    · cases length

theorem headText (filled : r.method ≠ []) : HeadText r.startLine r.fields := by
  refine ⟨?_, ?_, ?_, ok.fields_text⟩
  · simp [startLine, filled]
  · exact not_crlf_append (by decide) ok.method_line.not_crlf
      (not_crlf_append (by decide) ok.url_line.not_crlf ok.version_line.not_crlf)
  · simp [startLine, ok.method_line.2.2, ok.url_line.2.2, ok.version_line.2.2]

end Request.Encodable

/-- Fields that are neither the length nor the host become entries. -/
theorem foldl_addField_entries {es : List Entry}
    (other : ∀ e ∈ es, e.key ≠ bytes "Content-Length" ∧ e.key ≠ bytes "Host")
    (r : ReceivedRequest) :
    es.foldl (fun r e => r.addField e.key e.value) r = { r with entrys := r.entrys ++ es } := by
  induction es generalizing r with
  | nil => simp
  | cons e es ih =>
      obtain ⟨length, host⟩ := other e List.mem_cons_self
      have added : r.addField e.key e.value = { r with entrys := r.entrys ++ [e] } := by
        rw [ReceivedRequest.addField, if_neg length, if_neg host]
      rw [List.foldl_cons, added, ih fun d hd => other d (List.mem_cons_of_mem e hd)]
      simp

/-- What a new request holds when it has decoded the header of a request. -/
def Request.received (r : Request) : ReceivedRequest where
  method := r.method
  url := r.url
  version := r.version
  host := r.host
  entrys := r.ownFields ++ accept :: r.entrys
  content_length := r.body.length

theorem received_fields {r : Request} (ok : r.Encodable) :
    r.fields.foldl (fun r e => r.addField e.key e.value)
      ((({} : ReceivedRequest).setMethod r.method).setUrl r.url |>.setVersion r.version) =
        r.received := by
  have noQuery : find (bytes "?") r.url = none := find_eq_none_iff.mpr fun inside =>
    ok.url_mark (inside.subset (by decide))
  have own : ∀ e ∈ r.ownFields ++ [Request.accept],
      e.key ≠ bytes "Content-Length" ∧ e.key ≠ bytes "Host" := by
    intro e he
    rcases List.mem_append.mp he with type_ | accept_
    · unfold Request.ownFields at type_
      split at type_
      · rw [List.mem_singleton.mp type_]
        exact (by decide : bytes "Content-Type" ≠ bytes "Content-Length" ∧
          bytes "Content-Type" ≠ bytes "Host")
      · cases type_
    · rw [List.mem_singleton.mp accept_]
      decide
  have split : r.fields = (r.ownFields ++ [Request.accept]) ++
      ⟨bytes "Host", r.host⟩ :: (r.entrys ++ Request.lengthField r.body) := by
    simp [Request.fields]
  have host (a : ReceivedRequest) : a.addField (bytes "Host") r.host = { a with host := r.host } := by
    rw [ReceivedRequest.addField, if_neg (by decide), if_pos rfl]
  have url : ((({} : ReceivedRequest).setMethod r.method).setUrl r.url).setVersion r.version =
      { method := r.method, url := r.url, version := r.version } := by
    rw [ReceivedRequest.setUrl, noQuery]
    rfl
  have fields : (r.entrys ++ Request.lengthField r.body).foldl
      (fun r e => r.addField e.key e.value)
        { r.received with entrys := r.ownFields ++ [Request.accept], content_length := 0 } =
          r.received := by
    rw [List.foldl_append, foldl_addField_entries ok.key_other]
    unfold Request.lengthField
    split
    · rw [List.foldl_cons, List.foldl_nil, ReceivedRequest.addField, if_pos rfl,
        toUint64_decimal ok.body_size]
      simp [Request.received]
    · case isFalse none_ =>
        have length : r.body.length = 0 := Nat.eq_zero_of_not_pos none_
        simp [Request.received, length]
  rw [url, split, List.foldl_append, foldl_addField_entries own, List.foldl_cons, host]
  exact fields

/-- A new request decodes the header of an encoded one to its parts, and the body is what
follows the header block. -/
theorem decode_encode_request (r : Request) (m : List UInt8) (ok : r.Encodable)
    (encoded : r.encode = some m) :
    ({} : ReceivedRequest).decodeHeader m = (.decoded, r.received) ∧
      ∃ i, find terminator m = some i ∧ m.drop (i + 4) = r.body := by
  obtain ⟨⟨method, -, -⟩, rfl⟩ := r.encode_eq encoded
  have text := ok.headText method
  refine ⟨?_, ?_⟩
  · rw [← received_fields ok]
    exact decodeBlock_headBlock _ _ _ _ text ok.method_blank ok.url_blank _ _
  · obtain ⟨i, found, size⟩ := text.find_terminator r.body
    exact ⟨i, found, by rw [← size, List.drop_left]⟩

def plainRequest : Request where
  method := bytes "POST"
  url := bytes "/robot/tips"
  host := bytes "10.0.0.2:80"
  content_type := bytes "application/json"
  entrys := [⟨bytes "X-Id", bytes "a: b"⟩]
  body := bytes "\r\n\r\n"

theorem plainRequest_back :
    ∃ m, plainRequest.encode = some m ∧
      ({} : ReceivedRequest).decodeHeader m = (.decoded, plainRequest.received) ∧
        ∃ i, find terminator m = some i ∧ m.drop (i + 4) = plainRequest.body := by
  have ok : plainRequest.Encodable := by
    constructor <;> simp [plainRequest, OneLine] <;> decide
  exact ⟨_, rfl, decode_encode_request plainRequest _ ok rfl⟩

end Encoded

end HZRobot.Http
