import HZRobot.ByteSearch
import HZRobot.CNumbers

/-!
HttpBase: parseUrl and buildPostRequest. Both slice one string at the positions that find
returns; buildPostRequest keeps them in ints, where npos becomes -1 and npos + 1 becomes 0.
-/

namespace HZRobot.HttpBase

/-- out_server, out_port and out_path. -/
structure Target where
  server : List UInt8
  port : List UInt8
  path : List UInt8
  deriving DecidableEq, Repr

def httpSuccess : Int := 0

def httpErrorHttpHead : Int := -3

/-- parseUrl behind the scheme. -/
def parseRest (temp_data : List UInt8) : Target :=
  let idx := find [47] temp_data
  let out_path := (idx.map temp_data.drop).getD [47]
  let out_server := temp_data.take (idx.getD temp_data.length)
  match find [58] out_server with
  | none => ⟨out_server, bytes "80", out_path⟩
  | some idx => ⟨out_server.take idx, out_server.drop (idx + 1), out_path⟩

/-- HttpBase::parseUrl, with the values its targets had before. -/
def parseUrl (url : List UInt8) (out : Target) : Int × Target :=
  if find (bytes "http://") url = some 0 then
    (httpSuccess, parseRest (url.drop (bytes "http://").length))
  else if find (bytes "https://") url = some 0 then
    (httpSuccess, parseRest (url.drop (bytes "https://").length))
  else (httpErrorHttpHead, out)

section Post

/-- The size_t that find returns. -/
def position : Option Nat → Int
  | some i => i
  | none => 2 ^ 64 - 1

/-- The conversion of an int to size_t. -/
def toSize (i : Int) : Nat := (i % 2 ^ 64).toNat

/-- string::substr, none when it throws. -/
def substr (s : List UInt8) (pos count : Nat) : Option (List UInt8) :=
  if pos ≤ s.length then some ((s.drop pos).take count) else none

/-- The difference of two ints, none when it overflows. -/
def subInt (a b : Int) : Option Int :=
  if -2 ^ 31 ≤ a - b ∧ a - b < 2 ^ 31 then some (a - b) else none

/-- temp_path and temp_json. -/
def splitPath (path : List UInt8) : Option (List UInt8 × List UInt8) :=
  let json_pos_begin := toInt32 (position (find [91] path) + 1)
  let json_pos_end := toInt32 (position (find [93] path))
  if toSize json_pos_begin ≠ 2 ^ 64 - 1 then
    (if json_pos_end ≠ -1 then subInt json_pos_end json_pos_begin else some (-1)).bind
      fun temp_json_lenth =>
    (substr path (toSize json_pos_begin) (toSize temp_json_lenth)).bind fun temp_json =>
    (substr path 0 (toSize (json_pos_begin - 1))).map fun temp_path => (temp_path, temp_json)
  else some (path, [])

/-- What a post request says. -/
structure PostRequest where
  path : List UInt8
  server : List UInt8
  contentLength : Nat
  body : List UInt8
  deriving DecidableEq, Repr

def PostRequest.text (request : PostRequest) : List UInt8 :=
  bytes "POST " ++ request.path ++ bytes " HTTP/1.0" ++ crlf ++
    bytes "Host: " ++ request.server ++ crlf ++
    bytes "Content-Length: " ++ decimal request.contentLength ++ crlf ++
    bytes "Content-Type: application/x-www-form-urlencoded" ++ crlf ++
    bytes "Accept: */*" ++ crlf ++ bytes "Connection: close" ++ crlf ++ crlf ++ request.body

def postRequest (server path : List UInt8) : Option PostRequest :=
  (splitPath path).map fun parts => ⟨cstr parts.1, cstr server, parts.2.length, cstr parts.2⟩

/-- HttpBase::buildPostRequest, none when it throws or an int overflows. -/
def buildPostRequest (server path : List UInt8) : Option (List UInt8) :=
  (postRequest server path).map PostRequest.text

end Post

section Url

inductive Scheme where
  | http
  | https
  deriving DecidableEq, Repr

def Scheme.text : Scheme → List UInt8
  | .http => bytes "http://"
  | .https => bytes "https://"

def Scheme.defaultPort : Scheme → List UInt8
  | .http => bytes "80"
  | .https => bytes "443"

def portText : Option (List UInt8) → List UInt8
  | none => []
  | some port => 58 :: port

def composeUrl (scheme : Scheme) (host : List UInt8) (port : Option (List UInt8))
    (path : List UInt8) : List UInt8 :=
  scheme.text ++ (host ++ portText port ++ path)

theorem find_eq_zero_iff {word s : List UInt8} : find word s = some 0 ↔ word <+: s := by
  cases s with
  | nil => simp [find]
  | cons c s =>
      rw [find]
      split
      · case isTrue here => simp [here]
      · case isFalse notHere => simp [notHere]

theorem not_http_of_https (rest : List UInt8) : ¬ bytes "http://" <+: bytes "https://" ++ rest := by
  intro h
  have front := List.prefix_of_prefix_length_le h (List.prefix_append (bytes "https://") rest)
    (by decide)
  exact absurd front (by decide)

theorem parseUrl_scheme (scheme : Scheme) (rest : List UInt8) (out : Target) :
    parseUrl (scheme.text ++ rest) out = (httpSuccess, parseRest rest) := by
  cases scheme with
  | http =>
      have found := find_eq_zero_iff.mpr (List.prefix_append (bytes "http://") rest)
      rw [Scheme.text, parseUrl, if_pos found, List.drop_left]
  | https =>
      have notHttp := find_eq_zero_iff.not.mpr (not_http_of_https rest)
      have found := find_eq_zero_iff.mpr (List.prefix_append (bytes "https://") rest)
      rw [Scheme.text, parseUrl, if_neg notHttp, if_pos found, List.drop_left]

variable {host path : List UInt8} {port : Option (List UInt8)}

/-- The path begins at the first slash. -/
theorem parseRest_path {authority : List UInt8} (noSlash : 47 ∉ authority)
    (absolute : path = [] ∨ ∃ t, path = 47 :: t) :
    parseRest (authority ++ path) =
      match find [58] authority with
      | none => ⟨authority, bytes "80", if path = [] then [47] else path⟩
      | some idx => ⟨authority.take idx, authority.drop (idx + 1), if path = [] then [47] else path⟩ := by
  rcases absolute with rfl | ⟨t, rfl⟩
  · have none_ : find [47] authority = none := by
      rw [find_eq_none_iff]
      intro inside
      exact noSlash (inside.subset List.mem_cons_self)
    rw [List.append_nil, parseRest, none_]
    simp only [Option.map_none, Option.getD_none, List.take_length, if_true]
  · rw [parseRest, find_single noSlash]
    simp only [Option.map_some, Option.getD_some, List.drop_left, List.take_left, reduceCtorEq,
      if_false]

theorem parseUrl_composeUrl (scheme : Scheme) (hostSlash : 47 ∉ host) (hostColon : 58 ∉ host)
    (portSlash : ∀ n ∈ port, 47 ∉ n) (absolute : path = [] ∨ ∃ t, path = 47 :: t) (out : Target) :
    parseUrl (composeUrl scheme host port path) out =
      (httpSuccess, ⟨host, port.getD (bytes "80"), if path = [] then [47] else path⟩) := by
  have authority : 47 ∉ host ++ portText port := by
    cases port with
    | none => simpa [portText] using hostSlash
    | some n => simpa [portText, hostSlash] using portSlash n rfl
  rw [composeUrl, parseUrl_scheme, parseRest_path authority absolute]
  cases port with
  | none =>
      have none_ : find [58] host = none := by
        rw [find_eq_none_iff]
        intro inside
        exact hostColon (inside.subset List.mem_cons_self)
      simp only [portText, List.append_nil, none_, Option.getD_none]
  | some n =>
      have behind : (host ++ 58 :: n).drop (host.length + 1) = n := by
        rw [← List.drop_drop, List.drop_left, List.drop_one, List.tail_cons]
      simp only [portText, find_single hostColon, List.take_left, behind, Option.getD_some]

end Url

section PostClaim

theorem toInt32_range (i : Int) : -2 ^ 31 ≤ toInt32 i ∧ toInt32 i < 2 ^ 31 := by
  unfold toInt32
  omega

theorem toSize_natCast {n : Nat} (small : n < 2 ^ 31) : toSize n = n := by
  unfold toSize
  omega

theorem toSize_of_nonneg {i : Int} (low : 0 ≤ i) (high : i < 2 ^ 31) : (toSize i : Int) = i := by
  unfold toSize
  omega

theorem toSize_of_neg {i : Int} (low : -2 ^ 32 ≤ i) (high : i < 0) : 2 ^ 63 ≤ toSize i := by
  unfold toSize
  omega

theorem substr_eq_some {s t : List UInt8} {pos count : Nat} (h : substr s pos count = some t) :
    pos ≤ s.length ∧ t = (s.drop pos).take count := by
  unfold substr at h
  split at h
  · case isTrue inside => exact ⟨inside, (Option.some.inj h).symm⟩
  · cases h

/-- Without brackets the whole path is taken for the body. -/
theorem postRequest_plain_iff (server q : List UInt8) (noOpen : 91 ∉ q) (noClose : 93 ∉ q) :
    postRequest server q = some ⟨q, cstr server, 0, []⟩ ↔ q = [] := by
  have absent {c : UInt8} (h : c ∉ q) : find [c] q = none := by
    rw [find_eq_none_iff]
    exact fun inside => h (inside.subset List.mem_cons_self)
  have begin_ : toInt32 (position none + 1) = 0 := by decide
  have end_ : toInt32 (position none) = -1 := by decide
  have split : splitPath q = some (q.take (2 ^ 64 - 1), q.take (2 ^ 64 - 1)) := by
    have start : toSize 0 = 0 := by decide
    have all : toSize (-1) = 2 ^ 64 - 1 := by decide
    rw [splitPath, absent noOpen, absent noClose, begin_, end_, start, if_pos (by decide),
      if_neg (by decide), Int.zero_sub, all]
    simp only [Option.bind_some, substr, Nat.zero_le, if_true, List.drop_zero, all,
      Option.map_some]
  rw [postRequest, split, Option.map_some, Option.some.injEq]
  constructor
  · intro same
    have none_ := congrArg PostRequest.contentLength same
    simp only [List.length_take] at none_
    exact List.length_eq_zero_iff.mp (by omega)
  · rintro rfl
    rfl

section Bracketed

variable {q j : List UInt8}

theorem find_close (noClose : 93 ∉ q) (noCloseIn : 93 ∉ j) :
    find [93] (q ++ 91 :: (j ++ [93])) = some (q.length + 1 + j.length) := by
  have before : 93 ∉ q ++ 91 :: j := by simp [noClose, noCloseIn]
  have found := find_single before []
  rw [List.append_assoc, List.cons_append] at found
  rw [found]
  simp only [List.length_append, List.length_cons, Option.some.injEq]
  omega

/-- The body is what stands between the brackets while the positions are ints. -/
theorem splitPath_bracketed (noOpen : 91 ∉ q) (noClose : 93 ∉ q) (noCloseIn : 93 ∉ j)
    (small : q.length + j.length + 1 < 2 ^ 31) :
    splitPath (q ++ 91 :: (j ++ [93])) = some (q, j) := by
  have begin_ : toInt32 (position (some q.length) + 1) = q.length + 1 := by
    simp only [position, toInt32]
    omega
  have end_ : toInt32 (position (some (q.length + 1 + j.length))) = q.length + 1 + j.length := by
    simp only [position, toInt32]
    push_cast
    omega
  have start : toSize ((q.length : Int) + 1) = q.length + 1 := by
    have here := @toSize_natCast (q.length + 1) (by omega)
    rwa [Nat.cast_add, Nat.cast_one] at here
  have before : toSize ((q.length : Int) + 1 - 1) = q.length := by
    rw [Int.add_sub_cancel]
    exact toSize_natCast (by omega)
  have difference : subInt ((q.length : Int) + 1 + j.length) (q.length + 1) =
      some (j.length : Int) := by
    have value : (q.length : Int) + 1 + j.length - (q.length + 1) = j.length := by omega
    rw [subInt, value, if_pos (by omega)]
  have count : toSize (j.length : Int) = j.length := toSize_natCast (by omega)
  have behind : (q ++ 91 :: (j ++ [93])).drop (q.length + 1) = j ++ [93] := by
    rw [← List.drop_drop, List.drop_left, List.drop_one, List.tail_cons]
  have json : substr (q ++ 91 :: (j ++ [93])) (q.length + 1) j.length = some j := by
    rw [substr, if_pos (by simp), behind, List.take_left]
  have path : substr (q ++ 91 :: (j ++ [93])) 0 q.length = some q := by
    rw [substr, if_pos (Nat.zero_le _), List.drop_zero, List.take_left]
  rw [splitPath, find_single noOpen, find_close noClose noCloseIn, begin_, end_, start,
    if_pos (by omega), if_pos (by omega), difference, Option.bind_some, count, json,
    Option.bind_some, before, path, Option.map_some]

/-- The two slices of the path, between positions b and e, or the whole path and no body. -/
theorem splitPath_cases {s path json : List UInt8} (h : splitPath s = some (path, json)) {b e : Int}
    (begins : toInt32 (position (find [91] s) + 1) = b)
    (ends : toInt32 (position (find [93] s)) = e) :
    (∃ count, (if e ≠ -1 then subInt e b else some (-1)) = some count ∧
      toSize b ≤ s.length ∧ json = (s.drop (toSize b)).take (toSize count) ∧
      path = s.take (toSize (b - 1))) ∨ path = s ∧ json = [] := by
  simp only [splitPath, begins, ends] at h
  split at h
  · obtain ⟨count, counted, h⟩ := Option.bind_eq_some_iff.mp h
    obtain ⟨json', taken, h⟩ := Option.bind_eq_some_iff.mp h
    obtain ⟨path', front, h⟩ := Option.map_eq_some_iff.mp h
    cases h
    obtain ⟨inside, json_⟩ := substr_eq_some taken
    obtain ⟨-, path_⟩ := substr_eq_some front
    rw [List.drop_zero] at path_
    exact .inl ⟨count, counted, inside, json_, path_⟩
  · cases h
    exact .inr ⟨rfl, rfl⟩

theorem mem_of_splitPath {s path json : List UInt8} (h : splitPath s = some (path, json))
    {c : UInt8} (mem : c ∈ path) : c ∈ s := by
  rcases splitPath_cases h rfl rfl with ⟨count, -, -, -, rfl⟩ | ⟨rfl, -⟩
  · exact List.mem_of_mem_take mem
  · exact mem

/-- A body of the right length is found with positions that are ints only. -/
theorem small_of_splitPath (noOpen : 91 ∉ q) (noClose : 93 ∉ q) (noCloseIn : 93 ∉ j)
    (fits : q.length + j.length + 2 < 2 ^ 63) {json : List UInt8}
    (h : splitPath (q ++ 91 :: (j ++ [93])) = some (q, json)) (length : json.length = j.length) :
    q.length + j.length + 1 < 2 ^ 31 := by
  have size : (q ++ 91 :: (j ++ [93])).length = q.length + j.length + 2 := by
    simp only [List.length_append, List.length_cons, List.length_nil]
    omega
  have rangeB := toInt32_range (position (some q.length) + 1)
  have rangeE := toInt32_range (position (some (q.length + 1 + j.length)))
  have valueB : (toInt32 (position (some q.length) + 1) - (q.length + 1)) % 2 ^ 32 = 0 := by
    simp only [position, toInt32]
    omega
  have valueE : (toInt32 (position (some (q.length + 1 + j.length))) -
      (q.length + 1 + j.length)) % 2 ^ 32 = 0 := by
    simp only [position, toInt32]
    push_cast
    omega
  have parts := splitPath_cases h (congrArg (fun i => toInt32 (position i + 1)) (find_single noOpen _))
    (congrArg (fun i => toInt32 (position i)) (find_close noClose noCloseIn))
  revert rangeB rangeE valueB valueE parts
  generalize toInt32 (position (some q.length) + 1) = b
  generalize toInt32 (position (some (q.length + 1 + j.length))) = e
  intro rangeB rangeE valueB valueE parts
  rcases parts with ⟨count, counted, inside, json_, path_⟩ | ⟨path_, -⟩
  · have frontLength := congrArg List.length path_
    have jsonLength := congrArg List.length json_
    rw [List.length_take, size] at frontLength
    rw [List.length_take, List.length_drop, size, length] at jsonLength
    have positive : 0 < b := by
      by_contra nonpositive
      have := @toSize_of_neg (b - 1) (by omega) (by omega)
      omega
    have start := @toSize_of_nonneg (b - 1) (by omega) (by omega)
    have begin_ : b = q.length + 1 := by omega
    have behind := @toSize_of_nonneg b (by omega) (by omega)
    split at counted
    · rw [subInt] at counted
      split at counted
      · cases counted
        have nonneg : 0 ≤ e - b := by
          by_contra negative
          have := @toSize_of_neg (e - b) (by omega) (by omega)
          omega
        have := toSize_of_nonneg nonneg (by omega)
        omega
      · cases counted
    · cases counted
      have := @toSize_of_neg (-1) (by omega) (by omega)
      omega
  · have whole := congrArg List.length path_
    rw [size] at whole
    omega

theorem postRequest_bracketed_iff (server : List UInt8) (noOpen : 91 ∉ q) (noClose : 93 ∉ q)
    (noCloseIn : 93 ∉ j) (noNul : 0 ∉ j) (fits : q.length + j.length + 2 < 2 ^ 63) :
    postRequest server (q ++ 91 :: (j ++ [93])) = some ⟨q, cstr server, j.length, j⟩ ↔
      0 ∉ q ∧ q.length + j.length + 1 < 2 ^ 31 := by
  constructor
  · intro h
    obtain ⟨⟨path, json⟩, split, same⟩ := Option.map_eq_some_iff.mp h
    obtain ⟨path_, -, length, json_⟩ := PostRequest.mk.injEq .. ▸ same
    have clean : 0 ∉ q := path_ ▸ zero_not_mem_cstr path
    refine ⟨clean, small_of_splitPath noOpen noClose noCloseIn fits ?_ length⟩
    have whole : 0 ∉ q ++ 91 :: (j ++ [93]) := by simp [clean, noNul]
    have part : 0 ∉ path := fun mem => whole (mem_of_splitPath split mem)
    rw [split, ← path_, cstr_eq_self part]
  · rintro ⟨clean, small⟩
    rw [postRequest, splitPath_bracketed noOpen noClose noCloseIn small, Option.map_some,
      cstr_eq_self clean, cstr_eq_self noNul]

end Bracketed

end PostClaim

/-- parseUrl finds the parts of a URL exactly where the scheme is http or the port is given.
Without brackets buildPostRequest sends no body exactly for the empty path; with them it sends
what they enclose exactly where the closing one stands below 2^31 and the path has no NUL. -/
theorem request_described_iff (scheme : Scheme) (host : List UInt8)
    (port : Option (List UInt8)) (path : List UInt8) (out : Target) (server q j : List UInt8) :
    (host ≠ [] → 47 ∉ host → 58 ∉ host → (∀ n ∈ port, 47 ∉ n) →
      (path = [] ∨ ∃ t, path = 47 :: t) →
      (parseUrl (composeUrl scheme host port path) out =
          (httpSuccess, ⟨host, port.getD scheme.defaultPort, if path = [] then [47] else path⟩) ↔
        scheme = .http ∨ port ≠ none)) ∧
    (91 ∉ q → 93 ∉ q →
      (postRequest server q = some ⟨q, cstr server, 0, []⟩ ↔ q = [])) ∧
    (91 ∉ q → 93 ∉ q → 91 ∉ j → 93 ∉ j → 0 ∉ j → q.length + j.length + 2 < 2 ^ 63 →
      (postRequest server (q ++ 91 :: (j ++ [93])) = some ⟨q, cstr server, j.length, j⟩ ↔
        0 ∉ q ∧ q.length + j.length + 1 < 2 ^ 31)) := by
  refine ⟨fun _ hostSlash hostColon portSlash absolute => ?_,
    fun noOpen noClose => postRequest_plain_iff server q noOpen noClose,
    fun noOpen noClose _ noCloseIn noNul fits =>
      postRequest_bracketed_iff server noOpen noClose noCloseIn noNul fits⟩
  rw [parseUrl_composeUrl scheme hostSlash hostColon portSlash absolute]
  simp only [Prod.mk.injEq, true_and, Target.mk.injEq, and_true]
  cases port with
  | some n => simp
  | none =>
      cases scheme with
      | http => simp [Scheme.defaultPort]
      | https => simpa [Scheme.defaultPort] using (by decide : bytes "80" ≠ bytes "443")

theorem robotRequest_described :
    parseUrl (composeUrl .http (bytes "robot") (some (bytes "8080")) (bytes "/tips"))
        ⟨[], [], []⟩ = (0, ⟨bytes "robot", bytes "8080", bytes "/tips"⟩) ∧
      postRequest (bytes "robot") [] = some ⟨[], cstr (bytes "robot"), 0, []⟩ ∧
      postRequest (bytes "robot") (bytes "/tips" ++ 91 :: (bytes "1" ++ [93])) =
        some ⟨bytes "/tips", cstr (bytes "robot"), 1, bytes "1"⟩ := by
  obtain ⟨url, -, bracketed⟩ := request_described_iff .http (bytes "robot") (some (bytes "8080"))
    (bytes "/tips") ⟨[], [], []⟩ (bytes "robot") (bytes "/tips") (bytes "1")
  obtain ⟨-, plain, -⟩ := request_described_iff .http [] none [] ⟨[], [], []⟩ (bytes "robot") [] []
  refine ⟨?_, (plain (by decide) (by decide)).mpr rfl, ?_⟩
  · exact (url (by decide) (by decide) (by decide) (by decide)
      (.inr ⟨bytes "tips", by decide⟩)).mpr (.inl rfl)
  · exact (bracketed (by decide) (by decide) (by decide) (by decide) (by decide)
      (by decide)).mpr ⟨by decide, by decide⟩

/-- An https URL without a port, and a path without brackets. -/
theorem tipsRequest_misread :
    parseUrl (bytes "https://robot") ⟨[], [], []⟩ ≠
        (0, ⟨bytes "robot", bytes "443", bytes "/"⟩) ∧
      postRequest (bytes "robot") (bytes "/tips") ≠
        some ⟨bytes "/tips", cstr (bytes "robot"), 0, []⟩ := by
  decide +kernel

end HZRobot.HttpBase
