import HZRobot.ByteSearch
import HZRobot.Config

/-!
The configs branch of handle_request: an uploaded multipart body is read line by
line from a string stream, the target file is opened at its Content-Disposition
line, and the payload is copied byte by byte up to a position computed from the
last occurrence of the boundary. Files are written as far as the disk takes them.
-/

namespace HZRobot.ConfigUpload
open Config

inductive ConfigName where
  | mysql_config
  | photo_config
  | server_config
  deriving DecidableEq, Repr

def ConfigName.text : ConfigName → List UInt8
  | .mysql_config => bytes "mysql_config"
  | .photo_config => bytes "photo_config"
  | .server_config => bytes "server_config"

/-- The content of X.xml for each name, none where there is no such file. -/
abbrev Files := ConfigName → Option (List UInt8)

structure World where
  files : Files
  photo : PhotoConfig
  server : ServerConfig
  mysql : MysqlConfig

inductive Response where
  | badRequest (why : List UInt8)
  | commResponse (text : List UInt8)
  deriving DecidableEq, Repr

/-- How the branch ends: with its one response, with an exception, or in the use
of a null pointer. -/
inductive Ending where
  | responded (r : Response)
  | threw
  | nullUse
  deriving DecidableEq, Repr

structure Stream where
  rest : List UInt8
  eof : Bool
  fail : Bool

def maxCharSize : Nat := 102400

/-- istream::getline into a buffer of maxCharSize. -/
def Stream.getline (s : Stream) : List UInt8 × Stream :=
  if s.eof || s.fail then ([], { s with fail := true })
  else
    let line := (s.rest.take (maxCharSize - 1)).takeWhile (· ≠ 10)
    match s.rest.drop line.length with
    | [] => (line, ⟨[], true, line.isEmpty⟩)
    | c :: rest => (line, if c = 10 then ⟨rest, false, false⟩ else ⟨c :: rest, false, true⟩)

def npos : Nat := 2 ^ 64 - 1

/-- Subtraction of size_t. -/
def sub64 (a b : Nat) : Nat := (a + 2 ^ 64 - b) % 2 ^ 64

def position (found : Option Nat) : Nat := found.getD npos

/-- string::substr, none where it throws out_of_range. -/
def substr (s : List UInt8) (pos n : Nat) : Option (List UInt8) :=
  if s.length < pos then none else some ((s.drop pos).take n)

/-- f_config with the files, the string stream and the counter. -/
structure Upload where
  stream : Stream
  ncount : Nat
  files : Files
  f_config : Option ConfigName
  good : Bool

/-- fstream::open truncates; it fails on a stream that is already open. -/
def Upload.openFile (u : Upload) (name : ConfigName) : Upload :=
  match u.f_config with
  | some _ => { u with good := false }
  | none =>
      { u with f_config := some name, good := true, files := Function.update u.files name (some []) }

def Upload.write (u : Upload) (c : UInt8) : Upload :=
  match u.f_config with
  | some name =>
      if u.good then
        { u with files := Function.update u.files name ((u.files name).map (· ++ [c])) }
      else u
  | none => u

/-- s_line.substr(s_line.find("."), s_line.rfind("\"") - s_line.find(".")). -/
def postfixOf (s_line : List UInt8) : Option (List UInt8) :=
  let dot := position (find (bytes ".") s_line)
  substr s_line dot (sub64 (position (rfind [34] s_line)) dot)

def configName (s_line : List UInt8) : Option ConfigName :=
  if (find (bytes "mysql_config") s_line).isSome then some .mysql_config
  else if (find (bytes "photo_config") s_line).isSome then some .photo_config
  else if (find (bytes "server_config") s_line).isSome then some .server_config
  else none

def isDisposition (s_line : List UInt8) : Bool := (find (bytes "Content-Disposition:") s_line).isSome

def isType (s_line : List UInt8) : Bool := (find (bytes "Content-Type:") s_line).isSome

/-- The inner loop, over the bytes left in a stream that has not failed. -/
def copy (stop : Nat) : List UInt8 → Upload → Upload
  | [], u => u
  | c :: rest, u =>
      if u.ncount + 2 < stop then
        copy stop rest { u.write c with ncount := u.ncount + 1 }
      else u

/-- What follows a Content-Type line. -/
def Upload.payload (u : Upload) (s_delimit body : List UInt8) : Upload :=
  let (devnull, stream) := u.stream.getline
  let u := { u with stream := stream, ncount := u.ncount + ((cstr devnull).length + 1) }
  if stream.fail then u
  else copy (sub64 (position (rfind s_delimit body)) 2) stream.rest u

inductive Scan where
  | threw
  | rejected
  | finished
  deriving DecidableEq, Repr

def Stream.left (s : Stream) : Nat := s.rest.length + if s.eof then 0 else 1

theorem Stream.getline_left {s : Stream} (h : s.getline.2.fail = false) :
    s.getline.2.left < s.left := by
  unfold getline at h ⊢
  split at h
  · cases h
  · case isFalse ready =>
      simp only [Bool.or_eq_true, not_or, Bool.not_eq_true] at ready
      simp only [ready.1, ready.2, Bool.or_self, Bool.false_eq_true, if_false] at h ⊢
      have room := congrArg List.length (List.take_append_drop
        ((s.rest.take (maxCharSize - 1)).takeWhile (· ≠ 10)).length s.rest)
      split at h
      · simp [left, ready.1]
      · case h_2 c rest some_ =>
          by_cases newline : c = 10
          · simp only [some_, newline, if_true, left, ready.1] at room ⊢
            simp only [List.length_append, List.length_cons] at room
            simp
            omega
          · simp [newline] at h

/-- The loop over the lines of the body. -/
def loop (s_delimit body : List UInt8) (u : Upload) : Scan × Upload :=
  if _ok : u.stream.getline.2.fail = false then
    let s_line := cstr u.stream.getline.1
    let v := { u with stream := u.stream.getline.2, ncount := u.ncount + (s_line.length + 1) }
    if isDisposition s_line then
      match postfixOf s_line with
      | none => (.threw, v)
      | some s_postfix =>
          if s_postfix ≠ bytes ".xml" then (.rejected, v)
          else match configName s_line with
            | none => (.rejected, v)
            | some name => loop s_delimit body (v.openFile name)
    else if isType s_line then (.finished, v.payload s_delimit body)
    else loop s_delimit body v
  else (.finished, u)
termination_by u.stream.left
decreasing_by
  · have : (Upload.openFile { u with
        stream := u.stream.getline.2,
        ncount := u.ncount + ((cstr u.stream.getline.1).length + 1) } name).stream =
        u.stream.getline.2 := by
      unfold Upload.openFile
      split <;> rfl
    rw [this]
    exact Stream.getline_left _ok
  · exact Stream.getline_left _ok

section
variable (parse : List UInt8 → Option (List XmlNode))

/-- TiXmlDocument::LoadFile on one of the three files. -/
def loadFile (files : Files) (name : ConfigName) : Option (List XmlNode) := (files name).bind parse

/-- The three loads at the end; true where one of them uses a null pointer. -/
def reload (w : World) : Bool × World :=
  match loadphotoConfig (loadFile parse w.files .photo_config) w.photo with
  | .nullUse c => (true, { w with photo := c })
  | .returned _ photo =>
      match loadserverConfig (loadFile parse w.files .server_config) w.server with
      | .nullUse c => (true, { w with photo := photo, server := c })
      | .returned _ server =>
          match loadmysqlConfig (loadFile parse w.files .mysql_config) w.mysql with
          | .nullUse c => (true, { w with photo := photo, server := server, mysql := c })
          | .returned _ mysql => (false, { w with photo := photo, server := server, mysql := mysql })

/-- transstring2: the first word. -/
def transstring2 (s : List UInt8) : List UInt8 :=
  (s.dropWhile isSpace).takeWhile fun c => !isSpace c

def errorRequest : Response := .badRequest (bytes "error request")

def namesConfig (path : List UInt8) : Bool :=
  (find (bytes "/mysql_config") path).isSome || (find (bytes "/photo_config") path).isSome ||
    (find (bytes "/server_config") path).isSome

/-- The branch with the boundary it read. -/
def receive (s_delimit body : List UInt8) (w : World) : Ending × World :=
  match loop s_delimit body ⟨⟨body, false, false⟩, 0, w.files, none, true⟩ with
  | (.threw, u) => (.threw, { w with files := u.files })
  | (.rejected, u) => (.responded errorRequest, { w with files := u.files })
  | (.finished, u) =>
      match reload parse { w with files := u.files } with
      | (true, w) => (.nullUse, w)
      | (false, w) => (.responded (.commResponse []), w)

/-- The ./robot/configs branch of handle_request. -/
def handleConfigs (path content_type body : List UInt8) (w : World) : Ending × World :=
  if namesConfig path then
    match find (bytes "boundary=") content_type with
    | none => (.responded errorRequest, w)
    | some n_npos => receive parse (transstring2 (content_type.drop (n_npos + 9))) body w
  else (.responded errorRequest, w)

end

end HZRobot.ConfigUpload
