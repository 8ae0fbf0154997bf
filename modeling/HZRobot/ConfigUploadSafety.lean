import HZRobot.ConfigUploadExact

/-!
What any upload does to the configuration files. A line without a dot makes substr
throw; a file that was opened holds what the counter leaves of the payload; the
files are reloaded unless a line was refused.
-/

namespace HZRobot.ConfigUpload
open Config

/-- The boundary parameter of a Content-Type, quoted or not. -/
def boundaryParam (content_type : List UInt8) : Option (List UInt8) :=
  (find (bytes "boundary=") content_type).map fun n =>
    let value := content_type.drop (n + 9)
    if value.head? = some 34 then value.tail.takeWhile (· ≠ 34)
    else value.takeWhile fun c => c ≠ 59 && !isSpace c

/-- A part of the multipart body that carries a file, with its payload. -/
def FilePart (boundary body payload : List UInt8) : Prop :=
  ∃ (before : List UInt8) (headers : List (List UInt8)) (after : List UInt8),
    body = before ++ bytes "--" ++ boundary ++ crlf ++ headers.flatMap (· ++ crlf) ++ crlf ++
      payload ++ crlf ++ bytes "--" ++ boundary ++ after ∧
    (before = [] ∨ crlf <:+ before) ∧
    (∀ h ∈ headers, h ≠ [] ∧ 10 ∉ h ∧ 13 ∉ h) ∧
    (∃ h ∈ headers, bytes "Content-Disposition:" <+: h ∧ bytes "filename=" <:+: h) ∧
    ¬ crlf ++ bytes "--" ++ boundary <:+: payload

/-- None of the three reloads comes to a missing element or text. -/
def Loadable (parse : List UInt8 → Option (List XmlNode)) (files : Files) : Prop :=
  (∀ doc, loadFile parse files .photo_config = some doc → CompleteRows (tableRows doc)) ∧
  (∀ doc, loadFile parse files .server_config = some doc → Complete doc "server" serverFields) ∧
  ∀ doc, loadFile parse files .mysql_config = some doc → Complete doc "databases" mysqlFields

/-- The first refused Content-Disposition line has a dot. Where the first one opens
a file, the counter ends at the payload of a file part or at what the file held;
and when no line was refused the files can be loaded. -/
def Careful (parse : List UInt8 → Option (List XmlNode)) (path content_type body : List UInt8)
    (w : World) : Prop :=
  ∀ word, namesConfig path = true → boundaryWord content_type = some word →
    let ds := dispositions (readLines (Stream.at body))
    (∀ d, ds.find? (fun d => (accepted d).isNone) = some d → 46 ∈ d) ∧
    match ds.head?.bind accepted with
    | none => (∀ d ∈ ds, (accepted d).isSome) → Loadable parse w.files
    | some name => ∃ payload, EndsAt word body payload ∧
        (w.files name = some payload ∨
          ∃ boundary, boundaryParam content_type = some boundary ∧
            FilePart boundary body payload) ∧
        ((∀ d ∈ ds, (accepted d).isSome) →
          Loadable parse (Function.update w.files name (some payload)))

section
variable (parse : List UInt8 → Option (List XmlNode))

end

end HZRobot.ConfigUpload
