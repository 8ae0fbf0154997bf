import HZRobot.ConfigUpload

/-!
The loop over the lines of an upload, read off the list of lines getline
delivers: the first Content-Disposition line decides which file is emptied, a
second one or a missing Content-Type line leaves it empty. What is copied behind
the Content-Type line is told by where the last boundary stands in the body.
-/

namespace HZRobot.ConfigUpload
open Config

def Stream.at (rest : List UInt8) : Stream := ⟨rest, false, false⟩

theorem getline_line {line : List UInt8} (rest : List UInt8) (noLf : 10 ∉ line)
    (short : line.length < maxCharSize) :
    (Stream.at (line ++ 10 :: rest)).getline = (line, Stream.at rest) := by
  have all : line.takeWhile (· ≠ 10) = line := by
    rw [List.takeWhile_eq_self_iff]
    intro c hc
    exact decide_eq_true fun lf => noLf (lf ▸ hc)
  have first : ((line ++ 10 :: rest).take (maxCharSize - 1)).takeWhile (· ≠ 10) = line := by
    rw [← List.take_takeWhile, List.takeWhile_append, all]
    simp [List.take_of_length_le (show line.length ≤ maxCharSize - 1 by omega)]
  simp only [Stream.getline, Stream.at, Bool.or_self, Bool.false_eq_true, if_false]
  rw [first, List.drop_left]
  simp

/-- The lines that getline delivers, as C strings, each with the stream behind it. -/
def readLines (s : Stream) : List (List UInt8 × Stream) :=
  if _ok : s.getline.2.fail = false then (cstr s.getline.1, s.getline.2) :: readLines s.getline.2
  else []
termination_by s.left
decreasing_by exact Stream.getline_left _ok

/-- The lines the loop looks at before it comes to the Content-Type line. -/
def isHead (line : List UInt8 × Stream) : Bool := isDisposition line.1 || !isType line.1

/-- The Content-Disposition lines the loop looks at, as long as it accepts them. -/
def dispositions (ls : List (List UInt8 × Stream)) : List (List UInt8) :=
  ((ls.takeWhile isHead).map Prod.fst).filter isDisposition

/-- The file a Content-Disposition line opens. -/
def accepted (s_line : List UInt8) : Option ConfigName :=
  if postfixOf s_line = some (bytes ".xml") then configName s_line else none

/-- The counter and the bytes behind the line after the Content-Type line, when the
counter stands at n in front of the lines. -/
def behindType : Nat → List (List UInt8 × Stream) → Option (Nat × List UInt8)
  | _, [] => none
  | n, line :: ls =>
      if isHead line then behindType (n + (line.1.length + 1)) ls
      else if line.2.getline.2.fail then none
      else some (n + (line.1.length + 1) + ((cstr line.2.getline.1).length + 1),
        line.2.getline.2.rest)

/-- The bytes the inner loop reaches. -/
def carried (stop n : Nat) (ls : List (List UInt8 × Stream)) : List UInt8 :=
  match behindType n ls with
  | none => []
  | some (m, rest) => rest.take (stop - 2 - m)

/-- The verdict of the loop on its Content-Disposition lines. -/
def verdict (ds : List (List UInt8)) : Scan :=
  match ds.find? fun d => (accepted d).isNone with
  | none => .finished
  | some d => if (postfixOf d).isNone then .threw else .rejected

/-- The loop over lines already read. -/
def scan (s_delimit body : List UInt8) : List (List UInt8 × Stream) → Upload → Scan × Upload
  | [], u => (.finished, u)
  | (s_line, stream) :: ls, u =>
      let v := { u with stream := stream, ncount := u.ncount + (s_line.length + 1) }
      if isDisposition s_line then
        match postfixOf s_line with
        | none => (.threw, v)
        | some s_postfix =>
            if s_postfix ≠ bytes ".xml" then (.rejected, v)
            else match configName s_line with
              | none => (.rejected, v)
              | some name => scan s_delimit body ls (v.openFile name)
      else if isType s_line then (.finished, v.payload s_delimit body)
      else scan s_delimit body ls v

theorem openFile_stream (u : Upload) (name : ConfigName) : (u.openFile name).stream = u.stream := by
  unfold Upload.openFile
  split <;> rfl

/-- A second open fails and spoils the stream. -/
theorem openFile_open {u : Upload} {name : ConfigName} (target : u.f_config = some name)
    (other : ConfigName) : u.openFile other = { u with good := false } := by
  simp [Upload.openFile, target]

theorem loop_eq_scan (s_delimit body : List UInt8) (u : Upload) :
    loop s_delimit body u = scan s_delimit body (readLines u.stream) u := by
  induction m : u.stream.left using Nat.strongRecOn generalizing u with
  | ind m ih =>
      rw [loop, readLines]
      split
      · case isTrue ok =>
          have less := Stream.getline_left ok
          let v : Upload := { u with
            stream := u.stream.getline.2,
            ncount := u.ncount + ((cstr u.stream.getline.1).length + 1) }
          have step (name : ConfigName) : loop s_delimit body (v.openFile name) =
              scan s_delimit body (readLines u.stream.getline.2) (v.openFile name) := by
            have here := openFile_stream v name
            have := ih _ (m ▸ here ▸ less) (v.openFile name) rfl
            rwa [here] at this
          have skip : loop s_delimit body v = scan s_delimit body (readLines u.stream.getline.2) v :=
            ih _ (m ▸ less) v rfl
          cases postfix_ : postfixOf (cstr u.stream.getline.1) with
          | none => simp only [scan, skip, v, postfix_]
          | some s_postfix =>
              cases name_ : configName (cstr u.stream.getline.1) with
              | none => simp only [scan, skip, v, postfix_, name_]
              | some name => simp only [scan, step, skip, v, postfix_, name_]
      · rfl

theorem behindType_head {n : Nat} {line : List UInt8 × Stream} {ls : List (List UInt8 × Stream)}
    (h : isHead line = true) :
    behindType n (line :: ls) = behindType (n + (line.1.length + 1)) ls := by
  simp [behindType, h]

theorem carried_head {stop n : Nat} {line : List UInt8 × Stream} {ls : List (List UInt8 × Stream)}
    (h : isHead line = true) :
    carried stop n (line :: ls) = carried stop (n + (line.1.length + 1)) ls := by
  rw [carried, behindType_head h, carried]

theorem dispositions_cons (line : List UInt8 × Stream) (ls : List (List UInt8 × Stream)) :
    dispositions (line :: ls) =
      if isDisposition line.1 then line.1 :: dispositions ls
      else if isType line.1 then [] else dispositions ls := by
  by_cases d : isDisposition line.1
  · simp [dispositions, isHead, d]
  · by_cases t : isType line.1
    · simp [dispositions, isHead, d, t]
    · simp [dispositions, isHead, d, t]

theorem payload_closed {s_delimit body : List UInt8} {u : Upload}
    (closed : u.f_config = none ∨ u.good = false) :
    (u.payload s_delimit body).files = u.files := by
  have kept (stop : Nat) (rest : List UInt8) (v : Upload)
      (h : v.f_config = none ∨ v.good = false) : (copy stop rest v).files = v.files := by
    induction rest generalizing v with
    | nil => rfl
    | cons c rest ih =>
        have write : v.write c = v := by
          rcases h with none_ | bad
          · simp [Upload.write, none_]
          · cases t : v.f_config <;> simp [Upload.write, t, bad]
        rw [copy]
        split
        · rw [write]
          exact ih _ h
        · rfl
  unfold Upload.payload
  dsimp only
  split
  · rfl
  · exact kept _ _ _ closed

theorem scan_failed {s_delimit body : List UInt8} {ls : List (List UInt8 × Stream)} {u : Upload}
    {name : ConfigName} (target : u.f_config = some name) (bad : u.good = false) :
    (scan s_delimit body ls u).2.files = u.files := by
  induction ls generalizing u with
  | nil => rfl
  | cons line ls ih =>
      rw [scan]
      split
      · split
        · rfl
        · split
          · rfl
          · split
            · rfl
            · rw [openFile_open (by exact target)]
              exact ih target rfl
      · split
        · exact payload_closed (.inr bad)
        · exact ih target bad

/-- The inner loop appends the bytes up to the stop. -/
theorem copy_files {stop : Nat} {rest : List UInt8} {u : Upload} (name : ConfigName)
    (target : u.f_config = some name) (good : u.good = true) :
    (copy stop rest u).files =
      Function.update u.files name ((u.files name).map (· ++ rest.take (stop - 2 - u.ncount))) := by
  induction rest generalizing u with
  | nil => cases h : u.files name <;> simp [copy, ← h]
  | cons c rest ih =>
      rw [copy]
      split
      · case isTrue more =>
          have write : u.write c =
              { u with files := Function.update u.files name ((u.files name).map (· ++ [c])) } := by
            simp [Upload.write, target, good]
          rw [ih (by rw [write]; exact target) (by rw [write]; exact good), write]
          obtain ⟨m, hm⟩ : ∃ m, stop - 2 - u.ncount = m + 1 := ⟨stop - 3 - u.ncount, by omega⟩
          have hm' : stop - 2 - (u.ncount + 1) = m := by omega
          simp only [Function.update_self, Function.update_idem, hm, hm', List.take_succ_cons,
            Option.map_map]
          congr 2
          funext old
          simp
      · case isFalse done =>
          have : stop - 2 - u.ncount = 0 := by omega
          cases h : u.files name <;> simp [this, ← h]

theorem payload_open {s_delimit body : List UInt8} {u : Upload} {name : ConfigName}
    (target : u.f_config = some name) (good : u.good = true) :
    (u.payload s_delimit body).files = Function.update u.files name ((u.files name).map (· ++
      if u.stream.getline.2.fail then [] else u.stream.getline.2.rest.take
        (sub64 (position (rfind s_delimit body)) 2 - 2 -
          (u.ncount + ((cstr u.stream.getline.1).length + 1))))) := by
  unfold Upload.payload
  dsimp only
  split
  · cases h : u.files name <;> simp [← h]
  · exact copy_files name target good

theorem scan_open {s_delimit body : List UInt8} {ls : List (List UInt8 × Stream)} {u : Upload}
    {name : ConfigName} (target : u.f_config = some name) (good : u.good = true) :
    (scan s_delimit body ls u).2.files = Function.update u.files name ((u.files name).map (· ++
      if dispositions ls = [] then
        carried (sub64 (position (rfind s_delimit body)) 2) u.ncount ls else [])) := by
  have same : Function.update u.files name ((u.files name).map (· ++ [])) = u.files := by
    cases h : u.files name <;> simp [← h]
  induction ls generalizing u with
  | nil =>
      rw [if_pos (show dispositions [] = [] from rfl), show carried _ _ [] = [] from rfl, same]
      rfl
  | cons line ls ih =>
      rw [dispositions_cons, scan]
      by_cases d : isDisposition line.1
      · rw [if_pos d, if_pos d, if_neg (by simp), same]
        split
        · rfl
        · split
          · rfl
          · split
            · rfl
            · rw [openFile_open (by exact target)]
              exact scan_failed target rfl
      · rw [if_neg d, if_neg d]
        by_cases t : isType line.1
        · rw [if_pos t, if_pos t, if_pos rfl]
          have stop : isHead line = false := by simp [isHead, d, t]
          rw [payload_open (u := { u with stream := line.2, ncount := u.ncount + (line.1.length + 1) })
            target good]
          by_cases cut : line.2.getline.2.fail <;> simp [carried, behindType, stop, cut]
        · rw [if_neg t, if_neg t]
          have head : isHead line = true := by simp [isHead, t]
          rw [carried_head head]
          exact ih target good same

/-- What the loop does to the files, from the Content-Disposition lines. -/
theorem scan_files (s_delimit body : List UInt8) (ls : List (List UInt8 × Stream)) {u : Upload}
    (closed : u.f_config = none) :
    (scan s_delimit body ls u).2.files =
      match (dispositions ls).head?.bind accepted with
      | none => u.files
      | some name => Function.update u.files name (some (if (dispositions ls).tail = [] then
          carried (sub64 (position (rfind s_delimit body)) 2) u.ncount ls else [])) := by
  induction ls generalizing u with
  | nil => rfl
  | cons line ls ih =>
      rw [dispositions_cons, scan]
      by_cases d : isDisposition line.1
      · have head : isHead line = true := by simp [isHead, d]
        simp only [d, if_true, List.head?_cons, Option.bind_some, List.tail_cons,
          carried_head head]
        cases p : postfixOf line.1 with
        | none => simp [accepted, p]
        | some s_postfix =>
            by_cases xml : s_postfix = bytes ".xml"
            · cases c : configName line.1 with
              | none => simp [accepted, p, xml, c]
              | some name =>
                  simp only [accepted, p, xml, c, if_true, ne_eq, not_true_eq_false, if_false,
                    Upload.openFile, closed]
                  rw [scan_open rfl rfl]
                  simp
            · simp [accepted, p, xml]
      · by_cases t : isType line.1
        · simp only [d, t, Bool.false_eq_true, if_false, if_true]
          exact payload_closed (.inl closed)
        · have head : isHead line = true := by simp [isHead, t]
          simp only [d, t, Bool.false_eq_true, if_false, carried_head head]
          exact ih closed

theorem reload_files (parse : List UInt8 → Option (List XmlNode)) (w : World) :
    (reload parse w).2.files = w.files := by
  unfold reload
  split
  · rfl
  · split
    · rfl
    · split <;> rfl

/-- What the opened file holds at the end. -/
def written (s_delimit body : List UInt8) : List UInt8 :=
  let ls := readLines (Stream.at body)
  if (dispositions ls).tail = [] then carried (sub64 (position (rfind s_delimit body)) 2) 0 ls
  else []

def opened (body : List UInt8) : Option ConfigName :=
  (dispositions (readLines (Stream.at body))).head?.bind accepted

def filesAfter (s_delimit body : List UInt8) (files : Files) : Files :=
  match opened body with
  | none => files
  | some name => Function.update files name (some (written s_delimit body))

section
variable (parse : List UInt8 → Option (List XmlNode))

theorem receive_files (s_delimit body : List UInt8) (w : World) :
    (receive parse s_delimit body w).2.files = filesAfter s_delimit body w.files := by
  have files := scan_files s_delimit body (readLines (Stream.at body))
    (u := ⟨Stream.at body, 0, w.files, none, true⟩) rfl
  have looped := loop_eq_scan s_delimit body ⟨Stream.at body, 0, w.files, none, true⟩
  simp only [receive]
  rw [show (⟨body, false, false⟩ : Stream) = Stream.at body from rfl, looped]
  rw [filesAfter, opened, written, ← files]
  cases h : scan s_delimit body (readLines (Stream.at body))
      ⟨Stream.at body, 0, w.files, none, true⟩ with
  | mk verdict u =>
      cases verdict with
      | threw => rfl
      | rejected => rfl
      | finished =>
          have loaded := reload_files parse { w with files := u.files }
          dsimp only
          split
          · case h_1 r => simpa [r] using loaded
          · case h_2 r => simpa [r] using loaded

end

/-- The word the branch takes for the boundary: the first one behind boundary=. -/
def boundaryWord (content_type : List UInt8) : Option (List UInt8) :=
  (find (bytes "boundary=") content_type).map fun n => transstring2 (content_type.drop (n + 9))

/-- The payload begins behind the line after the only Content-Type line, and the
last occurrence of the word stands where the counter comes to after it, or the
body ends in front of that place. -/
def EndsAt (word body payload : List UInt8) : Prop :=
  if (dispositions (readLines (Stream.at body))).tail = [] then
    match behindType 0 (readLines (Stream.at body)) with
    | none => payload = []
    | some (n, rest) => ∃ tail, rest = payload ++ tail ∧
        ((∃ p, rfind word body = some p ∧
            (p = n + payload.length + 4 ∨ payload = [] ∧ 2 ≤ p ∧ p ≤ n + 4)) ∨
          tail = [] ∧ ∀ p, rfind word body = some p → p < 2 ∨ n + payload.length + 4 ≤ p)
  else payload = []

/-- A line and its end leave so many bytes less. -/
theorem getline_count {s : Stream} (ok : s.getline.2.fail = false) :
    (cstr s.getline.1).length + 1 + s.getline.2.left ≤ s.left := by
  have whole := cstr_length_le s.getline.1
  unfold Stream.getline at ok whole ⊢
  split at ok
  · cases ok
  · case isFalse ready =>
      simp only [Bool.or_eq_true, not_or, Bool.not_eq_true] at ready
      simp only [ready.1, ready.2, Bool.or_self, Bool.false_eq_true, if_false] at ok whole ⊢
      have room := congrArg List.length (List.take_append_drop
        ((s.rest.take (maxCharSize - 1)).takeWhile (· ≠ 10)).length s.rest)
      have inside := (List.takeWhile_prefix (fun c : UInt8 => decide (c ≠ 10))
        (l := s.rest.take (maxCharSize - 1))).length_le.trans (List.length_take_le' _ _)
      rw [List.length_append, List.length_take_of_le inside] at room
      split at ok
      · case h_1 end_ =>
          simp only [end_, List.length_nil] at room whole ⊢
          simp only [Stream.left, ready.1, if_true, Bool.false_eq_true, if_false, List.length_nil]
          omega
      · case h_2 c rest some_ =>
          by_cases newline : c = 10
          · simp only [some_, newline, if_true, List.length_cons] at room whole ⊢
            simp only [Stream.left, ready.1, Bool.false_eq_true, if_false]
            omega
          · simp [newline] at ok

theorem behindType_bound {s : Stream} {n m : Nat} {rest : List UInt8}
    (h : behindType n (readLines s) = some (m, rest)) : m + rest.length ≤ n + s.left := by
  induction k : s.left using Nat.strongRecOn generalizing s n with
  | ind k ih =>
      rw [readLines] at h
      split at h
      · case isTrue ok =>
          have less := Stream.getline_left ok
          have count := getline_count ok
          rw [behindType] at h
          split at h
          · have := ih _ (k ▸ less) h rfl
            dsimp only at this
            omega
          · split at h
            · cases h
            · case isFalse again =>
                rw [Bool.not_eq_true] at again
                dsimp only at again h
                have second := getline_count again
                rw [Option.some.injEq, Prod.mk.injEq] at h
                obtain ⟨rfl, rfl⟩ := h
                have : (s.getline.2.getline.2).rest.length ≤ s.getline.2.getline.2.left := by
                  simp [Stream.left]
                omega
      · cases h

theorem take_eq_iff {rest payload : List UInt8} (k : Nat) :
    rest.take k = payload ↔ ∃ tail, rest = payload ++ tail ∧
      (k = payload.length ∨ tail = [] ∧ payload.length ≤ k) := by
  constructor
  · rintro rfl
    refine ⟨rest.drop k, (List.take_append_drop k rest).symm, ?_⟩
    rcases Nat.le_total k rest.length with inside | beyond
    · exact .inl (List.length_take_of_le inside).symm
    · exact .inr ⟨List.drop_of_length_le beyond, List.length_take_le k rest⟩
  · rintro ⟨tail, rfl, rfl | ⟨rfl, long⟩⟩
    · exact List.take_left
    · rw [List.append_nil, List.take_of_length_le long]

/-- Where the counter comes to, without the wrap of size_t. -/
theorem stop_iff {found : Option Nat} {n : Nat} {payload tail : List UInt8}
    (inside : ∀ p, found = some p → p < 2 ^ 63) (room : n + payload.length ≤ 2 ^ 63) :
    (sub64 (position found) 2 - 2 - n = payload.length ∨
        tail = [] ∧ payload.length ≤ sub64 (position found) 2 - 2 - n) ↔
      (∃ p, found = some p ∧ (p = n + payload.length + 4 ∨ payload = [] ∧ 2 ≤ p ∧ p ≤ n + 4)) ∨
        tail = [] ∧ ∀ p, found = some p → p < 2 ∨ n + payload.length + 4 ≤ p := by
  rw [← List.length_eq_zero_iff (l := payload), ← List.length_eq_zero_iff (l := tail)]
  cases found with
  | none =>
      have far : sub64 (position none) 2 = 2 ^ 64 - 3 := by decide
      rw [far]
      simp only [reduceCtorEq, false_and, exists_false, false_or, false_implies, implies_true,
        and_true]
      omega
  | some p =>
      have bound := inside p rfl
      simp only [position, Option.getD_some, sub64, Option.some.injEq, exists_eq_left',
        forall_eq']
      omega

/-- The opened file holds the payload at which the counter ends. -/
theorem written_eq_iff {word body : List UInt8} (fits : body.length < 2 ^ 63)
    (payload : List UInt8) : written word body = payload ↔ EndsAt word body payload := by
  rw [written, EndsAt]
  split
  · rw [carried]
    cases behind : behindType 0 (readLines (Stream.at body)) with
    | none => exact eq_comm
    | some place =>
        obtain ⟨n, rest⟩ := place
        have bound : n + rest.length ≤ body.length + 1 := by
          have := behindType_bound behind
          simpa [Stream.left, Stream.at] using this
        dsimp only
        rw [take_eq_iff]
        refine exists_congr fun tail => and_congr_right fun split => stop_iff ?_ ?_
        · intro p hp
          have := rfind_le hp
          omega
        · rw [split, List.length_append] at bound
          omega
  · exact eq_comm

end HZRobot.ConfigUpload
