import HZRobot.HttpClient
import HZRobot.HttpHeader

/-!
One response on a fresh sync client, in any fragments. Until the header block is
complete the outcome can only be the refusal of a long unterminated header; what
decode_header makes of the block may depend on the bytes behind it.
-/

namespace HZRobot.Http

/-- What a run of callbacks comes to; a done response with the fields compared. -/
inductive Outcome where
  | rejected
  | threw
  | waiting
  | done (version : List UInt8) (status_code : Nat) (entrys : List Entry) (content_length : Nat)
      (body : List UInt8)
  deriving DecidableEq, Repr

def Response.outcome (r : Response) : Outcome :=
  .done r.version r.status_code r.entrys r.content_length r.body

/-- Feeding fragments until recv_callback returns false or the response is done. -/
def feed : Client → List (List UInt8) → Outcome
  | _, [] => .waiting
  | c, f :: fs =>
      match recvCallback c f with
      | (.threw, _) => .threw
      | (.returned false, _) => .rejected
      | (.returned true, c) => if c.decode_step = .done then c.response.outcome else feed c fs

/-- A sync client that waits for the rest of a header. -/
def headerClient (buf : List UInt8) : Client := { sync_mode := true, buf := buf }

/-- A sync client that waits for the rest of a body. -/
def bodyClient (buf : List UInt8) (buf_pos : Nat) (r : Response) : Client :=
  { sync_mode := true, decode_step := .body, buf := buf, buf_pos := buf_pos, response := r }

/-- The bytes up to the first empty line, with it. -/
def headerBlock (s : List UInt8) : List UInt8 :=
  match find terminator s with
  | none => s
  | some h => s.take (h + 4)

def chunkedLine : List UInt8 := bytes "Transfer-Encoding: chunked"

def Announced (s : List UInt8) : Prop := crlf ++ chunkedLine ++ crlf <:+: headerBlock s

/-- The outcome is the same for any two ways of cutting the stream. -/
def Insensitive (s : List UInt8) : Prop :=
  ∀ fs gs : List (List UInt8), (∀ f ∈ fs, f ≠ []) → (∀ g ∈ gs, g ≠ []) →
    fs.flatten = s → gs.flatten = s → feed (headerClient []) fs = feed (headerClient []) gs

/-- A header that decodes by itself decodes the same with anything behind it. -/
theorem decodeHeader_append {r r' : Response} {data : List UInt8}
    (h : decodeHeader r data = (.decoded, r')) (t : List UInt8) :
    decodeHeader r (data ++ t) = (.decoded, r') := by
  rw [decodeHeader_eq_decodeBlock] at h ⊢
  exact decodeBlock_append _ _ _ _ h t

/-- Such a header holds both spaces, so the NUL is written into it. -/
theorem decodeHeaderMemory_append {r r' : Response} {data : List UInt8}
    (h : decodeHeader r data = (.decoded, r')) (t : List UInt8) :
    decodeHeaderMemory (data ++ t) = decodeHeaderMemory data ++ t := by
  obtain ⟨u, text⟩ := cstr_append data t
  unfold decodeHeader at h
  dsimp only at h
  unfold decodeHeaderMemory
  rw [text]
  cases terminated : find (crlf ++ crlf) (cstr data) with
  | none => simp [terminated] at h
  | some header_end =>
      cases start : cut (bytes " ") (cstr data) with
      | none => simp [terminated, start] at h
      | some p =>
          cases middle : cut (bytes " ") p.2 with
          | none => simp [terminated, start, middle] at h
          | some q =>
              have inside : p.1.length + 1 + q.1.length < data.length := by
                have first := congrArg List.length (cut_spec (a := p.1) (b := p.2) start)
                have second := congrArg List.length (cut_spec (a := q.1) (b := q.2) middle)
                have front : (cstr data).length ≤ data.length :=
                  (List.takeWhile_prefix _).length_le
                have one : (bytes " ").length = 1 := by decide
                simp only [List.length_append, one] at first second
                omega
              simp only [terminated, start, middle, find_append terminated u, cut_append start u,
                cut_append middle u]
              exact List.set_append_left _ _ inside

theorem drop_decodeHeaderMemory {r r' : Response} {data : List UInt8} {n : Nat}
    (h : decodeHeader r (data.take n) = (.decoded, r')) (room : n ≤ data.length) :
    (decodeHeaderMemory data).drop n = data.drop n := by
  have split := decodeHeaderMemory_append h (data.drop n)
  rw [List.take_append_drop] at split
  rw [split]
  refine List.drop_left' ?_
  rw [decodeHeaderMemory_length, List.length_take, Nat.min_eq_left room]

/-- Where the text ends with a line end, no value runs out of it. -/
theorem decodeEntries_not_threw {data : List UInt8} (r : Response) (ending : crlf <:+ data) :
    (decodeEntries 2 data r).1 ≠ .threw := by
  induction m : data.length using Nat.strongRecOn generalizing data r with
  | ind m ih =>
      rw [decodeEntries_eq]
      split
      · split
        · simp
        · case h_2 key rest first =>
            have inside : crlf <:+ rest := by
              obtain ⟨front, rfl⟩ := ending
              have colon : bytes ": " = [58, 32] := by decide
              have whole := cut_spec first
              rw [colon] at whole
              rcases List.eq_nil_or_concat' rest with rfl | ⟨rest', y, rfl⟩
              · have := congrArg List.getLast? whole
                simp [crlf] at this
              · rcases List.eq_nil_or_concat' rest' with rfl | ⟨rest'', x, rfl⟩
                · have := congrArg (fun l => l.reverse.take 2) whole
                  simp [crlf] at this
                · have := congrArg (fun l => l.reverse.take 2) whole
                  simp [crlf] at this
                  refine ⟨rest'', ?_⟩
                  simp [crlf, this]
            split
            · case h_1 missing =>
                exact absurd inside.isInfix (cut_eq_none_iff.mp missing)
            · case h_2 value rest' second =>
                have size := congrArg List.length (cut_spec first)
                have size' := congrArg List.length (cut_spec second)
                simp only [List.length_append, crlf, List.length_cons, List.length_nil]
                  at size size'
                by_cases more : 2 < rest'.length
                · have ending' : crlf <:+ rest' :=
                    List.suffix_of_suffix_length_le inside (suffix_of_cut second)
                      (by simp only [crlf, List.length_cons, List.length_nil]; omega)
                  exact ih _ (by omega) _ ending' rfl
                · rw [decodeEntries_eq, if_neg more]
                  simp
      · simp

/-- The header block alone never makes decode_header throw. -/
theorem decodeHeader_block_not_threw (r : Response) {block : List UInt8} {h : Nat}
    (found : find terminator block = some h) (size : block.length = h + 4) :
    (decodeHeader r block).1 ≠ .threw := by
  unfold decodeHeader
  dsimp only
  split
  · simp
  · case h_2 header_end found' =>
      have prefix_ : cstr block <+: block := List.takeWhile_prefix _
      have whole : cstr block = block := by
        obtain ⟨t, ht⟩ := prefix_
        have same := find_append found' t
        rw [ht] at same
        have : header_end = h := by
          rw [terminator] at found
          rw [same] at found
          exact Option.some.inj found
        have room := find_le found'
        simp only [List.length_append, crlf, List.length_cons, List.length_nil] at room
        refine List.IsPrefix.eq_of_length_le (List.takeWhile_prefix _) ?_
        show block.length ≤ (cstr block).length
        omega
      rw [whole] at found' ⊢
      have same : header_end = h := by
        rw [terminator] at found
        rw [found'] at found
        exact Option.some.inj found
      have ending : crlf ++ crlf <:+ block := by
        have spec := find_spec found'
        refine ⟨block.take header_end, ?_⟩
        rw [List.drop_of_length_le (by simp [crlf]; omega)] at spec
        simpa using spec.symm
      split
      · simp
      · case h_2 version data first =>
          split
          · simp
          · case h_2 code data' second =>
              split
              · simp
              · case h_2 desc data'' third =>
                  have bound : block.length - (header_end + 2) = 2 := by omega
                  rw [bound]
                  by_cases more : 2 < data''.length
                  · refine decodeEntries_not_threw _ ?_
                    have back := (suffix_of_cut third).trans
                      ((suffix_of_cut second).trans (suffix_of_cut first))
                    exact List.suffix_of_suffix_length_le ((List.suffix_append crlf crlf).trans ending)
                      back (by simp only [crlf, List.length_cons, List.length_nil]; omega)
                  · rw [decodeEntries_eq, if_neg more]
                    simp

/-- A line that starts in front of the empty line ends there at the latest. -/
theorem line_in_block {before line after : List UInt8} {h : Nat} (noCr : 13 ∉ line)
    (found : find terminator (before ++ crlf ++ line ++ crlf ++ after) = some h)
    (early : before.length < h) :
    crlf ++ line ++ crlf <:+: (before ++ crlf ++ line ++ crlf ++ after).take (h + 4) := by
  have late : before.length + line.length + 2 ≤ h := by
    by_contra inside
    -- The empty line would start on the line feed or on a letter of the line.
    have letter : (before ++ crlf ++ line ++ crlf ++ after)[h]? = some 13 := by
      have spec := find_spec found
      have room := find_le found
      rw [spec, List.append_assoc, List.getElem?_append_right (by simp)]
      simp only [List.length_take]
      rw [Nat.min_eq_left (by omega), Nat.sub_self]
      rfl
    obtain ⟨k, rfl⟩ : ∃ k, h = before.length + 1 + k := ⟨h - before.length - 1, by omega⟩
    have tail : before ++ crlf ++ line ++ crlf ++ after =
        (before ++ [13]) ++ (10 :: line) ++ (crlf ++ after) := by simp [crlf]
    have past : (before ++ [13]).length ≤ before.length + 1 + k := by simp
    have inLine : before.length + 1 + k - (before ++ [13]).length < (10 :: line).length := by
      simp only [List.length_append, List.length_cons, List.length_nil]
      omega
    rw [tail, List.append_assoc, List.getElem?_append_right past,
      List.getElem?_append_left inLine] at letter
    have mem := List.mem_of_getElem? letter
    simp [noCr] at mem
  have split : before ++ crlf ++ line ++ crlf ++ after =
      before ++ (crlf ++ line ++ crlf) ++ after := by simp
  have front : before ++ (crlf ++ line ++ crlf) <+:
      (before ++ crlf ++ line ++ crlf ++ after).take (h + 4) := by
    rw [List.prefix_take_iff, split]
    refine ⟨List.prefix_append _ _, ?_⟩
    simp only [List.length_append, crlf, List.length_cons, List.length_nil]
    omega
  exact (List.suffix_append _ _).isInfix.trans front.isInfix

theorem addField_chunk {r : Response} {key value : List UInt8}
    (h : (r.addField key value).is_chunk = true) :
    r.is_chunk = true ∨ key ++ bytes ": " ++ value = chunkedLine := by
  unfold Response.addField at h
  split at h
  · exact .inl h
  · split at h
    · case isTrue chunked =>
        refine .inr ?_
        rw [chunked.1, chunked.2]
        decide
    · exact .inl h

/-- Only an announcement in the header block sets the chunk flag. -/
theorem decodeEntries_chunk {text before data : List UInt8} {h : Nat} {r : Response}
    (found : find terminator text = some h) (split : text = before ++ crlf ++ data)
    (chunk : (decodeEntries (text.length - (h + 2)) data r).2.is_chunk = true) :
    r.is_chunk = true ∨ crlf ++ chunkedLine ++ crlf <:+: text.take (h + 4) := by
  induction k : data.length using Nat.strongRecOn generalizing before data r with
  | ind n ih =>
      rw [decodeEntries_eq] at chunk
      split at chunk
      · case isTrue more =>
          split at chunk
          · exact .inl chunk
          · case h_2 key rest first =>
              split at chunk
              · exact .inl chunk
              · case h_2 value rest' second =>
                  have whole : data = key ++ bytes ": " ++ value ++ crlf ++ rest' := by
                    rw [cut_spec first, cut_spec second]
                    simp
                  have size := congrArg List.length whole
                  simp only [List.length_append, crlf, List.length_cons, List.length_nil] at size
                  have again : text = before ++ crlf ++ (key ++ bytes ": " ++ value) ++ crlf ++ rest' := by
                    rw [split, whole]
                    simp
                  rcases ih _ (by omega) again chunk rfl with flag | inside
                  · rcases addField_chunk flag with old | line
                    · exact .inl old
                    · refine .inr ?_
                      have shape : text = before ++ crlf ++ chunkedLine ++ crlf ++ rest' := by
                        rw [split, whole, ← line]
                        simp
                      rw [shape]
                      refine line_in_block (by decide) (shape ▸ found) ?_
                      have length := congrArg List.length split
                      simp only [List.length_append, crlf, List.length_cons, List.length_nil] at length
                      omega
                  · exact .inr inside
      · exact .inl chunk

theorem decodeHeader_chunk {q : List UInt8} {h : Nat} (found : find terminator q = some h)
    (plain : ¬ crlf ++ chunkedLine ++ crlf <:+: q.take (h + 4)) {r : Response}
    (decoded : decodeHeader {} q = (.decoded, r)) : r.is_chunk = false := by
  by_contra chunk
  obtain ⟨u, text⟩ : ∃ u, cstr q ++ u = q := List.takeWhile_prefix _
  unfold decodeHeader at decoded
  dsimp only at decoded
  split at decoded
  · cases decoded
  · case h_2 header_end found' =>
      have same : header_end = h := by
        have whole := find_append found' u
        rw [text, ← terminator, found] at whole
        exact (Option.some.inj whole).symm
      split at decoded
      · cases decoded
      · case h_2 version data first =>
          split at decoded
          · cases decoded
          · case h_2 code data' second =>
              split at decoded
              · cases decoded
              · case h_2 desc data'' third =>
                  have shape : cstr q =
                      (version ++ bytes " " ++ code ++ bytes " " ++ desc) ++ crlf ++ data'' := by
                    rw [cut_spec first, cut_spec second, cut_spec third]
                    simp
                  have flag := congrArg (fun d => d.2.is_chunk) decoded
                  rw [same] at flag
                  rcases decodeEntries_chunk (same ▸ found') shape
                    (flag.trans (by simpa using chunk)) with start | inside
                  · cases start
                  · have front : (cstr q).take (h + 4) <+: q.take (h + 4) :=
                      (List.takeWhile_prefix _).take (h + 4)
                    exact plain (inside.trans front.isInfix)

/-- What a complete header comes to once all bytes are in. -/
def bodyOutcome (s : List UInt8) (pos : Nat) (r : Response) : Outcome :=
  if s.length - pos < r.content_length then .waiting
  else { r with body := s.drop pos }.outcome

theorem bodyOutcome_congr {s t : List UInt8} {pos : Nat} (length : s.length = t.length)
    (body : s.drop pos = t.drop pos) (r : Response) : bodyOutcome s pos r = bodyOutcome t pos r := by
  rw [bodyOutcome, bodyOutcome, length, body]

/-- The body part of a callback, and the callbacks after it. -/
def feedBody (q : List UInt8) (pos : Nat) (r : Response) (fs : List (List UInt8)) : Outcome :=
  if q.length - pos < r.content_length then feed (bodyClient q pos r) fs
  else { r with body := q.drop pos }.outcome

theorem feed_again {c d : Client} {f : List UInt8} (fs : List (List UInt8))
    (call : recvCallback c f = (.returned true, d)) (more : d.decode_step ≠ .done) :
    feed c (f :: fs) = feed d fs := by
  simp [feed, call, more]

theorem feed_done {c d : Client} {f : List UInt8} (fs : List (List UInt8))
    (call : recvCallback c f = (.returned true, d)) (done : d.decode_step = .done) :
    feed c (f :: fs) = d.response.outcome := by
  simp [feed, call, done]

theorem bodyPass_waiting {q : List UInt8} {pos : Nat} {r : Response} (room : pos ≤ q.length)
    (plain : r.is_chunk = false) (short : q.length - pos < r.content_length) :
    (bodyClient q pos r).bodyPass = .ended (.returned true) (bodyClient q pos r) := by
  simp [Client.bodyPass, bodyClient, sizeSub, plain, room, short]

theorem bodyPass_done {q : List UInt8} {pos : Nat} {r : Response} (room : pos ≤ q.length)
    (plain : r.is_chunk = false) (full : ¬ q.length - pos < r.content_length) :
    (bodyClient q pos r).bodyPass = .ended (.returned true) { bodyClient q pos r with
      decode_step := .done, buf_pos := pos + r.content_length,
      response := { r with body := q.drop pos } } := by
  simp [Client.bodyPass, bodyClient, Client.finish, sizeSub, plain, room, full]

/-- A callback whose pass is the body part. -/
theorem feed_of_bodyPass {c d : Client} {f q : List UInt8} {pos : Nat} {r : Response}
    (call : recvCallback c f = d.run) (pass : d.pass = (bodyClient q pos r).bodyPass)
    (room : pos ≤ q.length) (plain : r.is_chunk = false) (fs : List (List UInt8)) :
    feed c (f :: fs) = feedBody q pos r fs := by
  rw [feedBody]
  by_cases short : q.length - pos < r.content_length
  · rw [if_pos short]
    rw [bodyPass_waiting room plain short] at pass
    refine feed_again fs (call.trans (Client.run_ended pass)) ?_
    simp [bodyClient]
  · rw [if_neg short]
    rw [bodyPass_done room plain short] at pass
    exact feed_done fs (call.trans (Client.run_ended pass)) rfl

theorem feed_body {p f : List UInt8} {pos : Nat} {r : Response} (room : pos ≤ p.length)
    (some_ : f ≠ []) (plain : r.is_chunk = false) (fs : List (List UInt8)) :
    feed (bodyClient p pos r) (f :: fs) = feedBody (p ++ f) pos r fs := by
  have more : (p ++ f).length ≠ pos := by
    have := List.length_pos_iff.mpr some_
    rw [List.length_append]
    omega
  have room' : pos ≤ (p ++ f).length := by
    rw [List.length_append]
    omega
  refine feed_of_bodyPass rfl ?_ room' plain fs
  unfold Client.pass
  exact (if_neg more).trans (if_pos rfl)

theorem feed_no_terminator {p f : List UInt8} (some_ : f ≠ [])
    (missing : find terminator (p ++ f) = none) (fs : List (List UInt8)) :
    feed (headerClient p) (f :: fs) =
      if (p ++ f).length < 1024 then feed (headerClient (p ++ f)) fs else .rejected := by
  have more : (p ++ f).length ≠ 0 := by simp [some_]
  have pass : (headerClient (p ++ f)).pass =
      .ended (.returned (decide ((p ++ f).length < 1024))) (headerClient (p ++ f)) := by
    have missing' : find (crlf ++ crlf) (p ++ f) = none := missing
    simp only [Client.pass, headerClient, if_neg more, List.drop_zero, missing', sizeSub]
    simp
  have call : recvCallback (headerClient p) f = (headerClient (p ++ f)).run := rfl
  rw [Client.run_ended pass] at call
  by_cases short : (p ++ f).length < 1024
  · rw [if_pos short]
    rw [decide_eq_true short] at call
    refine feed_again fs call ?_
    simp [headerClient]
  · rw [if_neg short]
    rw [decide_eq_false short] at call
    simp [feed, call]

theorem feed_terminator {p f : List UInt8} {h : Nat} (some_ : f ≠ [])
    (found : find terminator (p ++ f) = some h)
    (plain : ∀ r, decodeHeader {} (p ++ f) = (.decoded, r) → r.is_chunk = false)
    (fs : List (List UInt8)) :
    feed (headerClient p) (f :: fs) =
      match decodeHeader {} (p ++ f) with
      | (.rejected, _) => .rejected
      | (.threw, _) => .threw
      | (.decoded, r) => feedBody (decodeHeaderMemory (p ++ f)) (h + 4) r fs := by
  have more : (p ++ f).length ≠ 0 := by simp [some_]
  have found' : find (crlf ++ crlf) (p ++ f) = some h := found
  have call : recvCallback (headerClient p) f = (headerClient (p ++ f)).run := rfl
  have pass : (headerClient (p ++ f)).pass =
      match decodeHeader {} (p ++ f) with
      | (.rejected, r) =>
          .ended (.returned false) { headerClient (decodeHeaderMemory (p ++ f)) with response := r }
      | (.threw, r) => .ended .threw { headerClient (decodeHeaderMemory (p ++ f)) with response := r }
      | (.decoded, r) => (bodyClient (decodeHeaderMemory (p ++ f)) (h + 4) r).bodyPass := by
    simp only [Client.pass, headerClient, Client.decodedBuf, if_neg more, List.drop_zero,
      List.take_zero, List.nil_append, found', reduceCtorEq, ↓reduceIte, Nat.zero_add]
    rfl
  rcases decoded : decodeHeader {} (p ++ f) with ⟨status, r⟩
  cases status with
  | rejected =>
      rw [decoded] at pass
      rw [Client.run_ended pass] at call
      simp [feed, call]
  | threw =>
      rw [decoded] at pass
      rw [Client.run_ended pass] at call
      simp [feed, call]
  | decoded =>
      rw [decoded] at pass
      have room := find_le found'
      simp only [crlf, List.length_append, List.length_cons, List.length_nil] at room
      refine feed_of_bodyPass call pass ?_ (plain r decoded) fs
      rw [decodeHeaderMemory_length, List.length_append]
      omega

/-- A stream that ends within the announced body is delivered whole. -/
theorem feed_bodyClient {p : List UInt8} {pos : Nat} {r : Response} {fs : List (List UInt8)}
    (room : pos ≤ p.length) (plain : r.is_chunk = false)
    (short : p.length - pos < r.content_length) (nonempty : ∀ f ∈ fs, f ≠ [])
    (fits : (p ++ fs.flatten).length ≤ pos + r.content_length) :
    feed (bodyClient p pos r) fs = bodyOutcome (p ++ fs.flatten) pos r := by
  induction fs generalizing p with
  | nil => simp [feed, bodyOutcome, short]
  | cons f fs ih =>
      have whole : p ++ (f :: fs).flatten = (p ++ f) ++ fs.flatten := by simp
      have room' : pos ≤ (p ++ f).length := by
        rw [List.length_append]
        omega
      rw [whole] at fits ⊢
      rw [feed_body room (nonempty f List.mem_cons_self) plain, feedBody]
      by_cases more : (p ++ f).length - pos < r.content_length
      · rw [if_pos more]
        exact ih room' more (fun g hg => nonempty g (List.mem_cons_of_mem f hg)) fits
      · have rest : fs.flatten = [] := by
          apply List.eq_nil_of_length_eq_zero
          rw [List.length_append] at fits
          omega
        rw [if_neg more, rest, List.append_nil, bodyOutcome, if_neg more]

theorem feedBody_eq {q : List UInt8} {pos : Nat} {r : Response} {fs : List (List UInt8)}
    (room : pos ≤ q.length) (plain : r.is_chunk = false) (nonempty : ∀ f ∈ fs, f ≠ [])
    (fits : (q ++ fs.flatten).length ≤ pos + r.content_length) :
    feedBody q pos r fs = bodyOutcome (q ++ fs.flatten) pos r := by
  rw [feedBody]
  by_cases more : q.length - pos < r.content_length
  · rw [if_pos more]
    exact feed_bodyClient room plain more nonempty fits
  · have rest : fs.flatten = [] := by
      apply List.eq_nil_of_length_eq_zero
      rw [List.length_append] at fits
      omega
    rw [if_neg more, rest, List.append_nil, bodyOutcome, if_neg more]

/-- Behind a decoded header nothing is refused and nothing throws. -/
theorem feed_bodyClient_ne {p : List UInt8} {pos : Nat} {r : Response} {fs : List (List UInt8)}
    (room : pos ≤ p.length) (plain : r.is_chunk = false) (nonempty : ∀ f ∈ fs, f ≠ []) :
    feed (bodyClient p pos r) fs ≠ .rejected ∧ feed (bodyClient p pos r) fs ≠ .threw := by
  induction fs generalizing p with
  | nil => simp [feed]
  | cons f fs ih =>
      have room' : pos ≤ (p ++ f).length := by
        rw [List.length_append]
        omega
      rw [feed_body room (nonempty f List.mem_cons_self) plain, feedBody]
      split
      · exact ih room' fun g hg => nonempty g (List.mem_cons_of_mem f hg)
      · simp [Response.outcome]

theorem feedBody_ne {q : List UInt8} {pos : Nat} {r : Response} {fs : List (List UInt8)}
    (room : pos ≤ q.length) (plain : r.is_chunk = false) (nonempty : ∀ f ∈ fs, f ≠ []) :
    feedBody q pos r fs ≠ .rejected ∧ feedBody q pos r fs ≠ .threw := by
  rw [feedBody]
  split
  · exact feed_bodyClient_ne room plain nonempty
  · simp [Response.outcome]

theorem feed_unterminated {p : List UInt8} {fs : List (List UInt8)}
    (nonempty : ∀ f ∈ fs, f ≠ []) (short : p.length < 1024)
    (missing : find terminator (p ++ fs.flatten) = none) :
    feed (headerClient p) fs =
      if (p ++ fs.flatten).length < 1024 then .waiting else .rejected := by
  induction fs generalizing p with
  | nil => simp [feed, short]
  | cons f fs ih =>
      have whole : p ++ (f :: fs).flatten = (p ++ f) ++ fs.flatten := by simp
      rw [whole] at missing ⊢
      have missing' : find terminator (p ++ f) = none := by
        rw [find_eq_none_iff] at missing ⊢
        exact fun inside => missing (inside.trans (List.prefix_append _ _).isInfix)
      rw [feed_no_terminator (nonempty f List.mem_cons_self) missing']
      by_cases more : (p ++ f).length < 1024
      · rw [if_pos more]
        exact ih (fun g hg => nonempty g (List.mem_cons_of_mem f hg)) more missing
      · have long : ¬ (p ++ f ++ fs.flatten).length < 1024 := by
          rw [List.length_append]
          omega
        rw [if_neg more, if_neg long]

/-- The prefix received so far has the empty line of the whole stream, or none. -/
theorem find_in_prefix {q t : List UInt8} {h : Nat} (found : find terminator (q ++ t) = some h) :
    (find terminator q = some h ∧ h + 4 ≤ q.length) ∨
      (find terminator q = none ∧ q.length < h + 4) := by
  cases here : find terminator q with
  | some h' =>
      have same := find_append here t
      rw [found] at same
      have room := find_le here
      rw [← Option.some.inj same] at room ⊢
      exact .inl ⟨rfl, room⟩
  | none =>
      refine .inr ⟨rfl, ?_⟩
      by_contra room
      rw [find_of_append found (by
        have : terminator.length = 4 := rfl
        omega)] at here
      cases here

theorem feed_rejected {p : List UInt8} {fs : List (List UInt8)} {h : Nat}
    (nonempty : ∀ f ∈ fs, f ≠ []) (early : p.length < h + 4)
    (found : find terminator (p ++ fs.flatten) = some h)
    (rejected : ∀ n, h + 4 ≤ n → n ≤ (p ++ fs.flatten).length →
      (decodeHeader {} ((p ++ fs.flatten).take n)).1 = .rejected) :
    feed (headerClient p) fs = .rejected := by
  induction fs generalizing p with
  | nil =>
      have room := find_le found
      simp only [terminator, crlf, List.flatten_nil, List.append_nil, List.length_append,
        List.length_cons, List.length_nil] at room
      omega
  | cons f fs ih =>
      have whole : p ++ (f :: fs).flatten = (p ++ f) ++ fs.flatten := by simp
      rw [whole] at found rejected
      have some_ := nonempty f List.mem_cons_self
      rcases find_in_prefix found with ⟨here, room⟩ | ⟨missing, room⟩
      · have verdict := rejected (p ++ f).length room (List.prefix_append _ _).length_le
        rw [List.take_left] at verdict
        have plain (r : Response) (decoded : decodeHeader {} (p ++ f) = (.decoded, r)) :
            r.is_chunk = false := by
          rw [decoded] at verdict
          cases verdict
        rw [feed_terminator some_ here plain]
        split
        · rfl
        · case h_2 r threw =>
            rw [threw] at verdict
            cases verdict
        · case h_3 r decoded =>
            rw [decoded] at verdict
            cases verdict
      · rw [feed_no_terminator some_ missing]
        split
        · exact ih (fun g hg => nonempty g (List.mem_cons_of_mem f hg)) room found rejected
        · rfl

theorem feed_decoded {p : List UInt8} {fs : List (List UInt8)} {h : Nat} {r : Response}
    (nonempty : ∀ f ∈ fs, f ≠ []) (early : p.length < h + 4) (short : h + 4 ≤ 1024)
    (found : find terminator (p ++ fs.flatten) = some h) (plain : r.is_chunk = false)
    (decoded : decodeHeader {} ((p ++ fs.flatten).take (h + 4)) = (.decoded, r))
    (fits : (p ++ fs.flatten).length ≤ h + 4 + r.content_length) :
    feed (headerClient p) fs = bodyOutcome (p ++ fs.flatten) (h + 4) r := by
  induction fs generalizing p with
  | nil =>
      have room := find_le found
      simp only [terminator, crlf, List.flatten_nil, List.append_nil, List.length_append,
        List.length_cons, List.length_nil] at room
      omega
  | cons f fs ih =>
      have whole : p ++ (f :: fs).flatten = (p ++ f) ++ fs.flatten := by simp
      rw [whole] at found decoded fits ⊢
      have some_ := nonempty f List.mem_cons_self
      have others : ∀ g ∈ fs, g ≠ [] := fun g hg => nonempty g (List.mem_cons_of_mem f hg)
      rcases find_in_prefix found with ⟨here, room⟩ | ⟨missing, room⟩
      · rw [List.take_append_of_le_length room] at decoded
        have decoded' : decodeHeader {} (p ++ f) = (.decoded, r) := by
          have more := decodeHeader_append decoded ((p ++ f).drop (h + 4))
          rwa [List.take_append_drop] at more
        have plain' (r' : Response) (again : decodeHeader {} (p ++ f) = (.decoded, r')) :
            r'.is_chunk = false := by
          rw [decoded'] at again
          cases again
          exact plain
        have size := decodeHeaderMemory_length (p ++ f)
        have body : (decodeHeaderMemory (p ++ f) ++ fs.flatten).drop (h + 4) =
            (p ++ f ++ fs.flatten).drop (h + 4) := by
          rw [List.drop_append_of_le_length (by omega), List.drop_append_of_le_length room,
            drop_decodeHeaderMemory decoded room]
        have sizes : (decodeHeaderMemory (p ++ f) ++ fs.flatten).length =
            (p ++ f ++ fs.flatten).length := by
          rw [List.length_append, size, ← List.length_append]
        rw [feed_terminator some_ here plain', decoded', ← bodyOutcome_congr sizes body]
        exact feedBody_eq (by omega) plain others (by omega)
      · rw [feed_no_terminator some_ missing, if_pos (by omega)]
        exact ih others room found decoded fits

/-- The stream in two fragments, or in one. -/
def cutAt (n : Nat) (s : List UInt8) : List (List UInt8) :=
  if n < s.length then [s.take n, s.drop n] else [s]

theorem cutAt_flatten (n : Nat) (s : List UInt8) : (cutAt n s).flatten = s := by
  unfold cutAt
  split <;> simp

theorem cutAt_cons {n : Nat} {s : List UInt8} (pos : 0 < n) (some_ : s ≠ []) :
    ∃ fs, cutAt n s = s.take n :: fs ∧ s.take n ≠ [] ∧ ∀ f ∈ fs, f ≠ [] := by
  have taken : s.take n ≠ [] := by
    simp only [ne_eq, List.take_eq_nil_iff, not_or]
    exact ⟨by omega, some_⟩
  unfold cutAt
  split
  · case isTrue inside =>
      refine ⟨_, rfl, taken, ?_⟩
      simp [inside]
  · case isFalse all =>
      refine ⟨[], ?_, taken, by simp⟩
      rw [List.take_of_length_le (by omega)]

theorem cutAt_nonempty {n : Nat} {s : List UInt8} (pos : 0 < n) (some_ : s ≠ []) :
    ∀ f ∈ cutAt n s, f ≠ [] := by
  obtain ⟨fs, cut, taken, others⟩ := cutAt_cons pos some_
  rw [cut]
  simp only [List.mem_cons, forall_eq_or_imp]
  exact ⟨taken, others⟩

/-- When the cuts cannot matter: see feed_unterminated, feed_rejected, feed_decoded. -/
def Settled (s : List UInt8) : Prop :=
  ∀ h, find terminator s = some h →
    (∀ n, h + 4 ≤ n → n ≤ s.length → (decodeHeader {} (s.take n)).1 = .rejected) ∨
      (h + 4 ≤ 1024 ∧ ∃ r, decodeHeader {} (s.take (h + 4)) = (.decoded, r) ∧
        s.length ≤ h + 4 + r.content_length)

theorem chunk_of_unannounced {s : List UInt8} {h n : Nat} {r : Response}
    (unannounced : ¬ Announced s) (found : find terminator s = some h) (behind : h + 4 ≤ n)
    (decoded : decodeHeader {} (s.take n) = (.decoded, r)) : r.is_chunk = false := by
  have room := find_le found
  have length : terminator.length = 4 := rfl
  have found' : find terminator (s.take n) = some h := by
    rw [← List.take_append_drop n s] at found
    refine find_of_append found ?_
    rw [List.length_take]
    omega
  refine decodeHeader_chunk found' ?_ decoded
  rw [List.take_take, Nat.min_eq_left behind]
  unfold Announced headerBlock at unannounced
  rw [found] at unannounced
  exact unannounced

theorem insensitive_of_settled {s : List UInt8} (unannounced : ¬ Announced s)
    (settled : Settled s) : Insensitive s := by
  intro fs gs hfs hgs whole whole'
  cases found : find terminator s with
  | none =>
      have same (fs : List (List UInt8)) (nonempty : ∀ f ∈ fs, f ≠ []) (h : fs.flatten = s) :
          feed (headerClient []) fs = if s.length < 1024 then .waiting else .rejected := by
        have outcome := feed_unterminated (p := []) nonempty (by simp)
          (by rw [List.nil_append, h, found])
        rwa [List.nil_append, h] at outcome
      rw [same fs hfs whole, same gs hgs whole']
  | some h =>
      rcases settled h found with rejected | ⟨short, r, decoded, fits⟩
      · have same (fs : List (List UInt8)) (nonempty : ∀ f ∈ fs, f ≠ []) (h' : fs.flatten = s) :
            feed (headerClient []) fs = .rejected := by
          subst h'
          exact feed_rejected (p := []) nonempty (by simp) found rejected
        rw [same fs hfs whole, same gs hgs whole']
      · have plain := chunk_of_unannounced unannounced found (Nat.le_refl _) decoded
        have same (fs : List (List UInt8)) (nonempty : ∀ f ∈ fs, f ≠ []) (h' : fs.flatten = s) :
            feed (headerClient []) fs = bodyOutcome s (h + 4) r := by
          subst h'
          exact feed_decoded (p := []) nonempty (by simp) short found plain decoded fits
        rw [same fs hfs whole, same gs hgs whole']

/-- The first of the two fragments holds the header block. -/
theorem feed_cutAt {s : List UInt8} {h n : Nat} (unannounced : ¬ Announced s)
    (found : find terminator s = some h) (behind : h + 4 ≤ n) :
    ∃ fs, (∀ f ∈ fs, f ≠ []) ∧ cutAt n s = s.take n :: fs ∧
      feed (headerClient []) (cutAt n s) =
        match decodeHeader {} (s.take n) with
        | (.rejected, _) => .rejected
        | (.threw, _) => .threw
        | (.decoded, r) => feedBody (decodeHeaderMemory (s.take n)) (h + 4) r fs := by
  have room := find_le found
  have length : terminator.length = 4 := rfl
  have some_ : s ≠ [] := by
    rintro rfl
    simp [length] at room
  obtain ⟨fs, cut, taken, others⟩ := cutAt_cons (n := n) (by omega) some_
  refine ⟨fs, others, cut, ?_⟩
  have found' : find terminator ([] ++ s.take n) = some h := by
    rw [← List.take_append_drop n s] at found
    refine find_of_append found ?_
    rw [List.nil_append, List.length_take]
    omega
  rw [cut]
  exact feed_terminator taken found'
    (fun r decoded => chunk_of_unannounced unannounced found behind decoded) fs

theorem feed_cutAt_rejected_iff {s : List UInt8} {h n : Nat} (unannounced : ¬ Announced s)
    (found : find terminator s = some h) (behind : h + 4 ≤ n) :
    feed (headerClient []) (cutAt n s) = .rejected ↔
      (decodeHeader {} (s.take n)).1 = .rejected := by
  obtain ⟨fs, others, cut, outcome⟩ := feed_cutAt unannounced found behind
  rw [outcome]
  match decoded : decodeHeader {} (s.take n) with
  | (.rejected, r) => simp
  | (.threw, r) => simp
  | (.decoded, r) =>
      have room : h + 4 ≤ (decodeHeaderMemory (s.take n)).length := by
        have := find_le found
        have length : terminator.length = 4 := rfl
        rw [decodeHeaderMemory_length, List.length_take]
        omega
      have plain := chunk_of_unannounced unannounced found behind decoded
      simpa using (feedBody_ne room plain others).1

theorem feed_long {s : List UInt8} {h : Nat} (found : find terminator s = some h)
    (long : 1024 < h + 4) : feed (headerClient []) (cutAt 1024 s) = .rejected := by
  have room := find_le found
  have length : terminator.length = 4 := rfl
  have some_ : s ≠ [] := by
    rintro rfl
    simp [length] at room
  obtain ⟨fs, cut, taken, others⟩ := cutAt_cons (n := 1024) (by omega) some_
  have missing : find terminator ([] ++ s.take 1024) = none := by
    rw [← List.take_append_drop 1024 s] at found
    rcases find_in_prefix found with ⟨here, inside⟩ | ⟨missing, outside⟩
    · rw [List.length_take] at inside
      omega
    · exact missing
  rw [cut, feed_no_terminator taken missing, if_neg]
  rw [List.nil_append, List.length_take]
  omega

theorem settled_of_insensitive {s : List UInt8} (unannounced : ¬ Announced s)
    (insensitive : Insensitive s) : Settled s := by
  intro h found
  have room := find_le found
  have length : terminator.length = 4 := rfl
  have some_ : s ≠ [] := by
    rintro rfl
    simp [length] at room
  have same (n m : Nat) (hn : 0 < n) (hm : 0 < m) :
      feed (headerClient []) (cutAt n s) = feed (headerClient []) (cutAt m s) :=
    insensitive _ _ (cutAt_nonempty hn some_) (cutAt_nonempty hm some_)
      (cutAt_flatten n s) (cutAt_flatten m s)
  have first := feed_cutAt_rejected_iff unannounced found (Nat.le_refl (h + 4))
  match decoded : decodeHeader {} (s.take (h + 4)) with
  | (.rejected, r) =>
      refine .inl fun n behind inside => ?_
      rw [decoded] at first
      rw [← feed_cutAt_rejected_iff unannounced found behind,
        same n (h + 4) (by omega) (by omega)]
      exact first.mpr rfl
  | (.threw, r) =>
      have found' : find terminator (s.take (h + 4)) = some h := by
        rw [← List.take_append_drop (h + 4) s] at found
        refine find_of_append found ?_
        rw [List.length_take]
        omega
      have calm := decodeHeader_block_not_threw {} found' (by rw [List.length_take]; omega)
      rw [decoded] at calm
      exact absurd rfl calm
  | (.decoded, r) =>
      rw [decoded] at first
      have short : h + 4 ≤ 1024 := by
        by_contra long
        have rejected := feed_long found (by omega)
        rw [same 1024 (h + 4) (by omega) (by omega), first] at rejected
        cases rejected
      refine .inr ⟨short, r, rfl, ?_⟩
      by_contra beyond
      -- A cut at the end of the announced body and the uncut stream give different bodies.
      have decoded' (n : Nat) (behind : h + 4 ≤ n) :
          decodeHeader {} (s.take n) = (.decoded, r) := by
        have more := decodeHeader_append decoded ((s.take n).drop (h + 4))
        have front : s.take (h + 4) = (s.take n).take (h + 4) := by
          rw [List.take_take, Nat.min_eq_left behind]
        rwa [front, List.take_append_drop] at more
      have outcome (n : Nat) (behind : h + 4 + r.content_length ≤ n) :
          feed (headerClient []) (cutAt n s) =
            { r with body := (s.take n).drop (h + 4) }.outcome := by
        obtain ⟨fs, others, cut, outcome⟩ := feed_cutAt unannounced found (n := n) (by omega)
        have front : (s.take n).take (h + 4) = s.take (h + 4) := by
          rw [List.take_take, Nat.min_eq_left (by omega)]
        have whole : h + 4 ≤ (s.take n).length := by
          rw [List.length_take]
          omega
        have body := drop_decodeHeaderMemory (front ▸ decoded) whole
        rw [outcome, decoded' n (by omega)]
        show feedBody _ _ _ _ = _
        rw [feedBody, if_neg, body]
        rw [decodeHeaderMemory_length, List.length_take]
        omega
      have bodies := same (h + 4 + r.content_length) s.length (by omega) (by omega)
      rw [outcome _ (Nat.le_refl _), outcome _ (by omega)] at bodies
      unfold Response.outcome at bodies
      injection bodies with _ _ _ _ bodies
      have sizes := congrArg List.length bodies
      simp only [List.length_drop, List.length_take] at sizes
      omega

theorem insensitive_iff (s : List UInt8) (unannounced : ¬ Announced s) :
    Insensitive s ↔ Settled s :=
  ⟨settled_of_insensitive unannounced, insensitive_of_settled unannounced⟩

def overlongReply : List UInt8 := bytes "HTTP/1.1 200 OK\r\nContent-Length: 1\r\n\r\nab"

theorem overlongReply_decoded :
    decodeHeader {} (overlongReply.take 38) =
      (.decoded, { status_desc := bytes "OK", content_length := 1 }) := by
  have line : cut (bytes ": ") (bytes "Content-Length: 1\r\n\r\n") =
      some (bytes "Content-Length", bytes "1\r\n\r\n") := by decide
  have value : cut crlf (bytes "1\r\n\r\n") = some (bytes "1", crlf) := by decide
  have entries (r : Response) : decodeEntries 2 (bytes "Content-Length: 1\r\n\r\n") r =
      (.decoded, { r with content_length := 1 }) := by
    rw [decodeEntries_eq, if_pos (by decide), line]
    dsimp only
    rw [value]
    dsimp only
    rw [decodeEntries_eq, if_neg (by decide)]
    rfl
  have text : cstr (overlongReply.take 38) = overlongReply.take 38 := by decide
  have ending : find (crlf ++ crlf) (overlongReply.take 38) = some 34 := by decide
  have first : cut (bytes " ") (overlongReply.take 38) =
      some (bytes "HTTP/1.1", bytes "200 OK\r\nContent-Length: 1\r\n\r\n") := by decide
  have second : cut (bytes " ") (bytes "200 OK\r\nContent-Length: 1\r\n\r\n") =
      some (bytes "200", bytes "OK\r\nContent-Length: 1\r\n\r\n") := by decide
  have third : cut crlf (bytes "OK\r\nContent-Length: 1\r\n\r\n") =
      some (bytes "OK", bytes "Content-Length: 1\r\n\r\n") := by decide
  have code : toUint16 (atoi (bytes "200")) = 200 := by decide
  have bound : (overlongReply.take 38).length - (34 + 2) = 2 := by decide
  unfold decodeHeader
  simp only [text, ending, first, second, third, code, bound, entries]

/-- The second byte behind a body of one byte is delivered or not, as the cut falls. -/
theorem overlongReply_sensitive : ¬ Announced overlongReply ∧ ¬ Insensitive overlongReply := by
  have unannounced : ¬ Announced overlongReply := by
    unfold Announced
    decide
  refine ⟨unannounced, fun insensitive => ?_⟩
  have found : find terminator overlongReply = some 34 := by decide
  rcases settled_of_insensitive unannounced insensitive 34 found with rejected | ⟨-, r, decoded, fits⟩
  · have verdict := rejected 38 (by decide) (by decide)
    rw [overlongReply_decoded] at verdict
    cases verdict
  · rw [overlongReply_decoded] at decoded
    cases decoded
    revert fits
    decide

theorem short_reply_insensitive :
    ¬ Announced (overlongReply.take 39) ∧ Insensitive (overlongReply.take 39) := by
  have unannounced : ¬ Announced (overlongReply.take 39) := by
    unfold Announced
    decide
  refine ⟨unannounced, (insensitive_iff _ unannounced).mpr ?_⟩
  intro h found
  have first : find terminator (overlongReply.take 39) = some 34 := by decide
  rw [first] at found
  cases found
  refine .inr ⟨by decide, _, overlongReply_decoded, by decide⟩

end HZRobot.Http
