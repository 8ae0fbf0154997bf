import HZRobot.HttpRoundTrip

/-!
One call after the other on a sync client. A call clears the buffer, the entries and
the length of the response object, but not its chunk flag; two clients that agree on
what the decoder reads go through any fragments alike.
-/

namespace HZRobot.Http

/-- How a call ends; a success with the fields compared. -/
inductive Call where
  | succeeded (entrys : List Entry) (content_length : Nat) (body : List UInt8)
  | failed
  | threw
  deriving DecidableEq, Repr

/-- The receive loop of sync_client::call; behind the last fragment recv fails. -/
def receive : Client → List (List UInt8) → Call × Client
  | c, [] => (.failed, c)
  | c, f :: fs =>
      match recvCallback c f with
      | (.threw, d) => (.threw, d)
      | (.returned false, d) => (.failed, d)
      | (.returned true, d) =>
          if d.decode_step = .done then
            (.succeeded d.response.entrys d.response.content_length d.response.body, d)
          else receive d fs

def Client.reset (c : Client) : Client :=
  { c with decode_step := .header, buf := [], buf_pos := 0, response := c.response.clear }

/-- The part of sync_client::call behind the send loop. -/
def Client.call (c : Client) (fs : List (List UInt8)) : Call × Client := receive c.reset fs

def syncClient : Client := { sync_mode := true }

/-- What recv can give: at least a byte, at most the receive buffer. -/
def Received (fs : List (List UInt8)) : Prop := ∀ f ∈ fs, f ≠ [] ∧ f.length ≤ 2048

/-- A client with a history of calls. -/
def after (history : List (List (List UInt8))) : Client :=
  history.foldl (fun c fs => (c.call fs).2) syncClient

/-- The next call ends as on a fresh client. -/
def Independent (c : Client) : Prop :=
  ∀ fs, Received fs → (c.call fs).1 = (syncClient.call fs).1

/-- Agreement on what the decoder reads before it writes it. -/
structure Alike (r s : Response) : Prop where
  entrys : r.entrys = s.entrys
  content_length : r.content_length = s.content_length
  is_chunk : r.is_chunk = s.is_chunk

theorem Alike.addField {r s : Response} (h : Alike r s) (key value : List UInt8) :
    Alike (r.addField key value) (s.addField key value) := by
  unfold Response.addField
  split
  · exact ⟨h.entrys, rfl, h.is_chunk⟩
  · split
    · exact ⟨h.entrys, h.content_length, rfl⟩
    · exact ⟨by rw [h.entrys], h.content_length, h.is_chunk⟩

/-- The same verdict, and agreement afterwards. -/
def DecodedAlike (a b : Decode × Response) : Prop := a.1 = b.1 ∧ Alike a.2 b.2

theorem decodeEntries_alike (bound : Nat) (data : List UInt8) {r s : Response} (h : Alike r s) :
    DecodedAlike (decodeEntries bound data r) (decodeEntries bound data s) := by
  induction k : data.length using Nat.strongRecOn generalizing data r s with
  | ind n ih =>
      rw [decodeEntries_eq bound data r, decodeEntries_eq bound data s]
      by_cases more : bound < data.length
      · rw [if_pos more, if_pos more]
        cases first : cut (bytes ": ") data with
        | none => exact ⟨rfl, h⟩
        | some p =>
            dsimp only
            cases second : cut crlf p.2 with
            | none => exact ⟨rfl, h⟩
            | some q =>
                have size := congrArg List.length (cut_spec first)
                have size' := congrArg List.length (cut_spec second)
                simp only [List.length_append, crlf, List.length_cons, List.length_nil] at size size'
                exact ih q.2.length (by omega) q.2 (h.addField p.1 q.1) rfl
      · rw [if_neg more, if_neg more]
        exact ⟨rfl, h⟩

theorem decodeHeader_alike (data : List UInt8) {r s : Response} (h : Alike r s) :
    DecodedAlike (decodeHeader r data) (decodeHeader s data) := by
  unfold decodeHeader
  dsimp only
  cases find (crlf ++ crlf) (cstr data) with
  | none => exact ⟨rfl, h⟩
  | some header_end =>
      dsimp only
      cases cut (bytes " ") (cstr data) with
      | none => exact ⟨rfl, h⟩
      | some p =>
          dsimp only
          cases cut (bytes " ") p.2 with
          | none => exact ⟨rfl, h.entrys, h.content_length, h.is_chunk⟩
          | some q =>
              dsimp only
              cases cut crlf q.2 with
              | none => exact ⟨rfl, h.entrys, h.content_length, h.is_chunk⟩
              | some l =>
                  exact decodeEntries_alike _ l.2 ⟨h.entrys, h.content_length, h.is_chunk⟩

/-- Two sync clients at the same place of the same bytes. -/
structure InStep (c d : Client) : Prop where
  sync : c.sync_mode = true ∧ d.sync_mode = true
  decode_step : c.decode_step = d.decode_step
  buf : c.buf = d.buf
  buf_pos : c.buf_pos = d.buf_pos
  response : Alike c.response d.response
  body : c.decode_step = .done → c.response.body = d.response.body

/-- Both passes end the call, with the same verdict. -/
def PassedAlike (a b : Pass) : Prop :=
  ∃ v c d, a = .ended v c ∧ b = .ended v d ∧ InStep c d

theorem bodyPass_alike {c d : Client} (h : InStep c d) (due : c.decode_step = .body) :
    PassedAlike c.bodyPass d.bodyPass := by
  obtain ⟨⟨sync, sync'⟩, decode_step, buf, buf_pos, ⟨entrys, content_length, is_chunk⟩, -⟩ := h
  have due' : d.decode_step = .body := decode_step ▸ due
  unfold Client.bodyPass Client.finish
  rw [← buf, ← buf_pos, ← content_length, ← is_chunk]
  dsimp only
  rw [sync, sync']
  by_cases plain : c.response.is_chunk = false
  · rw [if_pos plain, if_pos plain]
    by_cases short : sizeSub c.buf.length c.buf_pos < c.response.content_length
    · rw [if_pos short, if_pos short]
      exact ⟨_, _, _, rfl, rfl, ⟨sync, sync'⟩, decode_step, buf, buf_pos,
        ⟨entrys, content_length, is_chunk⟩, fun done => by simp [due] at done⟩
    · rw [if_neg short, if_neg short]
      exact ⟨_, _, _, rfl, rfl, ⟨rfl, rfl⟩, rfl, rfl, rfl, ⟨entrys, content_length, is_chunk⟩,
        fun _ => rfl⟩
  · rw [if_neg plain, if_neg plain]
    rcases chunkLoop c.buf c.buf_pos [] with ⟨end_, pos, body⟩
    cases end_ with
    | waiting =>
        exact ⟨_, _, _, rfl, rfl, ⟨rfl, rfl⟩, decode_step, rfl, rfl,
          ⟨entrys, content_length, is_chunk⟩, fun _ => rfl⟩
    | threw =>
        exact ⟨_, _, _, rfl, rfl, ⟨rfl, rfl⟩, decode_step, rfl, rfl,
          ⟨entrys, content_length, is_chunk⟩, fun _ => rfl⟩
    | complete =>
        exact ⟨_, _, _, rfl, rfl, ⟨rfl, rfl⟩, rfl, rfl, rfl,
          ⟨entrys, content_length, is_chunk⟩, fun _ => rfl⟩

theorem pass_alike {c d : Client} (h : InStep c d) (open_ : c.decode_step ≠ .done) :
    PassedAlike c.pass d.pass := by
  unfold Client.pass
  rw [← h.buf, ← h.buf_pos, ← h.decode_step]
  by_cases empty : c.buf.length = c.buf_pos
  · rw [if_pos empty, if_pos empty]
    exact ⟨_, _, _, rfl, rfl, h.sync, rfl, rfl, rfl, h.response, fun done => absurd done open_⟩
  · rw [if_neg empty, if_neg empty]
    by_cases due : c.decode_step = .body
    · rw [if_pos due, if_pos due]
      exact bodyPass_alike h due
    · rw [if_neg due, if_neg due]
      cases find (crlf ++ crlf) (c.buf.drop c.buf_pos) with
      | none => exact ⟨_, _, _, rfl, rfl, h⟩
      | some pos =>
          have decoded := decodeHeader_alike (c.buf.drop c.buf_pos) h.response
          rcases left : decodeHeader c.response (c.buf.drop c.buf_pos) with ⟨verdict, r⟩
          rcases right : decodeHeader d.response (c.buf.drop c.buf_pos) with ⟨verdict', s⟩
          rw [left, right] at decoded
          obtain ⟨same, alike⟩ := decoded
          dsimp only at same
          subst same
          have memory : c.decodedBuf = d.decodedBuf := by
            rw [Client.decodedBuf, Client.decodedBuf, h.buf, h.buf_pos]
          cases verdict with
          | rejected =>
              exact ⟨_, _, _, rfl, rfl, h.sync, rfl, memory, rfl, alike,
                fun done => absurd done open_⟩
          | threw =>
              exact ⟨_, _, _, rfl, rfl, h.sync, rfl, memory, rfl, alike,
                fun done => absurd done open_⟩
          | decoded =>
              refine bodyPass_alike ⟨h.sync, rfl, memory, rfl, alike, fun done => ?_⟩ rfl
              cases done

theorem receive_alike {c d : Client} (h : InStep c d) (open_ : c.decode_step ≠ .done)
    (fs : List (List UInt8)) : (receive c fs).1 = (receive d fs).1 := by
  induction fs generalizing c d with
  | nil => rfl
  | cons f fs ih =>
      have more : InStep { c with buf := c.buf ++ f } { d with buf := d.buf ++ f } :=
        ⟨h.sync, h.decode_step, by rw [h.buf], h.buf_pos, h.response, h.body⟩
      obtain ⟨v, c', d', ended, ended', next⟩ := pass_alike more open_
      have call : recvCallback c f = (v, c') := Client.run_ended ended
      have call' : recvCallback d f = (v, d') := Client.run_ended ended'
      rw [receive, receive, call, call']
      cases v with
      | threw => rfl
      | returned ok =>
          cases ok with
          | false => rfl
          | true =>
              dsimp only
              by_cases done : c'.decode_step = .done
              · have done' : d'.decode_step = .done := next.decode_step ▸ done
                rw [if_pos done, if_pos done', next.response.entrys, next.response.content_length,
                  next.body done]
              · have open' : d'.decode_step ≠ .done := next.decode_step ▸ done
                rw [if_neg done, if_neg open']
                exact ih next done

/-- A client is in step with itself, so a sync client's pass ends the call. -/
theorem recvCallback_sync {c : Client} (h : c.sync_mode = true) (open_ : c.decode_step ≠ .done)
    (f : List UInt8) : (recvCallback c f).2.sync_mode = true := by
  have self : InStep { c with buf := c.buf ++ f } { c with buf := c.buf ++ f } :=
    ⟨⟨h, h⟩, rfl, rfl, rfl, ⟨rfl, rfl, rfl⟩, fun _ => rfl⟩
  obtain ⟨v, c', d', ended, -, next⟩ := pass_alike self open_
  have call : recvCallback c f = (v, c') := Client.run_ended ended
  rw [call]
  exact next.sync.1

theorem receive_sync {c : Client} (h : c.sync_mode = true) (open_ : c.decode_step ≠ .done)
    (fs : List (List UInt8)) : (receive c fs).2.sync_mode = true := by
  induction fs generalizing c with
  | nil => exact h
  | cons f fs ih =>
      have sync := recvCallback_sync h open_ f
      rcases call : recvCallback c f with ⟨v, d⟩
      rw [call] at sync
      rw [receive, call]
      cases v with
      | threw => exact sync
      | returned ok =>
          cases ok with
          | false => exact sync
          | true =>
              dsimp only
              by_cases done : d.decode_step = .done
              · rw [if_pos done]
                exact sync
              · rw [if_neg done]
                exact ih sync done

theorem after_sync (history : List (List (List UInt8))) : (after history).sync_mode = true := by
  have run (c : Client) (h : c.sync_mode = true) :
      (history.foldl (fun c fs => (c.call fs).2) c).sync_mode = true := by
    induction history generalizing c with
    | nil => exact h
    | cons fs history ih =>
        refine ih _ (receive_sync (c := c.reset) h ?_ fs)
        simp [Client.reset]
  exact run syncClient rfl

theorem independent_of_plain {c : Client} (sync : c.sync_mode = true)
    (plain : c.response.is_chunk = false) : Independent c := by
  intro fs _
  have start : InStep c.reset syncClient.reset :=
    ⟨⟨sync, rfl⟩, rfl, rfl, rfl, ⟨rfl, rfl, plain⟩, fun done => by cases done⟩
  refine receive_alike start ?_ fs
  simp [Client.reset]

theorem plainBody_ok : Response.Encodable { body := bytes "a" } := by
  constructor <;> simp <;> decide

def plainMessage : List UInt8 := bytes "HTTP/1.1 200 OK\r\nContent-Length: 1\r\n\r\na"

theorem plainMessage_eq :
    plainMessage = Response.head { body := bytes "a" } ++ bytes "a" := by decide

/-- A decoded header in front of the body a; what the chunk flag makes of it. -/
theorem pass_plainMessage {c : Client} (step : c.decode_step = .header) (buf : c.buf = plainMessage)
    (pos : c.buf_pos = 0) :
    c.pass = Client.bodyPass { c with
      buf := decodeHeaderMemory plainMessage
      response := c.response.received { body := bytes "a" }, buf_pos := 38, decode_step := .body } := by
  have found : find (crlf ++ crlf) plainMessage = some 34 := by decide
  have decoded := decodeHeader_head plainBody_ok c.response (bytes "a")
  rw [← plainMessage_eq] at decoded
  have more : plainMessage.length ≠ 0 := by decide
  have memory : c.decodedBuf = decodeHeaderMemory plainMessage := by
    rw [Client.decodedBuf, buf, pos, List.drop_zero, List.take_zero, List.nil_append]
  unfold Client.pass
  rw [memory, buf, pos, step, List.drop_zero, found, decoded, if_neg more]
  simp

theorem fresh_plainMessage :
    (syncClient.call [plainMessage]).1 = .succeeded [] 1 (bytes "a") := by
  have pass : (headerClient plainMessage).pass =
      (bodyClient (decodeHeaderMemory plainMessage) 38
        (({} : Response).received { body := bytes "a" })).bodyPass :=
    pass_plainMessage rfl rfl rfl
  rw [bodyPass_done (by decide) rfl (by decide)] at pass
  have call : recvCallback syncClient.reset plainMessage = _ := Client.run_ended pass
  rw [Client.call, receive, call]
  decide

/-- With a chunk flag left over, the body a is taken for a size line that never ends. -/
theorem stale_plainMessage {c : Client} (chunk : c.response.is_chunk = true) :
    (c.call [plainMessage]).1 = .failed := by
  let d : Client := { c.reset with
    decode_step := .body, buf := decodeHeaderMemory plainMessage, buf_pos := 38,
    response := c.reset.response.received { body := bytes "a" } }
  have pass : Client.pass { c.reset with buf := plainMessage } = d.bodyPass :=
    pass_plainMessage rfl rfl rfl
  have flag : ¬ d.response.is_chunk = false := by
    show ¬ c.response.is_chunk = false
    simp [chunk]
  have waits : chunkLoop (decodeHeaderMemory plainMessage) 38 [] = (.waiting, 38, []) := by
    have none_ : find crlf ((decodeHeaderMemory plainMessage).drop 38) = none := by decide
    rw [chunkLoop]
    split
    · rfl
    · case h_2 flag found =>
        rw [none_] at found
        cases found
  have ends : d.bodyPass =
      .ended (.returned true) { d with response := { d.response with body := [] } } := by
    have waits' : chunkLoop d.buf d.buf_pos [] = (.waiting, 38, []) := waits
    rw [Client.bodyPass, if_neg flag, waits']
  rw [ends] at pass
  have call : recvCallback c.reset plainMessage = _ := Client.run_ended pass
  rw [Client.call, receive, call]
  simp [receive, d]

theorem plain_of_independent {c : Client} (independent : Independent c) :
    c.response.is_chunk = false := by
  by_contra chunk
  have same := independent [plainMessage] (by unfold Received; decide)
  rw [fresh_plainMessage, stale_plainMessage (by simpa using chunk)] at same
  cases same

/-- A history leaves no trace in the next call exactly when it left no chunk flag. -/
theorem independent_iff (history : List (List (List UInt8))) :
    Independent (after history) ↔ (after history).response.is_chunk = false :=
  ⟨plain_of_independent, independent_of_plain (after_sync history)⟩

def chunkedHeader : List UInt8 := bytes "HTTP/1.1 200 OK\r\nTransfer-Encoding: chunked\r\n\r\n"

theorem chunkedHeader_decoded (t : List UInt8) :
    decodeHeader {} (chunkedHeader ++ t) =
      (.decoded, { status_desc := bytes "OK", is_chunk := true }) := by
  apply decodeHeader_append
  have line : cut (bytes ": ") (bytes "Transfer-Encoding: chunked\r\n\r\n") =
      some (bytes "Transfer-Encoding", bytes "chunked\r\n\r\n") := by decide
  have value : cut crlf (bytes "chunked\r\n\r\n") = some (bytes "chunked", crlf) := by decide
  have entries (r : Response) : decodeEntries 2 (bytes "Transfer-Encoding: chunked\r\n\r\n") r =
      (.decoded, { r with is_chunk := true }) := by
    rw [decodeEntries_eq, if_pos (by decide), line]
    dsimp only
    rw [value]
    dsimp only
    rw [decodeEntries_eq, if_neg (by decide)]
    rfl
  have text : cstr chunkedHeader = chunkedHeader := by decide
  have ending : find (crlf ++ crlf) chunkedHeader = some 43 := by decide
  have first : cut (bytes " ") chunkedHeader = some (bytes "HTTP/1.1",
      bytes "200 OK\r\nTransfer-Encoding: chunked\r\n\r\n") := by decide
  have second : cut (bytes " ") (bytes "200 OK\r\nTransfer-Encoding: chunked\r\n\r\n") =
      some (bytes "200", bytes "OK\r\nTransfer-Encoding: chunked\r\n\r\n") := by decide
  have third : cut crlf (bytes "OK\r\nTransfer-Encoding: chunked\r\n\r\n") =
      some (bytes "OK", bytes "Transfer-Encoding: chunked\r\n\r\n") := by decide
  have code : toUint16 (atoi (bytes "200")) = 200 := by decide
  have bound : chunkedHeader.length - (43 + 2) = 2 := by decide
  unfold decodeHeader
  simp only [text, ending, first, second, third, code, bound, entries]

theorem chunkedHeader_memory (t : List UInt8) :
    decodeHeaderMemory (chunkedHeader ++ t) = decodeHeaderMemory chunkedHeader ++ t := by
  have alone := chunkedHeader_decoded []
  rw [List.append_nil] at alone
  exact decodeHeaderMemory_append alone t

def chunkedMessage : List UInt8 :=
  bytes "HTTP/1.1 200 OK\r\nTransfer-Encoding: chunked\r\n\r\n0\r\n\r\n"

theorem chunkedMessage_eq : chunkedMessage = chunkedHeader ++ bytes "0\r\n\r\n" := by decide

theorem chunkedMessage_decoded :
    decodeHeader {} chunkedMessage = (.decoded, { status_desc := bytes "OK", is_chunk := true }) := by
  rw [chunkedMessage_eq]
  exact chunkedHeader_decoded _

/-- The whole chunked reply in one pass. -/
theorem pass_chunkedMessage : (headerClient chunkedMessage).pass = .ended (.returned true)
    { headerClient (decodeHeaderMemory chunkedMessage) with
      decode_step := .done, buf_pos := 52,
      response := { status_desc := bytes "OK", is_chunk := true } } := by
  have found : find (crlf ++ crlf) chunkedMessage = some 43 := by decide
  have more : chunkedMessage.length ≠ 0 := by decide
  have line : find crlf ((decodeHeaderMemory chunkedMessage).drop 47) = some 1 := by decide
  have chunks : chunkLoop (decodeHeaderMemory chunkedMessage) 47 [] = (.complete, 52, []) := by
    rw [chunkLoop]
    split
    · case h_1 missing =>
        rw [line] at missing
        cases missing
    · case h_2 flag here =>
        rw [line] at here
        cases here
        rw [if_neg (by decide)]
  simp only [Client.pass, headerClient, Client.decodedBuf, if_neg more, List.drop_zero,
    List.take_zero, List.nil_append, found, chunkedMessage_decoded, reduceCtorEq, ↓reduceIte,
    Nat.zero_add, Client.bodyPass, chunks, Client.finish]

/-- A chunked reply, received whole, changes the outcome of the next call. -/
theorem chunked_call_not_independent :
    (syncClient.call [chunkedMessage]).1 = .succeeded [] 0 [] ∧
      ¬ Independent (after [[chunkedMessage]]) := by
  have call : recvCallback syncClient.reset chunkedMessage = _ :=
    Client.run_ended pass_chunkedMessage
  have outcome : syncClient.call [chunkedMessage] = (.succeeded [] 0 [],
      { headerClient (decodeHeaderMemory chunkedMessage) with
        decode_step := .done, buf_pos := 52,
        response := { status_desc := bytes "OK", is_chunk := true } }) := by
    rw [Client.call, receive, call]
    simp
  refine ⟨congrArg Prod.fst outcome, fun independent => ?_⟩
  have plain := plain_of_independent independent
  have state : after [[chunkedMessage]] = (syncClient.call [chunkedMessage]).2 := rfl
  rw [state, outcome] at plain
  cases plain

end HZRobot.Http
