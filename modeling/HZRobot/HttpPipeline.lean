import HZRobot.HttpRoundTrip

/-!
Responses one after the other on an async client. The client keeps one response
object: a handler call takes every buffered byte as the body, and the entries and
the length of a response stay for the next one.
-/

namespace HZRobot.Http

/-- The fragments given to recv_callback, up to the first call that does not return true. -/
def deliver : Client → List (List UInt8) → Client
  | c, [] => c
  | c, f :: fs =>
      match recvCallback c f with
      | (.returned true, d) => deliver d fs
      | (_, d) => d

def asyncClient : Client := { sync_mode := false }

/-- What a handler sees of the response object. -/
def Response.observed (r : Response) : Nat × List Entry × Nat × List UInt8 :=
  (r.status_code, r.entrys, r.content_length, r.body)

/-- What it should see of an encoded response. -/
def Response.expected (r : Response) : Nat × List Entry × Nat × List UInt8 :=
  (r.status_code, r.entrys, r.body.length, r.body)

/-- The fragments fall into groups, one for each message. -/
def Aligned (ms fs : List (List UInt8)) : Prop :=
  ∃ groups : List (List (List UInt8)), groups.flatten = fs ∧ groups.map List.flatten = ms

/-- Nothing of a response is seen in the one behind it. -/
def LeavesNothing (a b : Response) : Prop := a.entrys = [] ∧ (a.body ≠ [] → b.body ≠ [])

/-- The rest of a delivery after one call. -/
def afterCall (call : Verdict × Client) (fs : List (List UInt8)) : Client :=
  if call.1 = .returned true then deliver call.2 fs else call.2

theorem deliver_cons (c : Client) (f : List UInt8) (fs : List (List UInt8)) :
    deliver c (f :: fs) = afterCall (recvCallback c f) fs := by
  rw [deliver, afterCall]
  split
  · case h_1 d call => simp [call]
  · case h_2 v d other call =>
      rw [call, if_neg other]

theorem finish_handled (c : Client) : c.handled <+: c.finish.client.handled := by
  unfold Client.finish
  split
  · exact List.prefix_refl _
  · exact List.prefix_append _ _

theorem bodyPass_handled (c : Client) : c.handled <+: c.bodyPass.client.handled := by
  unfold Client.bodyPass
  split
  · split
    · exact List.prefix_refl _
    · refine List.IsPrefix.trans ?_ (finish_handled _)
      exact List.prefix_refl _
  · split
    · exact List.prefix_refl _
    · exact List.prefix_refl _
    · refine List.IsPrefix.trans ?_ (finish_handled _)
      exact List.prefix_refl _

theorem pass_handled (c : Client) : c.handled <+: c.pass.client.handled := by
  unfold Client.pass
  split
  · exact List.prefix_refl _
  · split
    · exact bodyPass_handled c
    · split
      · exact List.prefix_refl _
      · split
        · exact List.prefix_refl _
        · exact List.prefix_refl _
        · refine List.IsPrefix.trans ?_ (bodyPass_handled _)
          exact List.prefix_refl _

/-- Handler calls are never taken back. -/
theorem run_handled (c : Client) : c.handled <+: c.run.2.handled := by
  induction k : c.left using Nat.strongRecOn generalizing c with
  | ind n ih =>
      have step := pass_handled c
      cases pass : c.pass with
      | ended v d =>
          rw [pass] at step
          rw [Client.run_ended pass]
          exact step
      | again d =>
          rw [pass] at step
          have less := Client.pass_left pass
          rw [Client.run_again pass]
          exact step.trans (ih d.left (by omega) d rfl)

theorem deliver_handled (c : Client) (fs : List (List UInt8)) :
    c.handled <+: (deliver c fs).handled := by
  induction fs generalizing c with
  | nil => exact List.prefix_refl _
  | cons f fs ih =>
      have call : c.handled <+: (recvCallback c f).2.handled := run_handled { c with buf := c.buf ++ f }
      rw [deliver_cons, afterCall]
      split
      · exact call.trans (ih _)
      · exact call

theorem afterCall_handled (call : Verdict × Client) (fs : List (List UInt8)) :
    call.2.handled <+: (afterCall call fs).handled := by
  unfold afterCall
  split
  · exact deliver_handled _ _
  · exact List.prefix_refl _

section

variable (old : Response) (log : List Response)

/-- The client in front of a response. -/
def headerWait (p : List UInt8) : Client :=
  { sync_mode := false, buf := p, response := old, handled := log }

def bodyWait (p : List UInt8) (pos : Nat) : Client :=
  { sync_mode := false, decode_step := .body, buf := p, buf_pos := pos, response := old,
    handled := log }

/-- The client behind a handler call. -/
def handledClient (q : List UInt8) (pos : Nat) : Client :=
  { sync_mode := false, buf := q, buf_pos := pos + old.content_length,
    response := { old with body := q.drop pos }, handled := log ++ [{ old with body := q.drop pos }] }

/-- The buffer with p received: decode_header has been at the bytes in front of the body. -/
def bodyBuf (front p : List UInt8) : List UInt8 := front ++ p.drop front.length

/-- The handler is called in the first call that completes the body, or never. -/
def Handles (c : Client) (fs : List (List UInt8)) (p front : List UInt8) : Prop :=
  (∃ gs f hs, fs = gs ++ f :: hs ∧
      (p ++ gs.flatten).length < front.length + old.content_length ∧
      front.length + old.content_length ≤ (p ++ gs.flatten ++ f).length ∧
      deliver c fs =
        afterCall (handledClient old log (bodyBuf front (p ++ gs.flatten ++ f)) front.length).run hs) ∨
    ((p ++ fs.flatten).length < front.length + old.content_length ∧ (deliver c fs).handled = log)

variable {old log}

theorem bodyBuf_length {front p : List UInt8} (room : front.length ≤ p.length) :
    (bodyBuf front p).length = p.length := by
  rw [bodyBuf, List.length_append, List.length_drop]
  omega

theorem bodyBuf_drop (front p : List UInt8) : (bodyBuf front p).drop front.length = p.drop front.length :=
  List.drop_left

theorem bodyBuf_append {front p : List UInt8} (room : front.length ≤ p.length) (f : List UInt8) :
    bodyBuf front p ++ f = bodyBuf front (p ++ f) := by
  rw [bodyBuf, bodyBuf, List.drop_append_of_le_length room, List.append_assoc]

theorem Handles.cons {c d : Client} {f p front : List UInt8} {fs : List (List UInt8)}
    (call : recvCallback c f = (.returned true, d)) (rest : Handles old log d fs (p ++ f) front) :
    Handles old log c (f :: fs) p front := by
  have next : deliver c (f :: fs) = deliver d fs := by
    rw [deliver_cons, call, afterCall, if_pos rfl]
  rcases rest with ⟨gs, g, hs, rfl, short, full, heq⟩ | ⟨short, heq⟩
  · have whole : p ++ (f :: gs).flatten = p ++ f ++ gs.flatten := by simp
    refine .inl ⟨f :: gs, g, hs, rfl, ?_, ?_, ?_⟩
    · rw [whole]
      exact short
    · rw [whole]
      exact full
    · rw [whole, next]
      exact heq
  · have whole : p ++ (f :: fs).flatten = p ++ f ++ fs.flatten := by simp
    refine .inr ⟨?_, ?_⟩
    · rw [whole]
      exact short
    · rw [next]
      exact heq

theorem bodyPass_bodyWait {q : List UInt8} {pos : Nat} (room : pos ≤ q.length)
    (plain : old.is_chunk = false) :
    (bodyWait old log q pos).bodyPass =
      if q.length - pos < old.content_length then .ended (.returned true) (bodyWait old log q pos)
      else .again (handledClient old log q pos) := by
  by_cases short : q.length - pos < old.content_length
  · simp [Client.bodyPass, bodyWait, sizeSub, plain, room, short]
  · simp [Client.bodyPass, bodyWait, Client.finish, handledClient, sizeSub, plain, room, short]

theorem Handles.of_bodyPass {c d : Client} {f p front : List UInt8} {fs : List (List UInt8)}
    (before : p.length < front.length + old.content_length) (room : front.length ≤ (p ++ f).length)
    (plain : old.is_chunk = false) (call : recvCallback c f = d.run)
    (pass : d.pass = (bodyWait old log (bodyBuf front (p ++ f)) front.length).bodyPass)
    (rest : (p ++ f).length - front.length < old.content_length →
      Handles old log (bodyWait old log (bodyBuf front (p ++ f)) front.length) fs (p ++ f) front) :
    Handles old log c (f :: fs) p front := by
  have size := bodyBuf_length room
  rw [bodyPass_bodyWait (by omega) plain, size] at pass
  by_cases short : (p ++ f).length - front.length < old.content_length
  · rw [if_pos short] at pass
    exact Handles.cons (call.trans (Client.run_ended pass)) (rest short)
  · rw [if_neg short] at pass
    have whole : p ++ ([] : List (List UInt8)).flatten = p := by simp
    refine .inl ⟨[], f, fs, rfl, ?_, ?_, ?_⟩
    · rw [whole]
      exact before
    · rw [whole]
      omega
    · rw [whole, deliver_cons, call, Client.run_again pass]

theorem handles_bodyWait {p front : List UInt8} {fs : List (List UInt8)}
    (nonempty : ∀ f ∈ fs, f ≠ []) (room : front.length ≤ p.length) (plain : old.is_chunk = false)
    (short : p.length - front.length < old.content_length) :
    Handles old log (bodyWait old log (bodyBuf front p) front.length) fs p front := by
  induction fs generalizing p with
  | nil =>
      refine .inr ⟨?_, rfl⟩
      rw [List.flatten_nil, List.append_nil]
      omega
  | cons f fs ih =>
      have grown : p.length < (p ++ f).length := by
        have := List.length_pos_iff.mpr (nonempty f List.mem_cons_self)
        rw [List.length_append]
        omega
      have call : recvCallback (bodyWait old log (bodyBuf front p) front.length) f =
          (bodyWait old log (bodyBuf front (p ++ f)) front.length).run := by
        rw [← bodyBuf_append room]
        rfl
      refine Handles.of_bodyPass (by omega) (by omega) plain call ?_
        (ih (fun g hg => nonempty g (List.mem_cons_of_mem f hg)) (by omega))
      have size : (bodyBuf front (p ++ f)).length = (p ++ f).length := bodyBuf_length (by omega)
      have more : (bodyBuf front (p ++ f)).length ≠ front.length := by omega
      unfold Client.pass
      exact (if_neg more).trans (if_pos rfl)

theorem handles_headerWait {e : Response} (ok : e.Encodable) (block : e.head.length ≤ 1024)
    (plain : old.is_chunk = false) {p t : List UInt8} {fs : List (List UInt8)}
    (nonempty : ∀ f ∈ fs, f ≠ []) (early : p.length < e.head.length)
    (whole : p ++ fs.flatten = e.head ++ t) :
    Handles (old.received e) log (headerWait old log p) fs p (decodeHeaderMemory e.head) := by
  have front : (decodeHeaderMemory e.head).length = e.head.length := decodeHeaderMemory_length _
  induction fs generalizing p with
  | nil =>
      have sizes := congrArg List.length whole
      rw [List.flatten_nil, List.append_nil, List.length_append] at sizes
      omega
  | cons f fs ih =>
      obtain ⟨h, found, size⟩ := find_terminator_head ok t
      have whole' : p ++ f ++ fs.flatten = e.head ++ t := by
        rw [← whole]
        simp
      rw [← whole'] at found
      have some_ := nonempty f List.mem_cons_self
      have others : ∀ g ∈ fs, g ≠ [] := fun g hg => nonempty g (List.mem_cons_of_mem f hg)
      have more : (p ++ f).length ≠ 0 := by simp [some_]
      rcases find_in_prefix found with ⟨here, room⟩ | ⟨missing, room⟩
      · have here' : find (crlf ++ crlf) (p ++ f) = some h := here
        obtain ⟨t', head⟩ : e.head <+: p ++ f :=
          List.prefix_of_prefix_length_le (List.prefix_append e.head t)
            (whole' ▸ List.prefix_append (p ++ f) fs.flatten) (by omega)
        have decoded := decodeHeader_head ok old t'
        -- The block decodes by itself, so the NUL lies in front of the body.
        have memory : decodeHeaderMemory (p ++ f) = bodyBuf (decodeHeaderMemory e.head) (p ++ f) := by
          have alone := decodeHeader_head ok old []
          rw [List.append_nil] at alone
          rw [← head, decodeHeaderMemory_append alone, bodyBuf, front, List.drop_left]
        rw [head] at decoded
        refine Handles.of_bodyPass (by omega) (by omega) plain rfl ?_ fun short =>
          handles_bodyWait others (by omega) plain short
        simp only [Client.pass, headerWait, Client.decodedBuf, if_neg more, List.drop_zero,
          List.take_zero, List.nil_append, here', decoded, memory, reduceCtorEq, ↓reduceIte,
          Nat.zero_add, front, size]
        rfl
      · have missing' : find (crlf ++ crlf) (p ++ f) = none := missing
        have short : (p ++ f).length < 1024 := by omega
        have pass : (headerWait old log (p ++ f)).pass =
            .ended (.returned true) (headerWait old log (p ++ f)) := by
          have small : sizeSub (p ++ f).length 0 < 1024 := by simpa [sizeSub] using short
          simp only [Client.pass, headerWait, if_neg more, List.drop_zero, missing', small]
          simp
        exact Handles.cons (Client.run_ended pass) (ih others (by omega) whole')

end

theorem run_handledClient {old : Response} {log : List Response} {q : List UInt8} {pos : Nat}
    (whole : q.length = pos + old.content_length) :
    (handledClient old log q pos).run =
      (.returned true, headerWait { old with body := q.drop pos }
        (log ++ [{ old with body := q.drop pos }]) []) := by
  apply Client.run_ended
  unfold Client.pass
  exact if_pos whole

/-- With no empty fragment a group is settled by its bytes. -/
theorem group_unique {as bs cs ds : List (List UInt8)} (nonempty : ∀ f ∈ as ++ bs, f ≠ [])
    (whole : as ++ bs = cs ++ ds) (bytes : as.flatten = cs.flatten) : as = cs ∧ bs = ds := by
  have tail (xs s : List (List UInt8)) (hs : ∀ f ∈ s, f ≠ [])
      (same : xs.flatten = (xs ++ s).flatten) : s = [] := by
    have empty : s.flatten = [] := by
      rw [List.flatten_append] at same
      exact List.self_eq_append_right.mp same
    cases s with
    | nil => rfl
    | cons f s =>
        rw [List.flatten_cons, List.append_eq_nil_iff] at empty
        exact absurd empty.1 (hs f List.mem_cons_self)
  rcases List.append_eq_append_iff.mp whole with ⟨s, rfl, rfl⟩ | ⟨s, rfl, rfl⟩
  · have := tail as s (fun f hf => nonempty f (by simp [hf])) bytes
    simp [this]
  · have := tail cs s (fun f hf => nonempty f (by simp [hf])) bytes.symm
    simp [this]

theorem aligned_cons {m : List UInt8} {ms gs hs : List (List UInt8)}
    (nonempty : ∀ f ∈ gs ++ hs, f ≠ []) (first : gs.flatten = m) :
    Aligned (m :: ms) (gs ++ hs) ↔ Aligned ms hs := by
  constructor
  · rintro ⟨groups, whole, each⟩
    match groups, each with
    | g :: groups, each =>
        rw [List.map_cons, List.cons.injEq] at each
        rw [List.flatten_cons] at whole
        have same := group_unique nonempty whole.symm (first.trans each.1.symm)
        exact ⟨groups, same.2.symm, each.2⟩
  · rintro ⟨groups, rfl, rfl⟩
    exact ⟨gs :: groups, by simp, by simp [first]⟩

/-- The call that completes a body ends where a group has to end, or behind it. -/
theorem aligned_first {m : List UInt8} {ms gs hs : List (List UInt8)} {f : List UInt8}
    (aligned : Aligned (m :: ms) (gs ++ f :: hs)) (before : gs.flatten.length < m.length)
    (behind : m.length ≤ (gs.flatten ++ f).length) : (gs.flatten ++ f).length = m.length := by
  obtain ⟨groups, whole, each⟩ := aligned
  match groups, each with
  | g :: groups, each =>
      rw [List.map_cons, List.cons.injEq] at each
      rw [List.flatten_cons] at whole
      have size := congrArg List.length each.1
      rcases List.append_eq_append_iff.mp whole with ⟨s, rfl, rest⟩ | ⟨s, rfl, rest⟩
      · rw [List.flatten_append, List.length_append] at before
        omega
      · cases s with
        | nil =>
            rw [List.append_nil] at size
            omega
        | cons f' s =>
            rw [List.cons_append, List.cons.injEq] at rest
            rw [← rest.1] at size
            simp only [List.flatten_append, List.flatten_cons, List.length_append] at size behind ⊢
            omega

theorem observed_received {old e : Response} {body : List UInt8} :
    { old.received e with body := body }.observed = e.expected ↔
      old.entrys = [] ∧ (old.received e).content_length = e.body.length ∧ body = e.body := by
  simp [Response.observed, Response.expected, Response.received]

theorem leavesNothing_iff {old e : Response} (length : old.content_length = old.body.length) :
    LeavesNothing old e ↔
      old.entrys = [] ∧ (old.received e).content_length = e.body.length := by
  have sizes : (old.body ≠ [] → e.body ≠ []) ↔
      (old.received e).content_length = e.body.length := by
    unfold Response.received
    dsimp only
    by_cases body : 0 < e.body.length
    · rw [if_pos body]
      have := List.length_pos_iff.mp body
      simp [this]
    · rw [if_neg body, length]
      have empty : e.body = [] := List.eq_nil_of_length_eq_zero (by omega)
      simp [empty]
  rw [LeavesNothing, sizes]

/-- Every call logs at least as much as it found. -/
theorem afterCall_log (old : Response) (log : List Response) (q : List UInt8) (pos : Nat)
    (hs : List (List UInt8)) :
    log ++ [{ old with body := q.drop pos }] <+:
      (afterCall (handledClient old log q pos).run hs).handled :=
  (run_handled (handledClient old log q pos)).trans (afterCall_handled _ _)

theorem encoded_cons {e : Response} {rs : List Response} {ms : List (List UInt8)}
    (version : e.version ≠ []) (encoded : (e :: rs).mapM Response.encode = some ms) :
    ∃ ms', rs.mapM Response.encode = some ms' ∧ ms = (e.head ++ e.body) :: ms' := by
  have message : e.encode = some (e.head ++ e.body) := by
    rw [Response.encode, if_neg version]
  rw [List.mapM_cons, message] at encoded
  cases others : rs.mapM Response.encode with
  | none => simp [others] at encoded
  | some ms' =>
      refine ⟨ms', rfl, ?_⟩
      simpa [others] using encoded.symm

theorem chain_received {old e : Response} (clean : old.entrys = []) (rs : List Response) :
    ({ old.received e with body := e.body } :: rs).IsChain LeavesNothing ↔
      (e :: rs).IsChain LeavesNothing := by
  cases rs with
  | nil => simp
  | cons r rs =>
      have same : LeavesNothing { old.received e with body := e.body } r ↔ LeavesNothing e r := by
        simp [LeavesNothing, Response.received, clean]
      rw [List.isChain_cons_cons, List.isChain_cons_cons, same]

/-- A handler call that shows anything but the response spoils the log for good. -/
theorem observed_of_logged {old e : Response} {log all : List Response} {q : List UInt8}
    {pos : Nat} {rest : List (Nat × List Entry × Nat × List UInt8)}
    (logged : log ++ [{ old.received e with body := q.drop pos }] <+: all)
    (same : all.map Response.observed = log.map Response.observed ++ e.expected :: rest) :
    old.entrys = [] ∧ (old.received e).content_length = e.body.length ∧ q.drop pos = e.body := by
  have seen := logged.map Response.observed
  rw [same, List.map_append, List.map_singleton] at seen
  have first := (List.prefix_append_right_inj _).mp seen
  rw [List.cons_prefix_cons] at first
  exact observed_received.mp first.1

theorem delivered_iff_of_clean (rs : List Response) (ms fs : List (List UInt8)) (old : Response)
    (log : List Response) (ok : ∀ r ∈ rs, r.Encodable ∧ r.head.length ≤ 1024)
    (encoded : rs.mapM Response.encode = some ms) (nonempty : ∀ f ∈ fs, f ≠ [])
    (whole : fs.flatten = ms.flatten) (plain : old.is_chunk = false)
    (length : old.content_length = old.body.length) :
    (deliver (headerWait old log []) fs).handled.map Response.observed =
        log.map Response.observed ++ rs.map Response.expected ↔
      Aligned ms fs ∧ (old :: rs).IsChain LeavesNothing := by
  induction rs generalizing ms fs old log with
  | nil =>
      have none_ : ms = [] := by simpa using encoded.symm
      subst none_
      have empty : fs = [] := by
        cases fs with
        | nil => rfl
        | cons f fs =>
            rw [List.flatten_cons, List.flatten_nil, List.append_eq_nil_iff] at whole
            exact absurd whole.1 (nonempty f List.mem_cons_self)
      subst empty
      refine iff_of_true ?_ ⟨⟨[], rfl, rfl⟩, List.isChain_singleton old⟩
      rw [List.map_nil, List.append_nil]
      rfl
  | cons e rs ih =>
      obtain ⟨encodable, block⟩ := ok e List.mem_cons_self
      obtain ⟨ms, encoded', rfl⟩ := encoded_cons encodable.version_some encoded
      have message : (e.head ++ e.body).length = e.head.length + e.body.length :=
        List.length_append
      have stream : [] ++ fs.flatten = e.head ++ (e.body ++ ms.flatten) := by
        rw [whole]
        simp
      have headPos : ([] : List UInt8).length < e.head.length := by
        obtain ⟨h, -, size⟩ := find_terminator_head encodable []
        rw [size]
        exact Nat.succ_pos _
      have handles : Handles (old.received e) log (headerWait old log []) fs []
          (decodeHeaderMemory e.head) :=
        handles_headerWait encodable block plain nonempty headPos stream
      have front : (decodeHeaderMemory e.head).length = e.head.length := decodeHeaderMemory_length _
      rw [List.isChain_cons_cons, leavesNothing_iff length]
      rcases handles with ⟨gs, f, hs, rfl, before, behind, outcome⟩ | ⟨short, outcome⟩
      · rw [List.nil_append, front] at before behind outcome
        have bufSize : (bodyBuf (decodeHeaderMemory e.head) (gs.flatten ++ f)).length =
            (gs.flatten ++ f).length := bodyBuf_length (by omega)
        have bufBody : (bodyBuf (decodeHeaderMemory e.head) (gs.flatten ++ f)).drop e.head.length =
            (gs.flatten ++ f).drop e.head.length := by rw [← front, bodyBuf_drop]
        rw [outcome]
        by_cases good : old.entrys = [] ∧ (old.received e).content_length = e.body.length ∧
            (gs.flatten ++ f).length = e.head.length + (old.received e).content_length
        · obtain ⟨clean, size, exact_⟩ := good
          -- The call ends where the response ends, so the client is in front of the next one.
          have cut : (gs.flatten ++ f) = e.head ++ e.body ∧ hs.flatten = ms.flatten := by
            have split : gs.flatten ++ f ++ hs.flatten = e.head ++ e.body ++ ms.flatten := by
              rw [List.nil_append, List.flatten_append, List.flatten_cons] at stream
              simpa using stream
            refine List.append_inj split ?_
            rw [exact_, size, message]
          have body : (gs.flatten ++ f).drop e.head.length = e.body := by
            rw [cut.1, List.drop_left]
          have rest := ih ms hs { old.received e with body := e.body }
            (log ++ [{ old.received e with body := e.body }])
            (fun r hr => ok r (List.mem_cons_of_mem e hr)) encoded'
            (fun g hg => nonempty g (by simp [hg])) cut.2 plain size
          have seen := observed_received.mpr ⟨clean, size, (rfl : e.body = e.body)⟩
          have group : Aligned ((e.head ++ e.body) :: ms) (gs ++ f :: hs) ↔ Aligned ms hs := by
            have shape : gs ++ f :: hs = (gs ++ [f]) ++ hs := by simp
            rw [shape] at nonempty ⊢
            exact aligned_cons nonempty (by simpa using cut.1)
          rw [List.map_append, List.map_singleton, seen, List.append_assoc,
            chain_received clean] at rest
          rw [run_handledClient (bufSize.trans exact_), afterCall, if_pos rfl, bufBody, body, group,
            List.map_cons]
          refine rest.trans ?_
          simp [clean, size]
        · refine iff_of_false (fun same => ?_) (fun fine => ?_)
          · obtain ⟨clean, size, body⟩ := observed_of_logged (afterCall_log _ _ _ _ _) same
            have sizes := congrArg List.length body
            rw [List.length_drop, bufSize] at sizes
            exact good ⟨clean, size, by omega⟩
          · obtain ⟨aligned, ⟨clean, size⟩, -⟩ := fine
            rw [size, ← message] at before behind good
            exact good ⟨clean, rfl, aligned_first aligned before behind⟩
      · refine iff_of_false (fun same => ?_) (fun fine => ?_)
        · rw [outcome] at same
          have sizes := congrArg List.length same
          simp at sizes
        · obtain ⟨-, ⟨-, size⟩, -⟩ := fine
          rw [stream, front, size] at short
          simp only [List.length_append] at short
          omega

/-- Pipelined responses are delivered one for one exactly when no fragment holds bytes of two
responses and no response leaves something for the next one to show. -/
theorem delivered_iff (rs : List Response) (ms fs : List (List UInt8))
    (ok : ∀ r ∈ rs, r.Encodable ∧ r.head.length ≤ 1024)
    (encoded : rs.mapM Response.encode = some ms) (nonempty : ∀ f ∈ fs, f ≠ [])
    (whole : fs.flatten = ms.flatten) :
    (deliver asyncClient fs).handled.map Response.observed = rs.map Response.expected ↔
      Aligned ms fs ∧ rs.IsChain LeavesNothing := by
  have all := delivered_iff_of_clean rs ms fs {} [] ok encoded nonempty whole rfl rfl
  rw [List.map_nil, List.nil_append] at all
  have chain : (({} : Response) :: rs).IsChain LeavesNothing ↔ rs.IsChain LeavesNothing := by
    cases rs with
    | nil => simp
    | cons r rs =>
        have first : LeavesNothing {} r := ⟨rfl, fun body => absurd rfl body⟩
        rw [List.isChain_cons_cons]
        exact and_iff_right first
  rw [← chain]
  exact all

def plainReply : Response := { body := bytes "a" }

def labelledReply : Response := { entrys := [⟨bytes "A", bytes "b"⟩] }

theorem replies_ok : (plainReply.Encodable ∧ plainReply.head.length ≤ 1024) ∧
    labelledReply.Encodable ∧ labelledReply.head.length ≤ 1024 := by
  have plain : plainReply.Encodable := by
    constructor <;> simp [plainReply] <;> decide
  have labelled : labelledReply.Encodable := by
    constructor <;> simp [labelledReply] <;> decide
  exact ⟨⟨plain, by decide⟩, labelled, by decide⟩

theorem two_replies_delivered :
    (deliver asyncClient [bytes "HTTP/1.1 200 OK\r\nContent-Length: 1\r\n\r\n", bytes "a",
        bytes "HTTP/1.1 200 OK\r\nContent-Length: 1\r\n\r\na"]).handled.map Response.observed =
      [plainReply, plainReply].map Response.expected := by
  refine (delivered_iff [plainReply, plainReply]
    [bytes "HTTP/1.1 200 OK\r\nContent-Length: 1\r\n\r\na",
      bytes "HTTP/1.1 200 OK\r\nContent-Length: 1\r\n\r\na"] _ ?_ (by decide) (by decide)
    (by decide)).mpr ⟨⟨[[bytes "HTTP/1.1 200 OK\r\nContent-Length: 1\r\n\r\n", bytes "a"],
      [bytes "HTTP/1.1 200 OK\r\nContent-Length: 1\r\n\r\na"]], rfl, by decide⟩, ?_⟩
  · intro r hr
    have : r = plainReply := by simpa using hr
    exact this ▸ replies_ok.1
  · rw [List.isChain_cons_cons]
    refine ⟨⟨rfl, fun body => body⟩, List.isChain_singleton _⟩

/-- Even with a fragment for each response, the entry of the first is seen in the second. -/
theorem labelled_reply_stays :
    ∃ (rs : List Response) (ms fs : List (List UInt8)),
      (∀ r ∈ rs, r.Encodable ∧ r.head.length ≤ 1024) ∧ rs.mapM Response.encode = some ms ∧
        (∀ f ∈ fs, f ≠ []) ∧ fs.flatten = ms.flatten ∧
          (deliver asyncClient fs).handled.map Response.observed ≠ rs.map Response.expected := by
  refine ⟨[labelledReply, plainReply], [bytes "HTTP/1.1 200 OK\r\nA: b\r\n\r\n",
    bytes "HTTP/1.1 200 OK\r\nContent-Length: 1\r\n\r\na"], [bytes "HTTP/1.1 200 OK\r\nA: b\r\n\r\n",
    bytes "HTTP/1.1 200 OK\r\nContent-Length: 1\r\n\r\na"], ?_, by decide, by decide, rfl, ?_⟩
  · intro r hr
    rw [List.mem_cons, List.mem_singleton] at hr
    rcases hr with rfl | rfl
    · exact replies_ok.2
    · exact replies_ok.1
  · intro same
    have fine := (delivered_iff_of_clean [labelledReply, plainReply] _ _ {} [] ?_ (by decide)
      (by decide) rfl rfl rfl).mp same
    · have chain := fine.2
      rw [List.isChain_cons_cons, List.isChain_cons_cons] at chain
      exact absurd chain.2.1.1 (by decide)
    · intro r hr
      rw [List.mem_cons, List.mem_singleton] at hr
      rcases hr with rfl | rfl
      · exact replies_ok.2
      · exact replies_ok.1

end HZRobot.Http
