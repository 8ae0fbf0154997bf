import HZRobot.HttpParser

/-!
client_base::recv_callback. The received bytes are kept in one buffer with a read
position; each pass of the loop decodes a header, if one is due, and then a body.
A pass either ends the call or goes on with the rest of the buffer.
-/

namespace HZRobot.Http

inductive DecodeStep where
  | header
  | body
  | done
  deriving DecidableEq, Repr

structure Client where
  sync_mode : Bool
  decode_step : DecodeStep := .header
  buf : List UInt8 := []
  buf_pos : Nat := 0
  response : Response := {}
  /-- The response object at each call of the response handle. -/
  handled : List Response := []

/-- The return value of recv_callback, or its exception. -/
inductive Verdict where
  | returned (ok : Bool)
  | threw
  deriving DecidableEq, Repr

/-- Subtraction of size_t. -/
def sizeSub (a b : Nat) : Nat := if b ≤ a then a - b else a + 2 ^ 64 - b

/-- The letters and digits htoi reads, with their value; letters above f count on. -/
def hexValue (c : UInt8) : Option Int :=
  if 48 ≤ c ∧ c ≤ 57 then some (c.toNat - 48)
  else if 97 ≤ c ∧ c ≤ 122 then some (10 + (c.toNat - 97))
  else if 65 ≤ c ∧ c ≤ 90 then some (10 + (c.toNat - 65))
  else none

def htoiDigits (n : Int) : List UInt8 → Int
  | [] => n
  | c :: s =>
      match hexValue c with
      | none => n
      | some v => htoiDigits (toInt32 (16 * n + v)) s

def htoi (s : List UInt8) : Int :=
  match s with
  | 48 :: 120 :: s => htoiDigits 0 s
  | 48 :: 88 :: s => htoiDigits 0 s
  | s => htoiDigits 0 s

/-- How the chunk loop ends: it waits, throws, or stands behind the last chunk. -/
inductive Chunks where
  | waiting
  | threw
  | complete
  deriving DecidableEq, Repr

/-- The chunk loop at a read position, with the body so far. -/
def chunkLoop (buf : List UInt8) (pos : Nat) (body : List UInt8) : Chunks × Nat × List UInt8 :=
  match _h : find crlf (buf.drop pos) with
  | none => (.waiting, pos, body)
  | some flag =>
      let next := pos + flag + 2
      let len := (htoi (cstr ((buf.drop pos).take flag)) % 2 ^ 64).toNat
      if 0 < len then
        if buf.length < (next + len + 2) % 2 ^ 64 then (.waiting, next, body)
        else if buf.length < next + len then (.threw, next, body)
        else chunkLoop buf (next + len + 2) (body ++ (buf.drop next).take len)
      else (.complete, next + 2, body)
termination_by buf.length - pos
decreasing_by
  have := find_le _h
  simp only [List.length_drop, crlf, List.length_cons, List.length_nil] at this
  omega

/-- A pass of the loop: the call ends, or the loop goes on. -/
inductive Pass where
  | ended (v : Verdict) (c : Client)
  | again (c : Client)

def Pass.client : Pass → Client
  | .ended _ c => c
  | .again c => c

/-- After a complete body. -/
def Client.finish (c : Client) : Pass :=
  if c.sync_mode then .ended (.returned true) { c with decode_step := .done }
  else .again { c with decode_step := .header, handled := c.handled ++ [c.response] }

/-- The body part of a pass. -/
def Client.bodyPass (c : Client) : Pass :=
  if c.response.is_chunk = false then
    if sizeSub c.buf.length c.buf_pos < c.response.content_length then .ended (.returned true) c
    else
      Client.finish { c with
        response := { c.response with body := c.buf.drop c.buf_pos },
        buf_pos := c.buf_pos + c.response.content_length }
  else
    match chunkLoop c.buf c.buf_pos [] with
    | (.waiting, pos, body) =>
        .ended (.returned true) { c with buf_pos := pos, response := { c.response with body := body } }
    | (.threw, pos, body) =>
        .ended .threw { c with buf_pos := pos, response := { c.response with body := body } }
    | (.complete, pos, body) =>
        Client.finish { c with buf_pos := pos, response := { c.response with body := body } }

/-- The buffer behind decode_header, which writes into it from the read position on. -/
def Client.decodedBuf (c : Client) : List UInt8 :=
  c.buf.take c.buf_pos ++ decodeHeaderMemory (c.buf.drop c.buf_pos)

@[simp] theorem Client.decodedBuf_length (c : Client) : c.decodedBuf.length = c.buf.length := by
  rw [decodedBuf, List.length_append, decodeHeaderMemory_length, ← List.length_append,
    List.take_append_drop]

def Client.pass (c : Client) : Pass :=
  if c.buf.length = c.buf_pos then .ended (.returned true) { c with buf := [], buf_pos := 0 }
  else if c.decode_step = .body then c.bodyPass
  else
    match find (crlf ++ crlf) (c.buf.drop c.buf_pos) with
    | none => .ended (.returned (decide (sizeSub c.buf.length c.buf_pos < 1024))) c
    | some pos =>
        match decodeHeader c.response (c.buf.drop c.buf_pos) with
        | (.rejected, r) => .ended (.returned false) { c with buf := c.decodedBuf, response := r }
        | (.threw, r) => .ended .threw { c with buf := c.decodedBuf, response := r }
        | (.decoded, r) =>
            Client.bodyPass { c with
              buf := c.decodedBuf, response := r, buf_pos := c.buf_pos + (pos + 4)
              decode_step := .body }

/-- What is left to read, and whether a body is due. -/
def Client.left (c : Client) : Nat :=
  2 * (c.buf.length - c.buf_pos) + if c.decode_step = .body then 1 else 0

theorem chunkLoop_pos (buf : List UInt8) (pos : Nat) (body : List UInt8) :
    pos ≤ (chunkLoop buf pos body).2.1 := by
  induction m : buf.length - pos using Nat.strongRecOn generalizing pos body with
  | ind m ih =>
      rw [chunkLoop]
      split
      · exact Nat.le_refl pos
      · case h_2 flag h =>
          have room := find_le h
          simp only [List.length_drop, crlf, List.length_cons, List.length_nil] at room
          dsimp only
          split
          · split
            · exact (by omega : pos ≤ pos + flag + 2)
            · split
              · exact (by omega : pos ≤ pos + flag + 2)
              · exact le_trans (by omega) (ih _ (by omega) _ _ rfl)
          · exact (by omega : pos ≤ pos + flag + 2 + 2)

theorem finish_left {c d : Client} (h : c.finish = .again d) :
    d.left = 2 * (c.buf.length - c.buf_pos) := by
  unfold Client.finish at h
  split at h
  · cases h
  · cases h
    simp [Client.left]

theorem bodyPass_left {c d : Client} (h : c.bodyPass = .again d) :
    d.left ≤ 2 * (c.buf.length - c.buf_pos) := by
  unfold Client.bodyPass at h
  split at h
  · split at h
    · cases h
    · rw [finish_left h]
      dsimp only
      omega
  · have forward := chunkLoop_pos c.buf c.buf_pos []
    split at h
    · cases h
    · cases h
    · case h_3 pos body chunks =>
        rw [finish_left h]
        rw [chunks] at forward
        dsimp only at forward ⊢
        omega

theorem Client.pass_left {c d : Client} (h : c.pass = .again d) : d.left < c.left := by
  unfold Client.pass at h
  split at h
  · cases h
  · split at h
    · case isTrue body =>
        have whole : c.left = 2 * (c.buf.length - c.buf_pos) + 1 := by simp [left, body]
        have := bodyPass_left h
        omega
    · split at h
      · cases h
      · case h_2 pos found =>
          have room := find_le found
          simp only [List.length_drop, crlf, List.length_append, List.length_cons,
            List.length_nil] at room
          split at h
          · cases h
          · cases h
          · have whole : 2 * (c.buf.length - c.buf_pos) ≤ c.left := Nat.le_add_right _ _
            have := bodyPass_left h
            dsimp only at this
            rw [decodedBuf_length] at this
            omega

/-- The loop of recv_callback. -/
def Client.run (c : Client) : Verdict × Client :=
  match _h : c.pass with
  | .ended v c => (v, c)
  | .again d => d.run
termination_by c.left
decreasing_by exact Client.pass_left _h

theorem Client.run_ended {c d : Client} {v : Verdict} (h : c.pass = .ended v d) :
    c.run = (v, d) := by
  rw [run]
  split
  · case h_1 v' d' ended =>
      rw [h] at ended
      cases ended
      rfl
  · case h_2 d' again =>
      rw [h] at again
      cases again

theorem Client.run_again {c d : Client} (h : c.pass = .again d) : c.run = d.run := by
  rw [run]
  split
  · case h_1 v' d' ended =>
      rw [h] at ended
      cases ended
  · case h_2 d' again =>
      rw [h] at again
      cases again
      rfl

def recvCallback (c : Client) (data : List UInt8) : Verdict × Client :=
  Client.run { c with buf := c.buf ++ data }

end HZRobot.Http
