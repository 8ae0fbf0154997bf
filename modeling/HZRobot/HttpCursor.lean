import HZRobot.HttpCalls

/-!
The read position over all calls and passes of a run. It stays in the buffer, and
so do the copies, as long as no chunk loop meets a zero size without its two bytes
behind, or a negative size that wraps its check.
-/

namespace HZRobot.Http

/-- The size lines a chunk loop reads: the position behind each, and the size. -/
def sizeLines (buf : List UInt8) (pos : Nat) : List (Nat × Nat) :=
  match _h : find crlf (buf.drop pos) with
  | none => []
  | some flag =>
      let next := pos + flag + 2
      let len := (htoi (cstr ((buf.drop pos).take flag)) % 2 ^ 64).toNat
      if 0 < len then
        if buf.length < (next + len + 2) % 2 ^ 64 then [(next, len)]
        else if buf.length < next + len then [(next, len)]
        else (next, len) :: sizeLines buf (next + len + 2)
      else [(next, 0)]
termination_by buf.length - pos
decreasing_by
  have := find_le _h
  simp only [List.length_drop, crlf, List.length_cons, List.length_nil] at this
  omega

/-- The bound check of a chunk, as the code computes it. -/
def chunkMissing (buf : List UInt8) (line : Nat × Nat) : Prop :=
  buf.length < (line.1 + line.2 + 2) % 2 ^ 64

/-- The client at the body part of a pass, if the pass gets there. -/
def Client.bodyPart (c : Client) : Option Client :=
  if c.buf.length = c.buf_pos then none
  else if c.decode_step = .body then some c
  else
    match find (crlf ++ crlf) (c.buf.drop c.buf_pos) with
    | none => none
    | some pos =>
        match decodeHeader c.response (c.buf.drop c.buf_pos) with
        | (.decoded, r) =>
            some { c with
              buf := c.decodedBuf, response := r, buf_pos := c.buf_pos + (pos + 4)
              decode_step := .body }
        | _ => none

/-- The start and the length of a copy into the body. -/
def Client.Copies (b : Client) (start len : Nat) : Prop :=
  if b.response.is_chunk = false then
    ¬ sizeSub b.buf.length b.buf_pos < b.response.content_length ∧
      start = b.buf_pos ∧ len = sizeSub b.buf.length b.buf_pos
  else (start, len) ∈ sizeLines b.buf b.buf_pos ∧ 0 < len ∧ ¬ chunkMissing b.buf (start, len)

/-- Copies in range, and bound checks as if nothing wrapped. -/
structure BodyInside (b : Client) : Prop where
  cursor : b.buf_pos ≤ b.buf.length
  copies : ∀ start len, b.Copies start len → b.buf_pos ≤ start ∧ start + len ≤ b.buf.length
  checks : b.response.is_chunk = true → ∀ line ∈ sizeLines b.buf b.buf_pos, 0 < line.2 →
    (chunkMissing b.buf line ↔ b.buf.length < line.1 + line.2 + 2)

def SafePass (c : Client) : Prop :=
  c.buf_pos ≤ c.buf.length ∧ ∀ b, c.bodyPart = some b → BodyInside b

/-- A zero size has its line end behind it; no other size is negative, or it makes the loop wait. -/
def Framed (c : Client) : Prop :=
  ∀ b, c.bodyPart = some b → b.response.is_chunk = true → ∀ line ∈ sizeLines b.buf b.buf_pos,
    (line.2 = 0 → line.1 + 2 ≤ b.buf.length) ∧
      (0 < line.2 → line.2 < 2 ^ 31 ∨ chunkMissing b.buf line)

/-- The client at the start of every pass of a call. -/
def Client.passes (c : Client) : List Client :=
  match _h : c.pass with
  | .ended _ _ => [c]
  | .again d => c :: d.passes
termination_by c.left
decreasing_by exact Client.pass_left _h

/-- The passes of all calls, up to the first call that does not return true. -/
def passesOf : Client → List (List UInt8) → List Client
  | _, [] => []
  | c, f :: fs =>
      Client.passes { c with buf := c.buf ++ f } ++
        match recvCallback c f with
        | (.returned true, d) => passesOf d fs
        | _ => []

/-- The client after every call that returns true. -/
def returnsOf : Client → List (List UInt8) → List Client
  | _, [] => []
  | c, f :: fs =>
      match recvCallback c f with
      | (.returned true, d) => d :: returnsOf d fs
      | _ => []

/-- Over the whole run: every pass is safe, and every call that returns true leaves the
cursor in the buffer. -/
def CursorInside (c : Client) (fs : List (List UInt8)) : Prop :=
  (∀ d ∈ passesOf c fs, SafePass d) ∧ ∀ d ∈ returnsOf c fs, d.buf_pos ≤ d.buf.length

/-- The next size line: the position behind it, and the size. -/
def chunkLine (buf : List UInt8) (pos : Nat) : Option (Nat × Nat) :=
  (find crlf (buf.drop pos)).map fun flag =>
    (pos + flag + 2, (htoi (cstr ((buf.drop pos).take flag)) % 2 ^ 64).toNat)

theorem chunkLine_bound {buf : List UInt8} {pos : Nat} {line : Nat × Nat}
    (h : chunkLine buf pos = some line) : pos < line.1 ∧ line.1 ≤ buf.length := by
  obtain ⟨flag, found, rfl⟩ := Option.map_eq_some_iff.mp h
  have room := find_le found
  simp only [List.length_drop, crlf, List.length_cons, List.length_nil] at room
  dsimp only
  omega

theorem chunkLoop_waits {buf : List UInt8} {pos : Nat} (body : List UInt8)
    (h : chunkLine buf pos = none) : chunkLoop buf pos body = (.waiting, pos, body) := by
  have none_ := Option.map_eq_none_iff.mp h
  rw [chunkLoop]
  split
  · rfl
  · case h_2 flag found =>
      rw [none_] at found
      cases found

theorem chunkLoop_line {buf : List UInt8} {pos : Nat} {line : Nat × Nat} (body : List UInt8)
    (h : chunkLine buf pos = some line) :
    chunkLoop buf pos body =
      if 0 < line.2 then
        if buf.length < (line.1 + line.2 + 2) % 2 ^ 64 then (.waiting, line.1, body)
        else if buf.length < line.1 + line.2 then (.threw, line.1, body)
        else chunkLoop buf (line.1 + line.2 + 2) (body ++ (buf.drop line.1).take line.2)
      else (.complete, line.1 + 2, body) := by
  obtain ⟨flag, found, rfl⟩ := Option.map_eq_some_iff.mp h
  rw [chunkLoop]
  split
  · case h_1 none_ =>
      rw [none_] at found
      cases found
  · case h_2 flag' found' =>
      rw [found'] at found
      cases found
      rfl

theorem sizeLines_none {buf : List UInt8} {pos : Nat} (h : chunkLine buf pos = none) :
    sizeLines buf pos = [] := by
  have none_ := Option.map_eq_none_iff.mp h
  rw [sizeLines]
  split
  · rfl
  · case h_2 flag found =>
      rw [none_] at found
      cases found

theorem sizeLines_line {buf : List UInt8} {pos : Nat} {line : Nat × Nat}
    (h : chunkLine buf pos = some line) :
    sizeLines buf pos =
      line ::
        if 0 < line.2 ∧ ¬ buf.length < (line.1 + line.2 + 2) % 2 ^ 64 ∧
          ¬ buf.length < line.1 + line.2 then sizeLines buf (line.1 + line.2 + 2)
        else [] := by
  obtain ⟨flag, found, rfl⟩ := Option.map_eq_some_iff.mp h
  rw [sizeLines]
  split
  · case h_1 none_ =>
      rw [none_] at found
      cases found
  · case h_2 flag' found' =>
      rw [found'] at found
      cases found
      dsimp only
      by_cases pos_ : 0 < (htoi (cstr ((buf.drop pos).take flag)) % 2 ^ 64).toNat
      · rw [if_pos pos_]
        split
        · case isTrue missing =>
            rw [if_neg fun all => all.2.1 missing]
        · case isFalse present =>
            split
            · case isTrue missing =>
                rw [if_neg fun all => all.2.2 missing]
            · case isFalse here =>
                rw [if_pos ⟨pos_, present, here⟩]
      · rw [if_neg pos_, if_neg fun all => pos_ all.1, Nat.eq_zero_of_not_pos pos_]

/-- What holds of the next line and of the lines behind it holds of all. -/
theorem sizeLines_cases {buf : List UInt8} {pos : Nat} {line : Nat × Nat}
    (h : line ∈ sizeLines buf pos) :
    ∃ first, chunkLine buf pos = some first ∧
      (line = first ∨
        0 < first.2 ∧ ¬ buf.length < (first.1 + first.2 + 2) % 2 ^ 64 ∧
          ¬ buf.length < first.1 + first.2 ∧ line ∈ sizeLines buf (first.1 + first.2 + 2)) := by
  cases next : chunkLine buf pos with
  | none =>
      rw [sizeLines_none next] at h
      cases h
  | some first =>
      rw [sizeLines_line next] at h
      refine ⟨first, rfl, ?_⟩
      rcases List.mem_cons.mp h with here | later
      · exact .inl here
      · split at later
        · case isTrue all => exact .inr ⟨all.1, all.2.1, all.2.2, later⟩
        · cases later

theorem sizeLines_bound {buf : List UInt8} {pos : Nat} {line : Nat × Nat}
    (h : line ∈ sizeLines buf pos) : pos ≤ line.1 ∧ line.1 ≤ buf.length := by
  induction k : buf.length - pos using Nat.strongRecOn generalizing pos with
  | ind n ih =>
      obtain ⟨first, next, here | ⟨-, -, -, later⟩⟩ := sizeLines_cases h
      · have bound := chunkLine_bound next
        rw [here]
        omega
      · have bound := chunkLine_bound next
        have rest := ih _ (by omega) later rfl
        omega

/-- A loop over framed lines throws nothing and stops inside the buffer. -/
theorem chunkLoop_inside {buf : List UInt8} {pos : Nat} (body : List UInt8)
    (room : pos ≤ buf.length) (small : buf.length < 2 ^ 63)
    (framed : ∀ line ∈ sizeLines buf pos, (line.2 = 0 → line.1 + 2 ≤ buf.length) ∧
      (0 < line.2 → line.2 < 2 ^ 31 ∨ chunkMissing buf line)) :
    (chunkLoop buf pos body).1 ≠ .threw ∧ (chunkLoop buf pos body).2.1 ≤ buf.length := by
  induction k : buf.length - pos using Nat.strongRecOn generalizing pos body with
  | ind n ih =>
      cases next : chunkLine buf pos with
      | none =>
          rw [chunkLoop_waits body next]
          exact ⟨by simp, room⟩
      | some line =>
          have bound := chunkLine_bound next
          rw [sizeLines_line next] at framed
          have first := framed line List.mem_cons_self
          rw [chunkLoop_line body next]
          by_cases pos_ : 0 < line.2
          · rw [if_pos pos_]
            by_cases missing : buf.length < (line.1 + line.2 + 2) % 2 ^ 64
            · rw [if_pos missing]
              exact ⟨by simp, bound.2⟩
            · have short := (first.2 pos_).resolve_right missing
              have here : ¬ buf.length < line.1 + line.2 := by omega
              rw [if_pos ⟨pos_, missing, here⟩] at framed
              rw [if_neg missing, if_neg here]
              exact ih _ (by omega) _ (by omega)
                (fun l hl => framed l (List.mem_cons_of_mem _ hl)) rfl
          · rw [if_neg pos_]
            exact ⟨by simp, first.1 (by omega)⟩

/-- The zero size is the last one, and the loop steps over its line end unseen. -/
theorem chunkLoop_zero {buf : List UInt8} {pos : Nat} (body : List UInt8) {line : Nat × Nat}
    (h : line ∈ sizeLines buf pos) (zero : line.2 = 0) :
    ∃ body', chunkLoop buf pos body = (.complete, line.1 + 2, body') := by
  induction k : buf.length - pos using Nat.strongRecOn generalizing pos body with
  | ind n ih =>
      obtain ⟨first, next, here | ⟨pos_, present, room, later⟩⟩ := sizeLines_cases h
      · rw [chunkLoop_line body next, ← here, if_neg (by omega)]
        exact ⟨body, rfl⟩
      · have bound := chunkLine_bound next
        rw [chunkLoop_line body next, if_pos pos_, if_neg present, if_neg room]
        exact ih _ (by omega) _ later rfl

theorem htoiDigits_range {n : Int} (low : -2 ^ 31 ≤ n) (high : n < 2 ^ 31) (s : List UInt8) :
    -2 ^ 31 ≤ htoiDigits n s ∧ htoiDigits n s < 2 ^ 31 := by
  induction s generalizing n with
  | nil => exact ⟨low, high⟩
  | cons c s ih =>
      rw [htoiDigits]
      split
      · exact ⟨low, high⟩
      · case h_2 v digit =>
          apply ih
          · unfold toInt32
            omega
          · unfold toInt32
            omega

theorem htoi_range (s : List UInt8) : -2 ^ 31 ≤ htoi s ∧ htoi s < 2 ^ 31 := by
  unfold htoi
  split
  · exact htoiDigits_range (by decide) (by decide) _
  · exact htoiDigits_range (by decide) (by decide) _
  · exact htoiDigits_range (by decide) (by decide) _

/-- A size is an int, converted: small, or close to the top. -/
theorem sizeLines_size {buf : List UInt8} {pos : Nat} {line : Nat × Nat}
    (h : line ∈ sizeLines buf pos) : line.2 < 2 ^ 31 ∨ 2 ^ 64 - 2 ^ 31 ≤ line.2 := by
  induction k : buf.length - pos using Nat.strongRecOn generalizing pos with
  | ind n ih =>
      obtain ⟨first, next, here | ⟨-, -, -, later⟩⟩ := sizeLines_cases h
      · obtain ⟨flag, -, rfl⟩ := Option.map_eq_some_iff.mp next
        have range := htoi_range (cstr ((buf.drop pos).take flag))
        rw [here]
        dsimp only
        omega
      · have bound := chunkLine_bound next
        exact ih _ (by omega) later rfl

/-- After a call that returns true, and before the next pass, the cursor is in the buffer. -/
def Settles : Pass → Prop
  | .ended (.returned true) d => d.buf_pos ≤ d.buf.length
  | .again d => d.buf_pos ≤ d.buf.length
  | _ => True

theorem finish_settles (c : Client) : Settles c.finish ↔ c.buf_pos ≤ c.buf.length := by
  unfold Client.finish
  split
  · exact Iff.rfl
  · exact Iff.rfl

theorem bodyPart_inside {c b : Client} (room : c.buf_pos ≤ c.buf.length)
    (h : c.bodyPart = some b) :
    b.buf.length = c.buf.length ∧ b.buf_pos ≤ b.buf.length ∧ c.pass = b.bodyPass := by
  unfold Client.bodyPart at h
  unfold Client.pass
  split at h
  · cases h
  · case isFalse more =>
      rw [if_neg more]
      split at h
      · case isTrue due =>
          cases h
          rw [if_pos due]
          exact ⟨rfl, room, rfl⟩
      · case isFalse header =>
          rw [if_neg header]
          cases found : find (crlf ++ crlf) (c.buf.drop c.buf_pos) with
          | none =>
              rw [found] at h
              cases h
          | some pos =>
              have inside := find_le found
              simp only [List.length_drop, crlf, List.length_append, List.length_cons,
                List.length_nil] at inside
              rw [found] at h
              dsimp only at h ⊢
              rcases decoded : decodeHeader c.response (c.buf.drop c.buf_pos) with ⟨verdict, r⟩
              rw [decoded] at h
              cases verdict with
              | rejected => cases h
              | threw => cases h
              | decoded =>
                  cases h
                  have forward : c.buf_pos + (pos + 4) ≤ c.decodedBuf.length := by
                    rw [c.decodedBuf_length]
                    omega
                  exact ⟨c.decodedBuf_length, forward, rfl⟩

theorem settles_of_no_body {c : Client} (room : c.buf_pos ≤ c.buf.length)
    (h : c.bodyPart = none) : Settles c.pass := by
  unfold Client.bodyPart at h
  unfold Client.pass
  split at h
  · case isTrue empty =>
      rw [if_pos empty]
      exact Nat.le_refl 0
  · case isFalse more =>
      rw [if_neg more]
      split at h
      · cases h
      · case isFalse header =>
          rw [if_neg header]
          cases found : find (crlf ++ crlf) (c.buf.drop c.buf_pos) with
          | none =>
              dsimp only
              cases decide (sizeSub c.buf.length c.buf_pos < 1024) with
              | false => exact trivial
              | true => exact room
          | some pos =>
              rw [found] at h
              dsimp only at h ⊢
              rcases decoded : decodeHeader c.response (c.buf.drop c.buf_pos) with ⟨verdict, r⟩
              rw [decoded] at h
              cases verdict with
              | rejected => exact trivial
              | threw => exact trivial
              | decoded => cases h

/-- The body part alone: framed lines are what keeps its copies, checks and cursor right. -/
theorem body_framed_iff {b : Client} (room : b.buf_pos ≤ b.buf.length)
    (small : b.buf.length < 2 ^ 63) :
    (b.response.is_chunk = true → ∀ line ∈ sizeLines b.buf b.buf_pos,
        (line.2 = 0 → line.1 + 2 ≤ b.buf.length) ∧
          (0 < line.2 → line.2 < 2 ^ 31 ∨ chunkMissing b.buf line)) ↔
      BodyInside b ∧ Settles b.bodyPass := by
  by_cases plain : b.response.is_chunk = false
  · have size : sizeSub b.buf.length b.buf_pos = b.buf.length - b.buf_pos := if_pos room
    refine iff_of_true (fun chunk => absurd chunk (by simp [plain])) ⟨⟨room, ?_, ?_⟩, ?_⟩
    · intro start len copy
      rw [Client.Copies, if_pos plain, size] at copy
      omega
    · exact fun chunk => absurd chunk (by simp [plain])
    · rw [Client.bodyPass, if_pos plain, size]
      split
      · exact room
      · rw [finish_settles]
        dsimp only
        omega
  · have chunk : b.response.is_chunk = true := by simpa using plain
    constructor
    · intro framed
      have lines := framed chunk
      refine ⟨⟨room, ?_, ?_⟩, ?_⟩
      · intro start len copy
        rw [Client.Copies, if_neg plain] at copy
        obtain ⟨line, pos_, present⟩ := copy
        have bound := sizeLines_bound line
        have short := ((lines _ line).2 pos_).resolve_right present
        unfold chunkMissing at present
        dsimp only at bound short present
        omega
      · intro _ line here pos_
        have bound := sizeLines_bound here
        rcases (lines line here).2 pos_ with short | waits
        · unfold chunkMissing
          omega
        · refine iff_of_true waits ?_
          unfold chunkMissing at waits
          omega
      · have inside := chunkLoop_inside [] room small lines
        rw [Client.bodyPass, if_neg plain]
        rcases loop : chunkLoop b.buf b.buf_pos [] with ⟨end_, pos, body⟩
        rw [loop] at inside
        cases end_ with
        | waiting => exact inside.2
        | threw => exact absurd rfl inside.1
        | complete =>
            dsimp only
            rw [finish_settles]
            exact inside.2
    · rintro ⟨inside, settles⟩ _ line here
      refine ⟨fun zero => ?_, fun pos_ => ?_⟩
      · obtain ⟨body, loop⟩ := chunkLoop_zero [] here zero
        rw [Client.bodyPass, if_neg plain, loop] at settles
        exact (finish_settles _).mp settles
      · by_contra neither
        rw [not_or] at neither
        have check := not_congr (inside.checks chunk line here pos_)
        have room' := check.mp neither.2
        rcases sizeLines_size here with short | top
        · exact neither.1 short
        · omega

theorem framed_iff {c : Client} (room : c.buf_pos ≤ c.buf.length) (small : c.buf.length < 2 ^ 63) :
    Framed c ↔ SafePass c ∧ Settles c.pass := by
  unfold Framed SafePass
  cases part : c.bodyPart with
  | none =>
      refine iff_of_true (fun b some_ => ?_) ⟨⟨room, fun b some_ => ?_⟩, settles_of_no_body room part⟩
      · cases some_
      · cases some_
  | some b =>
      obtain ⟨buf, room', pass⟩ := bodyPart_inside room part
      have body := body_framed_iff room' (buf ▸ small)
      rw [pass]
      constructor
      · intro framed
        have both := body.mp (framed b rfl)
        refine ⟨⟨room, fun d here => ?_⟩, both.2⟩
        rw [← Option.some.inj here]
        exact both.1
      · rintro ⟨safe, settles⟩ d here
        rw [← Option.some.inj here]
        exact body.mpr ⟨safe.2 b rfl, settles⟩

theorem finish_buf (c : Client) : c.finish.client.buf = c.buf := by
  unfold Client.finish
  split
  · rfl
  · rfl

theorem bodyPass_buf (c : Client) : c.bodyPass.client.buf = c.buf := by
  unfold Client.bodyPass
  split
  · split
    · rfl
    · exact finish_buf _
  · split
    · rfl
    · rfl
    · exact finish_buf _

theorem pass_buf (c : Client) : c.pass.client.buf.length ≤ c.buf.length := by
  unfold Client.pass
  split
  · exact Nat.zero_le _
  · split
    · rw [bodyPass_buf]
    · split
      · exact Nat.le_refl _
      · split
        · exact Nat.le_of_eq c.decodedBuf_length
        · exact Nat.le_of_eq c.decodedBuf_length
        · rw [bodyPass_buf]
          exact Nat.le_of_eq c.decodedBuf_length

theorem run_buf (c : Client) : c.run.2.buf.length ≤ c.buf.length := by
  induction k : c.left using Nat.strongRecOn generalizing c with
  | ind n ih =>
      have step := pass_buf c
      cases pass : c.pass with
      | ended v d =>
          rw [pass] at step
          rw [Client.run_ended pass]
          exact step
      | again d =>
          rw [pass] at step
          have less := Client.pass_left pass
          rw [Client.run_again pass]
          exact (ih d.left (by omega) d rfl).trans step

theorem passes_ended {c d : Client} {v : Verdict} (h : c.pass = .ended v d) : c.passes = [c] := by
  rw [Client.passes]
  split
  · rfl
  · case h_2 e again =>
      rw [h] at again
      cases again

theorem passes_again {c d : Client} (h : c.pass = .again d) : c.passes = c :: d.passes := by
  rw [Client.passes]
  split
  · case h_1 v e ended =>
      rw [h] at ended
      cases ended
  · case h_2 e again =>
      rw [h] at again
      cases again
      rfl

theorem mem_passes (c : Client) : c ∈ c.passes := by
  cases pass : c.pass with
  | ended v d =>
      rw [passes_ended pass]
      exact List.mem_singleton_self c
  | again d =>
      rw [passes_again pass]
      exact List.mem_cons_self

/-- One call: the induction is on the passes, framed_iff settles each. -/
theorem call_framed_iff {c : Client} (room : c.buf_pos ≤ c.buf.length)
    (small : c.buf.length < 2 ^ 63) :
    (∀ d ∈ c.passes, Framed d) ↔
      (∀ d ∈ c.passes, SafePass d) ∧
        ∀ d, c.run = (.returned true, d) → d.buf_pos ≤ d.buf.length := by
  induction k : c.left using Nat.strongRecOn generalizing c with
  | ind n ih =>
      have here := framed_iff room small
      have shrinks := pass_buf c
      cases pass : c.pass with
      | ended v d =>
          rw [pass] at here
          rw [passes_ended pass, Client.run_ended pass, List.forall_mem_singleton,
            List.forall_mem_singleton, here]
          refine and_congr_right fun _ => ⟨fun settles e ended => ?_, fun inside => ?_⟩
          · cases ended
            exact settles
          · match v with
            | .returned true => exact inside d rfl
            | .returned false => exact trivial
            | .threw => exact trivial
      | again d =>
          rw [pass] at here shrinks
          have less := Client.pass_left pass
          rw [passes_again pass, Client.run_again pass, List.forall_mem_cons,
            List.forall_mem_cons, here]
          have small' : d.buf.length < 2 ^ 63 := lt_of_le_of_lt shrinks small
          constructor
          · rintro ⟨⟨safe, settles⟩, framed⟩
            have rest := (ih d.left (by omega) settles small' rfl).mp framed
            exact ⟨⟨safe, rest.1⟩, rest.2⟩
          · rintro ⟨⟨safe, others⟩, inside⟩
            have room' := (others d (mem_passes d)).1
            exact ⟨⟨safe, room'⟩, (ih d.left (by omega) room' small' rfl).mpr ⟨others, inside⟩⟩

theorem cursor_inside_iff_of_inside {c : Client} {fs : List (List UInt8)}
    (room : c.buf_pos ≤ c.buf.length) (small : (c.buf ++ fs.flatten).length < 2 ^ 63) :
    CursorInside c fs ↔ ∀ d ∈ passesOf c fs, Framed d := by
  induction fs generalizing c with
  | nil => simp [CursorInside, passesOf, returnsOf]
  | cons f fs ih =>
      rw [List.flatten_cons, ← List.append_assoc, List.length_append] at small
      have grown : (c.buf ++ f).length = c.buf.length + f.length := List.length_append
      have call := call_framed_iff (c := { c with buf := c.buf ++ f })
        (by dsimp only; omega) (by dsimp only; omega)
      have shrinks := run_buf { c with buf := c.buf ++ f }
      have same : Client.run { c with buf := c.buf ++ f } = recvCallback c f := rfl
      rw [same] at call shrinks
      rw [CursorInside, passesOf, returnsOf]
      rcases result : recvCallback c f with ⟨v, d⟩
      rw [result] at call shrinks
      match v with
      | .threw =>
          simp only [List.append_nil]
          rw [call]
          simp
      | .returned false =>
          simp only [List.append_nil]
          rw [call]
          simp
      | .returned true =>
          have inside : (∀ e, (Verdict.returned true, d) = (Verdict.returned true, e) →
              e.buf_pos ≤ e.buf.length) ↔ d.buf_pos ≤ d.buf.length := by simp
          rw [inside] at call
          simp only [List.forall_mem_append, List.forall_mem_cons]
          rw [call]
          have rest (room' : d.buf_pos ≤ d.buf.length) := ih room' (by
            dsimp only at shrinks
            rw [List.length_append]
            omega)
          unfold CursorInside at rest
          constructor
          · rintro ⟨⟨safe, later⟩, inside', after'⟩
            exact ⟨⟨safe, inside'⟩, (rest inside').mp ⟨later, after'⟩⟩
          · rintro ⟨⟨safe, inside'⟩, framed⟩
            have both := (rest inside').mpr framed
            exact ⟨⟨safe, both.1⟩, inside', both.2⟩

/-- On a fresh client of either mode; the bound is the greatest size of a std::string. -/
theorem cursor_inside_iff (sync : Bool) (fs : List (List UInt8))
    (small : fs.flatten.length < 2 ^ 63) :
    CursorInside { sync_mode := sync } fs ↔
      ∀ c ∈ passesOf { sync_mode := sync } fs, Framed c :=
  cursor_inside_iff_of_inside (Nat.le_refl 0) small

theorem bodyPart_chunkedHeader (t : List UInt8) :
    (headerClient (chunkedHeader ++ t)).bodyPart =
      some (bodyClient (decodeHeaderMemory chunkedHeader ++ t) 47
        { status_desc := bytes "OK", is_chunk := true }) := by
  have found : find (crlf ++ crlf) (chunkedHeader ++ t) = some 43 := find_append (by decide) t
  have more : (chunkedHeader ++ t).length ≠ 0 := by simp [chunkedHeader, bytes]
  simp only [Client.bodyPart, headerClient, Client.decodedBuf, if_neg more, List.drop_zero,
    List.take_zero, List.nil_append, found, chunkedHeader_decoded, chunkedHeader_memory,
    reduceCtorEq, ↓reduceIte, Nat.zero_add]
  rfl

theorem chunkedMessage_inside : CursorInside syncClient [chunkedMessage] := by
  refine (cursor_inside_iff true [chunkedMessage] (by decide)).mpr fun c here => ?_
  have only : passesOf syncClient [chunkedMessage] = [headerClient chunkedMessage] := by
    have call : recvCallback syncClient chunkedMessage = _ := Client.run_ended pass_chunkedMessage
    have passes : Client.passes { syncClient with buf := syncClient.buf ++ chunkedMessage } = _ :=
      passes_ended pass_chunkedMessage
    rw [passesOf, call, passes]
    rfl
  have first : c = headerClient chunkedMessage := List.mem_singleton.mp (only ▸ here)
  intro b part _ line lines
  have body := bodyPart_chunkedHeader (bytes "0\r\n\r\n")
  rw [← chunkedMessage_eq, ← first, part] at body
  cases body
  have next : chunkLine (decodeHeaderMemory chunkedHeader ++ bytes "0\r\n\r\n") 47 =
      some (50, 0) := by decide
  have zero : sizeLines (decodeHeaderMemory chunkedHeader ++ bytes "0\r\n\r\n") 47 = [(50, 0)] := by
    rw [sizeLines_line next]
    rfl
  have last : line = (50, 0) := List.mem_singleton.mp (zero ▸ lines)
  rw [last]
  exact ⟨fun _ => by decide, fun pos => absurd pos (by decide)⟩

/-- Cut behind the zero size line: the reply is done, and the cursor is two bytes past the end. -/
theorem cut_chunked_outside : ¬ CursorInside syncClient [chunkedHeader ++ bytes "0\r\n"] := by
  intro inside
  have framed := (cursor_inside_iff_of_inside (c := syncClient) (Nat.le_refl 0) (by decide)).mp inside
  have here : headerClient (chunkedHeader ++ bytes "0\r\n") ∈
      passesOf syncClient [chunkedHeader ++ bytes "0\r\n"] :=
    List.mem_append_left _ (mem_passes _)
  have lines := framed _ here _ (bodyPart_chunkedHeader _) rfl
  have next : chunkLine (decodeHeaderMemory chunkedHeader ++ bytes "0\r\n") 47 = some (50, 0) := by
    decide
  have zero : ((50, 0) : Nat × Nat) ∈
      sizeLines (decodeHeaderMemory chunkedHeader ++ bytes "0\r\n") 47 := by
    rw [sizeLines_line next]
    exact List.mem_cons_self
  have room := (lines _ zero).1 rfl
  revert room
  decide

end HZRobot.Http
