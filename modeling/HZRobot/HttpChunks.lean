import HZRobot.HttpCursor

/-!
Chunked replies on a sync client. A call that reads a size line and then has to wait
leaves the cursor behind the line, and the next call starts its body afresh there; a
reply is read right where no fragment ends between the first size line and the last.
-/

namespace HZRobot.Http

def hexDigit (c : UInt8) : Option Nat :=
  if 48 ≤ c ∧ c ≤ 57 then some (c.toNat - 48)
  else if 97 ≤ c ∧ c ≤ 102 then some (c.toNat - 87)
  else if 65 ≤ c ∧ c ≤ 70 then some (c.toNat - 55)
  else none

/-- The number a text of hexadecimal digits stands for, with n in front of it. -/
def hexNumber (n : Nat) : List UInt8 → Option Nat
  | [] => some n
  | c :: s =>
      match hexDigit c with
      | none => none
      | some d => hexNumber (16 * n + d) s

/-- A chunk and the text of its size. -/
structure Chunk where
  size : List UInt8
  data : List UInt8

structure Chunk.Valid (c : Chunk) : Prop where
  size_some : c.size ≠ []
  number : hexNumber 0 c.size = some c.data.length
  data_some : c.data ≠ []
  short : c.data.length < 2 ^ 31

def Chunk.encode (c : Chunk) : List UInt8 := c.size ++ crlf ++ c.data ++ crlf

def lastLine : List UInt8 := bytes "0\r\n"

/-- The chunks and the zero size line. -/
def chunkLines (chunks : List Chunk) : List UInt8 := chunks.flatMap Chunk.encode ++ lastLine

def chunkedBody (chunks : List Chunk) : List UInt8 := chunkLines chunks ++ crlf

/-- A header block that ends at its end and announces chunks. -/
structure ChunkedHeader (head : List UInt8) : Prop where
  ending : ∃ h, find terminator head = some h ∧ head.length = h + 4
  decoded : ∃ r, decodeHeader {} head = (.decoded, r) ∧ r.is_chunk = true
  block : head.length ≤ 1024

/-- recv_callback on fragment after fragment, up to the first that does not return true. -/
def feedAll : Client → List (List UInt8) → Verdict × Client
  | c, [] => (.returned true, c)
  | c, f :: fs =>
      match recvCallback c f with
      | (.returned true, d) => feedAll d fs
      | call => call

/-- All calls return true, and the reply is done with this body. -/
def ReadsAll (c : Client) (fs : List (List UInt8)) (body : List UInt8) : Prop :=
  ∃ d, feedAll c fs = (.returned true, d) ∧ d.decode_step = .done ∧ d.response.body = body

/-- The length of the first size line, with its end. -/
def firstLine : List Chunk → Nat
  | [] => lastLine.length
  | c :: _ => c.size.length + 2

/-- With p received: no fragment ends from the first size line on until the last one is
there, and the line end behind it is cut at most once. -/
structure WellCut (head : List UInt8) (chunks : List Chunk) (p : List UInt8)
    (fs : List (List UInt8)) : Prop where
  lines : ∀ gs, gs <+: fs →
    (p ++ gs.flatten).length < head.length + firstLine chunks ∨
      (head ++ chunkLines chunks).length ≤ (p ++ gs.flatten).length
  last : ∀ gs hs, gs <+: fs → hs <+: fs →
    (p ++ gs.flatten).length = (head ++ chunkLines chunks).length →
      (p ++ hs.flatten).length ≠ (head ++ chunkLines chunks).length + 1

theorem hexValue_of_hexDigit {c : UInt8} {d : Nat} (h : hexDigit c = some d) :
    hexValue c = some (d : Int) := by
  unfold hexDigit at h
  unfold hexValue
  split at h
  · case isTrue digit =>
      cases h
      have low : 48 ≤ c.toNat := UInt8.le_iff_toNat_le.mp digit.1
      rw [if_pos digit]
      congr 1
      omega
  · case isFalse noDigit =>
      rw [if_neg noDigit]
      split at h
      · case isTrue lower =>
          cases h
          have low : 97 ≤ c.toNat := UInt8.le_iff_toNat_le.mp lower.1
          have high : c.toNat ≤ 102 := UInt8.le_iff_toNat_le.mp lower.2
          rw [if_pos ⟨lower.1, UInt8.le_iff_toNat_le.mpr (show c.toNat ≤ 122 by omega)⟩]
          congr 1
          omega
      · case isFalse noLower =>
          split at h
          · case isTrue upper =>
              cases h
              have low : 65 ≤ c.toNat := UInt8.le_iff_toNat_le.mp upper.1
              have high : c.toNat ≤ 70 := UInt8.le_iff_toNat_le.mp upper.2
              have notLower : ¬ (97 ≤ c ∧ c ≤ 122) := fun both => by
                have : 97 ≤ c.toNat := UInt8.le_iff_toNat_le.mp both.1
                omega
              rw [if_neg notLower,
                if_pos ⟨upper.1, UInt8.le_iff_toNat_le.mpr (show c.toNat ≤ 90 by omega)⟩]
              congr 1
              omega
          · cases h

theorem le_hexNumber {n m : Nat} {s : List UInt8} (h : hexNumber n s = some m) : n ≤ m := by
  induction s generalizing n with
  | nil => exact Nat.le_of_eq (Option.some.inj h)
  | cons c s ih =>
      rw [hexNumber] at h
      split at h
      · cases h
      · have := ih h
        omega

/-- htoi reads a number below 2^31 right. -/
theorem htoiDigits_hexNumber {n m : Nat} {s : List UInt8} (h : hexNumber n s = some m)
    (short : m < 2 ^ 31) : htoiDigits n s = m := by
  induction s generalizing n with
  | nil => exact congrArg Int.ofNat (Option.some.inj h)
  | cons c s ih =>
      rw [hexNumber] at h
      split at h
      · cases h
      · case h_2 d digit =>
          have bound := le_hexNumber h
          have step : toInt32 (16 * (n : Int) + d) = ((16 * n + d : Nat) : Int) := by
            unfold toInt32
            omega
          rw [htoiDigits, hexValue_of_hexDigit digit]
          dsimp only
          rw [step]
          exact ih h

theorem htoi_hexNumber {m : Nat} {s : List UInt8} (h : hexNumber 0 s = some m)
    (short : m < 2 ^ 31) : htoi s = m := by
  have x : hexDigit 120 = none := by decide
  have X : hexDigit 88 = none := by decide
  have zero : hexDigit 48 = some 0 := by decide
  unfold htoi
  split
  · simp [hexNumber, x, zero] at h
  · simp [hexNumber, X, zero] at h
  · exact htoiDigits_hexNumber h short

theorem hexDigit_of_mem {n m : Nat} {s : List UInt8} (h : hexNumber n s = some m) :
    ∀ c ∈ s, (hexDigit c).isSome := by
  induction s generalizing n with
  | nil => simp
  | cons c s ih =>
      rw [hexNumber] at h
      split at h
      · cases h
      · case h_2 d digit =>
          rw [List.forall_mem_cons, digit]
          exact ⟨rfl, ih h⟩

theorem size_text {n m : Nat} {s : List UInt8} (h : hexNumber n s = some m) :
    10 ∉ s ∧ 13 ∉ s ∧ 0 ∉ s := by
  have digits := hexDigit_of_mem h
  refine ⟨fun here => ?_, fun here => ?_, fun here => ?_⟩
  · exact absurd (digits _ here) (by decide)
  · exact absurd (digits _ here) (by decide)
  · exact absurd (digits _ here) (by decide)

theorem chunkLine_text {size : List UInt8} {m : Nat} (number : hexNumber 0 size = some m)
    (short : m < 2 ^ 31) (front rest : List UInt8) :
    chunkLine (front ++ (size ++ crlf ++ rest)) front.length =
      some (front.length + size.length + 2, m) := by
  have text := size_text number
  have found : find crlf (size ++ crlf ++ rest) = some size.length := by
    have cut_ := cut_pair (by decide : (13 : UInt8) ≠ 10) (not_crlf_of_no_cr text.2.1) rest
    obtain ⟨i, found, heq⟩ := Option.map_eq_some_iff.mp cut_
    have prefix_ := congrArg (List.length ∘ Prod.fst) heq
    have room := find_le found
    have front_ : ((size ++ [13, 10] ++ rest).take i).length = size.length := prefix_
    rw [List.length_take] at front_
    have : i = size.length := by
      simp only [List.length_append, List.length_cons, List.length_nil] at room front_
      omega
    exact this ▸ found
  have value : (htoi (cstr size) % 2 ^ 64).toNat = m := by
    rw [cstr_eq_self text.2.2, htoi_hexNumber number short]
    omega
  have line : (size ++ crlf ++ rest).take size.length = size := by
    rw [List.append_assoc, List.take_left]
  rw [chunkLine, List.drop_left, found, Option.map_some, line, value]

/-- The whole chunk section, read in one loop. -/
theorem chunkLoop_chunks {chunks : List Chunk} (valid : ∀ c ∈ chunks, c.Valid)
    (front t body : List UInt8)
    (small : (front ++ (chunkLines chunks ++ t)).length < 2 ^ 63) :
    chunkLoop (front ++ (chunkLines chunks ++ t)) front.length body =
      (.complete, (front ++ chunkLines chunks).length + 2, body ++ chunks.flatMap Chunk.data) := by
  induction chunks generalizing front body with
  | nil =>
      have shape : chunkLines [] ++ t = bytes "0" ++ crlf ++ t := rfl
      have zero : hexNumber 0 (bytes "0") = some 0 := by decide
      have line := chunkLine_text zero (by decide) front t
      rw [← shape] at line
      rw [chunkLoop_line body line, if_neg (Nat.lt_irrefl 0)]
      simp [chunkLines, lastLine, bytes]
  | cons c chunks ih =>
      have ok := valid c List.mem_cons_self
      have shape : chunkLines (c :: chunks) ++ t =
          c.size ++ crlf ++ (c.data ++ crlf ++ (chunkLines chunks ++ t)) := by
        simp [chunkLines, Chunk.encode]
      have line := chunkLine_text ok.number ok.short front (c.data ++ crlf ++ (chunkLines chunks ++ t))
      have next : front ++ (c.size ++ crlf ++ (c.data ++ crlf ++ (chunkLines chunks ++ t))) =
          front ++ c.encode ++ (chunkLines chunks ++ t) := by
        simp [Chunk.encode]
      have data : ((front ++ (c.size ++ crlf ++ (c.data ++ crlf ++ (chunkLines chunks ++ t)))).drop
          (front.length + c.size.length + 2)).take c.data.length = c.data := by
        have split : front ++ (c.size ++ crlf ++ (c.data ++ crlf ++ (chunkLines chunks ++ t))) =
            (front ++ c.size ++ crlf) ++ (c.data ++ (crlf ++ (chunkLines chunks ++ t))) := by simp
        have size : front.length + c.size.length + 2 = (front ++ c.size ++ crlf).length := by
          simp [crlf, Nat.add_assoc]
        rw [split, size, List.drop_left, List.take_left]
      have some_ := List.length_pos_iff.mpr ok.data_some
      rw [shape] at small ⊢
      have room : front.length + c.size.length + 2 + c.data.length + 2 ≤
          (front ++ (c.size ++ crlf ++ (c.data ++ crlf ++ (chunkLines chunks ++ t)))).length := by
        simp only [List.length_append, crlf, List.length_cons, List.length_nil]
        omega
      have step : front.length + c.size.length + 2 + c.data.length + 2 = (front ++ c.encode).length := by
        simp only [Chunk.encode, List.length_append, crlf, List.length_cons, List.length_nil]
        omega
      rw [chunkLoop_line body line, if_pos some_, if_neg (by dsimp only; omega),
        if_neg (by dsimp only; omega)]
      dsimp only
      rw [data, step, next]
      rw [next] at small
      rw [ih (fun d hd => valid d (List.mem_cons_of_mem c hd)) (front ++ c.encode) (body ++ c.data)
        small]
      simp [chunkLines]

/-- A part of the first size line holds no line end. -/
theorem chunkLine_early {size front q rest : List UInt8} (text : 10 ∉ size)
    (part : q ++ rest = size ++ crlf) (early : q.length < size.length + 2) :
    chunkLine (front ++ q) front.length = none := by
  have noFeed : 10 ∉ q := by
    have tail : size ++ crlf = (size ++ [13]) ++ [10] := by simp [crlf]
    obtain ⟨s, front_⟩ : q <+: size ++ [13] := by
      refine List.prefix_of_prefix_length_le (tail ▸ part ▸ List.prefix_append q rest)
        (List.prefix_append (size ++ [13]) [10]) ?_
      simp only [List.length_append, List.length_cons, List.length_nil]
      omega
    intro feed
    have inside : (10 : UInt8) ∈ size ++ [13] := front_ ▸ List.mem_append_left s feed
    simp [text] at inside
  have missing : find crlf q = none := by
    rw [find_eq_none_iff]
    exact fun inside => noFeed (inside.subset (by simp [crlf]))
  rw [chunkLine, List.drop_left, missing]
  rfl

/-- The text of the first size line. -/
def firstSize : List Chunk → List UInt8
  | [] => bytes "0"
  | c :: _ => c.size

theorem firstLine_eq (chunks : List Chunk) : firstLine chunks = (firstSize chunks).length + 2 := by
  cases chunks with
  | nil => rfl
  | cons c chunks => rfl

theorem chunkLines_first (chunks : List Chunk) :
    firstSize chunks ++ crlf <+: chunkLines chunks := by
  cases chunks with
  | nil => exact List.prefix_refl _
  | cons c chunks =>
      refine ⟨c.data ++ crlf ++ chunkLines chunks, ?_⟩
      simp [firstSize, chunkLines, Chunk.encode]

theorem firstSize_text {chunks : List Chunk} (valid : ∀ c ∈ chunks, c.Valid) :
    10 ∉ firstSize chunks := by
  cases chunks with
  | nil => decide
  | cons c chunks => exact (size_text (valid c List.mem_cons_self).number).1

section

variable {head : List UInt8} {chunks : List Chunk} (valid : ∀ c ∈ chunks, c.Valid)
  (small : (head ++ chunkedBody chunks).length < 2 ^ 63)

include valid

theorem bodyPass_chunk_waits {q t : List UInt8} {r : Response} (chunk : r.is_chunk = true)
    (room : head.length ≤ q.length) (whole : q ++ t = head ++ chunkedBody chunks)
    (early : q.length < head.length + firstLine chunks) :
    (bodyClient q head.length r).bodyPass =
      .ended (.returned true) (bodyClient q head.length { r with body := [] }) := by
  obtain ⟨q, rfl⟩ : head <+: q :=
    List.prefix_of_prefix_length_le (List.prefix_append head _)
      (whole ▸ List.prefix_append q t) room
  rw [List.append_assoc, List.append_cancel_left_eq] at whole
  rw [List.length_append, firstLine_eq] at early
  obtain ⟨rest, part⟩ : q <+: firstSize chunks ++ crlf := by
    have body : q <+: chunkLines chunks ++ crlf := ⟨t, whole⟩
    refine List.prefix_of_prefix_length_le body
      ((chunkLines_first chunks).trans (List.prefix_append _ crlf)) ?_
    simp only [List.length_append, crlf, List.length_cons, List.length_nil]
    omega
  have line : chunkLine (head ++ q) head.length = none :=
    chunkLine_early (firstSize_text valid) part (by omega)
  rw [Client.bodyPass, if_neg (by simp [bodyClient, chunk])]
  have waits := chunkLoop_waits [] line
  rw [bodyClient]
  dsimp only
  rw [waits]
  rfl

include small

theorem bodyPass_chunk_done {q t : List UInt8} {r : Response} (chunk : r.is_chunk = true)
    (whole : q ++ t = head ++ chunkedBody chunks)
    (late : (head ++ chunkLines chunks).length ≤ q.length) :
    (bodyClient q head.length r).bodyPass =
      .ended (.returned true) { bodyClient q ((head ++ chunkLines chunks).length + 2)
        { r with body := chunks.flatMap Chunk.data } with decode_step := .done } := by
  have shape : head ++ chunkedBody chunks = head ++ chunkLines chunks ++ crlf := by
    simp [chunkedBody]
  obtain ⟨u, rfl⟩ : head ++ chunkLines chunks <+: q :=
    List.prefix_of_prefix_length_le (shape ▸ List.prefix_append _ crlf)
      (whole ▸ List.prefix_append q t) late
  have bound : (head ++ (chunkLines chunks ++ u)).length < 2 ^ 63 := by
    have size := congrArg List.length whole
    rw [List.length_append, List.append_assoc] at size
    omega
  have loop := chunkLoop_chunks valid head u [] bound
  rw [List.append_assoc]
  rw [Client.bodyPass, if_neg (by simp [bodyClient, chunk]), bodyClient]
  dsimp only
  rw [loop]
  rfl

omit valid small in
/-- Behind a done reply at most the line end is left, and it changes nothing. -/
theorem feedAll_done {q : List UInt8} {pos : Nat} {r : Response} {fs : List (List UInt8)}
    (nonempty : ∀ f ∈ fs, f ≠ []) (behind : (q ++ fs.flatten).length = pos)
    (single : fs.length ≤ 1) :
    ReadsAll { bodyClient q pos r with decode_step := .done } fs r.body := by
  match fs, single with
  | [], _ => exact ⟨_, rfl, rfl, rfl⟩
  | [f], _ =>
      have whole : (q ++ f).length = pos := by simpa using behind
      have pass : Client.pass { bodyClient (q ++ f) pos r with decode_step := .done } =
          .ended (.returned true) { bodyClient [] 0 r with decode_step := .done } := by
        unfold Client.pass
        exact if_pos whole
      have call : recvCallback { bodyClient q pos r with decode_step := .done } f = _ :=
        Client.run_ended pass
      refine ⟨{ bodyClient [] 0 r with decode_step := .done }, ?_, rfl, rfl⟩
      rw [feedAll, call]
      rfl

omit valid small in
/-- What is left behind the last size line comes in one fragment. -/
theorem WellCut.single {q : List UInt8} {fs : List (List UInt8)}
    (cut : WellCut head chunks q fs) (nonempty : ∀ g ∈ fs, g ≠ [])
    (whole : q ++ fs.flatten = head ++ chunkedBody chunks)
    (late : (head ++ chunkLines chunks).length ≤ q.length) : fs.length ≤ 1 := by
  have shape : head ++ chunkedBody chunks = head ++ chunkLines chunks ++ crlf := by
    simp [chunkedBody]
  have size := congrArg List.length whole
  have total : (head ++ chunkLines chunks ++ crlf).length = (head ++ chunkLines chunks).length + 2 :=
    List.length_append
  rw [shape, total, List.length_append] at size
  match fs with
  | [] => simp
  | [g] => simp
  | g :: g' :: fs =>
      have some_ := List.length_pos_iff.mpr (nonempty g (by simp))
      have some' := List.length_pos_iff.mpr (nonempty g' (by simp))
      simp only [List.flatten_cons, List.length_append] at size late
      have bad := cut.last [] [g] ⟨g :: g' :: fs, rfl⟩ ⟨g' :: fs, rfl⟩
      simp only [List.flatten_cons, List.flatten_nil, List.length_append, List.append_nil] at bad
      exact absurd (by omega) (bad (by omega))

omit valid small in
theorem WellCut.tail {p f : List UInt8} {fs : List (List UInt8)}
    (cut : WellCut head chunks p (f :: fs)) : WellCut head chunks (p ++ f) fs := by
  have shift (gs : List (List UInt8)) : p ++ f ++ gs.flatten = p ++ (f :: gs).flatten := by simp
  constructor
  · intro gs front
    rw [shift]
    exact cut.lines (f :: gs) (List.cons_prefix_cons.mpr ⟨rfl, front⟩)
  · intro gs hs front front'
    rw [shift, shift]
    exact cut.last (f :: gs) (f :: hs) (List.cons_prefix_cons.mpr ⟨rfl, front⟩)
      (List.cons_prefix_cons.mpr ⟨rfl, front'⟩)

omit valid small in
theorem ReadsAll.cons {c d : Client} {f body : List UInt8} {fs : List (List UInt8)}
    (call : recvCallback c f = (.returned true, d)) (rest : ReadsAll d fs body) :
    ReadsAll c (f :: fs) body := by
  obtain ⟨e, all, done, text⟩ := rest
  refine ⟨e, ?_, done, text⟩
  rw [feedAll, call]
  exact all

omit valid small in
/-- Only the sizes of what was received and of the header count. -/
theorem WellCut.congr {head' p p' : List UInt8} {fs : List (List UInt8)}
    (cut : WellCut head chunks p fs) (front : head'.length = head.length)
    (size : p'.length = p.length) : WellCut head' chunks p' fs := by
  obtain ⟨lines, last⟩ := cut
  simp only [List.length_append] at lines last
  constructor
  · simpa only [List.length_append, front, size] using lines
  · simpa only [List.length_append, front, size] using last

/-- A call whose pass is the chunk loop: it waits in the first size line, or reads it all. -/
theorem ReadsAll.of_bodyPass {c d : Client} {q f : List UInt8} {fs : List (List UInt8)} {r : Response}
    (chunk : r.is_chunk = true) (nonempty : ∀ g ∈ fs, g ≠ []) (room : head.length ≤ q.length)
    (whole : q ++ fs.flatten = head ++ chunkedBody chunks) (cut : WellCut head chunks q fs)
    (call : recvCallback c f = d.run) (pass : d.pass = (bodyClient q head.length r).bodyPass)
    (rest : q.length < head.length + firstLine chunks →
      ReadsAll (bodyClient q head.length { r with body := [] }) fs (chunks.flatMap Chunk.data)) :
    ReadsAll c (f :: fs) (chunks.flatMap Chunk.data) := by
  have place := cut.lines [] (List.nil_prefix)
  rw [List.flatten_nil, List.append_nil] at place
  rcases place with early | late
  · rw [bodyPass_chunk_waits valid chunk room whole early] at pass
    exact ReadsAll.cons (call.trans (Client.run_ended pass)) (rest early)
  · rw [bodyPass_chunk_done valid small chunk whole late] at pass
    have single := cut.single nonempty whole late
    have total : (q ++ fs.flatten).length = (head ++ chunkLines chunks).length + 2 := by
      rw [whole, chunkedBody, ← List.append_assoc]
      exact List.length_append
    exact ReadsAll.cons (call.trans (Client.run_ended pass)) (feedAll_done nonempty total single)

theorem readsAll_body {p : List UInt8} {fs : List (List UInt8)} {r : Response}
    (chunk : r.is_chunk = true) (nonempty : ∀ g ∈ fs, g ≠ []) (room : head.length ≤ p.length)
    (whole : p ++ fs.flatten = head ++ chunkedBody chunks) (cut : WellCut head chunks p fs)
    (early : p.length < head.length + firstLine chunks) :
    ReadsAll (bodyClient p head.length r) fs (chunks.flatMap Chunk.data) := by
  induction fs generalizing p r with
  | nil =>
      have size := congrArg List.length whole
      have first := (chunkLines_first chunks).length_le
      have last := firstLine_eq chunks
      simp only [List.flatten_nil, List.append_nil, chunkedBody, List.length_append, crlf,
        List.length_cons, List.length_nil] at size first
      omega
  | cons f fs ih =>
      have grown : p.length < (p ++ f).length := by
        have := List.length_pos_iff.mpr (nonempty f List.mem_cons_self)
        rw [List.length_append]
        omega
      have others : ∀ g ∈ fs, g ≠ [] := fun g hg => nonempty g (List.mem_cons_of_mem f hg)
      have whole' : p ++ f ++ fs.flatten = head ++ chunkedBody chunks := by
        rw [← whole]
        simp
      have call : recvCallback (bodyClient p head.length r) f =
          (bodyClient (p ++ f) head.length r).run := rfl
      refine ReadsAll.of_bodyPass valid small chunk others (by omega) whole' cut.tail call ?_
        fun early' => ih chunk others (by omega) whole' cut.tail early'
      have more : (p ++ f).length ≠ head.length := by omega
      unfold Client.pass
      exact (if_neg more).trans (if_pos rfl)

/-- In front of the reply: the header block first, then the chunks. -/
theorem readsAll_header (header : ChunkedHeader head) {p : List UInt8} {fs : List (List UInt8)}
    (nonempty : ∀ g ∈ fs, g ≠ []) (early : p.length < head.length)
    (whole : p ++ fs.flatten = head ++ chunkedBody chunks) (cut : WellCut head chunks p fs) :
    ReadsAll (headerClient p) fs (chunks.flatMap Chunk.data) := by
  obtain ⟨h, ending, size⟩ := header.ending
  obtain ⟨r, decoded, chunk⟩ := header.decoded
  have block := header.block
  induction fs generalizing p with
  | nil =>
      have sizes := congrArg List.length whole
      rw [List.flatten_nil, List.append_nil, List.length_append] at sizes
      omega
  | cons f fs ih =>
      have some_ := nonempty f List.mem_cons_self
      have others : ∀ g ∈ fs, g ≠ [] := fun g hg => nonempty g (List.mem_cons_of_mem f hg)
      have whole' : p ++ f ++ fs.flatten = head ++ chunkedBody chunks := by
        rw [← whole]
        simp
      have found := find_append ending (chunkedBody chunks)
      rw [← whole'] at found
      have more : (p ++ f).length ≠ 0 := by simp [some_]
      rcases find_in_prefix found with ⟨here, room⟩ | ⟨missing, room⟩
      · have here' : find (crlf ++ crlf) (p ++ f) = some h := here
        obtain ⟨t, split⟩ : head <+: p ++ f :=
          List.prefix_of_prefix_length_le (List.prefix_append head _)
            (whole' ▸ List.prefix_append (p ++ f) fs.flatten) (by omega)
        have decoded' := decodeHeader_append decoded t
        have memory := decodeHeaderMemory_append decoded t
        rw [split] at decoded' memory
        -- From here on the header block in the buffer is the one with the NUL.
        have front := decodeHeaderMemory_length head
        have whole'' : decodeHeaderMemory head ++ t ++ fs.flatten =
            decodeHeaderMemory head ++ chunkedBody chunks := by
          rw [← split, List.append_assoc, List.append_cancel_left_eq] at whole'
          rw [List.append_assoc, whole']
        have sizes : (decodeHeaderMemory head ++ t).length = (p ++ f).length := by
          rw [← split, List.length_append, front, List.length_append]
        have cut' := cut.tail.congr front sizes
        have small' : (decodeHeaderMemory head ++ chunkedBody chunks).length < 2 ^ 63 := by
          rwa [List.length_append, front, ← List.length_append]
        refine ReadsAll.of_bodyPass valid small' chunk others (by omega) whole'' cut' rfl ?_
          fun early' => readsAll_body valid small' chunk others (by omega) whole'' cut' early'
        simp only [Client.pass, headerClient, Client.decodedBuf, if_neg more, List.drop_zero,
          List.take_zero, List.nil_append, here', decoded', memory, reduceCtorEq, ↓reduceIte,
          Nat.zero_add, front, size]
        rfl
      · have missing' : find (crlf ++ crlf) (p ++ f) = none := missing
        have small' : sizeSub (p ++ f).length 0 < 1024 := by
          simp only [sizeSub, Nat.zero_le, if_true, Nat.sub_zero]
          omega
        have pass : (headerClient (p ++ f)).pass = .ended (.returned true) (headerClient (p ++ f)) := by
          simp only [Client.pass, headerClient, if_neg more, List.drop_zero, missing', small']
          simp
        exact ReadsAll.cons (Client.run_ended pass) (ih others (by omega) whole' cut.tail)

end

/-- Where no fragment ends between the first size line and the last, and the final line end is
cut at most once, every call returns true and the body is the chunks in order. -/
theorem chunks_read (head : List UInt8) (chunks : List Chunk) (fs : List (List UInt8))
    (header : ChunkedHeader head) (valid : ∀ c ∈ chunks, c.Valid)
    (small : (head ++ chunkedBody chunks).length < 2 ^ 63) (nonempty : ∀ f ∈ fs, f ≠ [])
    (whole : fs.flatten = head ++ chunkedBody chunks) (cut : WellCut head chunks [] fs) :
    ReadsAll syncClient fs (chunks.flatMap Chunk.data) := by
  obtain ⟨h, -, size⟩ := header.ending
  have early : ([] : List UInt8).length < head.length := by
    rw [size]
    exact Nat.succ_pos _
  exact readsAll_header valid small header nonempty early whole cut

def oneChunk : List Chunk := [⟨bytes "1", bytes "a"⟩]

theorem oneChunk_valid : ∀ c ∈ oneChunk, c.Valid := by
  intro c here
  rw [List.mem_singleton.mp here]
  exact ⟨by decide, by decide, by decide, by decide⟩

theorem chunkedHeader_ok : ChunkedHeader chunkedHeader := by
  refine ⟨⟨43, by decide, by decide⟩,
    ⟨{ status_desc := bytes "OK", is_chunk := true }, ?_, rfl⟩, by decide⟩
  have decoded := chunkedHeader_decoded []
  rwa [List.append_nil] at decoded

theorem prefix_pair {a b : List UInt8} {gs : List (List UInt8)} (h : gs <+: [a, b]) :
    gs = [] ∨ gs = [a] ∨ gs = [a, b] := by
  match gs with
  | [] => exact .inl rfl
  | [x] =>
      rw [List.cons_prefix_cons] at h
      exact .inr (.inl (by rw [h.1]))
  | x :: y :: gs =>
      rw [List.cons_prefix_cons, List.cons_prefix_cons, List.prefix_nil] at h
      exact .inr (.inr (by rw [h.1, h.2.1, h.2.2]))

theorem oneChunk_read :
    ReadsAll syncClient [chunkedHeader.take 20, chunkedHeader.drop 20 ++ chunkedBody oneChunk]
      (bytes "a") := by
  refine chunks_read chunkedHeader oneChunk _ chunkedHeader_ok oneChunk_valid (by decide)
    (by decide) (by decide) ⟨?_, ?_⟩
  · intro gs front
    rcases prefix_pair front with rfl | rfl | rfl
    · exact .inl (by decide)
    · exact .inl (by decide)
    · exact .inr (by decide)
  · intro gs hs front _ here
    rcases prefix_pair front with rfl | rfl | rfl
    · exact absurd here (by decide)
    · exact absurd here (by decide)
    · exact absurd here (by decide)

/-- The buffer after the header and the chunk. -/
def oneChunkBuf : List UInt8 := decodeHeaderMemory chunkedHeader ++ bytes "1\r\na\r\n"

/-- Cut between the chunk and the zero line: the second call forgets the chunk. -/
theorem oneChunk_lost :
    ChunkedHeader chunkedHeader ∧ (∀ c ∈ oneChunk, c.Valid) ∧
      [chunkedHeader ++ bytes "1\r\na\r\n", bytes "0\r\n\r\n"].flatten =
        chunkedHeader ++ chunkedBody oneChunk ∧
      ¬ ReadsAll syncClient [chunkedHeader ++ bytes "1\r\na\r\n", bytes "0\r\n\r\n"]
        (oneChunk.flatMap Chunk.data) := by
  refine ⟨chunkedHeader_ok, oneChunk_valid, by decide, ?_⟩
  have found : find (crlf ++ crlf) (chunkedHeader ++ bytes "1\r\na\r\n") = some 43 :=
    find_append (by decide) _
  have more : (chunkedHeader ++ bytes "1\r\na\r\n").length ≠ 0 := by decide
  have memory : decodeHeaderMemory (chunkedHeader ++ bytes "1\r\na\r\n") = oneChunkBuf :=
    chunkedHeader_memory _
  have loop : chunkLoop oneChunkBuf 47 [] = (.waiting, 53, bytes "a") := by
    have line : chunkLine oneChunkBuf 47 = some (50, 1) := by decide
    have end_ : chunkLine oneChunkBuf 53 = none := by decide
    rw [chunkLoop_line [] line, if_pos (by decide), if_neg (by decide), if_neg (by decide)]
    dsimp only
    rw [chunkLoop_waits _ end_]
    rfl
  have pass : (headerClient (chunkedHeader ++ bytes "1\r\na\r\n")).pass = .ended (.returned true)
      (bodyClient oneChunkBuf 53
        { status_desc := bytes "OK", is_chunk := true, body := bytes "a" }) := by
    simp only [Client.pass, headerClient, Client.decodedBuf, if_neg more, List.drop_zero,
      List.take_zero, List.nil_append, found, chunkedHeader_decoded, memory, reduceCtorEq,
      ↓reduceIte, Nat.zero_add, Client.bodyPass, loop]
    rfl
  have call : recvCallback syncClient (chunkedHeader ++ bytes "1\r\na\r\n") = _ :=
    Client.run_ended pass
  have loop' : chunkLoop (oneChunkBuf ++ bytes "0\r\n\r\n") 53 [] =
      (.complete, 58, []) := by
    have line : chunkLine (oneChunkBuf ++ bytes "0\r\n\r\n") 53 =
        some (56, 0) := by decide
    rw [chunkLoop_line [] line, if_neg (by decide)]
  have pass' : (bodyClient (oneChunkBuf ++ bytes "0\r\n\r\n") 53
      { status_desc := bytes "OK", is_chunk := true, body := bytes "a" }).pass =
      .ended (.returned true)
        { bodyClient (oneChunkBuf ++ bytes "0\r\n\r\n") 58
            { status_desc := bytes "OK", is_chunk := true } with decode_step := .done } := by
    have more' : (oneChunkBuf ++ bytes "0\r\n\r\n").length ≠ 53 := by decide
    simp only [Client.pass, bodyClient, if_neg more', ↓reduceIte, Client.bodyPass, loop',
      Client.finish]
    rfl
  have call' : recvCallback (bodyClient oneChunkBuf 53
      { status_desc := bytes "OK", is_chunk := true, body := bytes "a" }) (bytes "0\r\n\r\n") = _ :=
    Client.run_ended pass'
  rintro ⟨d, all, -, text⟩
  rw [feedAll, call] at all
  dsimp only at all
  rw [feedAll, call'] at all
  dsimp only [feedAll] at all
  cases all
  revert text
  decide

end HZRobot.Http
