import HZRobot.HttpClient

/-!
The send loop of sync_client::call against any results of send. What the kernel
accepts is kept as the positions of the bytes in the request, so that a byte sent
twice shows even where the request repeats itself.
-/

namespace HZRobot.Http

structure SendState where
  len : Nat
  sent : List Nat := []
  /-- A subtraction from len has wrapped. -/
  wrapped : Bool := false

inductive SendEnd where
  | finished
  | failed
  | pending
  deriving DecidableEq, Repr

/-- The length each send gets, data.size() through int. -/
def sendLength (size : Nat) : Nat := (toInt32 size % 2 ^ 64).toNat

/-- A result of send: an error, or an int up to the length of the call. -/
def SendResult (size : Nat) (rc : Int) : Prop := rc < 2 ^ 31 ∧ rc ≤ sendLength size

/-- send takes rc bytes from the start of the request. -/
def SendState.accept (s : SendState) (rc : Int) : SendState where
  len := sizeSub s.len rc.toNat
  sent := s.sent ++ List.range rc.toNat
  wrapped := s.wrapped || decide (s.len < rc.toNat)

def sendLoop (s : SendState) : List Int → SendEnd × SendState
  | [] => if s.len = 0 then (.finished, s) else (.pending, s)
  | rc :: results =>
      if s.len = 0 then (.finished, s)
      else if rc ≤ 0 then (.failed, s)
      else sendLoop (s.accept rc) results

/-- The bytes accepted before the first error. -/
def acceptedBytes (results : List Int) : Int := (results.takeWhile (0 < ·)).sum

/-- If the loop ends normally, every byte went out once and in order, and len never wrapped. -/
def SentOnce (size : Nat) (results : List Int) : Prop :=
  let run := sendLoop { len := size } results
  (run.1 = .finished → run.2.sent = List.range size) ∧ run.2.wrapped = false

theorem acceptedBytes_cons {rc : Int} (pos : 0 < rc) (results : List Int) :
    acceptedBytes (rc :: results) = rc + acceptedBytes results := by
  simp [acceptedBytes, pos]

theorem acceptedBytes_error {rc : Int} (error : rc ≤ 0) (results : List Int) :
    acceptedBytes (rc :: results) = 0 := by
  have : ¬ 0 < rc := by omega
  simp [acceptedBytes, this]

theorem acceptedBytes_nonneg (results : List Int) : 0 ≤ acceptedBytes results := by
  induction results with
  | nil => exact Int.le_refl 0
  | cons rc results ih =>
      by_cases pos : 0 < rc
      · rw [acceptedBytes_cons pos]
        omega
      · rw [acceptedBytes_error (by omega)]

theorem sendLoop_done {s : SendState} (h : s.len = 0) (results : List Int) :
    sendLoop s results = (.finished, s) := by
  cases results with
  | nil => rw [sendLoop, if_pos h]
  | cons rc results => rw [sendLoop, if_pos h]

theorem sendLoop_accept {s : SendState} {rc : Int} (h : s.len ≠ 0) (pos : 0 < rc)
    (results : List Int) : sendLoop s (rc :: results) = sendLoop (s.accept rc) results := by
  rw [sendLoop, if_neg h, if_neg (by omega)]

/-- Too few bytes accepted: the loop does not end normally, and nothing wraps. -/
theorem sendLoop_short {s : SendState} {results : List Int} (short : acceptedBytes results < s.len) :
    (sendLoop s results).1 ≠ .finished ∧ (sendLoop s results).2.wrapped = s.wrapped := by
  induction results generalizing s with
  | nil =>
      have some_ : s.len ≠ 0 := by
        have := acceptedBytes_nonneg []
        omega
      simp [sendLoop, some_]
  | cons rc results ih =>
      have some_ : s.len ≠ 0 := by
        have := acceptedBytes_nonneg (rc :: results)
        omega
      by_cases pos : 0 < rc
      · rw [acceptedBytes_cons pos] at short
        have rest := acceptedBytes_nonneg results
        have room : rc.toNat ≤ s.len := by omega
        have next := ih (s := s.accept rc) (by
          simp only [SendState.accept, sizeSub, if_pos room]
          omega)
        rw [sendLoop_accept some_ pos]
        have calm : decide (s.len < rc.toNat) = false := decide_eq_false (by omega)
        refine ⟨next.1, next.2.trans ?_⟩
        show (s.wrapped || decide (s.len < rc.toNat)) = s.wrapped
        rw [calm, Bool.or_false]
      · rw [sendLoop, if_neg some_, if_pos (by omega)]
        simp

/-- What was accepted stays accepted, and a wrap stays a wrap. -/
theorem sendLoop_keeps (s : SendState) (results : List Int) :
    s.sent <+: (sendLoop s results).2.sent ∧
      (s.wrapped = true → (sendLoop s results).2.wrapped = true) := by
  induction results generalizing s with
  | nil =>
      rw [sendLoop]
      split
      · exact ⟨List.prefix_refl _, id⟩
      · exact ⟨List.prefix_refl _, id⟩
  | cons rc results ih =>
      rw [sendLoop]
      split
      · exact ⟨List.prefix_refl _, id⟩
      · split
        · exact ⟨List.prefix_refl _, id⟩
        · have next := ih (s.accept rc)
          refine ⟨(List.prefix_append _ _).trans next.1, fun wrapped => next.2 ?_⟩
          simp [SendState.accept, wrapped]

/-- Enough bytes accepted: the loop ends normally unless len has wrapped. -/
theorem sendLoop_enough {s : SendState} {results : List Int} (enough : s.len ≤ acceptedBytes results) :
    (sendLoop s results).1 = .finished ∨ (sendLoop s results).2.wrapped = true := by
  induction results generalizing s with
  | nil =>
      have none_ : s.len = 0 := by
        have : acceptedBytes [] = 0 := rfl
        omega
      rw [sendLoop_done none_]
      exact .inl rfl
  | cons rc results ih =>
      by_cases none_ : s.len = 0
      · rw [sendLoop_done none_]
        exact .inl rfl
      · have pos : 0 < rc := by
          by_contra error
          rw [acceptedBytes_error (by omega)] at enough
          omega
        rw [acceptedBytes_cons pos] at enough
        rw [sendLoop_accept none_ pos]
        by_cases room : rc.toNat ≤ s.len
        · apply ih
          simp only [SendState.accept, sizeSub, if_pos room]
          omega
        · refine .inr ((sendLoop_keeps _ _).2 ?_)
          simp only [SendState.accept, Bool.or_eq_true, decide_eq_true_eq]
          omega

theorem result_le_size {size : Nat} {rc : Int} (h : SendResult size rc) : rc ≤ size := by
  unfold SendResult sendLength toInt32 at h
  omega

/-- After a partial send the next one starts over. -/
theorem not_sentOnce_of_restart {size : Nat} {first : Int} {results : List Int} (pos : 0 < first)
    (part : first < size) (enough : size ≤ first + acceptedBytes results) :
    ¬ SentOnce size (first :: results) := by
  rintro ⟨exact_, calm⟩
  have some_ : (⟨size, [], false⟩ : SendState).len ≠ 0 := by
    show size ≠ 0
    omega
  rw [sendLoop_accept some_ pos] at exact_ calm
  have len : ((⟨size, [], false⟩ : SendState).accept first).len = size - first.toNat := by
    have room : first.toNat ≤ size := by omega
    simp only [SendState.accept, sizeSub, if_pos room]
  have rest : ((⟨size, [], false⟩ : SendState).accept first).len ≤ acceptedBytes results := by
    omega
  have finished := sendLoop_enough rest
  rw [calm] at finished
  have sent := exact_ (finished.resolve_right (by simp))
  cases results with
  | nil =>
      have : acceptedBytes [] = 0 := rfl
      omega
  | cons second results =>
      have pos' : 0 < second := by
        by_contra error
        rw [acceptedBytes_error (by omega)] at enough
        omega
      rw [sendLoop_accept (by omega) pos'] at sent
      have kept := (sendLoop_keeps (((⟨size, [], false⟩ : SendState).accept first).accept second)
        results).1
      rw [sent] at kept
      -- The first byte of the second send is byte 0 again, where byte `first` is due.
      have again : (List.range first.toNat ++ List.range second.toNat)[first.toNat]? = some 0 := by
        rw [List.getElem?_append_right (by simp), List.length_range, Nat.sub_self,
          List.getElem?_range (by omega)]
      obtain ⟨rest, whole⟩ := kept
      have due : (List.range size)[first.toNat]? = some first.toNat :=
        List.getElem?_range (by omega)
      have inside : first.toNat < (List.range first.toNat ++ List.range second.toNat).length := by
        rw [List.length_append, List.length_range, List.length_range]
        omega
      have sentTwo : (((⟨size, [], false⟩ : SendState).accept first).accept second).sent =
          List.range first.toNat ++ List.range second.toNat := rfl
      rw [← whole, sentTwo, List.getElem?_append_left inside] at due
      have zero := Option.some.inj (again.symm.trans due)
      omega

theorem sentOnce_iff (size : Nat) (results : List Int)
    (valid : ∀ rc ∈ results, SendResult size rc) :
    SentOnce size results ↔
      size = 0 ∨ results.head? = some (size : Int) ∨ acceptedBytes results < size := by
  by_cases none_ : size = 0
  · subst none_
    refine iff_of_true ?_ (.inl rfl)
    have done : sendLoop { len := 0 } results = _ := sendLoop_done rfl results
    unfold SentOnce
    rw [done]
    exact ⟨fun _ => rfl, rfl⟩
  · by_cases short : acceptedBytes results < size
    · refine iff_of_true ?_ (.inr (.inr short))
      have outcome := sendLoop_short (s := { len := size }) short
      exact ⟨fun finished => absurd finished outcome.1, outcome.2⟩
    · cases results with
      | nil =>
          have : acceptedBytes [] = 0 := rfl
          omega
      | cons first results =>
          have pos : 0 < first := by
            by_contra error
            rw [acceptedBytes_error (by omega)] at short
            omega
          have le := result_le_size (valid first List.mem_cons_self)
          by_cases all : first = size
          · refine iff_of_true ?_ (.inr (.inl (congrArg some all)))
            unfold SentOnce
            have room : first.toNat = size := by omega
            have len : ((⟨size, [], false⟩ : SendState).accept first).len = 0 := by
              simp [SendState.accept, sizeSub, room]
            rw [sendLoop_accept none_ pos, sendLoop_done len]
            simp [SendState.accept, room]
          · rw [acceptedBytes_cons pos] at short
            refine iff_of_false (not_sentOnce_of_restart pos (by omega) (by omega)) ?_
            rw [acceptedBytes_cons pos]
            rintro (zero | whole | few)
            · exact none_ zero
            · exact all (Option.some.inj whole)
            · exact short few

def helloRequest : Request := { method := bytes "GET", url := bytes "/", host := bytes "h" }

def helloMessage : List UInt8 := bytes "GET / HTTP/1.1\r\nAccept: */* \r\nHost: h\r\n\r\n"

theorem hello_sent_once : SentOnce helloMessage.length [41] :=
  (sentOnce_iff helloMessage.length [41] (by
    unfold SendResult
    decide)).mpr (.inr (.inl (by decide)))

/-- Byte 0 goes out twice where the first send takes one byte and the second the other 40. -/
theorem hello_not_sent_once :
    helloRequest.encode = some helloMessage ∧
      (∀ rc ∈ [(1 : Int), 40], SendResult helloMessage.length rc) ∧
        ¬ SentOnce helloMessage.length [1, 40] := by
  refine ⟨by decide, ?_, ?_⟩
  · unfold SendResult
    decide
  · exact not_sentOnce_of_restart (by decide) (by decide) (by decide)

end HZRobot.Http
