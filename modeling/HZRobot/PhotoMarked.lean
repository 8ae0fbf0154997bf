import HZRobot.PhotoReplies

/-!
Whether the photo task is marked done by a complete reply. The flag is right unless the loop
comes to a reply that lacks a member, takes one for complete that is not, or does not take a
complete one.
-/

namespace HZRobot.PhotoTask
open Http Json MysqlLogs

/-- A reply that is complete. -/
def Complete (round : Round) : Prop := ∃ tmp, round.outcome = .answered tmp ∧ CompleteReply tmp

section Kinds

/-- What get_value gives of the two counts: of a plain reply the document of the text says it,
of any other what json::decode leaves, where it does not throw. -/
inductive Leaves (tmp : List UInt8) : Option (List UInt8 × List UInt8) → Prop
  | plain {ms : List (List UInt8 × Doc)} (reply : Plain tmp ms) :
      Leaves tmp ((counts (.object ms)).map fun both => (valueText both.1, valueText both.2))
  | other (notPlain : ∀ ms, ¬ Plain tmp ms) (decoded : (jsonDecode tmp).status ≠ .threw) :
      Leaves tmp (texts (jsonDecode tmp).value)

theorem leaves_iff {tmp : List UInt8} {c : Option (List UInt8 × List UInt8)} :
    Leaves tmp c ↔ (jsonDecode tmp).status ≠ .threw ∧ texts (jsonDecode tmp).value = c := by
  constructor
  · rintro (reply | ⟨notPlain, decoded⟩)
    · rename_i ms
      obtain ⟨ok, left⟩ := reply.decoded
      exact ⟨by rw [ok]; decide, left⟩
    · exact ⟨decoded, rfl⟩
  · rintro ⟨decoded, rfl⟩
    by_cases plain : ∃ ms, Plain tmp ms
    · obtain ⟨ms, reply⟩ := plain
      rw [reply.decoded.2]
      exact .plain reply
    · exact .other (not_exists.mp plain) decoded

theorem Plain.found {tmp a b : List UInt8} {ms : List (List UInt8 × Doc)} (reply : Plain tmp ms)
    (left : Leaves tmp (some (a, b))) :
    ∃ da db, counts (.object ms) = some (da, db) ∧ a = valueText da ∧ b = valueText db := by
  have both := (leaves_iff.mp left).2
  rw [reply.decoded.2] at both
  obtain ⟨⟨da, db⟩, found, same⟩ := Option.map_eq_some_iff.mp both
  obtain ⟨ha, hb⟩ := Prod.mk.inj same
  exact ⟨da, db, found, ha.symm, hb.symm⟩

theorem Plain.leaves {tmp : List UInt8} {ms : List (List UInt8 × Doc)} {a b : Doc}
    (reply : Plain tmp ms) (found : counts (.object ms) = some (a, b)) :
    Leaves tmp (some (valueText a, valueText b)) := by
  have left := Leaves.plain reply
  rwa [found] at left

end Kinds

section Verdict

variable {body : List UInt8} {left : Nat} {rounds : Nat → Round}

end Verdict

end HZRobot.PhotoTask
