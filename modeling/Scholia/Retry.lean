import Scholia.Text.Basic
/-!
# Retries

The count of attempts at one piece of work, and the error of the last attempt that failed. The limit
is a machine word: one more than the number of retries, or zero if that number is the greatest word.
-/

namespace Scholia

/-- The attempts at a piece of work. -/
structure Retry where
  /-- The attempts begun. -/
  attempt : Nat
  /-- The most attempts there may be. -/
  limit : Nat
  lastError : Option Text
  deriving Repr, DecidableEq

namespace Retry

/-- The number of machine words. -/
def wordCount : Nat := 0x10000000000000000

/-- No attempt yet, and at most `maxRetries` after the first. -/
def start (maxRetries : Nat) : Retry :=
  ⟨0, (maxRetries + 1) % wordCount, none⟩

/-- One more attempt, if the limit is not reached. -/
def next? (r : Retry) : Option Retry :=
  if r.attempt < r.limit then some { r with attempt := r.attempt + 1 } else none

/-- The attempt has failed. -/
def fail (r : Retry) (error : Text) : Retry :=
  { r with lastError := some error }

/-- Why the work has failed, once no attempt is left. -/
def reason (r : Retry) : Text :=
  r.lastError.getD "the model did not return a usable reply".toList

theorem left_lt_of_next? {r r' : Retry} (h : r.next? = some r') :
    r'.limit - r'.attempt < r.limit - r.attempt := by
  unfold next? at h
  split at h
  · cases h
    simp only
    omega
  · cases h

end Retry

end Scholia
