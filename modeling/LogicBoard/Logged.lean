import LogicBoard.BoardError
import LogicBoard.Event
import LogicBoard.Overflow

namespace LogicBoard

/-- Why an operation came to no result: it was refused, or its arithmetic left a machine word. -/
inductive Failure
  | refused (error : BoardError)
  | overflow (operation : Overflow)

def Failure.message : Failure → String
  | refused error => error.message
  | overflow operation => operation.message

/-- The outcome of an operation with the events reported on the way. They are kept when it fails. -/
@[ext]
structure Logged (α : Type) where
  log : List Event
  result : Except Failure α

namespace Logged
variable {α β : Type}

def ofExcept (result : Except BoardError α) : Logged α := ⟨[], result.mapError .refused⟩

def ofChecked (result : Except Overflow α) : Logged α := ⟨[], result.mapError .overflow⟩

def refuse (error : BoardError) : Logged α := ⟨[], .error (.refused error)⟩

def report (event : Event) : Logged Unit := ⟨[event], .ok ()⟩

/-- The second operation runs on the result of the first one, and reports after it. -/
@[inline] def andThen (first : Logged α) (second : α → Logged β) : Logged β :=
  match first.result with
  | .error failure => ⟨first.log, .error failure⟩
  | .ok value => ⟨first.log ++ (second value).log, (second value).result⟩

instance : Monad Logged where
  pure value := ⟨[], .ok value⟩
  bind := andThen

instance : LawfulMonad Logged := LawfulMonad.mk' Logged
  (by
    intro α x
    rcases x with ⟨log, failure | value⟩
    · rfl
    · exact Logged.ext (List.append_nil log) rfl)
  (by intros; rfl)
  (by
    intro α β γ x f g
    rcases x with ⟨log, failure | value⟩
    · rfl
    · change andThen (andThen ⟨log, .ok value⟩ f) g = andThen ⟨log, .ok value⟩ fun a => andThen (f a) g
      cases run : (f value).result <;> simp [andThen, run, List.append_assoc])

@[simp] theorem log_pure (value : α) : (pure value : Logged α).log = [] := rfl

@[simp] theorem result_pure (value : α) : (pure value : Logged α).result = .ok value := rfl

/-- A sequence of two operations succeeds when both do. -/
theorem result_bind_eq_ok_iff {first : Logged α} {second : α → Logged β} {result : β} :
    (first >>= second).result = .ok result ↔
      ∃ value, first.result = .ok value ∧ (second value).result = .ok result := by
  change (andThen first second).result = _ ↔ _
  unfold andThen
  split <;> simp_all

theorem result_bind_of_ok {first : Logged α} {second : α → Logged β} {value : α} (ok : first.result = .ok value) :
    (first >>= second).result = (second value).result := by
  change (andThen first second).result = _
  simp [andThen, ok]

theorem result_bind_of_error {first : Logged α} {second : α → Logged β} {failure : Failure}
    (failed : first.result = .error failure) : (first >>= second).result = .error failure := by
  change (andThen first second).result = _
  simp [andThen, failed]

theorem log_bind_of_ok {first : Logged α} {second : α → Logged β} {value : α} (ok : first.result = .ok value) :
    (first >>= second).log = first.log ++ (second value).log := by
  change (andThen first second).log = _
  simp [andThen, ok]

theorem log_bind_of_error {first : Logged α} {second : α → Logged β} {failure : Failure}
    (failed : first.result = .error failure) : (first >>= second).log = first.log := by
  change (andThen first second).log = _
  simp [andThen, failed]

end Logged

end LogicBoard
