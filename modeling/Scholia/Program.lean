/-!
# Programs with calls

A program is a value: either it is done, or it makes a call and goes on with the answer. What a call
does is decided by whoever interprets the program, so one program can run on real files, on files in
memory, or as part of a program with other calls.

Main statement: interpretation commutes with sequencing.
-/

namespace Scholia

/-- The calls a program can make, each with the type of its answers. -/
structure Interface where
  Call : Type
  Answer : Call → Type

/-- A program that makes calls of an interface and ends with a value. -/
inductive Program (I : Interface) (α : Type) where
  | done (value : α)
  | call (c : I.Call) (next : I.Answer c → Program I α)

namespace Program

variable {I : Interface} {α β γ : Type}

/-- One program after another, which may depend on the value of the first. -/
def bind : Program I α → (α → Program I β) → Program I β
  | done a, f => f a
  | call c next, f => call c fun answer => (next answer).bind f

instance : Monad (Program I) where
  pure := done
  bind := bind

/-- The program of one call. -/
def perform (c : I.Call) : Program I (I.Answer c) := call c done

@[simp] theorem bind_done (p : Program I α) : p.bind done = p := by
  induction p with
  | done a => rfl
  | call c next ih => simp [bind, ih]

theorem bind_assoc (p : Program I α) (f : α → Program I β) (g : β → Program I γ) :
    (p.bind f).bind g = p.bind fun a => (f a).bind g := by
  induction p with
  | done a => rfl
  | call c next ih => simp [bind, ih]

instance : LawfulMonad (Program I) :=
  LawfulMonad.mk' _
    (fun p => bind_done p)
    (fun _ _ => rfl)
    (fun p f g => bind_assoc p f g)

/-- The run of a program in which `answer` answers the calls. -/
def interpret {m : Type → Type} [Monad m] (answer : (c : I.Call) → m (I.Answer c)) :
    Program I α → m α
  | done a => pure a
  | call c next => do (next (← answer c)).interpret answer

/-- **Interpretation commutes with sequencing**. -/
theorem interpret_bind {m : Type → Type} [Monad m] [LawfulMonad m]
    (answer : (c : I.Call) → m (I.Answer c)) (p : Program I α) (f : α → Program I β) :
    (p >>= f).interpret answer = p.interpret answer >>= fun a => (f a).interpret answer := by
  change (p.bind f).interpret answer = _
  induction p with
  | done a => simp [bind, interpret]
  | call c next ih => simp [bind, interpret, ih]

end Program

end Scholia
