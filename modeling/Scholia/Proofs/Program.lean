import Scholia.Program
/-!
# How programs can end

A program may be given any answers. `Program.Ends` says that some answers lead it to a value, so
what is proved of all values at which it ends holds of every run, whoever answers the calls.
`Program.Runs` also keeps the calls on the way with their answers, and `Program.Makes` says of a
program that all its calls, under whatever answers, are of one class.
-/

namespace Scholia.Program

variable {I : Interface} {α β : Type}

/-- Some answers lead the program to a value. -/
inductive Ends : Program I α → α → Prop
  | done (a : α) : Ends (done a) a
  | call {c : I.Call} {next : I.Answer c → Program I α} {a : α} (answer : I.Answer c)
    (ends : Ends (next answer) a) : Ends (call c next) a

theorem ends_pure {a b : α} : (pure a : Program I α).Ends b ↔ b = a := by
  constructor
  · intro h
    cases h
    rfl
  · intro h
    subst h
    exact .done _

/-- **A composition ends where its second part ends**, after its first part has ended. -/
theorem ends_bind {p : Program I α} {f : α → Program I β} {b : β} :
    (p >>= f).Ends b ↔ ∃ a, p.Ends a ∧ (f a).Ends b := by
  change (p.bind f).Ends b ↔ _
  constructor
  · intro h
    induction p with
    | done a => exact ⟨a, .done a, h⟩
    | call c next ih =>
      cases h with
      | call answer ends =>
        obtain ⟨a, ha, hb⟩ := ih answer ends
        exact ⟨a, .call answer ha, hb⟩
  · intro h
    obtain ⟨a, ha, hb⟩ := h
    induction ha with
    | done a => exact hb
    | call answer _ ih => exact .call answer (ih hb)

/-- A call whose answer decides what follows. -/
theorem Ends.after {c : I.Call} {f : I.Answer c → Program I α} {b : α} (answer : I.Answer c)
    (h : (f answer).Ends b) : (perform c >>= f).Ends b :=
  .call answer h

/-! ## Runs with their calls -/

/-- A call with the answer it was given. -/
abbrev Event (I : Interface) : Type := (c : I.Call) × I.Answer c

/-- These answers, each to its call, lead the program to a value. -/
inductive Runs : Program I α → List (Event I) → α → Prop
  | done (a : α) : Runs (done a) [] a
  | call {c : I.Call} {next : I.Answer c → Program I α} {events : List (Event I)} {a : α}
    (answer : I.Answer c) (rest : Runs (next answer) events a) :
    Runs (call c next) (⟨c, answer⟩ :: events) a

theorem Runs.ends {p : Program I α} {events : List (Event I)} {a : α} (h : p.Runs events a) :
    p.Ends a := by
  induction h with
  | done a => exact .done a
  | call answer _ ih => exact .call answer ih

theorem Ends.runs {p : Program I α} {a : α} (h : p.Ends a) : ∃ events, p.Runs events a := by
  induction h with
  | done a => exact ⟨[], .done a⟩
  | call answer _ ih =>
    obtain ⟨events, hruns⟩ := ih
    exact ⟨_, .call answer hruns⟩

/-- Where every call can be answered, every program can end. -/
theorem exists_ends (answer : (c : I.Call) → I.Answer c) (p : Program I α) : ∃ a, p.Ends a := by
  induction p with
  | done a => exact ⟨a, .done a⟩
  | call c next ih =>
    obtain ⟨a, ha⟩ := ih (answer c)
    exact ⟨a, .call (answer c) ha⟩

/-- Where every call can be answered, every program has a run with these answers. -/
theorem exists_runs (answer : (c : I.Call) → I.Answer c) (p : Program I α) :
    ∃ events a, p.Runs events a ∧ ∀ e ∈ events, e.2 = answer e.1 := by
  induction p with
  | done a => exact ⟨[], a, .done a, List.forall_mem_nil _⟩
  | call c next ih =>
    obtain ⟨events, a, hruns, hanswers⟩ := ih (answer c)
    exact ⟨_, a, .call (answer c) hruns, List.forall_mem_cons.2 ⟨rfl, hanswers⟩⟩

theorem runs_pure {a b : α} {events : List (Event I)} :
    (pure a : Program I α).Runs events b ↔ events = [] ∧ b = a := by
  constructor
  · intro h
    cases h
    exact ⟨rfl, rfl⟩
  · rintro ⟨rfl, rfl⟩
    exact .done _

theorem runs_perform {c : I.Call} {events : List (Event I)} {a : I.Answer c} :
    (perform c).Runs events a ↔ events = [⟨c, a⟩] := by
  constructor
  · intro h
    cases h with
    | call answer rest =>
      cases rest
      rfl
  · rintro rfl
    exact .call a (.done a)

/-- A call whose answer decides what follows. -/
theorem Runs.after {c : I.Call} {f : I.Answer c → Program I α} {events : List (Event I)} {b : α}
    (answer : I.Answer c) (h : (f answer).Runs events b) :
    (perform c >>= f).Runs (⟨c, answer⟩ :: events) b :=
  .call answer h

/-- **A composition makes the calls of its first part and then those of its second**. -/
theorem runs_bind {p : Program I α} {f : α → Program I β} {events : List (Event I)} {b : β} :
    (p >>= f).Runs events b ↔
      ∃ first a second, events = first ++ second ∧ p.Runs first a ∧ (f a).Runs second b := by
  change (p.bind f).Runs events b ↔ _
  constructor
  · intro h
    induction p generalizing events with
    | done a => exact ⟨[], a, events, rfl, .done a, h⟩
    | call c next ih =>
      cases h with
      | call answer rest =>
        obtain ⟨first, a, second, rfl, hfirst, hsecond⟩ := ih answer rest
        exact ⟨⟨c, answer⟩ :: first, a, second, rfl, .call answer hfirst, hsecond⟩
  · rintro ⟨first, a, second, rfl, hfirst, hsecond⟩
    induction hfirst with
    | done a => exact hsecond
    | call answer _ ih => exact .call answer (ih hsecond)

/-- Whatever it is answered, the program makes only calls of this class. -/
inductive Makes (allowed : I.Call → Prop) : Program I α → Prop
  | done (a : α) : Makes allowed (done a)
  | call {c : I.Call} {next : I.Answer c → Program I α} (h : allowed c)
    (rest : ∀ answer, Makes allowed (next answer)) : Makes allowed (call c next)

theorem Makes.perform {allowed : I.Call → Prop} {c : I.Call} (h : allowed c) :
    (perform c).Makes allowed :=
  .call h fun answer => .done answer

theorem Makes.bind {allowed : I.Call → Prop} {p : Program I α} {f : α → Program I β}
    (hp : p.Makes allowed) (hf : ∀ a, (f a).Makes allowed) : (p >>= f).Makes allowed := by
  change (p.bind f).Makes allowed
  induction hp with
  | done a => exact hf a
  | call h _ ih => exact .call h ih

theorem Makes.mono {allowed more : I.Call → Prop} {p : Program I α} (h : p.Makes allowed)
    (hmore : ∀ c, allowed c → more c) : p.Makes more := by
  induction h with
  | done a => exact .done a
  | call h _ ih => exact .call (hmore _ h) ih

/-- An interpreted program makes the calls that its calls are answered by. -/
theorem Makes.interpret {J : Interface} {allowed : I.Call → Prop} {within : J.Call → Prop}
    {answer : (c : I.Call) → Program J (I.Answer c)} {p : Program I α} (h : p.Makes allowed)
    (hanswer : ∀ c, allowed c → (answer c).Makes within) : (p.interpret answer).Makes within := by
  induction h with
  | done a => exact .done a
  | call hc _ ih => exact .bind (hanswer _ hc) ih

theorem makes_true (p : Program I α) : p.Makes fun _ => True := by
  induction p with
  | done a => exact .done a
  | call c next ih => exact .call trivial ih

/-- **The calls of a run are of the class that the program keeps to**. -/
theorem Makes.of_mem {allowed : I.Call → Prop} {p : Program I α} {events : List (Event I)} {a : α}
    (h : p.Makes allowed) (hruns : p.Runs events a) : ∀ e ∈ events, allowed e.1 := by
  induction hruns with
  | done a => exact fun e he => absurd he List.not_mem_nil
  | call answer _ ih =>
    cases h with
    | call hc rest =>
      intro e he
      rcases List.mem_cons.1 he with rfl | he
      · exact hc
      · exact ih (rest answer) e he

end Scholia.Program
