import Scholia.Batch.Run
/-!
# Batches that share a collector

Several batches may be asked for at a time, but there is one collector, and one gate before it. A
batch takes the gate, its files are worked on and their outcomes collected in whatever order they
come, and when none is missing it takes the outcomes out, reports them and gives the gate back.

A step concerns one batch. Only taking the gate looks whether another batch has it: that what is
collected belongs to the batch at the gate is not part of the rules but follows from them.
-/

namespace Scholia.Batch

/-- How far a batch has come. -/
inductive Phase where
  /-- It waits for the gate. -/
  | waiting
  /-- It has the gate; these outcomes of its files are still to come. -/
  | working (left : List Outcome)
  /-- It has taken these outcomes out and reports them. -/
  | reporting (outcomes : List Outcome)
  /-- It has given the gate back and answered these outcomes. -/
  | answered (outcomes : List Outcome)
  deriving Repr, DecidableEq

/-- Batches around a collector. -/
structure Site (ι : Type) where
  collector : Collector
  /-- The batch that has the gate. -/
  gate : Option ι
  phase : ι → Phase

namespace Site

variable {ι : Type}

/-- No batch has begun. -/
def start : Site ι := ⟨.empty, none, fun _ => .waiting⟩

/-- The phases with one of them changed. -/
def put [DecidableEq ι] (phase : ι → Phase) (i : ι) (next : Phase) : ι → Phase :=
  fun j => if j = i then next else phase j

end Site

/-- One step of one batch, where the work on the files of each batch comes to `outcomes`. -/
inductive Step {ι : Type} [DecidableEq ι] (outcomes : ι → List Outcome) (s : Site ι) :
    Site ι → Prop
  | take (i : ι) (hphase : s.phase i = .waiting) (hgate : s.gate = none) :
    Step outcomes s
      { s with gate := some i, phase := Site.put s.phase i (.working (outcomes i)) }
  | collect (i : ι) (before after : List Outcome) (o : Outcome)
    (hphase : s.phase i = .working (before ++ o :: after)) :
    Step outcomes s
      { s with
        collector := s.collector.collect o
        phase := Site.put s.phase i (.working (before ++ after)) }
  | drain (i : ι) (hphase : s.phase i = .working []) :
    Step outcomes s
      { s with
        collector := s.collector.drain.2
        phase := Site.put s.phase i (.reporting (sorted s.collector.drain.1)) }
  | release (i : ι) (answer : List Outcome) (hphase : s.phase i = .reporting answer) :
    Step outcomes s { s with gate := none, phase := Site.put s.phase i (.answered answer) }

/-- What any number of steps leads to. -/
inductive Reaches {ι : Type} [DecidableEq ι] (outcomes : ι → List Outcome) : Site ι → Prop
  | start : Reaches outcomes .start
  | step {s t : Site ι} (h : Reaches outcomes s) (hstep : Step outcomes s t) : Reaches outcomes t

end Scholia.Batch
