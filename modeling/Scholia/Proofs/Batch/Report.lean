import Scholia.Proofs.Batch.Failure
import Scholia.Proofs.Comment.Harvest
import Scholia.Proofs.Path.Components
import Scholia.Proofs.Source.Signature
import Scholia.Proofs.Text.Replaced
/-!
# The lines of a report

A report is made of rows, each ended by a line feed: its title, and for each outcome a heading, a
count and the messages of what has failed. The names of files and the signatures of routines stand on
one line, so a row that has no message in it is a line. A message is written as it is. It may be what
a service has answered, and have as many lines as that has.

Main statement (`render_lines`): the lines that begin as headings are the headings of the outcomes,
in their order and with the share of documented routines, **exactly if no message brings a line that
begins as one**; and so it is with the lines that begin as entries within the section of a file.
-/

namespace Scholia

/-! ## Outcomes of files -/

/-- The routines of an outcome that have failed are named on one line. -/
def Outcome.Signed (o : Outcome) : Prop :=
  ∀ signature ∈ o.routineErrors.map (·.1), Source.OnOneLine signature

theorem Outcome.signed_fresh (file : Text) : (fresh file).Signed := nofun

theorem Language.harvest_signed {language : Language} {source : Text} {h : Harvest}
    (hharvest : language.harvest source = .ok h) :
    ∀ signature ∈ h.errors.map (·.1), Source.OnOneLine signature := by
  obtain ⟨routines, hroutines, hfold⟩ := bind_eq_ok.1 hharvest
  cases hfold
  intro signature hs
  obtain ⟨r, hr, -, rfl⟩ := ((Harvest.covers_foldl language routines).signatures signature).1 hs
  exact Language.routines_onOneLine hroutines r hr

namespace Batch

section Signed

variable {limits : Limits} {r : Request} {file : Path} {kind : SourceKind} {language : Language}
  {source : Text} {o : Outcome} {events : List Event} {attempt : Attempt}

theorem foldl_withResult_signed {results : List (Source.Routine × Result)} (ho : o.Signed)
    (h : ∀ p ∈ results, Source.OnOneLine p.1.signature) :
    (results.foldl (fun o (routine, result) => withResult o routine result) o).Signed := by
  induction results generalizing o with
  | nil => exact ho
  | cons p results ih =>
    obtain ⟨routine, result⟩ := p
    obtain ⟨hfirst, hrest⟩ := List.forall_mem_cons.1 h
    cases result with
    | ok accepted => exact ih ho hrest
    | error reason =>
      refine ih (fun signature hs => ?_) hrest
      rcases Text.Table.mem_keys_put.1 hs with rfl | hs
      · exact hfirst
      · exact ho signature hs

theorem documentRoutines_signed (ho : o.Signed)
    (h : (documentRoutines limits language source o).Ends attempt) : attempt.outcome.Signed := by
  cases hroutines : language.routines source with
  | error fault =>
    rw [documentRoutines, hroutines] at h
    rw [Program.ends_pure.1 h]
    exact ho
  | ok routines =>
    obtain ⟨results, rfl, rfl⟩ := documentRoutines_ends hroutines h
    exact foldl_withResult_signed ho fun p hp =>
      Language.routines_onOneLine hroutines p.1 (List.mem_map_of_mem hp)

theorem documentWhole_signed (ho : o.Signed)
    (h : (documentWhole limits kind source o).Runs events attempt) : attempt.outcome.Signed := by
  rcases documentWhole_runs h with ⟨fault, -, rfl⟩ |
    ⟨total?, told, asking, result, -, hasking, -, rfl⟩
  · exact ho
  cases result with
  | error reason => exact ho
  | ok accepted =>
    obtain ⟨reply, -, hverdict⟩ := askUntil_accepted hasking
    obtain ⟨text, -, haccept⟩ := bind_eq_ok.1 hverdict
    rw [wholeAttempt, Attempt.outcome, draftOf]
    split
    · next harvest hharvest =>
      obtain ⟨language, -, hcode⟩ :=
        Reply.harvest_of_acceptFile (mapError_eq_ok.1 haccept) hharvest
      exact Language.harvest_signed hcode
    · exact ho

theorem draft_signed {shown : Text}
    (h : (draft limits r kind source (.fresh shown)).Runs events attempt) :
    attempt.outcome.Signed := by
  rw [draft] at h
  have hfresh : ∀ chosen, Outcome.Signed { Outcome.fresh shown with strategy := some chosen } :=
    fun _ => Outcome.signed_fresh shown
  split at h
  · exact documentRoutines_signed (hfresh _) h.ends
  · exact documentWhole_signed (hfresh _) h

/-- **Routines that fail are named by their signatures**, whichever way the work on a file goes. -/
theorem Course.signed (h : Course limits r file events o) : o.Signed := by
  cases h with
  | unsupported hkind ho => exact ho ▸ Outcome.signed_fresh (r.shown file)
  | unread hkind ho => exact ho ▸ Outcome.signed_fresh (r.shown file)
  | undrafted hkind hdraft => exact draft_signed hdraft
  | unwritten hkind hdraft ho => exact ho ▸ (draft_signed hdraft : Outcome.Signed _)
  | @written o kind source drafting documenting d result hkind hdraft hdocuments ho =>
    have hd : d.outcome.Signed := draft_signed hdraft
    subst ho
    cases result with
    | ok paths => exact hd
    | error reason =>
      rw [withDocuments]
      split <;> exact hd

/-- A path on one line is shown on one line. -/
theorem Request.newline_not_mem_shown (r : Request) (h : '\n' ∉ file.text) : '\n' ∉ r.shown file := by
  have hrelative : '\n' ∉ (r.relative file).text := by
    unfold Request.relative
    split
    · next place hplace =>
      obtain ⟨root, -, hplace⟩ := Option.bind_eq_some_iff.1 hplace
      intro hn
      rcases Path.mem_text_of_relativeTo? hplace hn with hn | hn
      · cases hn
      · exact h hn
    · next name _ hname => exact fun hn => h (Path.mem_text_of_fileName? hname hn)
    · exact h
  unfold Request.shown
  split
  · intro hn
    rcases Text.mem_replaceAll (List.cons_ne_nil _ _) hn with hn | hn
    · exact absurd hn (by decide)
    · exact hrelative hn
  · exact h

/-- What the work on a file can come to, whatever it is answered, if the name under which the file is
shown stands on one line. -/
def Produced (o : Outcome) : Prop :=
  ∃ limits r file, '\n' ∉ Request.shown r file ∧ (documentFile limits r file).Ends o

theorem Produced.course (h : Produced o) : ∃ limits r file events,
    '\n' ∉ Request.shown r file ∧ Course limits r file events o := by
  obtain ⟨limits, r, file, hname, hends⟩ := h
  obtain ⟨events, hruns⟩ := hends.runs
  exact ⟨limits, r, file, events, hname, course_of_runs hruns⟩

theorem Produced.consistent (h : Produced o) : o.Consistent := by
  obtain ⟨_, _, _, _, -, hcourse⟩ := h.course
  exact hcourse.consistent

theorem Produced.signed (h : Produced o) : o.Signed := by
  obtain ⟨_, _, _, _, -, hcourse⟩ := h.course
  exact hcourse.signed

theorem Produced.newline_not_mem_file (h : Produced o) : '\n' ∉ o.file := by
  obtain ⟨_, _, _, _, hname, hcourse⟩ := h.course
  exact hcourse.file_eq ▸ hname

end Signed

end Batch

/-! ## Rows -/

namespace Report

/-- What a heading begins with. -/
def headingMark : Text := "## ".toList

/-- What an entry begins with. -/
def entryMark : Text := "- ".toList

def title : Text := "# Documentation Results".toList

def heading (o : Outcome) : Text :=
  headingMark ++ o.file ++ " was documented at ".toList ++ Text.ofNat (percentage o) ++ ['%']

def count (o : Outcome) : Text :=
  if o.total = 0 then "Couldn't count the number of functions".toList
  else
    "Functions documented: ".toList ++ Text.ofNat o.documented ++ ['/'] ++ Text.ofNat o.total

/-- The entry of a routine that has failed. -/
def entry (failure : Text × Text) : Text :=
  entryMark ++ failure.1 ++ ' ' :: failure.2

def fileLabel : Text := "### File error:".toList

def routineLabel : Text := "### Function errors:".toList

/-- The rows with messages. -/
def messageRows (o : Outcome) : List Text :=
  match o.error with
  | some error => [fileLabel, error]
  | none => if o.routineErrors.isEmpty then [] else routineLabel :: o.routineErrors.map entry

/-- The rows about a file. -/
def rows (o : Outcome) : List Text :=
  heading o :: count o :: messageRows o

theorem coverage_rows (o : Outcome) : coverage o = [heading o, count o].flatMap (· ++ ['\n']) := by
  unfold coverage count
  split
  · next htotal =>
    have hshare : Text.ofNat (percentage o) ++ ['%'] = "0%".toList := by
      rw [percentage, htotal, Nat.div_zero]
      rfl
    have hheading : heading o = "## ".toList ++ o.file ++ " was documented at 0%".toList := by
      rw [heading, List.append_assoc, hshare, List.append_assoc]
      rfl
    rw [hheading, List.flatMap_cons, List.flatMap_cons, List.flatMap_nil, List.append_nil,
      List.append_assoc _ _ ['\n']]
    rfl
  · rw [heading, List.flatMap_cons, List.flatMap_cons, List.flatMap_nil, List.append_nil,
      List.append_assoc _ ['%'], ← List.append_assoc _ _ ['\n'], headingMark]
    simp only [List.append_assoc]
    rfl

theorem errors_rows (o : Outcome) : errors o = (messageRows o).flatMap (· ++ ['\n']) := by
  unfold errors messageRows
  cases o.error with
  | some error =>
    simp only [List.flatMap_cons, List.flatMap_nil, List.append_nil]
    rw [List.append_assoc]
    rfl
  | none =>
    simp only
    split
    · rfl
    · rw [List.flatMap_cons, List.flatMap_map]
      have hlabel : "### Function errors:\n".toList = routineLabel ++ ['\n'] := rfl
      rw [hlabel]
      congr 1
      refine List.flatMap_congr fun failure _ => ?_
      simp only [entry, entryMark, List.append_assoc, List.cons_append, List.nil_append]

/-- **A report is made of rows**. -/
theorem render_rows (outcomes : List Outcome) :
    render outcomes = (title :: outcomes.flatMap rows).flatMap (· ++ ['\n']) := by
  have hrows (o : Outcome) : coverage o ++ errors o = (rows o).flatMap (· ++ ['\n']) := by
    rw [coverage_rows, errors_rows, ← List.flatMap_append, rows, List.cons_append, List.cons_append,
      List.nil_append]
  have htitle : "# Documentation Results\n".toList = title ++ ['\n'] := rfl
  unfold render
  rw [htitle, List.flatMap_cons, List.flatMap_assoc]
  exact congrArg (title ++ ['\n'] ++ ·) (List.flatMap_congr fun o _ => hrows o)

/-! ## Lines of rows -/

/-- The lines that a row takes up. -/
def rowLines (row : Text) : List Text :=
  Text.lines (row ++ ['\n'])

/-- The lines about a file. -/
def sectionLines (o : Outcome) : List Text :=
  Text.lines (coverage o ++ errors o)

/-- The first line of an entry. -/
def entryLine (failure : Text × Text) : Text :=
  entry (failure.1, (rowLines failure.2).headD [])

/-- The lines of messages that do not stand behind a signature: those of the error of a file, and
those of the errors of routines from the second one on. -/
def looseLines (o : Outcome) : List Text :=
  match o.error with
  | some error => rowLines error
  | none => o.routineErrors.flatMap fun failure => (rowLines failure.2).tail

theorem sectionLines_eq (o : Outcome) : sectionLines o = (rows o).flatMap rowLines := by
  rw [sectionLines, coverage_rows, errors_rows, ← List.flatMap_append]
  exact Text.lines_flatMap_newline _

/-- The sections of the files stand one behind the other. -/
theorem lines_render (outcomes : List Outcome) :
    Text.lines (render outcomes) = title :: outcomes.flatMap sectionLines := by
  have htitle : Text.lines (title ++ ['\n']) = [title] := by decide
  rw [render_rows, Text.lines_flatMap_newline, List.flatMap_cons, htitle, List.flatMap_assoc]
  exact congrArg (title :: ·) (List.flatMap_congr fun o _ => (sectionLines_eq o).symm)

theorem rowLines_of_plain {row : Text} (hn : '\n' ∉ row) (hr : '\r' ∉ row) : rowLines row = [row] := by
  rw [rowLines, Text.lines_line hn, Text.dropReturn, if_neg fun h => hr (List.mem_of_getLast? h)]
  rfl

theorem rowLines_heading {o : Outcome} (h : '\n' ∉ o.file) : rowLines (heading o) = [heading o] := by
  have hdigits : '\n' ∉ Text.ofNat (percentage o) := fun hc =>
    absurd (Text.isDigit_of_mem_ofNat hc) (by decide)
  have hn : '\n' ∉ heading o := by simp [heading, headingMark, h, hdigits]
  rw [rowLines, Text.lines_line hn, heading, Text.dropReturn_append_cons _ (by decide)]
  rfl

theorem rowLines_count (o : Outcome) : rowLines (count o) = [count o] := by
  have hdigits {n : Nat} {c : Char} (hc : c.isDigit = false) : c ∉ Text.ofNat n := fun h =>
    Bool.false_ne_true (hc.symm.trans (Text.isDigit_of_mem_ofNat h))
  have hplain {c : Char} (hc : c.isDigit = false) (hl : c ∉ count ⟨[], none, 0, 0, [], none, []⟩)
      (hf : c ∉ "Functions documented: ".toList) (hs : c ≠ '/') : c ∉ count o := by
    unfold count
    split
    · exact hl
    · simp only [List.mem_append, List.mem_singleton, not_or]
      exact ⟨⟨⟨hf, hdigits hc⟩, hs⟩, hdigits hc⟩
  exact rowLines_of_plain (hplain rfl (by decide) (by decide) (by decide))
    (hplain rfl (by decide) (by decide) (by decide))

/-- An entry adds the further lines of its message. -/
theorem rowLines_entry {failure : Text × Text} (h : '\n' ∉ failure.1) :
    rowLines (entry failure) = entryLine failure :: (rowLines failure.2).tail := by
  have hlead : '\n' ∉ entryMark ++ failure.1 := by simp [entryMark, h]
  obtain ⟨first, rest, hmessage, hentry⟩ :=
    Text.lines_behind hlead (show ' ' ≠ '\n' by decide) (by decide) failure.2
  rw [entryLine, rowLines, rowLines, hmessage]
  exact hentry

/-! ## Lines that begin with a mark -/

theorem isPrefixOf_count {mark : Text} (hmark : mark = headingMark ∨ mark = entryMark) (o : Outcome) :
    mark.isPrefixOf (count o) = false := by
  unfold count
  rcases hmark with rfl | rfl <;> split <;> rfl

/-- Labels begin with no mark. -/
theorem filter_messageRows {mark : Text} (hmark : mark = headingMark ∨ mark = entryMark)
    {o : Outcome} (hsigned : o.Signed) :
    ((messageRows o).flatMap rowLines).filter mark.isPrefixOf =
      match o.error with
      | some error => (rowLines error).filter mark.isPrefixOf
      | none => o.routineErrors.flatMap fun failure =>
          (entryLine failure :: (rowLines failure.2).tail).filter mark.isPrefixOf := by
  have hfile : (rowLines fileLabel).filter mark.isPrefixOf = [] := by
    rcases hmark with rfl | rfl <;> decide
  have hroutine : (rowLines routineLabel).filter mark.isPrefixOf = [] := by
    rcases hmark with rfl | rfl <;> decide
  unfold messageRows
  cases o.error with
  | some error =>
    simp only [List.flatMap_cons, List.flatMap_nil, List.append_nil, List.filter_append, hfile,
      List.nil_append]
  | none =>
    have hentries : (o.routineErrors.map entry).flatMap rowLines =
        o.routineErrors.flatMap fun failure => entryLine failure :: (rowLines failure.2).tail := by
      rw [List.flatMap_map]
      refine List.flatMap_congr fun failure hfailure => rowLines_entry ?_
      exact (hsigned _ (List.mem_map_of_mem hfailure)).newline_not_mem
    simp only
    rw [← List.filter_flatMap, ← hentries]
    split
    · next hempty => rw [List.isEmpty_iff.1 hempty]; rfl
    · rw [List.flatMap_cons, List.filter_append, hroutine, List.nil_append]

variable {o : Outcome}

theorem sectionLines_cons (hfile : '\n' ∉ o.file) :
    sectionLines o = heading o :: count o :: (messageRows o).flatMap rowLines := by
  rw [sectionLines_eq, rows, List.flatMap_cons, List.flatMap_cons, rowLines_heading hfile,
    rowLines_count]
  rfl

/-- **A section has its heading, and whatever its messages bring along**. -/
theorem filter_headingMark (hfile : '\n' ∉ o.file) (hsigned : o.Signed) :
    (sectionLines o).filter headingMark.isPrefixOf =
      heading o :: (looseLines o).filter headingMark.isPrefixOf := by
  have hheading : headingMark.isPrefixOf (heading o) = true := by
    rw [heading, List.append_assoc, List.append_assoc, List.append_assoc]
    exact List.isPrefixOf_iff_prefix.2 (List.prefix_append _ _)
  rw [sectionLines_cons hfile, List.filter_cons_of_pos hheading,
    List.filter_cons_of_neg (Bool.eq_false_iff.1 (isPrefixOf_count (.inl rfl) o)),
    filter_messageRows (.inl rfl) hsigned, looseLines]
  cases o.error with
  | some error => rfl
  | none =>
    simp only
    rw [List.filter_flatMap]
    exact congrArg _ (List.flatMap_congr fun failure _ =>
      List.filter_cons_of_neg (Bool.eq_false_iff.1 rfl))

/-- **A section has its entries, each followed by whatever its message brings along**. -/
theorem filter_entryMark (hfile : '\n' ∉ o.file) (hsigned : o.Signed) (herror : o.error = none) :
    (sectionLines o).filter entryMark.isPrefixOf =
      o.routineErrors.flatMap fun failure =>
        entryLine failure :: (rowLines failure.2).tail.filter entryMark.isPrefixOf := by
  have hheading : entryMark.isPrefixOf (heading o) = false := rfl
  rw [sectionLines_cons hfile, List.filter_cons_of_neg (Bool.eq_false_iff.1 hheading),
    List.filter_cons_of_neg (Bool.eq_false_iff.1 (isPrefixOf_count (.inr rfl) o)),
    filter_messageRows (.inr rfl) hsigned, herror]
  exact List.flatMap_congr fun failure _ => List.filter_cons_of_pos rfl

/-- Among first elements there are others only if something brings them along. -/
theorem flatMap_cons_eq_map_iff {α β : Type} {l : List α} {first : α → β} {more : α → List β} :
    (l.flatMap fun a => first a :: more a) = l.map first ↔ ∀ a ∈ l, more a = [] := by
  have hlength : ∀ l : List α, l.length ≤ (l.flatMap fun a => first a :: more a).length := by
    intro l
    induction l with
    | nil => exact Nat.le_refl 0
    | cons a l ih =>
      rw [List.flatMap_cons, List.length_append, List.length_cons, List.length_cons]
      omega
  constructor
  · intro h
    induction l with
    | nil => nofun
    | cons a l ih =>
      rw [List.flatMap_cons, List.map_cons, List.cons_append] at h
      have htail := (List.cons.inj h).2
      have hle := hlength l
      have hsame := congrArg List.length htail
      rw [List.length_append, List.length_map] at hsame
      have hnone : more a = [] := List.length_eq_zero_iff.1 (by omega)
      rw [hnone, List.nil_append] at htail
      exact List.forall_mem_cons.2 ⟨hnone, ih htail⟩
  · intro h
    rw [← List.flatMap_pure_eq_map]
    exact List.flatMap_congr fun a ha => by rw [h a ha]; rfl

/-! ## Shares -/

theorem percentage_le (h : o.documented ≤ o.total) : percentage o ≤ 100 := by
  refine Nat.div_le_of_le_mul (Nat.le_trans (Nat.mod_le _ _) ?_)
  exact Nat.mul_le_mul_right 100 h

theorem percentage_eq (h : o.documented * 100 < Nat.pow 2 64) :
    percentage o = o.documented * 100 / o.total := by
  rw [percentage, Nat.mod_eq_of_lt h]

/-- **A report has the form of a report unless a message has it too**. -/
theorem render_lines {outcomes : List Outcome} (h : ∀ o ∈ outcomes, Batch.Produced o) :
    Text.lines (render outcomes) = title :: outcomes.flatMap sectionLines ∧
      ((Text.lines (render outcomes)).filter headingMark.isPrefixOf = outcomes.map heading ↔
        ∀ o ∈ outcomes, ∀ line ∈ looseLines o, ¬ headingMark <+: line) ∧
      ∀ o ∈ outcomes,
        o.documented ≤ o.total ∧ percentage o ≤ 100 ∧
          (o.documented * 100 < Nat.pow 2 64 → percentage o = o.documented * 100 / o.total) ∧
          (o.error = none →
            ((sectionLines o).filter entryMark.isPrefixOf = o.routineErrors.map entryLine ↔
              ∀ line ∈ looseLines o, ¬ entryMark <+: line)) := by
  have hnone {mark : Text} {ls : List Text} :
      ls.filter mark.isPrefixOf = [] ↔ ∀ line ∈ ls, ¬ mark <+: line := by
    simp only [List.filter_eq_nil_iff, List.isPrefixOf_iff_prefix]
  have htitle : ¬ headingMark.isPrefixOf title = true := by decide
  have hheadings : (Text.lines (render outcomes)).filter headingMark.isPrefixOf =
      outcomes.flatMap fun o => heading o :: (looseLines o).filter headingMark.isPrefixOf := by
    rw [lines_render, List.filter_cons_of_neg htitle, List.filter_flatMap]
    exact List.flatMap_congr fun o ho =>
      filter_headingMark (h o ho).newline_not_mem_file (h o ho).signed
  refine ⟨lines_render outcomes, ?_, fun o ho => ?_⟩
  · rw [hheadings, flatMap_cons_eq_map_iff]
    exact forall₂_congr fun o _ => hnone
  have hle := (h o ho).consistent.documented_le
  refine ⟨hle, percentage_le hle, percentage_eq, fun herror => ?_⟩
  rw [filter_entryMark (h o ho).newline_not_mem_file (h o ho).signed herror, flatMap_cons_eq_map_iff]
  simp only [hnone, looseLines, herror, List.mem_flatMap]
  exact ⟨fun hall line ⟨failure, hf, hl⟩ => hall failure hf line hl,
    fun hall failure hf line hl => hall line ⟨failure, hf, hl⟩⟩

/-! ## A file while the service is out of order -/

end Report

namespace Batch

def stubFile : Path := ⟨"a.py".toList⟩

def stubSource : Text := "def f():\n    pass\n".toList

def stubRoutine : Source.Routine where
  name := ['f']
  signature := "def f()".toList
  body := "\n    pass".toList
  span := ⟨0, 17⟩
  comment := []
  commentSpan := none

def stubRequest : Request := ⟨none, [stubFile], .quick, ⟨"out".toList⟩, .standard, false⟩

def stubLimits : Limits := ⟨1, 0, 300⟩

/-- What comes of the file if the model's service is out of order. -/
def stubOutcome (message : Text) : Outcome where
  file := stubFile.text
  error := none
  total := 1
  documented := 0
  routineErrors := [(stubRoutine.signature, (Model.Fault.service 500 message).message)]
  strategy := some .perRoutine
  artifacts := []

theorem routines_stubSource : Language.routines .python stubSource = .ok [stubRoutine] := by
  rw [Language.routines_eq_compute]
  decide +kernel

theorem stub_asked (prompt message : Text) {α : Type} (accept : Text → Except Text α) :
    (askUntil prompt accept (.start 0)).Ends (.error (Model.Fault.service 500 message).message) := by
  have hnext : (Retry.start 0).next? = some ⟨1, 1, none⟩ := rfl
  rw [askUntil_some hnext]
  refine Program.ends_bind.2 ⟨.error (.service 500 message), .call _ (.done _), ?_⟩
  change (askUntil prompt accept _).Ends _
  rw [askUntil_none rfl]
  exact .done _

/-- What comes of the one routine. -/
def stubResults (message : Text) : List (Source.Routine × Result) :=
  [(stubRoutine, .error (Model.Fault.service 500 message).message)]

theorem stub_drafted (message : Text) :
    (draft stubLimits stubRequest (.grammar .python) stubSource (.fresh stubFile.text)).Ends
      (.ok ⟨stubOutcome message, [],
        (assemble stubSource (stubOutcome message) (stubResults message)).code⟩) := by
  have heach :
      (documentEach stubLimits .python stubSource [stubRoutine]).Ends (stubResults message) :=
    Program.ends_bind.2 ⟨_, stub_asked _ message _, Program.ends_bind.2 ⟨_, .done _, .done _⟩⟩
  change (documentRoutines _ _ _ _).Ends _
  rw [documentRoutines, routines_stubSource]
  refine .after () (.after () (Program.ends_bind.2 ⟨stubResults message, heach, ?_⟩))
  exact .done _

theorem stub_produced (message : Text) : Produced (stubOutcome message) := by
  have hkind : SourceKind.ofPath? stubFile = some (.grammar .python) := by decide
  refine ⟨stubLimits, stubRequest, stubFile,
    stubRequest.newline_not_mem_shown (by decide), .after () ?_⟩
  rw [hkind]
  refine .after (.ok stubSource)
    (Program.ends_bind.2 ⟨stubOutcome message, ?_, .after () (.done _)⟩)
  refine Program.ends_bind.2 ⟨_, stub_drafted message, .after (.ok ()) (.after () ?_)⟩
  exact Program.ends_bind.2 ⟨.ok [], .done _, .done _⟩

end Batch

namespace Report

open Batch (Produced stubOutcome stub_produced)

/-- A message on one line is the rest of the entry that it belongs to. -/
theorem render_lines_stub :
    (Text.lines (render [stubOutcome "busy".toList])).filter headingMark.isPrefixOf =
        ["## a.py was documented at 0%".toList] ∧
      (sectionLines (stubOutcome "busy".toList)).filter entryMark.isPrefixOf =
        ["- def f() API error (500): busy".toList] := by
  have hloose : looseLines (stubOutcome "busy".toList) = [] := by decide
  have hnone {mark : Text} :
      ∀ line ∈ looseLines (stubOutcome "busy".toList), ¬ mark <+: line := by
    rw [hloose]
    nofun
  obtain ⟨-, hheadings, hentries⟩ := @render_lines [stubOutcome "busy".toList]
    (List.forall_mem_singleton.2 (stub_produced _))
  have hentry := (hentries _ List.mem_cons_self).2.2.2 rfl
  refine ⟨(hheadings.2 (List.forall_mem_singleton.2 hnone)).trans ?_,
    (hentry.2 hnone).trans ?_⟩ <;> rfl

/-- What a service may answer while it is out of order. -/
def busyAnswer : Text := "busy\n## b.py was documented at 100%\n- def g() no reply".toList

/-- A message on three lines brings along the heading of a file that there is not, and an entry. -/
theorem render_lines_busyAnswer :
    Produced (stubOutcome busyAnswer) ∧
      (Text.lines (render [stubOutcome busyAnswer])).filter headingMark.isPrefixOf =
        [heading (stubOutcome busyAnswer), "## b.py was documented at 100%".toList] ∧
      (stubOutcome busyAnswer).error = none ∧ (stubOutcome busyAnswer).routineErrors.length = 1 ∧
      (sectionLines (stubOutcome busyAnswer)).filter entryMark.isPrefixOf =
        ["- def f() API error (500): busy".toList, "- def g() no reply".toList] := by
  refine ⟨stub_produced busyAnswer, ?_, rfl, rfl, ?_⟩ <;> decide

end Report

end Scholia
