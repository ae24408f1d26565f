import BindCheck.Program

/-!
# BindCheck.Proofs.Output

**What a check writes, where it stops, and what it answers.** All reports of a check make up one
run of bytes (`Report.output`). A sink takes the first bytes of that run, as many as there is room
for, however the run is divided into reports (`Sink.writeAll_eq`); and the answer is that of the
verdict just if there was room for all of them.

The step is one write: what a sink would take of two runs in a row is what it takes of the first,
and what it then still takes of the second (`Sink.accepted_append`). A write that fails has used
up the room, so nothing behind it could have been taken.

The program writes log lines between the reports. Without them it writes what a check writes to a
sink that has no bound, and its status is that of the check (`Program.run_source`).
-/

namespace BindCheck

/-! ### Sinks -/

namespace Sink

/-- What a sink takes of a run of bytes. -/
def accepted (s : Sink) (bytes : List UInt8) : List UInt8 :=
  match s.room with
  | none => bytes
  | some n => bytes.take n

/-- Whether a sink has room for a run of bytes. -/
def hasRoom (s : Sink) (bytes : List UInt8) : Bool :=
  match s.room with
  | none => true
  | some n => decide (bytes.length ≤ n)

@[simp] theorem accepted_nil (s : Sink) : s.accepted [] = [] := by
  cases h : s.room <;> simp [accepted, h]

@[simp] theorem hasRoom_nil (s : Sink) : s.hasRoom [] = true := by
  cases h : s.room <;> simp [hasRoom, h]

theorem write_eq (s : Sink) (bytes : List UInt8) :
    (s.write bytes).1.taken = s.taken ++ s.accepted bytes ∧
      (s.write bytes).2 = s.hasRoom bytes ∧ (s.write bytes).1.complaint = s.complaint := by
  cases h : s.room <;> simp [write, accepted, hasRoom, h]

/-- **What is taken of two runs in a row.** -/
theorem accepted_append (s : Sink) (as bs : List UInt8) :
    s.accepted (as ++ bs) = s.accepted as ++ (s.write as).1.accepted bs := by
  cases h : s.room with
  | none => simp [write, accepted, h]
  | some n => simp [write, accepted, h, List.take_append]

theorem hasRoom_append (s : Sink) (as bs : List UInt8) :
    s.hasRoom (as ++ bs) = (s.hasRoom as && (s.write as).1.hasRoom bs) := by
  cases h : s.room with
  | none => simp [write, hasRoom, h]
  | some n =>
      simp only [write, hasRoom, h, List.length_append]
      rw [Bool.eq_iff_iff, Bool.and_eq_true, decide_eq_true_iff, decide_eq_true_iff,
        decide_eq_true_iff]
      omega

/-- A sink without room for a run has no room left behind it. -/
theorem accepted_of_full (s : Sink) {as : List UInt8} (h : s.hasRoom as = false)
    (bs : List UInt8) : (s.write as).1.accepted bs = [] := by
  cases hroom : s.room with
  | none => rw [hasRoom, hroom] at h; exact Bool.noConfusion h
  | some n =>
      simp only [hasRoom, hroom, decide_eq_false_iff_not] at h
      simp only [write, accepted, hroom, List.take_eq_nil_iff]
      exact .inl (by omega)

/-- **Texts written one after another are one run of bytes to a sink.** -/
theorem writeAll_eq (s : Sink) (ts : List String) :
    (s.writeAll ts).1.taken = s.taken ++ s.accepted (ts.flatMap fun t => t.toUTF8.toList) ∧
      (s.writeAll ts).2 = s.hasRoom (ts.flatMap fun t => t.toUTF8.toList) ∧
        (s.writeAll ts).1.complaint = s.complaint := by
  induction ts generalizing s with
  | nil => simp [writeAll]
  | cons t ts ih =>
      obtain ⟨htaken, hroom, hcomplaint⟩ := s.write_eq t.toUTF8.toList
      rw [List.flatMap_cons, accepted_append, hasRoom_append, writeAll]
      cases hwritten : s.write t.toUTF8.toList with
      | mk s' written =>
          rw [hwritten] at htaken hroom hcomplaint
          cases written with
          | true =>
              obtain ⟨htaken', hroom', hcomplaint'⟩ := ih s'
              refine ⟨?_, ?_, hcomplaint'.trans hcomplaint⟩
              · rw [htaken', htaken, List.append_assoc]
              · rw [hroom', ← hroom, Bool.true_and]
          | false =>
              have hfull := s.accepted_of_full hroom.symm (ts.flatMap fun t => t.toUTF8.toList)
              rw [hwritten] at hfull
              refine ⟨?_, ?_, hcomplaint⟩
              · rw [htaken, hfull, List.append_nil]
              · rw [← hroom, Bool.false_and]

end Sink

/-! ### Reports -/

/-- All that a check writes if there is room for it: nothing if the text is no query, one report
of what is not analyzed, or one report for each finding, in order. In text a report is a message
with the line that it is about, in JSON it is an object; and a line feed ends it. -/
def Report.output (source : String) (format : Format) : List UInt8 :=
  match parse source with
  | .error _ => []
  | .ok t =>
    match t.analyze, format with
    | .error u, .text => (render source u.message u.position ++ "\n").toUTF8.toList
    | .error u, .json => (jsonText u.diagnostic ++ "\n").toUTF8.toList
    | .ok a, .text =>
      a.diagnostics.flatMap fun d => (render source d.message d.position ++ "\n").toUTF8.toList
    | .ok a, .json => a.diagnostics.flatMap fun d => (jsonText d ++ "\n").toUTF8.toList

theorem Verdict.flatMap_reports (source : String) (format : Format) :
    ((Verdict.ofSource source).reports source format).flatMap (fun t => t.toUTF8.toList) =
      Report.output source format := by
  unfold Verdict.ofSource Verdict.ofTree Report.output
  cases parse source with
  | error e => rfl
  | ok t =>
      simp only
      cases t.analyze with
      | error u =>
          simp only [reports, List.flatMap_singleton]
          cases format <;> rfl
      | ok a =>
          simp only [reports, List.flatMap_map]
          cases format <;> rfl

/-! ### Answers -/

/-- A check answers as its verdict does, unless there was no room for its reports. -/
theorem check_eq (source : String) (format : Format) (s : Sink) :
    (check source format s).1.taken = s.taken ++ s.accepted (Report.output source format) ∧
      (check source format s).2 =
        if s.hasRoom (Report.output source format) then (Verdict.ofSource source).answer
        else .error (.unwritable s.complaint) := by
  obtain ⟨htaken, hroom, hcomplaint⟩ :=
    s.writeAll_eq ((Verdict.ofSource source).reports source format)
  rw [Verdict.flatMap_reports] at htaken hroom
  rw [check]
  cases hwritten : s.writeAll ((Verdict.ofSource source).reports source format) with
  | mk s' written =>
      rw [hwritten] at htaken hroom hcomplaint
      rw [← hroom]
      cases written with
      | true => exact ⟨htaken, rfl⟩
      | false =>
          exact ⟨htaken, congrArg (fun c => Except.error (CheckError.unwritable c)) hcomplaint⟩

theorem exitStatus_eq_hardFailure_iff (r : Except CheckError (List Diagnostic)) :
    exitStatus r = hardFailure ↔ ∃ e, r = .error e := by
  cases r with
  | error e => exact iff_of_true rfl ⟨e, rfl⟩
  | ok ds =>
      refine iff_of_false ?_ (by simp)
      rw [exitStatus, statusOfCount, hardFailure]
      omega

theorem exitStatus_eq_zero_iff (r : Except CheckError (List Diagnostic)) :
    exitStatus r = 0 ↔ r = .ok [] := by
  cases r with
  | error e => exact iff_of_false (by simp [exitStatus, hardFailure]) (by simp)
  | ok ds =>
      rw [exitStatus, statusOfCount, hardFailure, Except.ok.injEq, ← List.length_eq_zero_iff]
      omega

/-- A check finds nothing wrong just if the query is clean, whatever room there is: nothing is
written then. -/
theorem check_eq_ok_nil_iff (source : String) (format : Format) (s : Sink) :
    (check source format s).2 = .ok [] ↔
      ∃ t a, parse source = .ok t ∧ t.analyze = .ok a ∧ a.isClean = true := by
  have hanswer : (Verdict.ofSource source).answer = .ok [] ↔
      ∃ t a, parse source = .ok t ∧ t.analyze = .ok a ∧ a.isClean = true := by
    unfold Verdict.ofSource Verdict.ofTree
    cases hparse : parse source with
    | error e => simp [Verdict.answer]
    | ok t =>
        simp only [Except.ok.injEq, exists_and_left, exists_eq_left']
        cases ha : t.analyze with
        | error u => simp [Verdict.answer]
        | ok a => simp [Verdict.answer, Analysis.isClean]
  rw [(check_eq source format s).2, ← hanswer]
  refine ⟨fun h => ?_, fun h => ?_⟩
  · split at h
    · exact h
    · cases h
  · obtain ⟨t, a, ht, ha, hclean⟩ := hanswer.mp h
    have hnothing : Report.output source format = [] := by
      rw [Report.output, ht]
      cases format <;> simp only [ha, List.isEmpty_iff.mp hclean, List.flatMap_nil]
    rw [hnothing, Sink.hasRoom_nil, if_pos rfl, h]

/-- **What a check writes and answers.** A sink that takes so many bytes, or any number, takes the
first of them. A text that is no query is answered as such; else a sink that was too small is the
error, else the construct that is not analyzed, and else the findings are the answer. The status
tells errors from numbers of findings, and is zero just if the query is clean. -/
theorem check_output (source : String) (format : Format) (room : Option Nat)
    (complaint : String) :
    let out := Report.output source format
    let result := check source format ⟨[], room, complaint⟩
    result.1.taken = out.take (min (room.getD out.length) out.length) ∧
      result.2 =
        (match parse source with
        | .error e => .error (.unparsable e)
        | .ok t =>
          if room.any (· < out.length) then .error (.unwritable complaint)
          else
            match t.analyze with
            | .error u => .error (.unsupported u)
            | .ok a => .ok a.diagnostics) ∧
      (exitStatus result.2 = 255 ↔ ∃ e, result.2 = .error e) ∧
      (∀ ds, result.2 = .ok ds → exitStatus result.2 = min ds.length 254) ∧
      (exitStatus result.2 = 0 ↔
        ∃ t a, parse source = .ok t ∧ t.analyze = .ok a ∧ a.isClean = true) := by
  intro out result
  obtain ⟨htaken, hanswer⟩ := check_eq source format ⟨[], room, complaint⟩
  have hroom : (Sink.mk [] room complaint).hasRoom out = !room.any (· < out.length) := by
    cases room with
    | none => rfl
    | some n =>
        rw [Sink.hasRoom, Option.any_some, ← decide_not, decide_eq_decide]
        exact Nat.not_lt.symm
  refine ⟨?_, ?_, exitStatus_eq_hardFailure_iff _, ?_, ?_⟩
  · rw [htaken, List.nil_append]
    cases room with
    | none => simp [Sink.accepted, out]
    | some n => simp [Sink.accepted, out, List.take_eq_take_iff]
  · rw [hanswer, hroom]
    unfold Verdict.ofSource Verdict.ofTree
    cases hparse : parse source with
    | error e =>
        have hnothing : out = [] := by simp only [out, Report.output, hparse]
        cases room <;> simp [hnothing, Verdict.answer]
    | ok t =>
        cases hfull : room.any (· < out.length) with
        | true => rfl
        | false =>
            simp only
            cases t.analyze with
            | error u => rfl
            | ok a => rfl
  · intro ds hds
    rw [hds]
    rfl
  · rw [exitStatus_eq_zero_iff, check_eq_ok_nil_iff]

/-! ### The program -/

/-- The text of a report. An event of the log is none. -/
def Entry.report? : Entry → Option String
  | report text => some text
  | event _ => none

namespace Journal

/-- Whatever is kept of the log, all reports are kept. -/
theorem reports_keep (t : Threshold) (entries : List Entry) :
    (keep t entries).filterMap Entry.report? = entries.filterMap Entry.report? := by
  rw [keep, List.filterMap_filter]
  refine congrArg (List.filterMap · entries) (funext fun entry => ?_)
  cases entry with
  | report text => rfl
  | event e => exact ite_self _

theorem reports_events (es : List Event) :
    (es.map Entry.event).filterMap Entry.report? = [] := by
  simp [List.filterMap_map, Function.comp_def, Entry.report?]

theorem reports_ofAnswer (a : Except CheckError (List Diagnostic)) :
    (ofAnswer a).filterMap Entry.report? = [] := by
  rcases a with e | ds
  · cases e <;> rfl
  · rfl

/-- **The reports among the entries of a check are those of its verdict.** -/
theorem reports_ofCheck (source : String) (format : Format) :
    (ofCheck source format).filterMap Entry.report? =
      (Verdict.ofSource source).reports source format := by
  unfold ofCheck Verdict.ofSource
  cases parse source with
  | error e => rfl
  | ok t =>
      have htexts : ∀ ts : List String, (ts.map Entry.report).filterMap Entry.report? = ts := by
        intro ts
        simp [List.filterMap_map, Function.comp_def, Entry.report?]
      simp only [List.cons_append, List.filterMap_cons, Entry.report?, List.filterMap_append,
        reports_events, htexts, List.nil_append, List.append_nil]

end Journal

/-- What is written as reports, log lines aside. -/
def Program.reported (entries : List Entry) : List UInt8 :=
  (entries.filterMap Entry.report?).flatMap fun t => t.toUTF8.toList

/-- **The program reports what a check writes** to a sink without a bound, with the status of the
check, whatever is kept of its log. -/
theorem Program.run_source (o : Options) (environment : Option String) (source : String) :
    let result := check source (o.format.getD .text) .unbounded
    reported (run o environment (.ok source)).1 = result.1.taken ∧
      (run o environment (.ok source)).2 = exitStatus result.2 := by
  intro result
  obtain ⟨htaken, hanswer⟩ := check_eq source (o.format.getD .text) .unbounded
  constructor
  · rw [htaken, reported, run, Journal.reports_keep, List.filterMap_append,
      Journal.reports_ofCheck, Journal.reports_ofAnswer, List.append_nil, Verdict.flatMap_reports]
    rfl
  · rw [hanswer]
    rfl

/-- Where there is no source text, nothing is reported, and the status is that of a failure. -/
theorem Program.run_error (o : Options) (environment : Option String) (e : CheckError) :
    reported (run o environment (.error e)).1 = [] ∧
      (run o environment (.error e)).2 = hardFailure := by
  refine ⟨?_, rfl⟩
  rw [reported, run, Journal.reports_keep, List.nil_append, Journal.reports_ofAnswer,
    List.flatMap_nil]

end BindCheck
