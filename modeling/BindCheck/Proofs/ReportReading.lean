import BindCheck.Proofs.JsonReading
import BindCheck.Proofs.Output

/-!
# BindCheck.Proofs.ReportReading

**Reports in JSON can be read back line by line.** A finding is written as an object
(`Diagnostic.toJson`) in compact form, and in that form there are no control characters, whatever
stands in the name; so each finding takes the line that it is given (`splitOn_lines`). What is read
in the line is the finding (`Report.map_ofLine?_write`), so the lines tell the findings and their
order (`Report.lines_read_back`). All that a check writes in JSON is such a run of lines
(`Verdict.reports_read_back`), byte by byte (`check_read_back`).
-/

namespace BindCheck

/-! ### Findings as values -/

/-- A finding as an object. -/
def Diagnostic.toJson (d : Diagnostic) : Json :=
  .object [("kind", .string d.kind.name), ("name", .string d.name),
    ("position", .object [("line", .number d.position.line 0),
      ("column", .number d.position.column 0)])]

/-- **A finding is written as its object in compact form.** -/
theorem Report.toList_jsonText (d : Diagnostic) : (jsonText d).toList = d.toJson.write := by
  -- what stands between the fields of a finding, with the keys as strings
  have hkeys : "\x7b\"kind\":".toList = '\x7b' :: (JsonString.encode "kind".toList ++ [':']) ∧
      ",\"name\":".toList = ',' :: (JsonString.encode "name".toList ++ [':']) ∧
      ",\"position\":\x7b\"line\":".toList = ',' :: (JsonString.encode "position".toList ++
        ':' :: '\x7b' :: (JsonString.encode "line".toList ++ [':'])) ∧
      ",\"column\":".toList = ',' :: (JsonString.encode "column".toList ++ [':']) ∧
      "\x7d\x7d".toList = ['\x7d', '\x7d'] := by
    decide +kernel
  obtain ⟨hkind, hname, hposition, hcolumn, hclose⟩ := hkeys
  have htext : ∀ s, (JsonString.ofText s).toList = JsonString.encode s.toList := fun s =>
    String.toList_ofList
  unfold jsonText
  simp only [Diagnostic.toJson, String.toList_append, htext, Nat.toString_eq_repr, Nat.toList_repr,
    Json.write, Json.writeMembers, Json.bracket, List.intercalate_cons_cons,
    List.intercalate_singleton, Json.writeInt_natCast, Json.writeExponent, if_true, hkind, hname,
    hposition, hcolumn, hclose, List.append_nil, List.append_assoc, List.cons_append,
    List.nil_append]

namespace Json

/-- The member of an object under a key. -/
def get? (key : String) : Json → Option Json
  | object ms => ms.lookup key
  | _ => none

/-- A string. -/
def string? : Json → Option String
  | string s => some s
  | _ => none

/-- A natural number, written without a fraction or an exponent. -/
def natural? : Json → Option Nat
  | number (.ofNat n) 0 => some n
  | _ => none

end Json

/-- The kind of findings with a name. -/
def DiagnosticKind.ofName? (name : String) : Option DiagnosticKind :=
  [("UndefinedVariable", undefinedVariable), ("UnsupportedQuery", unsupportedQuery)].lookup name

namespace Diagnostic

/-- The finding that an object describes. -/
def ofJson? (v : Json) : Option Diagnostic := do
  let kind ← (← v.get? "kind").string?
  let name ← (← v.get? "name").string?
  let position ← v.get? "position"
  let line ← (← position.get? "line").natural?
  let column ← (← position.get? "column").natural?
  some ⟨← DiagnosticKind.ofName? kind, name, ⟨line, column⟩⟩

/-- The finding that a line describes. -/
def ofLine? (line : List Char) : Option Diagnostic := (Json.read line).bind ofJson?

theorem ofJson?_toJson (d : Diagnostic) : ofJson? d.toJson = some d := by
  obtain ⟨kind, name, line, column⟩ := d
  cases kind <;> rfl

end Diagnostic

/-! ### Lines -/

/-- **Lines that are ended one by one are found by their ends**, with nothing behind the last. -/
theorem splitOn_lines {lines : List (List Char)} (h : ∀ l ∈ lines, '\n' ∉ l) :
    (lines.flatMap (· ++ ['\n'])).splitOn '\n' = lines ++ [[]] := by
  have hjoin : lines.flatMap (· ++ ['\n']) = ['\n'].intercalate (lines ++ [[]]) := by
    clear h
    induction lines with
    | nil => rfl
    | cons l lines ih =>
        rw [List.flatMap_cons, ih, List.cons_append, List.intercalate_cons_of_ne_nil (by simp)]
  rw [hjoin, List.splitOn_intercalate '\n' _ (by simp)]
  simpa [or_imp, forall_and] using h

namespace Report

/-- The reports of some findings in JSON, one after another. -/
def jsonLines (source : String) (ds : List Diagnostic) : String :=
  String.join (ds.map (ofDiagnostic source .json))

theorem toList_jsonLines (source : String) (ds : List Diagnostic) :
    (jsonLines source ds).toList = (ds.map fun d => d.toJson.write).flatMap (· ++ ['\n']) := by
  rw [jsonLines, String.toList_join, List.flatMap_map, List.flatMap_map]
  refine List.flatMap_congr fun d _ => ?_
  rw [ofDiagnostic, write, String.toList_append, toList_jsonText]
  rfl

/-- The lines of reports are the objects of the findings, and nothing is behind the last. -/
theorem splitOn_jsonLines (source : String) (ds : List Diagnostic) :
    (jsonLines source ds).toList.splitOn '\n' = (ds.map fun d => d.toJson.write) ++ [[]] := by
  rw [toList_jsonLines]
  refine splitOn_lines (List.forall_mem_map.mpr fun d _ hline => ?_)
  exact absurd (d.toJson.noControls_write _ hline) (by decide)

/-- The lines of reports are read as the findings. -/
theorem map_ofLine?_write (ds : List Diagnostic) :
    (ds.map fun d => d.toJson.write).map Diagnostic.ofLine? = ds.map some := by
  rw [List.map_map]
  refine List.map_congr_left fun d _ => ?_
  rw [Function.comp, Diagnostic.ofLine?, Json.read_write]
  exact d.ofJson?_toJson

/-- **Reports are read back line by line.** There is one line for each finding, an object with its
fields, which is read as the finding; and behind the last line there is nothing. So reports are the
same, for one source or for two, just if the findings are. -/
theorem lines_read_back (source : String) (ds : List Diagnostic) :
    (∃ lines, (jsonLines source ds).toList.splitOn '\n' = lines ++ [[]] ∧
      lines.length = ds.length ∧ lines.map Json.read = ds.map (fun d => some d.toJson) ∧
        lines.map Diagnostic.ofLine? = ds.map some) ∧
      ∀ source' ds', jsonLines source' ds' = jsonLines source ds ↔ ds' = ds := by
  refine ⟨⟨_, splitOn_jsonLines source ds, List.length_map _, ?_, map_ofLine?_write ds⟩, ?_⟩
  · rw [List.map_map]
    exact List.map_congr_left fun d _ => d.toJson.read_write
  refine fun source' ds' => ⟨fun h => ?_, ?_⟩
  · have hsplit := splitOn_jsonLines source' ds'
    rw [h, splitOn_jsonLines] at hsplit
    have hlines := congrArg (List.map Diagnostic.ofLine?) (List.append_cancel_right hsplit)
    rw [map_ofLine?_write, map_ofLine?_write] at hlines
    exact ((List.map_inj_right fun _ _ => Option.some.inj).mp hlines).symm
  · rintro rfl
    rw [← String.toList_inj, toList_jsonLines, toList_jsonLines]

end Report

/-! ### Verdicts -/

namespace Verdict

/-- What a verdict reports, as findings: what is not analyzed is a finding of its own kind. -/
def findings : Verdict → List Diagnostic
  | unparsable _ => []
  | unsupported u => [u.diagnostic]
  | analyzed a => a.diagnostics

theorem join_reports (source : String) (v : Verdict) :
    String.join (v.reports source .json) = Report.jsonLines source v.findings := by
  cases v <;> rfl

/-- **What a check writes in JSON is read back as what it reports.** -/
theorem reports_read_back (source : String) (v : Verdict) :
    ∃ lines, (String.join (v.reports source .json)).toList.splitOn '\n' = lines ++ [[]] ∧
      lines.map Diagnostic.ofLine? = v.findings.map some := by
  rw [join_reports]
  exact ⟨_, Report.splitOn_jsonLines source v.findings, Report.map_ofLine?_write v.findings⟩

end Verdict

/-! ### Bytes -/

/-- Behind what a loop has collected, in reverse, it reads the bytes from its index on. -/
theorem toList_loop_eq (bs : ByteArray) (i : Nat) (acc : List UInt8) :
    ByteArray.toList.loop bs i acc = acc.reverse ++ bs.data.toList.drop i := by
  fun_induction ByteArray.toList.loop bs i acc with
  | case1 i acc h ih =>
      have hi : i < bs.data.toList.length := h
      have hget : bs.get! i = bs.data.toList[i] := getElem!_pos bs.data i h
      rw [ih, List.drop_eq_getElem_cons hi, List.reverse_cons, List.append_assoc, hget]
      rfl
  | case2 i acc h =>
      rw [List.drop_of_length_le (by simpa using h), List.append_nil]

theorem toList_toUTF8_append (s t : String) :
    (s ++ t).toUTF8.toList = s.toUTF8.toList ++ t.toUTF8.toList := by
  simp only [ByteArray.toList, toList_loop_eq, List.reverse_nil, List.nil_append, List.drop_zero,
    String.toUTF8_eq_toByteArray, String.toByteArray_append, ByteArray.toList_data_append]

/-- **Texts written one after another are the bytes of one text.** -/
theorem toList_toUTF8_join (ts : List String) :
    (String.join ts).toUTF8.toList = ts.flatMap fun t => t.toUTF8.toList := by
  induction ts with
  | nil => simp
  | cons t ts ih => rw [String.join_cons, toList_toUTF8_append, ih, List.flatMap_cons]

/-- **The bytes that a check writes in JSON are read back as its findings**, in order, where the
sink has room for them all. -/
theorem check_read_back (source : String) :
    ∃ (text : String) (lines : List (List Char)),
      (check source .json .unbounded).1.taken = text.toUTF8.toList ∧
        text.toList.splitOn '\n' = lines ++ [[]] ∧
          lines.map Diagnostic.ofLine? = (Verdict.ofSource source).findings.map some := by
  obtain ⟨lines, hsplit, hread⟩ := (Verdict.ofSource source).reports_read_back source
  refine ⟨_, lines, ?_, hsplit, hread⟩
  rw [toList_toUTF8_join, Verdict.flatMap_reports]
  exact (check_eq source .json .unbounded).1

end BindCheck
