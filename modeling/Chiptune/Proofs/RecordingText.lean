import Chiptune.Proofs.JsonText
import Chiptune.Recording

/-! A recording as text: its layout, written out in full, and that the text is read back as the same
recording, or refused with the fault that its check finds. -/

namespace Chiptune

/-! ### Layout -/

/-- The text of a write. -/
def RegisterWrite.layout (write : RegisterWrite) : String :=
  "\x7b\"time\":" ++ toString write.time ++ ",\"addr\":" ++ toString write.address ++
    ",\"value\":" ++ toString write.value ++ "\x7d"

/-- The text of a frame. -/
def RecordedFrame.layout (frame : RecordedFrame) : String :=
  "\x7b\"end_time\":" ++ toString frame.endTime ++ ",\"writes\":[" ++
    String.intercalate "," (frame.writes.map RegisterWrite.layout) ++ "]\x7d"

namespace Recording

/-- The text of a recording. -/
def layout (recording : Recording) : String :=
  "\x7b\"frames\":[" ++
    String.intercalate "," (recording.frames.map RecordedFrame.layout) ++ "]\x7d"

example : layout { frames := [{ endTime := 20, writes := [⟨7, 0x4015, 1⟩] }, { endTime := 5 }] } =
    "\x7b\"frames\":[\x7b\"end_time\":20,\"writes\":[" ++
      "\x7b\"time\":7,\"addr\":16405,\"value\":1\x7d]\x7d," ++
      "\x7b\"end_time\":5,\"writes\":[]\x7d]\x7d" := by
  decide +kernel

theorem push_eq (out : String) (c : Char) : out.push c = out ++ String.singleton c :=
  String.toList_inj.mp (by simp)

theorem write_natJson (out : String) (n : Nat) : (natJson n).write out = out ++ toString n := by
  rw [natJson, Json.write, Json.Number.chars_ofNat, Nat.toString_eq_ofList_toDigits]

/-- Values that are written one by one stand with commas between them. -/
theorem writeItems_map {α : Type} {json : α → Json} {layout : α → String}
    (h : ∀ out item, (json item).write out = out ++ layout item) (out : String) (items : List α) :
    Json.writeItems out true (items.map json) =
      out ++ String.intercalate "," (items.map layout) := by
  have hrest (out : String) (item : α) (items : List α) :
      Json.writeItems (out ++ layout item) false (items.map json) =
        out ++ String.intercalate "," (layout item :: items.map layout) := by
    induction items generalizing out item with
    | nil => simp [Json.writeItems]
    | cons next items ih =>
      have hcomma : (out ++ layout item).push ',' = out ++ layout item ++ "," := push_eq _ _
      have hnext := ih (out ++ layout item ++ ",") next
      simp only [List.map_cons, Json.writeItems, Bool.false_eq_true, if_false, h, hcomma, hnext]
      simp only [String.intercalate_cons_cons, String.append_assoc]
  cases items with
  | nil => simp [Json.writeItems]
  | cons item items =>
    simp only [List.map_cons, Json.writeItems, if_true, h]
    exact hrest out item items

theorem write_writeJson (out : String) (write : RegisterWrite) :
    (writeJson write).write out = out ++ write.layout := by
  have htime : Json.quote "time" = "\"time\"" := rfl
  have haddress : Json.quote "addr" = "\"addr\"" := rfl
  have hvalue : Json.quote "value" = "\"value\"" := rfl
  have hlayout : write.layout = "\x7b\"time\":" ++ toString write.time.toNat ++ ",\"addr\":" ++
      toString write.address.toNat ++ ",\"value\":" ++ toString write.value.toNat ++ "\x7d" := rfl
  apply String.toList_inj.mp
  simp [writeJson, member, Json.write, Json.writeMembers, write_natJson, htime, haddress, hvalue,
    hlayout]

theorem write_frameJson (out : String) (frame : RecordedFrame) :
    (frameJson frame).write out = out ++ frame.layout := by
  have hend : Json.quote "end_time" = "\"end_time\"" := rfl
  have hwrites : Json.quote "writes" = "\"writes\"" := rfl
  have hitems := writeItems_map write_writeJson
  have hlayout : frame.layout = "\x7b\"end_time\":" ++ toString frame.endTime.toNat ++
      ",\"writes\":[" ++ String.intercalate "," (frame.writes.map RegisterWrite.layout) ++
      "]\x7d" := rfl
  apply String.toList_inj.mp
  simp [frameJson, member, Json.write, Json.writeMembers, write_natJson, hend, hwrites, hitems,
    hlayout]

theorem text_eq_layout (recording : Recording) : recording.text = recording.layout := by
  have hframes : Json.quote "frames" = "\"frames\"" := rfl
  have hitems := writeItems_map write_frameJson
  unfold text Json.text
  apply String.toList_inj.mp
  simp [json, member, Json.write, Json.writeMembers, hframes, hitems, layout]

/-! ### Reading back -/

theorem written_writeJson (write : RegisterWrite) : (writeJson write).Written := by
  refine .object (by simp [member]) fun member hmember => ?_
  simp only [List.mem_cons, List.not_mem_nil, or_false] at hmember
  rcases hmember with rfl | rfl | rfl <;> exact .number _

theorem written_frameJson (frame : RecordedFrame) : (frameJson frame).Written := by
  refine .object (by simp [member]) fun member hmember => ?_
  simp only [List.mem_cons, List.not_mem_nil, or_false] at hmember
  rcases hmember with rfl | rfl
  · exact .number _
  · exact .array (List.forall_mem_map.mpr fun write _ => written_writeJson write)

theorem written_json (recording : Recording) : recording.json.Written := by
  refine .object (by simp [member]) fun member hmember => ?_
  rw [List.mem_singleton.mp hmember]
  exact .array (List.forall_mem_map.mpr fun frame _ => written_frameJson frame)

theorem nat?_natJson (bound : Nat) {n : Nat} (h : n < bound) :
    Json.nat? bound (natJson n) = some n := by
  simp [Json.nat?, natJson, Json.Number.toNat?_ofNat, h]

theorem list?_map {α : Type} {json : α → Json} {item? : Json → Option α}
    (h : ∀ item, item? (json item) = some item) (items : List α) :
    Json.list? item? (.array (items.map json)) = some items := by
  unfold Json.list?
  induction items with
  | nil => rfl
  | cons item items ih => simp [h, ih]

theorem write?_writeJson (write : RegisterWrite) : write? (writeJson write) = some write := by
  have hfields : (writeJson write).fields? ["time", "addr", "value"] =
      some [some (natJson write.time.toNat), some (natJson write.address.toNat),
        some (natJson write.value.toNat)] := rfl
  have htime := nat?_natJson (twoTo 32) write.time.toNat_lt
  have haddress := nat?_natJson (twoTo 16) write.address.toNat_lt
  have hvalue := nat?_natJson (twoTo 8) write.value.toNat_lt
  simp [write?, hfields, Json.required, htime, haddress, hvalue]

theorem frame?_frameJson (frame : RecordedFrame) : frame? (frameJson frame) = some frame := by
  have hfields : (frameJson frame).fields? ["end_time", "writes"] =
      some [some (natJson frame.endTime.toNat), some (.array (frame.writes.map writeJson))] := rfl
  have hend := nat?_natJson (twoTo 32) frame.endTime.toNat_lt
  have hwrites := list?_map write?_writeJson frame.writes
  simp [frame?, hfields, Json.required, Json.optional, hend, hwrites]

theorem ofJson?_json (recording : Recording) : ofJson? recording.json = some recording := by
  have hfields : recording.json.fields? ["frames"] =
      some [some (.array (recording.frames.map frameJson))] := rfl
  have hframes := list?_map frame?_frameJson recording.frames
  simp [ofJson?, hfields, Json.required, hframes]

theorem ofText_text (recording : Recording) :
    ofText recording.text = recording.validate.map fun _ => recording := by
  have hvalue : Json.ofText? recording.text = some recording.json :=
    Json.ofText?_text recording.written_json
  rw [ofText, hvalue, Option.bind_some, ofJson?_json]

/-! ### What the check finds -/

theorem invalid_of_checkWrites {index : Nat} {endTime last : UInt32} {writes : List RegisterWrite}
    {fault : Fault} (h : RecordedFrame.checkWrites index endTime last writes = .error fault) :
    ∃ reason, fault = .invalidRecording reason := by
  induction writes generalizing last with
  | nil => cases h
  | cons write writes ih =>
    unfold RecordedFrame.checkWrites at h
    split at h
    · exact ⟨_, (Except.error.inj h).symm⟩
    · split at h
      · exact ⟨_, (Except.error.inj h).symm⟩
      · exact ih h

theorem invalid_of_checkFrames {index : Nat} {frames : List RecordedFrame} {fault : Fault}
    (h : checkFrames index frames = .error fault) : ∃ reason, fault = .invalidRecording reason := by
  induction frames generalizing index with
  | nil => cases h
  | cons frame frames ih =>
    unfold checkFrames at h
    split at h
    · exact ih h
    · rename_i hframe
      cases h
      exact invalid_of_checkWrites hframe

/-- A recording has the compact layout as its text.  The text is read back as the same recording if
that passes its check, and is otherwise refused as text with the message of the check. -/
theorem text_roundTrip (recording : Recording) :
    recording.text = recording.layout ∧
      match recording.validate with
      | .ok _ => ofText recording.text = .ok recording
      | .error fault =>
        ofText recording.text = .error fault ∧
          ∃ reason, fault = .invalidRecording reason ∧
            fault.message = "Parse error: " ++ reason := by
  refine ⟨text_eq_layout recording, ?_⟩
  rw [ofText_text]
  cases hvalidate : recording.validate with
  | ok => rfl
  | error fault =>
    obtain ⟨reason, rfl⟩ := invalid_of_checkFrames hvalidate
    exact ⟨rfl, reason, rfl, rfl⟩

end Recording

end Chiptune
