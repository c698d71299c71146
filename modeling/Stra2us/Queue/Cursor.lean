import Stra2us.Server.Device

namespace Stra2us.Queue

open Foundation Server

-- Where a stored cursor stands in the stream.
def position : Option Bytes → Option StreamId
  | none => some .zero
  | some raw => (utf8Decode raw).bind StreamId.parse

@[simp] theorem position_text (id : StreamId) : position (some (utf8 id.text)) = some id := by
  simp [position]

theorem position_of_cursorStart {stored : Option Bytes} {lastId : Text}
    (h : cursorStart stored = .ok lastId) : position stored = StreamId.parse lastId := by
  cases stored with
  | none =>
      obtain rfl := Except.ok.inj h
      decide
  | some raw =>
      simp only [cursorStart] at h
      cases hd : utf8Decode raw with
      | none =>
          rw [hd] at h
          cases h
      | some text =>
          rw [hd] at h
          obtain rfl := Except.ok.inj h
          simp [position, hd]

theorem cursorStart_of_position {stored : Option Bytes} {id : StreamId}
    (h : position stored = some id) :
    ∃ lastId, cursorStart stored = .ok lastId ∧ StreamId.parse lastId = some id := by
  cases stored with
  | none => exact ⟨"0-0".toList, rfl, by rw [← h]; decide⟩
  | some raw =>
      cases hd : utf8Decode raw with
      | none => simp [position, hd] at h
      | some text => exact ⟨text, by simp [cursorStart, hd], by simpa [position, hd] using h⟩

theorem cursorKey_injective (topic : Text) : Function.Injective fun c => cursorKey c topic := by
  intro a b h
  exact List.append_cancel_left (List.append_cancel_right (List.append_cancel_right h))

end Stra2us.Queue
