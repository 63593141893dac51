import Mathlib.Tactic.SplitIfs
import Typeahead.Json.Reader

/-! # The order of fields

Every object in a value that is read from text, however deep it stands, lists its fields by strictly
increasing key (`Json.ordered_of_ofText?`), so that none of them shares its key with another.  The
reader keeps this of all that is still open and of what was completed last
(`Json.Reader.Ordered.step`), because a field is put in its place as soon as its value is
complete. -/

namespace Typeahead
namespace Json

/-- Every object in the value lists its fields by strictly increasing key. -/
inductive Ordered : Json → Prop
  | null : Ordered .null
  | boolean (value : Bool) : Ordered (.boolean value)
  | number (literal : String) : Ordered (.number literal)
  | text (value : String) : Ordered (.text value)
  | array {items : List Json} (hitems : ∀ item ∈ items, Ordered item) : Ordered (.array items)
  | object {fields : List (String × Json)} (hkeys : fields.Pairwise fun a b => a.1 < b.1)
      (hfields : ∀ f ∈ fields, Ordered f.2) : Ordered (.object fields)

/-- What is open is ordered so far. -/
inductive Frame.Ordered : Frame → Prop
  | array {back : List Json} (hitems : ∀ item ∈ back, Json.Ordered item) : Ordered (.array back)
  | object {fields : List (String × Json)} (hfields : Json.Ordered (.object fields)) :
      Ordered (.object fields)
  | field {fields : List (String × Json)} (hfields : Json.Ordered (.object fields)) (key : String) :
      Ordered (.field fields key)

theorem Ordered.place {fields : List (String × Json)} {value : Json}
    (hfields : Ordered (.object fields)) (hvalue : value.Ordered) (key : String) :
    Ordered (.object (Table.place key value fields)) := by
  cases hfields with
  | object hkeys hfields =>
      refine .object (Table.pairwise_place key value hkeys) ?_
      intro f hf
      rcases Table.mem_place hf with rfl | hf
      · exact hvalue
      · exact hfields f hf

namespace Reader

/-- All that is open and what was completed last is ordered. -/
structure Ordered (r : Reader) : Prop where
  frames : ∀ frame ∈ r.frames, frame.Ordered
  last : r.last.Ordered

variable {r s : Reader} {token : Token}

theorem ordered_complete {frames : List Frame} {value : Json}
    (hframes : ∀ frame ∈ frames, frame.Ordered) (hvalue : value.Ordered) :
    (complete frames value).Ordered := by
  unfold complete
  split
  · obtain ⟨harray, hrest⟩ := List.forall_mem_cons.mp hframes
    cases harray with
    | array hitems =>
        refine ⟨List.forall_mem_cons.mpr ⟨.array ?_, hrest⟩, hvalue⟩
        exact List.forall_mem_cons.mpr ⟨hvalue, hitems⟩
  · obtain ⟨hfield, hrest⟩ := List.forall_mem_cons.mp hframes
    cases hfield with
    | field hfields =>
        exact ⟨List.forall_mem_cons.mpr ⟨.object (hfields.place hvalue _), hrest⟩, hvalue⟩
  · exact ⟨hframes, hvalue⟩

theorem Ordered.openFrame {frame : Frame} {due : Due} (h : r.Ordered) (hframe : frame.Ordered)
    (hstep : r.openFrame frame due = some s) : s.Ordered := by
  unfold Reader.openFrame at hstep
  split_ifs at hstep
  cases hstep
  exact ⟨List.forall_mem_cons.mpr ⟨hframe, h.frames⟩, h.last⟩

theorem Ordered.value (h : r.Ordered) (hstep : r.value token = some s) : s.Ordered := by
  unfold Reader.value at hstep
  split at hstep
  · cases hstep
    exact ordered_complete h.frames .null
  · cases hstep
    exact ordered_complete h.frames (.boolean _)
  · cases hstep
    exact ordered_complete h.frames (.number _)
  · cases hstep
    exact ordered_complete h.frames (.text _)
  · exact h.openFrame (.array (by simp)) hstep
  · exact h.openFrame (.object (.object .nil (by simp))) hstep
  · cases hstep

theorem Ordered.close (h : r.Ordered) (hstep : r.close token = some s) : s.Ordered := by
  unfold Reader.close at hstep
  have hframes := h.frames
  split at hstep
  · rename_i hopen
    obtain ⟨harray, hrest⟩ := List.forall_mem_cons.mp (hopen ▸ hframes)
    cases hstep
    cases harray with
    | array hitems => exact ordered_complete hrest (.array (by simpa using hitems))
  · rename_i hopen
    obtain ⟨hobject, hrest⟩ := List.forall_mem_cons.mp (hopen ▸ hframes)
    cases hstep
    cases hobject with
    | object hfields => exact ordered_complete hrest hfields
  · cases hstep

theorem Ordered.key (h : r.Ordered) (hstep : r.key token = some s) : s.Ordered := by
  unfold Reader.key at hstep
  have hframes := h.frames
  split at hstep
  · rename_i key hopen
    obtain ⟨hobject, hrest⟩ := List.forall_mem_cons.mp (hopen ▸ hframes)
    cases hstep
    cases hobject with
    | object hfields => exact ⟨List.forall_mem_cons.mpr ⟨.field hfields key, hrest⟩, h.last⟩
  · cases hstep

theorem Ordered.comma (h : r.Ordered) (hstep : r.comma = some s) : s.Ordered := by
  unfold Reader.comma at hstep
  split at hstep
  · cases hstep
    exact ⟨h.frames, h.last⟩
  · cases hstep
    exact ⟨h.frames, h.last⟩
  · cases hstep

theorem Ordered.step (h : r.Ordered) (hstep : r.step token = some s) : s.Ordered := by
  unfold Reader.step at hstep
  split at hstep
  · exact h.value hstep
  · split_ifs at hstep
    · exact h.close hstep
    · exact h.value hstep
  · split_ifs at hstep
    · exact h.close hstep
    · exact h.key hstep
  · exact h.key hstep
  · split_ifs at hstep
    cases hstep
    exact ⟨h.frames, h.last⟩
  · split_ifs at hstep
    · exact h.comma hstep
    · exact h.close hstep

theorem Ordered.steps {tokens : List Token} (h : r.Ordered)
    (hsteps : tokens.foldlM Reader.step r = some s) : s.Ordered := by
  induction tokens generalizing r with
  | nil =>
      cases hsteps
      exact h
  | cons token tokens ih =>
      rw [List.foldlM_cons] at hsteps
      obtain ⟨next, hnext, hsteps⟩ := Option.bind_eq_some_iff.mp hsteps
      exact ih (h.step hnext) hsteps

end Reader

theorem ordered_of_ofTokens? {tokens : List Token} {value : Json}
    (h : ofTokens? tokens = some value) : value.Ordered := by
  obtain ⟨r, hsteps, h⟩ := Option.bind_eq_some_iff.mp h
  have hstart : (⟨[], .value, .null⟩ : Reader).Ordered := ⟨by simp, .null⟩
  split_ifs at h
  cases h
  exact (hstart.steps hsteps).last

/-- **Fields are read in order.**  In a value that is read from text, the fields of every object
stand in the order of their keys. -/
theorem ordered_of_ofText? {text : String} {value : Json} (h : ofText? text = some value) :
    value.Ordered := by
  obtain ⟨tokens, -, h⟩ := Option.bind_eq_some_iff.mp h
  exact ordered_of_ofTokens? h

end Json
end Typeahead
