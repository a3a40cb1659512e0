import ShiftReduce.Run.Trace

/-!
# What a trace has written

A trace hands its writer the pieces of a text one after the other until the writer has no room for one, and no piece
after that (`Trace.Took`). So a trace fails exactly if the writer has no room for the whole text (`Trace.write?_limit`),
and what is written is the beginning of the text (`Trace.exists_text_eq`).
-/

namespace ShiftReduce

theorem Text.join_padded (width : Nat) (text : String) : String.join (padded width text) = padRight width text := by
  have hblanks : ∀ n, String.join (List.replicate n " ") = String.ofList (List.replicate n ' ') := by
    intro n
    induction n with
    | zero => rfl
    | succ n ih => simp [List.replicate_succ, ih]
  rw [padded, String.join_cons, hblanks, padRight]

namespace Writer

/-- The text is within the limit. -/
def Holds (w : Writer) (text : String) : Prop :=
  ∀ limit ∈ w.limit, text.utf8ByteSize ≤ limit

variable {w : Writer} {text : String}

theorem holds_empty (w : Writer) : w.Holds "" :=
  fun limit _ => Nat.zero_le limit

theorem Holds.of_append {more : String} (h : w.Holds (text ++ more)) : w.Holds text := by
  intro limit hlimit
  have hle := h limit hlimit
  rw [String.utf8ByteSize_append] at hle
  omega

theorem write_of_holds (h : w.Holds (w.written ++ text)) :
    w.write text = .ok { w with written := w.written ++ text } := by
  obtain ⟨_ | limit, failsFlush, written⟩ := w
  · rfl
  · exact if_neg (Nat.not_lt.mpr (h limit rfl))

theorem write_of_not_holds (h : ¬ w.Holds (w.written ++ text)) : w.write text = .error .diskFull := by
  obtain ⟨_ | limit, failsFlush, written⟩ := w
  · exact absurd (fun _ hlimit => by cases hlimit) h
  · refine if_pos (Nat.lt_of_not_le fun hle => h fun limit' hlimit => ?_)
    cases hlimit
    exact hle

end Writer

namespace Trace

/-- What becomes of a trace that is handed a text in pieces: all of it is written, or the pieces before the first one
for which the writer has no room. Whether a line is open is known only in the first case. -/
inductive Took (w : Writer) (text : String) (isOpen : Bool) (t : Trace) : Prop
  | whole (h : w.Holds text) (ht : t = ⟨{ w with written := text }, isOpen, none⟩)
  | cut {front rest : String} (h : ¬ w.Holds text) (hfront : text = front ++ rest)
      (hwriter : t.writer = { w with written := front }) (hfailure : t.failure = some .diskFull)

section

variable {t : Trace} {e : WriteError}

theorem write_of_failure (h : t.failure = some e) (text : String) : t.write text = t := by
  rw [write, h]

theorem print_of_failure (h : t.failure = some e) (pieces : List String) (isOpen : Bool) :
    t.print pieces isOpen = t := by
  have hstay : pieces.foldl write t = t := by
    induction pieces with
    | nil => rfl
    | cons piece pieces ih => rwa [List.foldl_cons, write_of_failure h]
  rw [print, hstay, note, h]

theorem record_of_failure (h : t.failure = some e) (event : Event) : t.record event = t := by
  rw [record, print_of_failure h, print_of_failure h]

end

namespace Took

variable {w : Writer} {text : String} {isOpen : Bool} {t : Trace}

/-- A trace that has failed stays as it is, and it lacks the end of a longer text, too. -/
theorem append_of_failure (h : Took w text isOpen t) (hfailure : t.failure ≠ none) (more : String) (isOpen' : Bool) :
    Took w (text ++ more) isOpen' t := by
  cases h with
  | whole h ht => exact absurd (ht ▸ rfl) hfailure
  | @cut front rest h hfront hwriter hfailure =>
    have hlonger : text ++ more = front ++ (rest ++ more) := by rw [hfront, String.append_assoc]
    exact .cut (fun hroom => h hroom.of_append) hlonger hwriter hfailure

theorem of_not_failed (h : Took w text isOpen t) (hfailure : t.failure = none) :
    w.Holds text ∧ t = ⟨{ w with written := text }, isOpen, none⟩ := by
  cases h with
  | whole h ht => exact ⟨h, ht⟩
  | cut _ _ _ hfull =>
    rw [hfailure] at hfull
    cases hfull

theorem write (h : Took w text isOpen t) (piece : String) : Took w (text ++ piece) isOpen (t.write piece) := by
  cases hfailure : t.failure with
  | some e =>
    rw [write_of_failure hfailure]
    exact h.append_of_failure (by simp [hfailure]) piece isOpen
  | none =>
    obtain ⟨h, rfl⟩ := h.of_not_failed hfailure
    unfold Trace.write
    by_cases hroom : w.Holds (text ++ piece)
    · rw [Writer.write_of_holds (w := { w with written := text }) hroom]
      exact .whole hroom rfl
    · rw [Writer.write_of_not_holds (w := { w with written := text }) hroom]
      exact .cut hroom rfl rfl rfl

theorem foldl_write (h : Took w text isOpen t) (pieces : List String) :
    Took w (text ++ String.join pieces) isOpen (pieces.foldl Trace.write t) := by
  induction pieces generalizing text t with
  | nil => rwa [String.join_nil, String.append_empty]
  | cons piece pieces ih =>
    rw [String.join_cons, ← String.append_assoc]
    exact ih (h.write piece)

theorem print (h : Took w text isOpen t) (pieces : List String) (isOpen' : Bool) :
    Took w (text ++ String.join pieces) isOpen' (t.print pieces isOpen') := by
  unfold Trace.print note
  cases h.foldl_write pieces with
  | whole h ht =>
    rw [ht]
    exact .whole h rfl
  | cut h hfront hwriter hfailure =>
    rw [hfailure]
    exact .cut h hfront hwriter hfailure

/-- The lead is chosen by the note of the trace on whether a line is open, which is right unless a write has failed. -/
theorem record (h : Took w text isOpen t) (e : Event) :
    Took w (text ++ String.join (e.lead isOpen ++ e.mark)) e.keepsOpen (t.record e) := by
  cases hfailure : t.failure with
  | some err =>
    rw [record_of_failure hfailure]
    exact h.append_of_failure (by simp [hfailure]) _ _
  | none =>
    have hopen : t.isOpen = isOpen := congrArg Trace.isOpen (h.of_not_failed hfailure).2
    rw [String.join_append, ← String.append_assoc, Trace.record, hopen]
    exact (h.print _ _).print _ _

theorem foldl_record (h : Took w text isOpen t) (events : List Event) :
    ∃ isOpen', Took w (text ++ textFrom isOpen events) isOpen' (events.foldl Trace.record t) := by
  induction events generalizing text isOpen t with
  | nil => exact ⟨isOpen, by rwa [textFrom, String.append_empty]⟩
  | cons e events ih =>
    rw [textFrom, ← String.append_assoc]
    exact ih (h.record e)

end Took

section

variable (limit : Option Nat) (failsFlush : Bool) (events : List Event)

theorem exists_took : ∃ isOpen,
    Took ⟨limit, failsFlush, ""⟩ (text events) isOpen (events.foldl record ⟨⟨limit, failsFlush, ""⟩, false, none⟩) := by
  have hstart : Took ⟨limit, failsFlush, ""⟩ "" false ⟨⟨limit, failsFlush, ""⟩, false, none⟩ :=
    .whole (Writer.holds_empty _) rfl
  obtain ⟨isOpen, h⟩ := hstart.foldl_record events
  exact ⟨isOpen, by rwa [String.empty_append] at h⟩

/-- A trace is written unless the writer has no room for all of it or cannot be flushed. -/
theorem write?_eq : write? ⟨limit, failsFlush, ""⟩ events =
    if limit.any (· < (text events).utf8ByteSize) then .error .diskFull
    else if failsFlush then .error .flushFailed
    else .ok (text events) := by
  have hroom : limit.any (· < (text events).utf8ByteSize) ↔ ¬ Writer.Holds ⟨limit, failsFlush, ""⟩ (text events) := by
    cases limit <;> simp [Writer.Holds]
  obtain ⟨isOpen, h⟩ := exists_took limit failsFlush events
  cases h with
  | whole h ht =>
    rw [write?, ht, if_neg (mt hroom.mp (not_not_intro h))]
    rfl
  | cut h _ _ hfailure => rw [write?, finish, hfailure, if_pos (hroom.mpr h)]

end

theorem exists_textFrom_append (isOpen : Bool) (events later : List Event) :
    ∃ rest, textFrom isOpen (events ++ later) = textFrom isOpen events ++ rest := by
  induction events generalizing isOpen with
  | nil => exact ⟨_, by rw [textFrom, String.empty_append, List.nil_append]⟩
  | cons e events ih =>
    obtain ⟨rest, hrest⟩ := ih e.keepsOpen
    exact ⟨rest, by rw [List.cons_append, textFrom, textFrom, hrest, String.append_assoc]⟩

/-- Whatever comes later, what is written by now is the beginning of the text. -/
theorem exists_text_eq (limit : Option Nat) (failsFlush : Bool) (events later : List Event) : ∃ rest,
    text (events ++ later) = (events.foldl record ⟨⟨limit, failsFlush, ""⟩, false, none⟩).writer.written ++ rest := by
  obtain ⟨rest, hrest⟩ := exists_textFrom_append false events later
  obtain ⟨isOpen, h⟩ := exists_took limit failsFlush events
  cases h with
  | whole _ ht => exact ⟨rest, by rw [ht]; exact hrest⟩
  | @cut front more _ hfront hwriter =>
    exact ⟨more ++ rest, by rw [hwriter, text, hrest, ← text, hfront, String.append_assoc]⟩

end Trace

end ShiftReduce
