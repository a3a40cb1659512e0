import ShiftReduce.Proofs.Run.Record
import ShiftReduce.Proofs.Run.Soundness
import ShiftReduce.Proofs.Run.Trace

/-!
# The lines of a trace

The events between two shifts are reduces on the token that is shifted next. So the events of a run fall into those of
the tokens shifted, each with its reduces, and those of the token held (`Run.Lined`), and the text of a trace has a line
for each of them (`Parser.trace_written`).
-/

namespace ShiftReduce

namespace Token

variable (t : Token) (a : Action)

def event : Event :=
  ⟨t.symbol, t.text, a, 0⟩

@[simp] theorem action_event : (t.event a).action = a := rfl

/-- The columns that open the line of a token. -/
def columns : String :=
  Text.padRight 3 (toString t.symbol) ++ " " ++ Text.padRight 16 t.text

theorem join_columns_event : String.join (t.event a).columns = t.columns := by
  simp [Event.columns, event, columns, Text.join_padded, String.append_assoc]

end Token

/-- What a trace shows of an event: all but the depth of the stack. -/
def Event.shown (e : Event) : Event :=
  { e with depth := 0 }

@[simp] theorem Run.shown_event (r : Run) (a : Action) : (r.event a).shown = r.current.event a := rfl

namespace Trace

def reduceMark (q : Nat) : String :=
  "[reduce " ++ toString q ++ "]"

/-- A token and the productions that are reduced by while it is the current one. -/
structure Line where
  token : Token
  reduces : List Nat

namespace Line

variable (l : Line)

def reductions : List Event :=
  l.reduces.map fun q => l.token.event (.reduce q)

/-- The events of a token that is shifted. -/
def events : List Event :=
  l.reductions ++ [l.token.event .shift]

/-- The columns, then the marks of the reduces. -/
def front : String :=
  l.token.columns ++ String.join (l.reduces.map reduceMark)

/-- The line of a token that is shifted. -/
def text : String :=
  l.front ++ "[shift]\n"

/-- The line of a token that is not shifted, if there is one. -/
def unshifted : String :=
  if l.reduces = [] then "" else l.front ++ "\n"

end Line

variable (l : Line) (es : List Event)

theorem shifted_shown : Event.shifted (es.map Event.shown) = Event.shifted es :=
  List.filterMap_map

theorem shifted_reductions : Event.shifted l.reductions = [] := by
  simp [Event.shifted, Line.reductions, List.filterMap_map]

theorem shifted_lines (lines : List Line) : Event.shifted (lines.flatMap Line.events) = lines.map (·.token) := by
  induction lines with
  | nil => rfl
  | cons l lines ih =>
    rw [List.flatMap_cons, Event.shifted_append, ih, Line.events, Event.shifted_append, shifted_reductions]
    rfl

theorem textFrom_shown (isOpen : Bool) : textFrom isOpen (es.map Event.shown) = textFrom isOpen es := by
  induction es generalizing isOpen with
  | nil => rfl
  | cons e es ih =>
    rw [List.map_cons, textFrom, textFrom, ← ih]
    rfl

/-- A shift opens a line unless one is open, and closes it. -/
theorem textFrom_shift (t : Token) (isOpen : Bool) :
    textFrom isOpen (t.event .shift :: es) = (if isOpen then "" else t.columns) ++ "[shift]\n" ++ textFrom false es := by
  cases isOpen <;>
    simp [textFrom, Event.lead, Event.isOnLine, Event.mark, Event.keepsOpen, Token.join_columns_event]

/-- A reduce opens a line unless one is open, and leaves it open. -/
theorem textFrom_reduce (t : Token) (q : Nat) (isOpen : Bool) : textFrom isOpen (t.event (.reduce q) :: es) =
    (if isOpen then "" else t.columns) ++ reduceMark q ++ textFrom true es := by
  cases isOpen <;>
    simp [textFrom, Event.lead, Event.isOnLine, Event.mark, Event.keepsOpen, Token.join_columns_event, reduceMark,
      String.append_assoc]

theorem textFrom_reduces (t : Token) (qs : List Nat) : textFrom true (qs.map (fun q => t.event (.reduce q)) ++ es) =
    String.join (qs.map reduceMark) ++ textFrom true es := by
  induction qs with
  | nil => rw [List.map_nil, List.nil_append, List.map_nil, String.join_nil, String.empty_append]
  | cons q qs ih =>
    rw [List.map_cons, List.cons_append, textFrom_reduce, ih, List.map_cons, String.join_cons, if_pos rfl,
      String.empty_append, String.append_assoc]

/-- The first reduce opens the line. -/
theorem textFrom_reductions : textFrom false (l.reductions ++ es) =
    if l.reduces = [] then textFrom false es else l.front ++ textFrom true es := by
  obtain ⟨t, _ | ⟨q, qs⟩⟩ := l
  · rfl
  · rw [Line.reductions, List.map_cons, List.cons_append, textFrom_reduce, textFrom_reduces, Line.front]
    simp [String.append_assoc]

theorem textFrom_events : textFrom false (l.events ++ es) = l.text ++ textFrom false es := by
  rw [Line.events, List.append_assoc, textFrom_reductions, List.singleton_append, textFrom_shift, textFrom_shift]
  split
  · next h => simp [Line.text, Line.front, h]
  · simp [Line.text, String.append_assoc]

theorem textFrom_lines (lines : List Line) :
    textFrom false (lines.flatMap Line.events ++ es) = String.join (lines.map Line.text) ++ textFrom false es := by
  induction lines with
  | nil => rw [List.flatMap_nil, List.nil_append, List.map_nil, String.join_nil, String.empty_append]
  | cons l lines ih =>
    rw [List.flatMap_cons, List.append_assoc, textFrom_events, ih, List.map_cons, String.join_cons, String.append_assoc]

/-- The event of an end closes the line that is open, and its mark has a line of its own. -/
theorem textFrom_unshifted {e : Event} (he : e.closes) :
    textFrom false (l.reductions ++ [e]) = l.unshifted ++ String.join e.mark := by
  have hline : e.isOnLine = false := by
    cases ha : e.action <;> simp_all [Event.closes, Event.isOnLine]
  have hlead : ∀ isOpen, textFrom isOpen [e] = (if isOpen then "\n" else "") ++ String.join e.mark := by
    intro isOpen
    cases isOpen <;> simp [textFrom, Event.lead, hline]
  rw [textFrom_reductions, Line.unshifted, hlead, hlead]
  split <;> simp [String.append_assoc]

end Trace

namespace Run

open Trace

variable {r r' : Run} {es : List Event} {lines : List Line} {reduces : List Nat}

/-- The event of the end of a run, if it is done. -/
def ending (r : Run) : List Event :=
  match r.phase with
  | .accepted => [r.current.event .accept]
  | .rejected _ => [r.current.event .reject]
  | _ => []

/-- The events that have led to a run are those of lines, then the reduces on the token held. -/
structure Lined (r : Run) (es : List Event) (lines : List Line) (reduces : List Nat) : Prop where
  events : es.map Event.shown = lines.flatMap Line.events ++ Line.reductions ⟨r.current, reduces⟩ ++ r.ending
  reading : r.phase = .reading → reduces = []

/-- One event more ends a run on the token held. -/
theorem Lined.of_ending {e : Event}
    (h : es.map Event.shown = lines.flatMap Line.events ++ Line.reductions ⟨r.current, reduces⟩)
    (hcurrent : r'.current = r.current) (hending : r'.ending = [e.shown]) : r'.Lined (es ++ [e]) lines reduces := by
  refine ⟨?_, fun hreading => ?_⟩
  · rw [List.map_append, h, hcurrent, hending]
    rfl
  · rw [ending, hreading] at hending
    cases hending

end Run

namespace Parser

open Trace Run

variable {p : Parser} {n : Nat} {r r' : Run} {es es' : List Event} {lines : List Line} {reduces : List Nat}
  {phase : Phase} {s : TokenStream}

theorem Decides.lined (hd : p.Decides r phase)
    (h : es.map Event.shown = lines.flatMap Line.events ++ Line.reductions ⟨r.current, reduces⟩) :
    Lined { r with phase := phase } (es ++ r.closing phase) lines reduces := by
  refine ⟨?_, fun hp => absurd hp hd.ne_reading⟩
  rw [List.map_append, h]
  congr 1
  cases hd <;> rfl

/-- A step shifts the token held, whose line ends, or it reduces by one production or none and goes on or ends. -/
theorem Effect.lined (he : p.Effect r r' es') (h : r.Lined es lines reduces) :
    ∃ lines' reduces', r'.Lined (es ++ es') lines' reduces' := by
  by_cases hdone : r.phase.isDone
  · cases (step_of_effect he).symm.trans (step_of_isDone hdone)
    exact ⟨lines, reduces, by rwa [List.append_nil]⟩
  have hevents : es.map Event.shown = lines.flatMap Line.events ++ Line.reductions ⟨r.current, reduces⟩ := by
    have hnone : r.ending = [] := by
      cases hp : r.phase <;> simp_all [ending, Phase.isDone]
    rw [h.events, hnone, List.append_nil]
  -- a reduce joins those on the token held, since it leaves the token where it is
  have hreduced : ∀ q needed target,
      (es ++ [(r.replace needed target).event (.reduce q)]).map Event.shown
        = lines.flatMap Line.events ++ Line.reductions ⟨r.current, reduces ++ [q]⟩ := by
    intro q needed target
    rw [List.map_append, hevents, List.append_assoc]
    simp [Line.reductions, Run.replace, Run.pop, Run.push]
  cases he with
  | read hp _ hd =>
    have hnone := h.reading hp
    subst hnone
    exact ⟨lines, [], hd.lined hevents⟩
  | shift hp =>
    refine ⟨lines ++ [⟨r.current, reduces⟩], [], ?_, fun _ => rfl⟩
    rw [List.map_append, hevents]
    simp [Line.events, Line.reductions, ending, Run.push]
  | underflow hp => exact ⟨lines, reduces, .of_ending hevents rfl rfl⟩
  | accept ht => exact ⟨lines, reduces, .of_ending hevents rfl rfl⟩
  | @strand q needed head =>
    obtain ⟨why, hwhy, -⟩ := p.exists_strand_eq r r.stack.top (r.pop needed).stack.top head
    exact ⟨lines, reduces, .of_ending hevents rfl (by rw [hwhy]; rfl)⟩
  | @cycle q needed head m ht =>
    rw [← List.singleton_append, ← List.append_assoc]
    exact ⟨lines, reduces ++ [q], .of_ending (hreduced q needed m) rfl rfl⟩
  | @reduce q needed head m phase ht _ _ _ hd =>
    rw [← List.singleton_append, ← List.append_assoc]
    exact ⟨lines, reduces ++ [q], hd.lined (hreduced q needed m)⟩
  | done h => exact absurd h hdone

theorem exists_lined (h : p.steps n (Run.start s) = .ok (r, es)) : ∃ lines reduces, r.Lined es lines reduces := by
  refine Machine.steps_induction (I := fun r es => ∃ lines reduces, r.Lined es lines reduces) ?_ ?_ h
  · exact ⟨[], [], rfl, fun _ => rfl⟩
  · rintro r₁ r₂ es₁ es₂ ⟨lines, reduces, h₁⟩ hs
    exact (effect_of_step hs).lined h₁

/-- In a run that is done, the reduces since the last shift are those on a token that is not shifted. -/
theorem exists_lined_of_isDone (h : p.steps n (Run.start s) = .ok (r, es)) (hdone : r.phase.isDone) :
    ∃ (lines : List Line) (last : Line), last.token = r.current ∧ es.map Event.shown = lines.flatMap Line.events ++
      last.reductions ++ [last.token.event (if r.isAccepted then .accept else .reject)] := by
  obtain ⟨lines, reduces, hlined⟩ := exists_lined h
  refine ⟨lines, ⟨r.current, reduces⟩, rfl, hlined.events.trans ?_⟩
  congr 1
  cases hphase : r.phase <;> simp_all [ending, isAccepted, Phase.isDone]

/-- A trace that a run leaves on a writer that takes everything has a line for each token shifted: the columns of the
token, the marks of the reduces on it and that of the shift. If productions are reduced by on the token that is not
shifted, it has a line without a shift, and the end has a line of its own. Whatever the events, a writer with a limit
gives the failure of the disk exactly if the text is longer, else that of a flush that fails, and what has been written
at any time is the beginning of the text. -/
theorem trace_written :
    (∀ (p : Parser) (s : TokenStream) (n : Nat) (r : Run) (es : List Event),
      p.steps n (Run.start s) = .ok (r, es) → r.phase.isDone →
      ∃ (lines : List Line) (last : Line),
        s.draw (lines.length + 1) = (lines.map (·.token) ++ [last.token], r.stream) ∧
        Event.shifted es = lines.map (·.token) ∧
        es.map Event.shown = lines.flatMap Line.events ++ last.reductions ++
          [last.token.event (if r.isAccepted then .accept else .reject)] ∧
        Trace.write? ⟨none, false, ""⟩ es = .ok (String.join (lines.map Line.text) ++ last.unshifted ++
          if r.isAccepted then "[accept]\n" else "[reject]\n")) ∧
    ∀ events : List Event, Trace.write? ⟨none, false, ""⟩ events = .ok (Trace.text events) ∧
      ∀ (limit : Nat) (failsFlush : Bool),
        Trace.write? ⟨some limit, failsFlush, ""⟩ events =
          (if limit < (Trace.text events).utf8ByteSize then .error .diskFull
          else if failsFlush then .error .flushFailed
          else .ok (Trace.text events)) ∧
        ∀ before behind, events = before ++ behind → ∃ rest, Trace.text events =
          (before.foldl Trace.record ⟨⟨some limit, failsFlush, ""⟩, false, none⟩).writer.written ++ rest := by
  have hfree : ∀ events : List Event, Trace.write? ⟨none, false, ""⟩ events = .ok (Trace.text events) := fun events =>
    write?_eq none false events
  refine ⟨?lines, fun events => ⟨hfree events, fun limit failsFlush => ⟨?limited, ?beginning⟩⟩⟩
  case lines =>
    intro p s n r es h hdone
    obtain ⟨lines, last, hlast, hevents⟩ := exists_lined_of_isDone h hdone
    have hshifted : Event.shifted es = lines.map (·.token) := by
      rw [← shifted_shown, hevents, Event.shifted_append, Event.shifted_append, shifted_lines, shifted_reductions,
        List.append_nil]
      cases r.isAccepted <;> exact List.append_nil _
    refine ⟨lines, last, ?draw, hshifted, hevents, ?text⟩
    case draw =>
      -- as many tokens are read as are shifted, and the one held
      have hdraw := steps_draw h
      rw [hshifted, held_of_ne (fun hp => by simp [hp, Phase.isDone] at hdone), ← hlast] at hdraw
      have hlen := s.length_draw (p.reads (Run.start s) n)
      rw [hdraw, List.length_append, List.length_map, List.length_singleton] at hlen
      rw [hlen, hdraw]
    case text =>
      rw [hfree, Trace.text, ← textFrom_shown, hevents, List.append_assoc, textFrom_lines, textFrom_unshifted,
        ← String.append_assoc]
      · cases r.isAccepted <;> rfl
      · cases r.isAccepted <;> rfl
  case limited =>
    rw [write?_eq]
    simp only [Option.any_some, decide_eq_true_eq]
  case beginning =>
    rintro before behind rfl
    exact exists_text_eq (some limit) failsFlush before behind

/-- Behind `a a b` a production is reduced by on the end token, which then finds no action. A hundred bytes have no room
for the columns of its line. -/
theorem trace_written_nested : ∃ r es,
    (of ⟨.slr, .shift, .first⟩ false .nested).steps 9 (Run.start ⟨[⟨1, "a"⟩, ⟨1, "a"⟩, ⟨2, "b"⟩]⟩) = .ok (r, es) ∧
      r.phase.isDone ∧
      (∃ (lines : List Line) (last : Line), lines.map (·.token) = [⟨1, "a"⟩, ⟨1, "a"⟩, ⟨2, "b"⟩] ∧
        last.token = .eof ∧
        Trace.write? ⟨none, false, ""⟩ es =
          .ok (String.join (lines.map Line.text) ++ last.unshifted ++ "[reject]\n")) ∧
      Trace.text es = "1   a               [shift]\n1   a               [shift]\n2   b               [reduce 1][shift]\n"
        ++ "0   $end            [reduce 0]\n[reject]\n" ∧
      Trace.write? ⟨some 100, true, ""⟩ es = .error .diskFull := by
  obtain ⟨s, hs⟩ : ∃ s : TokenStream, s = ⟨[⟨1, "a"⟩, ⟨1, "a"⟩, ⟨2, "b"⟩]⟩ := ⟨_, rfl⟩
  have hrun : ((of ⟨.slr, .shift, .first⟩ false .nested).steps 9 (Run.start s)).map
      (fun o => (o.1.phase.isDone, o.1.isAccepted, Event.shifted o.2, Trace.text o.2))
      = .ok (true, false, s.pending,
        "1   a               [shift]\n1   a               [shift]\n2   b               [reduce 1][shift]\n"
        ++ "0   $end            [reduce 0]\n[reject]\n") := by
    subst hs; decide +kernel
  obtain ⟨r, es, h, hview⟩ := exists_of_map_eq_ok hrun
  simp only [Prod.mk.injEq] at hview
  obtain ⟨hdone, hrejected, hshifted, htext⟩ := hview
  obtain ⟨lines, last, hdraw, hlines, -, hwritten⟩ := trace_written.1 _ s 9 r es h hdone
  have hlimited := ((trace_written.2 es).2 100 true).1
  rw [hshifted, hs] at hlines
  have hlast : last.token = .eof := by
    have hlen : lines.length = 3 := by rw [← List.length_map, ← hlines]; rfl
    rw [← hlines, hlen, hs] at hdraw
    exact (List.singleton_inj.mp (List.append_cancel_left (Prod.mk.inj hdraw).1)).symm
  rw [hrejected, if_neg Bool.false_ne_true] at hwritten
  rw [if_pos (by rw [htext]; decide +kernel)] at hlimited
  exact ⟨r, es, hs ▸ h, hdone, ⟨lines, last, hlines.symm, hlast, hwritten⟩, htext, hlimited⟩

end Parser

end ShiftReduce
