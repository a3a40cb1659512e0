import ShiftReduce.Command.Perform

/-!
# Commands in a world

A host acts on a world, of which the files and the printed text can be seen (`Worlds`). The laws of a host
(`Host.Lawful`) say that reading gives the content of a file and changes nothing, that printing adds to the printed
text, and that a file which can be written has the new content afterwards, while the others keep theirs. Parsing
inputs only prints: it gives the same result and prints the same text in every world (`prints_performInputs`).
-/

namespace ShiftReduce

/-- The worlds that the computations of a monad run in, and what can be seen of them. -/
structure Worlds (m : Type → Type) where
  World : Type
  /-- all the files of a world -/
  Files : Type
  run : {α : Type} → m α → World → α × World
  files : World → Files
  printed : World → String
  /-- what reading a path gives -/
  content : Files → String → Except FileError (List UInt8)
  Writable : Files → String → Prop
  /-- two paths lead to one file -/
  Same : Files → String → String → Prop

/-- The host does to the world what it is asked for. -/
structure Host.Lawful {m : Type → Type} [Monad m] (host : Host m) (v : Worlds m) : Prop where
  run_pure {α : Type} (value : α) (w : v.World) : v.run (pure value) w = (value, w)
  run_bind {α β : Type} (x : m α) (next : α → m β) (w : v.World) :
    v.run (x >>= next) w = v.run (next (v.run x w).1) (v.run x w).2
  read (path : String) (w : v.World) : (v.run (host.read path) w).1 = v.content (v.files w) path
  files_read (path : String) (w : v.World) : v.files (v.run (host.read path) w).2 = v.files w
  printed_read (path : String) (w : v.World) : v.printed (v.run (host.read path) w).2 = v.printed w
  files_print (text : String) (w : v.World) : v.files (v.run (host.print text) w).2 = v.files w
  printed_print (text : String) (w : v.World) : v.printed (v.run (host.print text) w).2 = v.printed w ++ text
  write {path : String} {w : v.World} (h : v.Writable (v.files w) path) (bytes : List UInt8) :
    (v.run (host.write path bytes) w).1 = .ok ()
  /-- a file that was written has the bytes that were written -/
  content_write {path : String} {w : v.World} (h : v.Writable (v.files w) path) (bytes : List UInt8) :
    v.content (v.files (v.run (host.write path bytes) w).2) path = .ok bytes
  /-- the other files keep their bytes -/
  content_write_of_not_same {path other : String} {w : v.World} {bytes content : List UInt8}
    (h : v.Writable (v.files w) path) (hother : ¬ v.Same (v.files w) other path)
    (hcontent : v.content (v.files w) other = .ok content) :
    v.content (v.files (v.run (host.write path bytes) w).2) other = .ok content

namespace Command

section

variable {m : Type → Type} [Monad m] {α β : Type} {v : Worlds m} {x : ExceptT Failure m α}
  {next : α → ExceptT Failure m β} {w : v.World} {value : α} {why : Failure} {text more : String}

/-- What a computation gives that is begun in a world, and the world that it leaves. -/
def outcome (v : Worlds m) (x : ExceptT Failure m α) (w : v.World) : Except Failure α × v.World :=
  v.run x.run w

/-- A computation that gives a result, leaves all files as they are and prints a text. -/
structure Prints (v : Worlds m) (x : ExceptT Failure m α) (w : v.World) (result : Except Failure α) (text : String) :
    Prop where
  result : (outcome v x w).1 = result
  files : v.files (outcome v x w).2 = v.files w
  printed : v.printed (outcome v x w).2 = v.printed w ++ text

variable {host : Host m} (hhost : host.Lawful v)

include hhost

theorem outcome_bind (x : ExceptT Failure m α) (next : α → ExceptT Failure m β) (w : v.World) :
    outcome v (x >>= next) w = match (outcome v x w).1 with
      | .ok value => outcome v (next value) (outcome v x w).2
      | .error why => (.error why, (outcome v x w).2) := by
  refine (hhost.run_bind x.run (ExceptT.bindCont next) w).trans ?_
  change v.run (ExceptT.bindCont next (outcome v x w).1) (outcome v x w).2 = _
  cases (outcome v x w).1 with
  | ok value => rfl
  | error why => exact hhost.run_pure _ _

theorem outcome_lift [LawfulMonad m] (x : m α) (w : v.World) :
    outcome v (ExceptT.lift x) w = (.ok (v.run x w).1, (v.run x w).2) := by
  change v.run (Except.ok <$> x) w = _
  rw [map_eq_pure_bind, hhost.run_bind, hhost.run_pure]

namespace Prints

theorem pure (value : α) (w : v.World) : Prints v (pure value) w (.ok value) "" := by
  have hpure : outcome v (Pure.pure value) w = (.ok value, w) := hhost.run_pure _ w
  exact ⟨by rw [hpure], by rw [hpure], by rw [hpure, String.append_empty]⟩

theorem throw (why : Failure) (w : v.World) : Prints (α := α) v (throw why) w (.error why) "" := by
  have hthrow : outcome (α := α) v (MonadExcept.throw why) w = (.error why, w) := hhost.run_pure _ w
  exact ⟨by rw [hthrow], by rw [hthrow], by rw [hthrow, String.append_empty]⟩

theorem orFail {ε : Type} (failure : ε → Failure) (result : Except ε α) (w : v.World) :
    Prints v (orFail failure result) w (result.mapError failure) "" := by
  cases result with
  | ok value => exact pure hhost value w
  | error why => exact throw hhost (failure why) w

theorem bind {result : Except Failure β} (h : Prints v x w (.ok value) text)
    (hnext : Prints v (next value) (outcome v x w).2 result more) : Prints v (x >>= next) w result (text ++ more) := by
  have hbind : outcome v (x >>= next) w = outcome v (next value) (outcome v x w).2 := by
    rw [outcome_bind hhost, h.result]
  refine ⟨by rw [hbind, hnext.result], by rw [hbind, hnext.files, h.files], ?_⟩
  rw [hbind, hnext.printed, h.printed, String.append_assoc]

theorem bind_error (h : Prints v x w (.error why) text) : Prints v (x >>= next) w (.error why) text := by
  have hbind : outcome v (x >>= next) w = (.error why, (outcome v x w).2) := by
    rw [outcome_bind hhost, h.result]
  exact ⟨by rw [hbind], by rw [hbind]; exact h.files, by rw [hbind]; exact h.printed⟩

variable [LawfulMonad m]

theorem print (text : String) (w : v.World) : Prints v (ExceptT.lift (host.print text)) w (.ok ()) text := by
  have hprint := outcome_lift hhost (host.print text) w
  exact ⟨by rw [hprint], by rw [hprint]; exact hhost.files_print text w, by rw [hprint]; exact hhost.printed_print text w⟩

theorem printLine (text : String) (w : v.World) : Prints v (printLine host text) w (.ok ()) (text ++ "\n") :=
  print hhost _ w

theorem read (path : String) (w : v.World) :
    Prints v (ExceptT.lift (host.read path)) w (.ok (v.content (v.files w) path)) "" := by
  have hread := outcome_lift hhost (host.read path) w
  refine ⟨by rw [hread, hhost.read], by rw [hread]; exact hhost.files_read path w, ?_⟩
  rw [hread, String.append_empty]
  exact hhost.printed_read path w

end Prints

/-- No file is looked at or written: what is given and what is printed is the same in every world. -/
def PrintsOnly (v : Worlds m) (x : ExceptT Failure m α) : Prop :=
  ∃ result text, ∀ w, Prints v x w result text

namespace PrintsOnly

theorem pure (value : α) : PrintsOnly v (pure value) :=
  ⟨_, _, Prints.pure hhost value⟩

theorem orFail {ε : Type} (failure : ε → Failure) (result : Except ε α) : PrintsOnly v (orFail failure result) :=
  ⟨_, _, Prints.orFail hhost failure result⟩

theorem bind (h : PrintsOnly v x) (hnext : ∀ value, PrintsOnly v (next value)) : PrintsOnly v (x >>= next) := by
  obtain ⟨result, text, hx⟩ := h
  cases result with
  | error why => exact ⟨_, _, fun w => (hx w).bind_error hhost⟩
  | ok value =>
    obtain ⟨result, more, hmore⟩ := hnext value
    exact ⟨_, _, fun w => (hx w).bind hhost (hmore _)⟩

variable [LawfulMonad m]

theorem print (text : String) : PrintsOnly v (ExceptT.lift (host.print text)) :=
  ⟨_, _, Prints.print hhost text⟩

theorem printLine (text : String) : PrintsOnly v (printLine host text) :=
  print hhost _

theorem performInput (g : Grammar) (p : Parser) (input : String) : PrintsOnly v (performInput host g p input) := by
  refine (orFail hhost _ _).bind hhost fun stream => (printLine hhost _).bind hhost fun _ =>
    (orFail hhost _ _).bind hhost fun ended => ?_
  obtain ⟨r, events⟩ := ended
  refine (print hhost _).bind hhost fun _ => ?_
  cases r.rejection? with
  | none => exact (printLine hhost _).bind hhost fun _ => pure hhost true
  | some why => exact (printLine hhost _).bind hhost fun _ => pure hhost false

theorem performInputs (g : Grammar) (p : Parser) (inputs : List String) : PrintsOnly v (performInputs host g p inputs) := by
  induction inputs with
  | nil => exact pure hhost true
  | cons input inputs ih => exact (performInput hhost g p input).bind hhost fun _ => ih.bind hhost fun _ => pure hhost _

end PrintsOnly

end

end Command

end ShiftReduce
