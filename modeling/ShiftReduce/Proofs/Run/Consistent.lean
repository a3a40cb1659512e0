import ShiftReduce.Proofs.Run.Soundness

/-!
# Runs over consistent tables end

Consistent tables that never shift the end token finish every run, whatever grammar they come from, and also
where they come from none. The tables of a grammar are consistent and never shift it, with or without conflicts.
-/

namespace ShiftReduce.Parser

variable {p : Parser} {n : Nat} {r : Run} {es : List Event} {s : TokenStream}

/-- At every time a run is low under some bound, unless it is done. -/
theorem exists_low_of_steps (ht : p.tables.Ending) (h : p.steps n (Run.start s) = .ok (r, es)) :
    ∃ depths, r.Low p.tables.stateCount depths := by
  rcases potential_of_steps ht (low_start _ s) h with hd | ⟨hlow, -⟩
  · refine ⟨0, ?_⟩
    rw [Run.Low]
    cases hp : r.phase with
    | accepted => trivial
    | rejected why => trivial
    | _ =>
      rw [hp] at hd
      cases hd
  · exact ⟨_, hlow⟩

/-- Over consistent tables that never shift the end token every run is finished after a number of steps, from
any time on, and without a fault. The tables of a grammar are such. -/
theorem finish_settles :
    (∀ t : Tables, t.Consistent → t.EndFree → ∀ checks s n, ∃ r es r' es',
      (Parser.mk t checks).steps n (Run.start s) = .ok (r, es) ∧
      (Parser.mk t checks).finish r = .ok (r', es') ∧ r'.phase.isDone ∧
      ∃ k, (Parser.mk t checks).steps k r = .ok (r', es')) ∧
    ∀ options g, (Automaton.of options g).Small g →
      (Tables.of options g).Consistent ∧ (Tables.of options g).EndFree := by
  constructor
  · intro t hcons hend checks s n
    have hfits := Tables.consistent_iff_fits.mp hcons
    have hending : (Parser.mk t checks).tables.Ending := hfits.ending hend
    have htotal : (Parser.mk t checks).tables.Total := hfits.total
    obtain ⟨r, es, h, hasked⟩ := exists_steps_total htotal (asked_start t s) n
    obtain ⟨depths, hlow⟩ := exists_low_of_steps hending h
    obtain ⟨k, r', es', h', hfinish, hdone⟩ := exists_finish hending htotal hasked hlow
    exact ⟨r, es, r', es', h, hfinish, hdone, k, h'⟩
  · intro options g hsmall
    exact ⟨Tables.consistent_iff_fits.mpr (Tables.fits_of hsmall), Tables.endFree_of hsmall⟩

/-- The run on `a b a` that is finished after two steps rejects the second `a`, behind the sentence `a b`. -/
theorem finish_settles_nested :
    (Tables.of ⟨.slr, .shift, .first⟩ .nested).Consistent ∧ (Tables.of ⟨.slr, .shift, .first⟩ .nested).EndFree ∧
    ∃ r es r' es', (Parser.mk (Tables.of ⟨.slr, .shift, .first⟩ .nested) false).steps 2
        (Run.start (.ofSymbols [1, 2, 1])) = .ok (r, es) ∧
      (Parser.mk (Tables.of ⟨.slr, .shift, .first⟩ .nested) false).finish r = .ok (r', es') ∧
      r'.phase = .rejected (.noAction 3 1 "1") ∧ r'.stack.toList = [0] ∧
      ∃ k, (Parser.mk (Tables.of ⟨.slr, .shift, .first⟩ .nested) false).steps k r = .ok (r', es') := by
  obtain ⟨hcons, hend⟩ := finish_settles.2 ⟨.slr, .shift, .first⟩ .nested Automaton.small_nested
  obtain ⟨r, es, r', es', h, hfinish, -, hsteps⟩ := finish_settles.1 _ hcons hend false (.ofSymbols [1, 2, 1]) 2
  have hrun : ((Parser.mk (Tables.of ⟨.slr, .shift, .first⟩ .nested) false).steps 2
      (Run.start (.ofSymbols [1, 2, 1]))).bind (fun o =>
        ((Parser.mk (Tables.of ⟨.slr, .shift, .first⟩ .nested) false).steps 5 o.1).map
          fun o => (o.1.phase.isDone, o.1.phase, o.1.stack.toList)) =
      .ok (true, .rejected (.noAction 3 1 "1"), [0]) := by decide +kernel
  rw [h] at hrun
  obtain ⟨r'', es'', hfinish', hview⟩ := exists_finish_of_map_eq_ok hrun
  obtain ⟨rfl, rfl⟩ := Prod.mk.inj (Except.ok.inj (hfinish.symm.trans hfinish'))
  obtain ⟨hphase, hstack⟩ := Prod.mk.inj hview
  exact ⟨hcons, hend, r, es, r', es', h, hfinish, hphase, hstack, hsteps⟩

end ShiftReduce.Parser
