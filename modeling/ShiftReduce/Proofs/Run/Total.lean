import ShiftReduce.Proofs.Run.Steps
import ShiftReduce.Proofs.Table.Consistency

/-!
# Runs that meet no fault

Over tables in which every lookup has an answer a step always gives a next run (`exists_effect`), as long as there
is a state on the stack and the production to reduce by was found in the tables. Decisions find it there, and a
reduce that has its states leaves one below them, so any number of steps is taken (`exists_steps_total`).
-/

namespace ShiftReduce

/-- There is a state on the stack, and the production that the run is to reduce by is that of a state. -/
structure Run.Asked (t : Tables) (r : Run) : Prop where
  depth : 0 < r.stack.depth
  production : ∀ q, r.phase = .reducing q → ∃ n, t.reduce? n = some q

namespace Parser

variable {p : Parser} {r r' : Run} {es : List Event} {phase : Phase}

theorem Decides.asked (hd : p.Decides r phase) {f : Run} (hs : 0 < f.stack.depth) :
    Run.Asked p.tables { f with phase := phase } where
  depth := hs
  production q hq := by
    cases hd with
    | reduce _ hreduce _ =>
      obtain rfl := Phase.reducing.inj hq
      exact ⟨_, hreduce⟩
    | _ => cases hq

/-- A reduce leaves the state below the right-hand side, so there is a state on the stack after every step. -/
theorem Effect.asked (he : p.Effect r r' es) (ha : r.Asked p.tables) : r'.Asked p.tables := by
  cases he with
  | read _ hs hd => exact hd.asked (f := r.read) hs
  | shift => exact ⟨Nat.succ_pos _, nofun⟩
  | underflow => exact ⟨ha.depth, nofun⟩
  | accept => exact ⟨Nat.lt_min.mpr ⟨Nat.one_pos, ha.depth⟩, nofun⟩
  | @strand q needed head ht =>
    obtain ⟨why, hwhy, -⟩ := p.exists_strand_eq r r.stack.top (r.pop needed).stack.top head
    rw [hwhy]
    exact ⟨Nat.sub_pos_of_lt ht.depth, nofun⟩
  | cycle => exact ⟨Nat.succ_pos _, nofun⟩
  | reduce _ _ _ _ hd => exact hd.asked (Nat.succ_pos _)
  | done => exact ha

section

variable (ht : p.tables.Total)

include ht

theorem exists_decides_total (r : Run) : ∃ phase, p.Decides r phase := by
  obtain ⟨m, hlook⟩ := ht.shift r.stack.top r.current.symbol
  rcases m with - | m
  · cases hq : p.tables.reduce? r.stack.top with
    | none => exact ⟨_, .refuse hlook hq⟩
    | some q =>
      by_cases ha : p.checksLookahead → p.tables.admits q r.current.symbol
      · exact ⟨_, .reduce hlook hq ha⟩
      · obtain ⟨hc, ha⟩ := Classical.not_imp.mp ha
        exact ⟨_, .mismatch hlook hq hc ha⟩
  · exact ⟨_, .shift hlook⟩

theorem exists_effect (ha : r.Asked p.tables) : ∃ r' es, p.Effect r r' es := by
  cases hphase : r.phase with
  | reading =>
    obtain ⟨_, hd⟩ := exists_decides_total ht r.read
    exact ⟨_, _, .read hphase ha.depth hd⟩
  | shifting m => exact ⟨_, _, .shift hphase⟩
  | accepted => exact ⟨_, _, .done (by rw [hphase]; rfl)⟩
  | rejected why => exact ⟨_, _, .done (by rw [hphase]; rfl)⟩
  | reducing q =>
    obtain ⟨n, hq⟩ := ha.production q hphase
    obtain ⟨needed, hneeded⟩ := ht.length n q hq
    obtain ⟨head, hhead⟩ := ht.head n q hq
    by_cases hlt : r.stack.height < needed
    · exact ⟨_, _, .underflow hphase hneeded hhead ha.depth hlt⟩
    have htakes : p.Takes r q needed head := by
      refine ⟨hphase, hneeded, hhead, ?_⟩
      have hdepth := ha.depth
      rw [Stack.height] at hlt
      omega
    by_cases hc : p.completes r head needed
    · exact ⟨_, _, .accept htakes hc⟩
    obtain ⟨m, hgoto⟩ := ht.goto (r.pop needed).stack.top head
    rcases m with - | m
    · exact ⟨_, _, .strand htakes hc hgoto⟩
    by_cases hcyc : (r.replace needed m).isCycling p.tables.stateCount m
    · exact ⟨_, _, .cycle htakes hc hgoto hcyc⟩
    · obtain ⟨_, hd⟩ := exists_decides_total ht ((r.replace needed m).mark m)
      exact ⟨_, _, .reduce htakes hc hgoto hcyc hd⟩

theorem exists_steps_total (ha : r.Asked p.tables) (n : Nat) :
    ∃ r' es, p.steps n r = .ok (r', es) ∧ r'.Asked p.tables := by
  refine Machine.exists_steps (I := fun r' _ => r'.Asked p.tables) ha (fun r₁ r₂ es₁ es₂ h₁ hs => ?_) (fun r₁ es₁ h₁ => ?_) n
  · exact (effect_of_step hs).asked h₁
  · obtain ⟨r₂, es₂, he⟩ := exists_effect ht h₁
    exact ⟨r₂, es₂, step_of_effect he⟩

end

theorem asked_start (t : Tables) (s : TokenStream) : (Run.start s).Asked t :=
  ⟨Nat.one_pos, nofun⟩

end Parser

end ShiftReduce
