import ShiftReduce.Proofs.Run.Endless

/-!
# Stacks that grow between two tokens

A reduce that takes none of the states up to some place on the stack depends on the states above only
(`Turns`), so what a run does above a state it does again above the same state elsewhere. If the stack grows
by more than the number of states while no token is read, then a state comes twice, and the run goes on for
ever (`Climbs.endless`).
-/

namespace ShiftReduce

theorem exists_twice {xs : List Nat} {n : Nat} (hlt : ∀ x ∈ xs, x < n) (hlen : n < xs.length) :
    ∃ x as bs cs, xs = as ++ x :: (bs ++ x :: cs) := by
  have hdup : ¬ xs.Nodup := by
    intro hnd
    have hsub : xs ⊆ List.range n := fun x hx => List.mem_range.mpr (hlt x hx)
    have hle := (List.subperm_of_subset hnd hsub).length_le
    rw [List.length_range] at hle
    omega
  clear hlt hlen
  induction xs with
  | nil => exact absurd List.nodup_nil hdup
  | cons y ys ih =>
    by_cases hy : y ∈ ys
    · obtain ⟨bs, cs, rfl⟩ := List.append_of_mem hy
      exact ⟨y, [], bs, cs, rfl⟩
    · obtain ⟨x, as, bs, cs, rfl⟩ := ih fun hnd => hdup (List.nodup_cons.mpr ⟨hy, hnd⟩)
      exact ⟨x, y :: as, bs, cs, rfl⟩

/-- A state that comes twice in the topmost part of a stack, of one state more than there are. -/
theorem exists_twice_above {xs : List Nat} {n floor : Nat} (hlt : ∀ x ∈ xs, x < n)
    (hlen : floor + n < xs.length) : ∃ x as bs cs, xs = as ++ x :: (bs ++ x :: cs) ∧ floor ≤ cs.length := by
  have hcount : (xs.take (n + 1)).length = n + 1 := by
    rw [List.length_take]
    omega
  have htops : ∀ x ∈ xs.take (n + 1), x < n := fun x hx => hlt x (List.mem_of_mem_take hx)
  obtain ⟨x, as, bs, cs, htwice⟩ := exists_twice htops (by omega)
  refine ⟨x, as, bs, cs ++ xs.drop (n + 1), ?_, ?_⟩
  · conv_lhs => rw [← List.take_append_drop (n + 1) xs, htwice]
    simp
  · rw [List.length_append, List.length_drop]
    omega

namespace Parser

/-- On the symbol `x` a reduce makes the stack `ts` of the stack `ss` and does not take the lowest state. -/
def Turns (p : Parser) (x : Nat) (ss ts : List Nat) : Prop :=
  ∃ q needed head m, p.tables.shift.lookup (ss.headD 0) x = .ok none ∧ p.tables.reduce? (ss.headD 0) = some q ∧
    (p.checksLookahead → p.tables.admits q x) ∧ p.tables.length q = .ok needed ∧ p.tables.head q = .ok head ∧
    needed < ss.length ∧ p.tables.goto.lookup ((ss.drop needed).headD 0) head = .ok (some m) ∧
    ts = m :: ss.drop needed

theorem headD_append {ss : List Nat} (h : 0 < ss.length) (ts : List Nat) (a : Nat) :
    (ss ++ ts).headD a = ss.headD a := by
  cases ss with
  | nil => exact absurd h (Nat.lt_irrefl 0)
  | cons s ss => rfl

variable {p : Parser} {r r' f : Run} {q m x : Nat} {es : List Event} {ss ts base : List Nat}

section

variable (ht : p.tables.Total) (hpos : 0 < p.tables.stateCount)

include ht hpos

/-- What is possible above some states a run does, whatever these states are. -/
theorem Turns.step (h : p.Turns r.current.symbol ss ts) (habove : r.stack.states = ss ++ base) (hbase : base ≠ [])
    (hd : p.Decides r r.phase) : (∃ q, r.phase = .reducing q) ∧ ∃ r' es, p.stepFreely r = .ok (r', es) ∧
      r'.stack.states = ts ++ base ∧ r'.current = r.current ∧ r'.stream = r.stream ∧ p.Decides r' r'.phase := by
  obtain ⟨q, needed, head, m, hshift, hreduce, hadmits, hlength, hhead, hlt, hgoto, rfl⟩ := h
  have htop : r.stack.top = ss.headD 0 := by rw [Stack.top, habove, headD_append (by omega)]
  rw [← htop] at hshift hreduce
  have hphase : r.phase = .reducing q := hd.unique (.reduce hshift hreduce hadmits)
  refine ⟨⟨q, hphase⟩, ?_⟩
  have hdepth : needed + 1 < r.stack.depth := by
    have hpos := List.length_pos_iff.mpr hbase
    rw [Stack.depth_eq, habove, List.length_append]
    omega
  have htakes : p.Takes r q needed head := ⟨hphase, hlength, hhead, Nat.lt_of_succ_lt hdepth⟩
  have hc : ¬ p.completes r head needed := by
    intro hc
    simp only [completes, Bool.and_eq_true, beq_iff_eq] at hc
    exact absurd hc.1.2 (Nat.ne_of_gt hdepth)
  have hpop : (r.pop needed).stack.states = ss.drop needed ++ base := by
    show r.stack.states.drop needed = _
    rw [habove, List.drop_append_of_le_length (Nat.le_of_lt hlt)]
  have hgoto' : p.tables.goto.lookup (r.pop needed).stack.top head = .ok (some m) := by
    rw [Stack.top, hpop, headD_append (by rw [List.length_drop]; omega)]
    exact hgoto
  obtain ⟨phase, hd'⟩ := exists_decides_total ht (r.replace needed m)
  obtain ⟨r', _, _, hstep, hstack, hcur, hstream, hdecided, -⟩ := htakes.exists_stepFreely hpos hc hgoto' hd'
  refine ⟨r', _, hstep, ?_, hcur, hstream, hdecided⟩
  rw [hstack, Stack.states_push, List.cons_append, ← hpop]
  rfl

theorem Turns.steps (h : Relation.ReflTransGen (p.Turns r.current.symbol) ss ts)
    (habove : r.stack.states = ss ++ base) (hbase : base ≠ []) (hd : p.Decides r r.phase) :
    ∃ n r' es, Machine.steps p.stepFreely n r = .ok (r', es) ∧ (∀ i < n, Machine.ReducesAt p.stepFreely i r) ∧
      r'.stack.states = ts ++ base ∧ r'.current = r.current ∧ r'.stream = r.stream ∧ p.Decides r' r'.phase := by
  induction h with
  | refl => exact ⟨0, r, [], rfl, fun i hi => absurd hi (Nat.not_lt_zero i), habove, rfl, rfl, hd⟩
  | tail _ hturn ih =>
    obtain ⟨n, r₁, es₁, hr₁, hbefore, habove₁, hcur₁, hstream₁, hd₁⟩ := ih
    rw [← hcur₁] at hturn
    obtain ⟨⟨q, hq⟩, r₂, es₂, hr₂, habove₂, hcur₂, hstream₂, hd₂⟩ := hturn.step ht hpos habove₁ hbase hd₁
    refine ⟨n + 1, r₂, es₁ ++ es₂, Machine.steps_succ hr₁ hr₂, fun i hi => ?_, habove₂, hcur₂.trans hcur₁,
      hstream₂.trans hstream₁, hd₂⟩
    rcases Nat.lt_or_eq_of_le (Nat.le_of_lt_succ hi) with hi | rfl
    · exact hbefore i hi
    · exact ⟨r₁, es₁, q, hr₁, hq⟩

/-- A run that comes from a state to the same state higher up does so again and again. -/
theorem reducesAt_of_loop {s : Nat} {mid : List Nat} {x : Nat}
    (h : Relation.ReflTransGen (p.Turns x) [s] (s :: (mid ++ [s]))) (habove : r.stack.states = [s] ++ base)
    (hbase : base ≠ []) (hx : r.current.symbol = x) (hd : p.Decides r r.phase) (n : Nat) : Machine.ReducesAt p.stepFreely n r := by
  refine Machine.reducesAt_of_progress (P := fun a => ∃ base, a.stack.states = [s] ++ base ∧ base ≠ [] ∧
    a.current.symbol = x ∧ p.Decides a a.phase) ?_ ⟨base, habove, hbase, hx, hd⟩ n
  rintro a ⟨base, habove, hbase, rfl, hd⟩
  obtain ⟨k, a', es, ha', hbefore, habove', hcur, -, hd'⟩ := Turns.steps ht hpos h habove hbase hd
  have hhigher : a'.stack.states = [s] ++ (mid ++ s :: base) := by
    rw [habove', List.cons_append, List.append_assoc]
    rfl
  rcases k with - | k
  · -- the stack is higher now, so a step was taken
    obtain ⟨rfl, rfl⟩ := Prod.mk.inj (Except.ok.inj ha')
    have hlen := congrArg List.length (hhigher.symm.trans habove)
    simp only [List.length_append, List.length_cons] at hlen
    omega
  · exact ⟨k, a', es, ha', fun i hi => hbefore i (Nat.lt_succ_of_le hi), _, hhigher, by simp, congrArg Token.symbol hcur,
      hd'⟩

end

/-- A reduce that leaves `s` on the stack turns what lies above it. -/
theorem Takes.turns {needed head s : Nat} {us : List Nat} (ht : p.Takes r q needed head)
    (hd : p.Decides r (.reducing q)) (hg : p.tables.goto.lookup (r.pop needed).stack.top head = .ok (some m))
    (hdrop : r.stack.states.drop needed = us ++ s :: base) :
    p.Turns r.current.symbol (r.stack.states.take needed ++ us ++ [s]) (m :: us ++ [s]) := by
  have hlen : (r.stack.states.take needed).length = needed := by
    rw [List.length_take, ← Stack.depth_eq]
    exact Nat.min_eq_left (Nat.le_of_lt ht.depth)
  have hwhole : r.stack.states = r.stack.states.take needed ++ us ++ [s] ++ base := by
    rw [List.append_assoc, List.append_assoc, List.singleton_append, ← hdrop, List.take_append_drop]
  have hrest : (r.stack.states.take needed ++ us ++ [s]).drop needed = us ++ [s] := by
    rw [List.append_assoc]
    exact List.drop_left' hlen
  have hlong : ∀ as : List Nat, 0 < (as ++ [s]).length := fun as => by simp
  have htop : r.stack.top = (r.stack.states.take needed ++ us ++ [s]).headD 0 := by
    rw [Stack.top, hwhole, headD_append (hlong _), ← hwhole]
  have hunder : (r.pop needed).stack.top = (us ++ [s]).headD 0 := by
    show (r.stack.states.drop needed).headD 0 = _
    rw [hdrop, List.append_cons, headD_append (hlong us)]
  cases hd with
  | reduce hshift hreduce hadmits =>
    rw [htop] at hshift hreduce
    rw [hunder] at hg
    refine ⟨q, needed, head, m, hshift, hreduce, hadmits, ht.length, ht.head, ?_, ?_, ?_⟩
    · rw [List.length_append, List.length_append, hlen, List.length_singleton]
      omega
    · rw [hrest]
      exact hg
    · rw [hrest]
      rfl

/-- How the stack of a run has come to be above the lowest `floor` states: every part of it from below was the
whole stack once, and above a state that is still there everything was made on top of this state. -/
structure Climbs (p : Parser) (r₀ : Run) (floor : Nat) (r : Run) : Prop where
  reached : ∀ us, us <:+ r.stack.states → floor < us.length → ∃ f, Machine.Reaches p.stepFreely r₀ f ∧
    f.stack.states = us ∧ f.current = r.current ∧ p.Decides f f.phase
  turns : ∀ us s base, us ++ s :: base <:+ r.stack.states → floor ≤ base.length →
    Relation.ReflTransGen (p.Turns r.current.symbol) [s] (us ++ [s])

namespace Climbs

variable {r₀ : Run} {floor needed head : Nat}

theorem of_low (h : r.stack.depth ≤ floor) : p.Climbs r₀ floor r where
  reached us hus hlt := by
    have hlen := hus.length_le
    rw [← r.stack.depth_eq] at hlen
    omega
  turns us s base hus hle := by
    have hlen := hus.length_le
    rw [← r.stack.depth_eq, List.length_append, List.length_cons] at hlen
    omega

theorem congr (h : p.Climbs r₀ floor r) (hs : f.stack = r.stack) (hc : f.current = r.current) :
    p.Climbs r₀ floor f where
  reached us hus hle := by
    rw [hs] at hus
    rw [hc]
    exact h.reached us hus hle
  turns us s base hus hle := by
    rw [hs] at hus
    rw [hc]
    exact h.turns us s base hus hle

/-- A reduce puts its state on a part of the stack that was there before. -/
theorem reduce (h : p.Climbs r₀ floor r) (hd : p.Decides r (.reducing q)) (ht : p.Takes r q needed head)
    (hg : p.tables.goto.lookup (r.pop needed).stack.top head = .ok (some m))
    (hf : Machine.Reaches p.stepFreely r₀ f) (habove : f.stack.states = m :: r.stack.states.drop needed)
    (hcur : f.current = r.current) (hdf : p.Decides f f.phase) : p.Climbs r₀ floor f where
  reached us hus hle := by
    rw [habove] at hus
    rcases List.suffix_cons_iff.mp hus with rfl | hus
    · exact ⟨f, hf, habove, rfl, hdf⟩
    · rw [hcur]
      exact h.reached us (hus.trans (List.drop_suffix _ _)) hle
  turns us s base hus hle := by
    rw [hcur]
    rw [habove] at hus
    rcases List.suffix_cons_iff.mp hus with heq | hus
    · rcases us with - | ⟨u, us⟩
      · exact .refl
      obtain ⟨rfl, hdrop⟩ : u = m ∧ us ++ s :: base = r.stack.states.drop needed := List.cons.inj heq
      -- before, the states that were taken lay on `us`
      have hwhole : r.stack.states = r.stack.states.take needed ++ us ++ s :: base := by
        rw [List.append_assoc, hdrop, List.take_append_drop]
      have hbefore := h.turns (r.stack.states.take needed ++ us) s base (by rw [← hwhole]) hle
      exact hbefore.tail (ht.turns hd hg hdrop.symm)
    · exact h.turns us s base (hus.trans (List.drop_suffix _ _)) hle

/-- A stack that has grown by the number of states grows for ever. -/
theorem endless (ht : p.tables.Total) (hpos : 0 < p.tables.stateCount) (h : p.Climbs r₀ floor r) {states : Nat}
    (hlt : ∀ s ∈ r.stack.states, s < states) (hdepth : floor + states < r.stack.depth)
    (hd : p.Decides r r.phase) : Machine.Endless p.stepFreely r := by
  rw [r.stack.depth_eq] at hdepth
  obtain ⟨s, as, bs, base, habove, hbase⟩ := exists_twice_above hlt hdepth
  have hupper : (s :: bs) ++ s :: base <:+ r.stack.states := ⟨as, habove.symm⟩
  have hloop := h.turns (s :: bs) s base hupper hbase
  have hrest := h.turns as s (bs ++ s :: base) (by rw [habove]) (by rw [List.length_append, List.length_cons]; omega)
  -- a run that stands at the upper `s` goes on for ever, and comes by `r`
  obtain ⟨low, hlow⟩ : ∃ low : Stack, low.states = [s] ++ (bs ++ s :: base) := ⟨⟨_, _, rfl⟩, rfl⟩
  obtain ⟨phase, hphase⟩ := exists_decides_total ht { r with stack := low }
  have hphase : p.Decides { r with stack := low, phase := phase } phase := hphase.congr rfl rfl
  have hreduces := reducesAt_of_loop (r := { r with stack := low, phase := phase }) ht hpos hloop hlow (by simp) rfl
    hphase
  obtain ⟨k, r', es, hr', -, habove', hcur, hstream, hd'⟩ :=
    Turns.steps (r := { r with stack := low, phase := phase }) ht hpos hrest hlow (by simp) hphase
  have hstack : r.stack = r'.stack := Stack.ext_states (by rw [habove, habove']; simp)
  have hforget : r.forget = r'.forget := Run.forget_eq hstack hcur.symm hstream.symm (hd.unique (hd'.congr hstack hcur.symm))
  exact endless_of_reducesAt fun n =>
    follows_stepFreely.reducesAt hforget ((Machine.reducesAt_add hr').mp (hreduces (k + n)))

end Climbs

end Parser

end ShiftReduce
