import ShiftReduce.Proofs.Automaton.Path
import ShiftReduce.Proofs.Run.Termination
import ShiftReduce.Proofs.Table.Lookup

/-!
# Parsers of a grammar

What the steps of a parser do when its tables are those of a grammar, said with the automaton: which phases
the state on top leads to, and what a reduce takes from a stack that is a path (`Path.reduce`).
-/

namespace ShiftReduce

namespace Automaton.Path

variable {g : Grammar} {options : Options} {xs ss : List Nat} {q : Nat}

/-- The production that a state on a path reduces by has its right-hand side at the end of the path. -/
theorem reduce (h : (of options g).Path xs ss) (hq : (of options g).reduce? (ss.headD 0) = some q) :
    ∃ p before, g.productions[q]? = some p ∧ ⟨q, p.rhs.length⟩ ∈ (of options g).itemsAt (ss.headD 0) ∧
      xs = p.rhs.reverse ++ before ∧ (of options g).Path before (ss.drop p.rhs.length) := by
  obtain ⟨p, hp, hi⟩ := complete_of_reduce? hq
  obtain ⟨before, rfl⟩ := h.handle hp hi
  exact ⟨p, before, hp, hi, rfl, h.rest⟩

/-- A path below a right-hand side that is all of the stack but its lowest state is empty. -/
theorem eq_nil_of_pop {a : Automaton} {r : Run} {needed : Nat} (h : a.Path xs (r.pop needed).stack.states)
    (hdepth : r.stack.depth = needed + 1) : xs = [] := by
  have hlen := h.length_eq
  rw [Run.pop, Stack.states_pop, List.length_drop, ← Stack.depth_eq, hdepth, Nat.add_sub_cancel_left] at hlen
  exact List.eq_nil_of_length_eq_zero (Nat.succ.inj hlen).symm

end Automaton.Path

theorem Automaton.ne_endId_of_shift? {g : Grammar} {options : Options} {n x m : Nat}
    (h : (of options g).shift? g n x = some m) : x ≠ endId := by
  obtain ⟨-, hm, -⟩ := shift?_eq_some.mp h
  obtain ⟨i, -, hnext⟩ := exists_next_of_transition? hm
  exact (Item.next?_fits hnext).1

namespace Parser

def of (options : Options) (checks : Bool) (g : Grammar) : Parser :=
  ⟨Tables.of options g, checks⟩

variable {g : Grammar} {options : Options} {checks : Bool} {r r' : Run} {es : List Event} {m q : Nat}

section

variable (hsmall : (Automaton.of options g).Small g)

include hsmall

theorem shift_lookup_of (checks : Bool) (n x : Nat) :
    (of options checks g).tables.shift.lookup n x = .ok ((Automaton.of options g).shift? g n x) :=
  Tables.shift_lookup hsmall

theorem reduce?_of (checks : Bool) (n : Nat) : (of options checks g).tables.reduce? n = (Automaton.of options g).reduce? n :=
  Tables.reduce?_of hsmall

theorem ending_of : (of options checks g).tables.Ending :=
  (Tables.fits_of hsmall).ending (Tables.endFree_of hsmall)

theorem shift?_of_decides (hd : (of options checks g).Decides r (.shifting m)) :
    (Automaton.of options g).shift? g r.stack.top r.current.symbol = some m := by
  cases hd with
  | shift h =>
    rw [shift_lookup_of hsmall checks] at h
    exact Except.ok.inj h

theorem reduce?_of_decides (hd : (of options checks g).Decides r (.reducing q)) :
    (Automaton.of options g).reduce? r.stack.top = some q := by
  cases hd with
  | reduce _ hq _ => rwa [reduce?_of hsmall checks] at hq

theorem exists_decides (checks : Bool) (r : Run) : ∃ phase, (of options checks g).Decides r phase :=
  exists_decides_total (Tables.fits_of hsmall).total r

variable {p : Production}

theorem goto_lookup_of (checks : Bool) (hq : g.productions[q]? = some p) (n : Nat) :
    (of options checks g).tables.goto.lookup n p.lhs = .ok ((Automaton.of options g).transition? n p.lhs) := by
  have hlook := Tables.goto_lookup (n := n) (x := p.lhs) hsmall
  rwa [if_pos (g.fits p (List.mem_of_getElem? hq)).lhs] at hlook

/-- A run that reduces by a production takes as many states as its right-hand side is long. -/
theorem Takes.eq_of {needed head : Nat} (h : (of options checks g).Takes r q needed head)
    (hq : g.productions[q]? = some p) : needed = p.rhs.length ∧ head = p.lhs :=
  ⟨Except.ok.inj (h.length.symm.trans (Tables.length_of hsmall hq)),
    Except.ok.inj (h.head.symm.trans (Tables.head_of hsmall hq))⟩

theorem completes_of {needed : Nat} : (of options checks g).completes r p.lhs needed ↔
    p.lhs = g.start ∧ r.current.isEnd ∧ r.stack.depth = needed + 1 ∧ ¬ r.stream.hasMore := by
  change (p.lhs == (Tables.of options g).start.toNat && r.current.isEnd && r.stack.depth == needed + 1
    && !r.stream.hasMore) = true ↔ _
  rw [Tables.start_of hsmall]
  simp [and_assoc]

end

end Parser

end ShiftReduce
