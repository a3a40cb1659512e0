import Mathlib.Data.Fin.Basic
import Mathlib.Logic.Equiv.Basic
import ShiftReduce.Proofs.Grammar.Detached
import ShiftReduce.Proofs.Grammar.Draft
import ShiftReduce.Proofs.Item.Renumbering

/-!
# Productions in another order

A permutation of the production list gives a production another number (`newNumber`) and changes nothing else: the
reordered list makes a grammar if the first one does (`Grammar.exists_reordered`), with the same items but for the
numbers (`Grammar.renumbers_of_perm`) and the same FOLLOW sets (`Grammar.follow_congr`).
-/

namespace ShiftReduce

/-- The productions in the order in which production `q` has number `σ q`. -/
def reordered (ps : List Production) (σ : Equiv.Perm (Fin ps.length)) : List Production :=
  List.ofFn fun i => ps[σ.symm i]

/-- The number of a production in the other order. Numbers without a production stay as they are. -/
def newNumber {n : Nat} (σ : Equiv.Perm (Fin n)) : Equiv.Perm Nat :=
  σ.extendDomain Fin.equivSubtype

variable {ps : List Production} {σ : Equiv.Perm (Fin ps.length)} {q : Nat}

theorem newNumber_of_lt {n : Nat} {σ : Equiv.Perm (Fin n)} (hq : q < n) : newNumber σ q = σ ⟨q, hq⟩ :=
  Equiv.Perm.extendDomain_apply_subtype σ Fin.equivSubtype hq

theorem newNumber_of_le {n : Nat} {σ : Equiv.Perm (Fin n)} (hq : n ≤ q) : newNumber σ q = q :=
  Equiv.Perm.extendDomain_apply_not_subtype σ Fin.equivSubtype (Nat.not_lt.mpr hq)

theorem getElem?_reordered (ps : List Production) (σ : Equiv.Perm (Fin ps.length)) (q : Nat) :
    (reordered ps σ)[newNumber σ q]? = ps[q]? := by
  rw [reordered, List.getElem?_ofFn]
  by_cases hq : q < ps.length
  · rw [newNumber_of_lt hq, dif_pos (σ ⟨q, hq⟩).isLt, List.getElem?_eq_getElem hq]
    simp
  · have hle := Nat.le_of_not_lt hq
    rw [newNumber_of_le hle, dif_neg hq, List.getElem?_eq_none hle]

theorem mem_reordered {p : Production} : p ∈ reordered ps σ ↔ p ∈ ps := by
  constructor
  · intro hp
    obtain ⟨i, rfl⟩ := List.mem_ofFn.mp hp
    exact List.getElem_mem _
  · intro hp
    obtain ⟨q, hq⟩ := List.getElem?_of_mem hp
    exact List.mem_of_getElem? ((getElem?_reordered ps σ q).trans hq)

namespace Grammar

variable {v : Vocabulary} {start a : Nat} {g g' : Grammar}

/-- A grammar has one in any other order of its productions. -/
theorem exists_reordered (h : of? v ps start = .ok g) (σ : Equiv.Perm (Fin ps.length)) :
    ∃ g', of? v (reordered ps σ) start = .ok g' := by
  obtain ⟨rfl, rfl, rfl⟩ := of?_eq_ok.mp h
  refine ⟨⟨g.symbols, reordered g.productions σ, g.start, g.start_nonterminal, fun p hp => ?_, fun a ha => ?_⟩,
    of?_eq_ok.mpr ⟨rfl, rfl, rfl⟩⟩
  · exact g.fits p (mem_reordered.mp hp)
  · obtain ⟨p, hp, hl⟩ := g.headed a ha
    exact ⟨p, mem_reordered.mpr hp, hl⟩

/-- A grammar under a permutation of the numbers of its productions. -/
theorem renumbers_of_perm {f : Equiv.Perm Nat} (hsymbols : g'.symbols = g.symbols) (hstart : g'.start = g.start)
    (h : ∀ q, g'.productions[f q]? = g.productions[q]?) : Renumbers f g g' where
  injective := f.injective
  symbols := hsymbols
  start := hstart
  production q p hq _ := (h q).trans hq
  exists_number n p hn _ := ⟨f.symm n, f.apply_symm_apply n, by rw [← h, f.apply_symm_apply, hn]⟩

theorem keepsOn_all (hsymbols : g'.symbols = g.symbols) (hstart : g'.start = g.start)
    (h : ∀ p ∈ g.productions, p ∈ g'.productions) : KeepsOn (fun _ => True) g g' :=
  ⟨hsymbols, hstart, fun p hp _ => h p hp, fun _ _ _ _ _ => trivial, fun _ _ _ _ _ _ => trivial⟩

/-- FOLLOW sets depend on which productions there are, and not on their order. -/
theorem follow_congr (hsymbols : g'.symbols = g.symbols) (hstart : g'.start = g.start)
    (h : ∀ p, p ∈ g'.productions ↔ p ∈ g.productions) (hn : g.symbols.isNonterminal a) :
    (FollowTable.of g' (FirstTable.of g')).follow a = (FollowTable.of g (FirstTable.of g)).follow a :=
  (keepsOn_all hsymbols hstart fun p => (h p).mpr).follow_eq
    (keepsOn_all hsymbols.symm hstart.symm fun p => (h p).mp) hn trivial trivial

end Grammar

end ShiftReduce
