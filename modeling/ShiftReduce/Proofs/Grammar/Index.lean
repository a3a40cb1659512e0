import Mathlib.Data.List.Basic
import ShiftReduce.Proofs.Item.Closure

/-!
# Productions by their heads

The ids of the productions of a nonterminal are listed ascending (`Grammar.pairwise_productionsOf`), and each id is in the
list of one nonterminal only (`Grammar.existsUnique_productionsOf`). The lists are the rows of an index into which the
productions put their ids one after the other (`Grammar.getElem?_index`).
-/

namespace ShiftReduce.Grammar

variable {g : Grammar} {a q : Nat}

/-- The rows with the id of a production put at the end of the row of its head. -/
def enter (v : Vocabulary) (rows : List (List Nat)) (entry : Production × Nat) : List (List Nat) :=
  rows.modify (v.nonterminalIndex entry.1.lhs) (· ++ [entry.2])

/-- A row for each nonterminal, into which each production puts its id in turn. -/
def index (g : Grammar) : List (List Nat) :=
  g.productions.zipIdx.foldl (enter g.symbols) (List.replicate g.symbols.nonterminals.length [])

theorem getElem?_foldl_enter {v : Vocabulary} (entries : List (Production × Nat)) (rows : List (List Nat)) (i : Nat) :
    (entries.foldl (enter v) rows)[i]? = rows[i]?.map
      (· ++ entries.filterMap fun entry => if v.nonterminalIndex entry.1.lhs = i then some entry.2 else none) := by
  induction entries generalizing rows with
  | nil => simp
  | cons entry entries ih =>
    rw [List.foldl_cons, ih, enter, List.getElem?_modify]
    cases rows[i]? with
    | none => rfl
    | some row => by_cases h : v.nonterminalIndex entry.1.lhs = i <;> simp [h]

/-- The row of a nonterminal has the ids of its productions. -/
theorem getElem?_index (ha : g.symbols.isNonterminal a) :
    g.index[g.symbols.nonterminalIndex a]? = some (g.productionsOf a) := by
  obtain ⟨hle, hlt⟩ := g.symbols.isNonterminal_iff.mp ha
  have hrow : g.symbols.nonterminalIndex a < g.symbols.nonterminals.length := by
    unfold Vocabulary.nonterminalIndex
    unfold Vocabulary.size at hlt
    omega
  rw [index, getElem?_foldl_enter, List.getElem?_replicate, if_pos hrow, Option.map_some, List.nil_append, productionsOf,
    idsWhere]
  congr 1
  refine List.filterMap_congr fun entry hentry => ?_
  -- two nonterminals with the same place are the same
  have hget := List.mem_zipIdx_iff_getElem?.mp hentry
  have hlhs := (g.symbols.isNonterminal_iff.mp (g.fits _ (List.mem_of_getElem? hget)).lhs).1
  have hsame : g.symbols.nonterminalIndex entry.1.lhs = g.symbols.nonterminalIndex a ↔ entry.1.lhs = a := by
    unfold Vocabulary.nonterminalIndex
    omega
  simp only [hsame, beq_iff_eq]

theorem pairwise_productionsOf (g : Grammar) (a : Nat) : (g.productionsOf a).Pairwise (· < ·) := by
  have hids : (g.productions.zipIdx.map (·.2)).Pairwise (· < ·) := by
    rw [List.zipIdx_map_snd]
    exact List.pairwise_lt_range'
  refine List.Pairwise.filterMap _ (fun p p' hlt i hi i' hi' => ?_) (List.pairwise_map.mp hids)
  obtain ⟨-, hi⟩ := Option.ite_none_right_eq_some.mp hi
  obtain ⟨-, hi'⟩ := Option.ite_none_right_eq_some.mp hi'
  rwa [← Option.some.inj hi, ← Option.some.inj hi']

/-- Each id of a production is in the list of its head and in no other. -/
theorem existsUnique_productionsOf (hq : q < g.productions.length) :
    ∃! a, g.symbols.isNonterminal a ∧ q ∈ g.productionsOf a := by
  have hget : g.productions[q]? = some g.productions[q] := List.getElem?_eq_getElem hq
  refine ⟨g.productions[q].lhs, ⟨(g.fits _ (List.getElem_mem hq)).lhs, mem_productionsOf.mpr ⟨_, hget, rfl⟩⟩, ?_⟩
  rintro a ⟨-, ha⟩
  obtain ⟨p, hp, rfl⟩ := mem_productionsOf.mp ha
  rw [hget] at hp
  rw [Option.some.inj hp]

/-- The right-hand sides of a nonterminal are those of the ids listed for it. -/
theorem map_rhs_productionsOf (g : Grammar) (a : Nat) : (g.productionsOf a).map g.rhs = g.bodiesOf a := by
  rw [productionsOf, idsWhere, List.map_filterMap, bodiesOf]
  conv_rhs => rw [← List.zipIdx_map_fst 0 g.productions]
  rw [List.filter_map, List.map_map, ← List.filterMap_eq_map, List.filterMap_filter]
  refine List.filterMap_congr fun entry hentry => ?_
  have hget := List.mem_zipIdx_iff_getElem?.mp hentry
  simp only [Function.comp_apply]
  split
  · rw [Option.map_some, rhs_eq hget]
  · rfl

end ShiftReduce.Grammar
