import ShiftReduce.Grammar.Vocabulary

/-!
# Names and ids

The ids of a vocabulary and its names belong together one to one: a name resolves to the id that has it
(`resolve_eq_ok`), the names of the terminals but for the end terminal are those declared as terminals
(`mem_terminals_iff`), and the names of the nonterminals those declared as nonterminals (`mem_nonterminals_iff`).
-/

namespace ShiftReduce.Vocabulary

variable {v : Vocabulary} {terminals nonterminals : List String} {name : String} {x y : Nat}

theorem of?_eq_ok : of? terminals nonterminals = .ok v ↔ v.terminals = terminals ∧ v.nonterminals = nonterminals := by
  unfold of?
  constructor
  · intro h
    split at h
    · cases h
    · obtain rfl := Except.ok.inj h
      exact ⟨rfl, rfl⟩
  · rintro ⟨rfl, rfl⟩
    split
    · next h =>
      rw [firstRepeat?_eq_none.mpr v.nodup] at h
      cases h
    · rfl

@[simp] theorem length_names (v : Vocabulary) : v.names.length = v.size := by
  simp [names, size, terminalCount]
  omega

theorem getElem_names (h : x < v.names.length) : v.names[x] = v.name x := by
  rw [name, List.getElem?_eq_getElem h]
  rfl

theorem getElem?_names (h : x < v.size) : v.names[x]? = some (v.name x) := by
  have hlt : x < v.names.length := by rwa [length_names]
  rw [List.getElem?_eq_getElem hlt, getElem_names]

/-- No two symbols have the same name. -/
theorem name_inj (hx : x < v.size) (hy : y < v.size) (h : v.name x = v.name y) : x = y := by
  have hnames : v.names[x]? = v.names[y]? := by rw [getElem?_names hx, getElem?_names hy, h]
  have hlt : x < v.names.length := by rwa [length_names]
  exact (List.getElem?_inj hlt v.nodup).mp hnames

theorem lookup?_eq_some : v.lookup? name = some x ↔ x < v.size ∧ v.name x = name := by
  rw [lookup?, List.findIdx?_eq_some_iff_getElem]
  constructor
  · rintro ⟨hlt, hname, -⟩
    rw [getElem_names, decide_eq_true_eq] at hname
    exact ⟨by rwa [length_names] at hlt, hname⟩
  · rintro ⟨hx, rfl⟩
    have hlt : x < v.names.length := by rwa [length_names]
    refine ⟨hlt, by simp [getElem_names], fun y hy => ?_⟩
    rw [getElem_names, decide_eq_true_eq]
    exact fun hname => Nat.ne_of_lt hy (name_inj (Nat.lt_trans hy hx) hx hname)

theorem resolve_eq_ok : v.resolve name = .ok x ↔ x < v.size ∧ v.name x = name := by
  rw [← lookup?_eq_some, resolve]
  cases v.lookup? name <;> simp

theorem name_succ (h : x < v.terminals.length) : v.name (x + 1) = v.terminals[x] := by
  simp [name, names, List.getElem?_append_left h, h]

theorem name_add (h : x < v.nonterminals.length) : v.name (v.terminalCount + x) = v.nonterminals[x] := by
  have hindex : v.terminalCount + x = (v.terminals.length + x) + 1 := by rw [terminalCount]; omega
  rw [hindex, name, names, List.getElem?_cons_succ, List.getElem?_append_right (Nat.le_add_right _ _),
    Nat.add_sub_cancel_left, List.getElem?_eq_getElem h]
  rfl

theorem mem_terminals_iff : name ∈ v.terminals ↔ ∃ x, v.isTerminal x ∧ x ≠ endId ∧ v.name x = name := by
  constructor
  · intro h
    obtain ⟨x, hx, rfl⟩ := List.getElem_of_mem h
    exact ⟨x + 1, v.isTerminal_iff.mpr (Nat.succ_lt_succ hx), Nat.succ_ne_zero x, name_succ hx⟩
  · rintro ⟨x, hx, hne, rfl⟩
    obtain ⟨x, rfl⟩ := Nat.exists_eq_succ_of_ne_zero hne
    have hlt := Nat.lt_of_succ_lt_succ (v.isTerminal_iff.mp hx)
    rw [name_succ hlt]
    exact List.getElem_mem hlt

theorem mem_nonterminals_iff : name ∈ v.nonterminals ↔ ∃ x, v.isNonterminal x ∧ v.name x = name := by
  constructor
  · intro h
    obtain ⟨x, hx, rfl⟩ := List.getElem_of_mem h
    exact ⟨v.terminalCount + x, v.isNonterminal_iff.mpr ⟨Nat.le_add_right _ _, Nat.add_lt_add_left hx _⟩, name_add hx⟩
  · rintro ⟨x, hx, rfl⟩
    obtain ⟨hle, hlt⟩ := v.isNonterminal_iff.mp hx
    obtain ⟨x, rfl⟩ := Nat.exists_eq_add_of_le hle
    have hlt := Nat.lt_of_add_lt_add_left hlt
    rw [name_add hlt]
    exact List.getElem_mem hlt

end ShiftReduce.Vocabulary
