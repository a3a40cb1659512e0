import ShiftReduce.Proofs.Automaton.Conflict
import ShiftReduce.Proofs.Run.Free
import ShiftReduce.Proofs.Run.Soundness
import ShiftReduce.Proofs.Token.Stream

/-!
# Completeness

Without conflicts the machine that never stops a cycle accepts every sentence (`exists_accepted_freely`). It
follows a parse forest of the sentence: where an item waits for a string and the forest over the string is
what comes next, the machine puts a state for each of its symbols on the stack and stands at the moved item
(`Passes`, `follow_yields`). The complete item is then the only thing to do, and what comes next is in its lookahead.
-/

namespace ShiftReduce

open Event

/-- A run over the stream reads these symbols and then the end token. -/
def TokenStream.Spells (s : TokenStream) (w : List Nat) : Prop :=
  s.pending.map (·.symbol) = w ∨ s.pending.map (·.symbol) = w ++ [endId]

theorem TokenStream.spells_cons {s : TokenStream} {x : Nat} {w : List Nat} (h : s.Spells (x :: w)) :
    s.next.1.symbol = x ∧ s.next.2.Spells w := by
  obtain ⟨ts⟩ := s
  rcases ts with - | ⟨t, ts⟩
  · rcases h with h | h <;> simp at h
  · rcases h with h | h
    · obtain ⟨hx, hw⟩ := List.cons.inj h
      exact ⟨hx, .inl hw⟩
    · obtain ⟨hx, hw⟩ := List.cons.inj h
      exact ⟨hx, .inr hw⟩

theorem TokenStream.spells_nil {s : TokenStream} (h : s.Spells []) :
    s.next.1.symbol = endId ∧ s.next.2.pending = [] := by
  obtain ⟨ts⟩ := s
  rcases ts with - | ⟨t, ts⟩
  · exact ⟨rfl, rfl⟩
  · rcases h with h | h
    · simp at h
    · obtain ⟨hx, hts⟩ := List.cons.inj h
      exact ⟨hx, List.map_eq_nil_iff.mp hts⟩

theorem TokenStream.spells_ofSymbols {w : List Nat} (h : ∀ x ∈ w, x ≠ endId) : (ofSymbols w).Spells w := by
  refine .inl ?_
  rw [ofSymbols, ofTokens_eq (List.forall_mem_map.mpr fun x hx => by simpa [Token.isEnd] using h x hx)]
  simp [Function.comp_def]

/-- The current symbol and the stream behind it spell these symbols. -/
def Run.Ahead (r : Run) : List Nat → Prop
  | [] => r.current.symbol = endId ∧ r.stream.pending = []
  | x :: w => r.current.symbol = x ∧ r.stream.Spells w

namespace Run

variable {r : Run} {w : List Nat}

theorem Ahead.symbol_eq (h : r.Ahead w) : r.current.symbol = w.headD endId := by
  cases w with
  | nil => exact h.1
  | cons x w => exact h.1

theorem Ahead.congr {f : Run} (h : r.Ahead w) (hc : f.current = r.current) (hs : f.stream = r.stream) :
    f.Ahead w := by
  cases w with
  | nil => exact ⟨hc ▸ h.1, hs ▸ h.2⟩
  | cons x w => exact ⟨hc ▸ h.1, hs ▸ h.2⟩

theorem ahead_read (h : r.stream.Spells w) : r.read.Ahead w := by
  cases w with
  | nil => exact TokenStream.spells_nil h
  | cons x w => exact TokenStream.spells_cons h

end Run

namespace Parser

variable {g : Grammar} {options : Options} {checks : Bool} {r : Run} {n q x m : Nat} {p : Production}
  {v w xs : List Nat}

/-- What a run does next is decided, and `w` is what it will read, the current token included. -/
structure Ready (p : Parser) (r : Run) (w : List Nat) : Prop where
  depth : 0 < r.stack.depth
  decided : p.Decides r r.phase
  ahead : r.Ahead w

theorem stateCount_pos : 0 < (of options checks g).tables.stateCount := by
  show 0 < (Tables.of options g).stateCount
  rw [Tables.stateCount_of]
  exact Automaton.length_states_pos

/-- Taken freely, the run comes from the item of production `q` with the dot at `d` to the item moved over `xs`,
with one state for each symbol on the stack and `w` before it, unless it is accepted before. -/
def Passes (options : Options) (checks : Bool) (g : Grammar) (r : Run) (q d : Nat) (xs w : List Nat) : Prop :=
  (of options checks g).Succeeds r ∨
  ∃ r' ss, Machine.Reaches (of options checks g).stepFreely r r' ∧ ss.length = xs.length ∧
    r'.stack.states = ss ++ r.stack.states ∧ ⟨q, d + xs.length⟩ ∈ (Automaton.of options g).itemsAt r'.stack.top ∧
    (of options checks g).Ready r' w

theorem Passes.cons {r₁ : Run} {d : Nat} (hr : Machine.Reaches (of options checks g).stepFreely r r₁)
    (hstates : r₁.stack.states = m :: r.stack.states) (h : Passes options checks g r₁ q (d + 1) xs w) :
    Passes options checks g r q d (x :: xs) w := by
  rcases h with hsucc | ⟨r', ss, hr', hlen, hstates', hi, hready⟩
  · exact .inl (hsucc.of_reaches hr)
  · refine .inr ⟨r', ss ++ [m], hr.trans hr', by simp [hlen], ?_, ?_, hready⟩
    · rw [hstates', hstates, List.append_assoc]
      rfl
    · rwa [List.length_cons, Nat.add_comm xs.length, ← Nat.add_assoc]

section

variable (hsmall : (Automaton.of options g).Small g)

include hsmall

theorem exists_ready_read (checks : Bool) (hphase : r.phase = .reading) (hdepth : 0 < r.stack.depth)
    (hw : r.stream.Spells w) :
    ∃ r', Machine.Reaches (of options checks g).stepFreely r r' ∧ r'.stack = r.stack ∧
      (of options checks g).Ready r' w := by
  obtain ⟨phase, hd⟩ := exists_decides hsmall checks r.forget.read
  have hstep := step_of_effect (.read (r := r.forget) hphase hdepth hd)
  refine ⟨_, .head hstep (.refl _), rfl, hdepth, hd.congr rfl rfl, ?_⟩
  exact Run.ahead_read hw

variable (hfree : (Automaton.of options g).conflicts = [])

include hfree

/-- A run at an item that waits for the current terminal shifts it. -/
theorem exists_ready_shift {i : Item} (hi : i ∈ (Automaton.of options g).itemsAt r.stack.top)
    (hnext : i.next? g = some x) (hx : g.symbols.isTerminal x)
    (hready : (of options checks g).Ready r (x :: w)) :
    ∃ r' m, Machine.Reaches (of options checks g).stepFreely r r' ∧ r'.stack.states = m :: r.stack.states ∧
      i.shifted ∈ (Automaton.of options g).itemsAt m ∧ (of options checks g).Ready r' w := by
  obtain ⟨-, hd, hsym, hspells⟩ := hready
  obtain ⟨m, hm, hi'⟩ := Automaton.shift?_of_next hfree hi hnext hx
  have hphase : r.phase = .shifting m := by
    have hlook := shift_lookup_of hsmall checks r.stack.top r.current.symbol
    rw [hsym, hm] at hlook
    cases hd' : r.phase <;> rw [hd'] at hd <;> cases hd <;> simp_all
  have hstep := step_of_effect (p := of options checks g) (.shift (r := r.forget) hphase)
  obtain ⟨r', hr', hstack, hready'⟩ := exists_ready_read hsmall checks
    (r := { r.forget.push m with phase := .reading }) rfl (Nat.succ_pos _) hspells
  exact ⟨r', m, .head hstep hr', by rw [hstack]; rfl, hi', hready'⟩

/-- A run at a complete item on something that follows its head is to reduce. -/
theorem Ready.reducing (hq : g.productions[q]? = some p)
    (hi : ⟨q, p.rhs.length⟩ ∈ (Automaton.of options g).itemsAt r.stack.top)
    (hready : (of options checks g).Ready r w)
    (hw : w.headD endId ∈ (FollowTable.of g (FirstTable.of g)).follow p.lhs) : r.phase = .reducing q := by
  have hadmits : (Automaton.of options g).lookahead.admits q (w.headD endId) :=
    Automaton.admits_of_mem_follow hq hw
  have hterminal := FollowTable.isTerminal_of_mem_follow (g.fits p (List.mem_of_getElem? hq)).lhs hw
  rw [← hready.ahead.symbol_eq] at hadmits hterminal
  have hshift := shift_lookup_of hsmall checks r.stack.top r.current.symbol
  rw [Automaton.shift?_eq_none hfree hq hi hadmits] at hshift
  have hreduce := reduce?_of hsmall checks r.stack.top
  rw [Automaton.reduce?_of_complete hfree hq hi] at hreduce
  have htable : (of options checks g).tables.admits q r.current.symbol := by
    refine (Tables.admits_of hsmall hq).trans ?_
    rw [hterminal, hadmits, Bool.and_self]
  have hd := hready.decided
  generalize r.phase = phase at hd
  cases hd <;> simp_all

/-- A reduce by a complete item goes on over the head, or completes the sentence. -/
theorem exists_ready_reduce {ss ts : List Nat} (hq : g.productions[q]? = some p)
    (hi : ⟨q, p.rhs.length⟩ ∈ (Automaton.of options g).itemsAt r.stack.top)
    (hready : (of options checks g).Ready r w)
    (hw : w.headD endId ∈ (FollowTable.of g (FirstTable.of g)).follow p.lhs)
    (hstates : r.stack.states = ss ++ ts) (hlen : ss.length = p.rhs.length) (hts : ts ≠ [])
    (hm : (Automaton.of options g).transition? (ts.headD 0) p.lhs = some m) :
    (of options checks g).Succeeds r ∨
    ∃ r', Machine.Reaches (of options checks g).stepFreely r r' ∧ r'.stack.states = m :: ts ∧
      (of options checks g).Ready r' w := by
  have hphase := hready.reducing hsmall hfree hq hi hw
  have hlt : p.rhs.length < r.stack.depth := by
    rw [Stack.depth_eq, hstates, List.length_append, hlen]
    exact Nat.lt_add_of_pos_right (List.length_pos_iff.mpr hts)
  have htakes : (of options checks g).Takes r q p.rhs.length p.lhs :=
    ⟨hphase, Tables.length_of hsmall hq, Tables.head_of hsmall hq, hlt⟩
  by_cases hc : (of options checks g).completes r p.lhs p.rhs.length
  · exact .inl ⟨_, .head (step_of_effect (.accept htakes.forget hc)) (.refl _), rfl⟩
  have hpop : (r.pop p.rhs.length).stack.states = ts := by
    show r.stack.states.drop p.rhs.length = ts
    rw [hstates, ← hlen, List.drop_left]
  have hgoto := goto_lookup_of hsmall checks hq (r.pop p.rhs.length).stack.top
  rw [← hpop] at hm
  rw [show (r.pop p.rhs.length).stack.states.headD 0 = (r.pop p.rhs.length).stack.top from rfl] at hm
  rw [hm] at hgoto
  obtain ⟨phase, hd⟩ := exists_decides hsmall checks (r.replace p.rhs.length m)
  obtain ⟨r', _, _, hstep, hstack, hcur, hstream, hd', -⟩ := htakes.exists_stepFreely stateCount_pos hc hgoto hd
  refine .inr ⟨r', .head hstep (.refl _), ?_, ?_, hd', hready.ahead.congr hcur hstream⟩
  · rw [hstack, Stack.states_push, ← hpop]
    rfl
  · rw [hstack]
    exact Nat.succ_pos _

/-- The machine follows a parse forest over what an item waits for. -/
theorem follow_yields (h : g.Yields xs w) {d : Nat} {zs v₁ v₂ : List Nat} (hq : g.productions[q]? = some p)
    (hrhs : p.rhs.drop d = xs ++ zs) (hi : ⟨q, d⟩ ∈ (Automaton.of options g).itemsAt r.stack.top)
    (hzs : g.Yields zs v₁) (hv : v₂.headD endId ∈ (FollowTable.of g (FirstTable.of g)).follow p.lhs)
    (hready : (of options checks g).Ready r (w ++ (v₁ ++ v₂))) : Passes options checks g r q d xs (v₁ ++ v₂) := by
  induction h generalizing r q p d zs v₁ v₂ with
  | nil => exact .inr ⟨r, [], .refl r, rfl, rfl, hi, hready⟩
  | @terminal x xs w hx _ ih =>
    have hnext : (Item.mk q d).next? g = some x := by
      rw [Item.next?, Grammar.rhs_eq hq, ← List.head?_drop, hrhs]
      rfl
    obtain ⟨r₁, m, hr₁, hstates, hi₁, hready₁⟩ := exists_ready_shift hsmall hfree hi hnext hx hready
    have hrhs₁ : p.rhs.drop (d + 1) = xs ++ zs := by rw [← List.tail_drop, hrhs]; rfl
    have htop : r₁.stack.top = m := by rw [Stack.top, hstates]; rfl
    exact .cons hr₁ hstates (ih hq hrhs₁ (htop ▸ hi₁) hzs hv hready₁)
  | @expand p' xs w' w hp' hw' hw ih' ih =>
    obtain ⟨q', hq'⟩ := List.getElem?_of_mem hp'
    have hnext : (Item.mk q d).next? g = some p'.lhs := by
      rw [Item.next?, Grammar.rhs_eq hq, ← List.head?_drop, hrhs]
      rfl
    -- what comes behind the head follows it, as the parent's production tells
    have hfollow : (w ++ (v₁ ++ v₂)).headD endId ∈ (FollowTable.of g (FirstTable.of g)).follow p'.lhs := by
      have hsplit : p.rhs = p.rhs.take d ++ p'.lhs :: (xs ++ zs) := by
        rw [← List.cons_append, ← hrhs, List.take_append_drop]
      rw [← List.append_assoc]
      exact FollowTable.headD_mem_follow (List.mem_of_getElem? hq) hsplit (g.fits p' hp').lhs (hw.append hzs) hv
    have hi₀ := Automaton.itemsAt_closed hi hq' hnext
    have hready₀ : (of options checks g).Ready r (w' ++ ([] ++ (w ++ (v₁ ++ v₂)))) := by
      rw [List.append_assoc] at hready
      exact hready
    rcases ih' hq' (by rw [List.drop_zero, List.append_nil]) hi₀ .nil hfollow hready₀ with
      hsucc | ⟨r₁, ss₁, hr₁, hlen₁, hstates₁, hi₁, hready₁⟩
    · exact .inl hsucc
    rw [Nat.zero_add] at hi₁
    obtain ⟨m, hm, him⟩ := Automaton.shifted_mem hi hnext
    have hne : r.stack.states ≠ [] := by
      rw [← List.length_pos_iff, ← Stack.depth_eq]
      exact hready.depth
    rcases exists_ready_reduce hsmall hfree hq' hi₁ hready₁ hfollow hstates₁ hlen₁ hne hm with
      hsucc | ⟨r₂, hr₂, hstates₂, hready₂⟩
    · exact .inl (hsucc.of_reaches hr₁)
    have hrhs₂ : p.rhs.drop (d + 1) = xs ++ zs := by rw [← List.tail_drop, hrhs]; rfl
    have htop : r₂.stack.top = m := by rw [Stack.top, hstates₂]; rfl
    exact .cons (hr₁.trans hr₂) hstates₂ (ih hq hrhs₂ (htop ▸ him) hzs hv hready₂)

/-- The machine that never stops a cycle accepts every sentence. -/
theorem exists_accepted_freely {s : TokenStream} (hw : g.Terminal w) (hder : g.Derives [g.start] w)
    (hs : s.Spells w) : (of options checks g).Succeeds (Run.start s) := by
  obtain ⟨p, hp, hl, hy⟩ := (Grammar.yields_of_derives hder hw).production
    (g.symbols.not_isTerminal_of_isNonterminal g.start_nonterminal)
  obtain ⟨q, hq⟩ := List.getElem?_of_mem hp
  obtain ⟨r₀, hr₀, hstack₀, hready₀⟩ := exists_ready_read hsmall checks (r := Run.start s) rfl Nat.one_pos hs
  have hi₀ : ⟨q, 0⟩ ∈ (Automaton.of options g).itemsAt r₀.stack.top := by
    rw [hstack₀]
    exact Automaton.atStart_mem_itemsAt_zero hq hl
  have hend : ([] : List Nat).headD endId ∈ (FollowTable.of g (FirstTable.of g)).follow p.lhs := by
    rw [hl]
    exact FollowTable.endId_mem_follow_start
  have hrhs : p.rhs.drop 0 = p.rhs ++ [] := by simp
  have hready₀ : (of options checks g).Ready r₀ (w ++ ([] ++ [])) := by simpa using hready₀
  rcases follow_yields hsmall hfree hy hq hrhs hi₀ .nil hend hready₀ with
    hsucc | ⟨r₁, ss, hr₁, hlen, hstates, hi, hready⟩
  · exact hsucc.of_reaches hr₀
  rw [Nat.zero_add] at hi
  rw [hstack₀, show (Run.start s).stack.states = [0] from rfl] at hstates
  have hphase := hready.reducing hsmall hfree hq hi hend
  have hdepth : r₁.stack.depth = p.rhs.length + 1 := by rw [Stack.depth_eq, hstates, List.length_append, hlen]; rfl
  have htakes : (of options checks g).Takes r₁.forget q p.rhs.length p.lhs :=
    ⟨hphase, Tables.length_of hsmall hq, Tables.head_of hsmall hq, Nat.lt_of_succ_le (Nat.le_of_eq hdepth.symm)⟩
  have hc : (of options checks g).completes r₁.forget p.lhs p.rhs.length := by
    refine (completes_of hsmall).mpr ⟨hl, ?_, hdepth, ?_⟩
    · show r₁.current.isEnd
      rw [Token.isEnd, hready.ahead.1]
      rfl
    · show ¬ r₁.stream.hasMore
      rw [TokenStream.hasMore, hready.ahead.2]
      exact Bool.false_ne_true
  refine ⟨_, hr₀.trans (hr₁.trans (.head (step_of_effect (.accept htakes hc)) (.refl _))), rfl⟩

end

end Parser

end ShiftReduce
