import Mathlib.Data.List.Induction
import ShiftReduce.Token.Basic

/-!
# What a stream hands out

A stream hands out the tokens that it holds, one call after the other (`TokenStream.draw`), and then the end token for
ever (`TokenStream.handsOut_pending`). So where no end token has been handed out before, the last token was in the stream
or the stream is at its end (`TokenStream.Gives.pending_eq`).
-/

namespace ShiftReduce.TokenStream

/-- Without an end token nothing is left out. -/
theorem ofTokens_eq {ts : List Token} (h : ∀ t ∈ ts, ¬ t.isEnd) : ofTokens ts = ⟨ts⟩ := by
  have hlast : ¬ ts.getLast?.any Token.isEnd := by
    intro hany
    obtain ⟨t, ht, hend⟩ := (Option.any_eq_true _ _).mp hany
    exact h t (List.mem_of_getLast? ht) hend
  rw [ofTokens, if_neg hlast]

/-- The first `k` tokens that a stream hands out, one call after the other, and the stream behind them. -/
def draw (s : TokenStream) : Nat → List Token × TokenStream
  | 0 => ([], s)
  | k + 1 =>
    let (ts, s') := s.draw k
    (ts ++ [s'.next.1], s'.next.2)

theorem draw_succ {s s' : TokenStream} {k : Nat} {ts : List Token} (h : s.draw k = (ts, s')) :
    s.draw (k + 1) = (ts ++ [s'.next.1], s'.next.2) := by
  simp [draw, h]

theorem length_draw (s : TokenStream) (k : Nat) : (s.draw k).1.length = k := by
  induction k with
  | zero => rfl
  | succ k ih => rw [draw_succ rfl, List.length_append, ih, List.length_singleton]

theorem draw_append (ts us : List Token) : (TokenStream.mk (ts ++ us)).draw ts.length = (ts, ⟨us⟩) := by
  induction ts using List.reverseRecOn generalizing us with
  | nil => rfl
  | append_singleton ts t ih =>
    have hdraw := ih (t :: us)
    rw [List.append_assoc, List.length_append]
    exact draw_succ hdraw

theorem draw_of_le {s : TokenStream} {k : Nat} (h : k ≤ s.pending.length) :
    s.draw k = (s.pending.take k, ⟨s.pending.drop k⟩) := by
  have hdraw := draw_append (s.pending.take k) (s.pending.drop k)
  rwa [List.take_append_drop, List.length_take_of_le h] at hdraw

/-- Beyond its end a stream hands out end tokens. -/
theorem draw_length_add (s : TokenStream) (k : Nat) :
    s.draw (s.pending.length + k) = (s.pending ++ List.replicate k .eof, ⟨[]⟩) := by
  induction k with
  | zero => simp [draw_of_le (Nat.le_refl s.pending.length)]
  | succ k ih =>
    rw [List.replicate_succ', ← List.append_assoc]
    exact draw_succ ih

/-- The stream hands out these tokens and then the end token for ever, and it has more as long as one of them is left. -/
structure HandsOut (s : TokenStream) (ts : List Token) : Prop where
  draws : ∀ k, (s.draw (ts.length + k)).1 = ts ++ List.replicate k .eof
  hasMore_iff : ∀ k, (s.draw k).2.hasMore ↔ k < ts.length

theorem handsOut_pending (s : TokenStream) : s.HandsOut s.pending where
  draws k := by rw [draw_length_add]
  hasMore_iff k := by
    rcases Nat.lt_or_ge k s.pending.length with hlt | hge
    · refine iff_of_true ?_ hlt
      rw [draw_of_le (Nat.le_of_lt hlt), hasMore, Bool.not_eq_true', List.isEmpty_eq_false_iff]
      exact fun hnil => absurd (List.drop_eq_nil_iff.mp hnil) (Nat.not_le.mpr hlt)
    · obtain ⟨j, rfl⟩ := Nat.exists_eq_add_of_le hge
      refine iff_of_false ?_ (Nat.not_lt.mpr hge)
      rw [draw_length_add]
      exact Bool.false_ne_true

/-- The stream hands out these tokens and is then the other one. -/
def Gives (s : TokenStream) (ts : List Token) (s' : TokenStream) : Prop :=
  ∃ k, s.pending ++ List.replicate k .eof = ts ++ s'.pending ∧ (0 < k → s'.pending = [])

theorem gives_draw (s : TokenStream) (k : Nat) : s.Gives (s.draw k).1 (s.draw k).2 := by
  rcases Nat.le_total k s.pending.length with hle | hge
  · rw [draw_of_le hle]
    exact ⟨0, by simp, by simp⟩
  · obtain ⟨j, rfl⟩ := Nat.exists_eq_add_of_le hge
    rw [draw_length_add]
    exact ⟨j, by simp, fun _ => rfl⟩

/-- If no end token comes before the last token handed out, then this one was in the stream, or the stream
was at its end before. -/
theorem Gives.pending_eq {s s' : TokenStream} {ts : List Token} {t : Token} (h : s.Gives (ts ++ [t]) s')
    (hts : ∀ u ∈ ts, ¬ u.isEnd) : s.pending = ts ++ t :: s'.pending ∨ s.pending = ts ∧ t = .eof ∧ s'.pending = [] := by
  obtain ⟨k, hk, hend⟩ := h
  rcases k with - | k
  · exact .inl (by simpa using hk)
  · have hnil := hend k.succ_pos
    rw [hnil, List.append_nil, List.replicate_succ', ← List.append_assoc] at hk
    obtain ⟨hk, ht⟩ := List.append_inj' hk rfl
    have hk0 : k = 0 := by
      rcases k with - | k
      · rfl
      · refine absurd ?_ (hts .eof ?_)
        · rfl
        · rw [← hk, List.replicate_succ]
          simp
    subst hk0
    exact .inr ⟨by simpa using hk, (List.cons.inj ht).1.symm, hnil⟩

end ShiftReduce.TokenStream
