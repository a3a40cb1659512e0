import Mathlib.Algebra.Group.Nat.Defs
import ShiftReduce.Table.Bytes

/-!
# Bytes come back as what was written

A reader `Reads` what a writer writes when it takes exactly that off the front and leaves what stands behind it;
it then takes nothing else. Words, long words and pairs of words are read so, and as many values as there are
in a list (`many_eq_some`).
-/

namespace ShiftReduce.Bytes

variable {α β : Type} {bytes rest : List UInt8} {count : Nat}

theorem length_ofNat (count n : Nat) : (ofNat count n).length = count := by
  induction count generalizing n with
  | zero => rfl
  | succ count ih => rw [ofNat, List.length_cons, ih]

theorem toNat_ofNat (count n : Nat) : toNat (ofNat count n) = n % 256 ^ count := by
  induction count generalizing n with
  | zero => rw [ofNat, toNat, Nat.pow_zero, Nat.mod_one]
  | succ count ih =>
    have hbyte : (UInt8.ofNat (n % 256)).toNat = n % 256 :=
      UInt8.toNat_ofNat_of_lt' (Nat.mod_lt n (by decide))
    rw [ofNat, toNat, ih, hbyte, Nat.pow_succ', Nat.mod_mul]

theorem ofNat_toNat (bytes : List UInt8) : ofNat bytes.length (toNat bytes) = bytes := by
  induction bytes with
  | nil => rfl
  | cons b bytes ih =>
    have hlow : (b.toNat + 256 * toNat bytes) % 256 = b.toNat := by
      rw [Nat.add_mul_mod_self_left, Nat.mod_eq_of_lt b.toNat_lt]
    have hhigh : (b.toNat + 256 * toNat bytes) / 256 = toNat bytes := by
      rw [Nat.add_mul_div_left _ _ (by decide), Nat.div_eq_of_lt b.toNat_lt, Nat.zero_add]
    rw [List.length_cons, ofNat, toNat, hlow, hhigh, ih, UInt8.ofNat_toNat]

theorem toNat_lt (bytes : List UInt8) : toNat bytes < 256 ^ bytes.length := by
  induction bytes with
  | nil => exact Nat.one_pos
  | cons b bytes ih =>
    have hb := b.toNat_lt
    rw [toNat, List.length_cons, Nat.pow_succ']
    omega

theorem take_eq_some {taken : List UInt8} :
    take count bytes = some (taken, rest) ↔ taken.length = count ∧ bytes = taken ++ rest := by
  induction count generalizing bytes taken rest with
  | zero =>
    rw [take, List.length_eq_zero_iff, Option.some.injEq, Prod.mk.injEq, eq_comm]
    refine and_congr_right ?_
    rintro rfl
    rfl
  | succ count ih =>
    cases bytes with
    | nil => cases taken <;> simp [take]
    | cons b bytes =>
      have hfront : take (count + 1) (b :: bytes) =
          (take count bytes).map fun front => (b :: front.1, front.2) := by
        rw [take]
        cases take count bytes <;> rfl
      simp only [hfront, Option.map_eq_some_iff, Prod.exists, ih, Prod.mk.injEq]
      constructor
      · rintro ⟨front, _, ⟨rfl, rfl⟩, rfl, rfl⟩
        exact ⟨rfl, rfl⟩
      · rintro ⟨hlen, hbytes⟩
        rcases List.cons_eq_append_iff.mp hbytes with ⟨rfl, -⟩ | ⟨front, rfl, rfl⟩
        · cases hlen
        · exact ⟨front, rest, ⟨Nat.succ.inj hlen, rfl⟩, rfl, rfl⟩

theorem take_eq_none : take count bytes = none ↔ bytes.length < count := by
  constructor
  · intro h
    refine Nat.lt_of_not_le fun hle => ?_
    have hlen : (bytes.take count).length = count := List.length_take_of_le hle
    have hsome := take_eq_some.mpr ⟨hlen, (List.take_append_drop count bytes).symm⟩
    rw [h] at hsome
    cases hsome
  · intro h
    cases htake : take count bytes with
    | none => rfl
    | some found =>
      obtain ⟨hlen, hbytes⟩ := take_eq_some.mp htake
      rw [hbytes, List.length_append] at h
      omega

/-- The reader takes off what is written of a value, whatever stands behind it, and takes nothing else. -/
def Reads (reader : Reader α) (write : α → List UInt8) : Prop :=
  ∀ bytes value rest, reader bytes = some (value, rest) ↔ bytes = write value ++ rest

theorem pure_eq_some {value value' : α} :
    (pure value : Reader α) bytes = some (value', rest) ↔ value = value' ∧ bytes = rest := by
  change some (value, bytes) = some (value', rest) ↔ _
  rw [Option.some.injEq, Prod.mk.injEq]

theorem bind_eq_some {reader : Reader α} {next : α → Reader β} {result : β × List UInt8} :
    (reader >>= next) bytes = some result ↔
      ∃ value mid, reader bytes = some (value, mid) ∧ next value mid = some result := by
  change (reader bytes).bind (fun found => next found.1 found.2) = some result ↔ _
  rw [Option.bind_eq_some_iff, Prod.exists]

/-- A number is read from its bytes, if it is one of `count` bytes. -/
theorem reads_number {ofNumber : Nat → α} {number : α → Nat} (hof : ∀ value, ofNumber (number value) = value)
    (hlt : ∀ value, number value < 256 ^ count) (hnumber : ∀ n < 256 ^ count, number (ofNumber n) = n) :
    Reads (do return ofNumber (toNat (← take count))) fun value => ofNat count (number value) := by
  intro bytes value rest
  simp only [bind_eq_some, pure_eq_some, take_eq_some]
  constructor
  · rintro ⟨taken, _, ⟨rfl, rfl⟩, rfl, rfl⟩
    rw [hnumber _ (toNat_lt taken), ofNat_toNat]
  · rintro rfl
    refine ⟨_, rest, ⟨length_ofNat _ _, rfl⟩, ?_, rfl⟩
    rw [toNat_ofNat, Nat.mod_eq_of_lt (hlt value), hof]

theorem reads_word : Reads word ofWord :=
  reads_number (fun _ => UInt32.ofNat_toNat) (fun w => w.toNat_lt) fun _ hn => UInt32.toNat_ofNat_of_lt' hn

theorem reads_longWord : Reads longWord ofLongWord :=
  reads_number (fun _ => UInt64.ofNat_toNat) (fun w => w.toNat_lt) fun _ hn => UInt64.toNat_ofNat_of_lt' hn

theorem reads_wordPair : Reads wordPair fun pair => ofWord pair.1 ++ ofWord pair.2 := by
  intro bytes pair rest
  simp only [wordPair, bind_eq_some, pure_eq_some, reads_word _ _ _]
  constructor
  · rintro ⟨first, _, rfl, second, _, rfl, rfl, rfl⟩
    rw [List.append_assoc]
  · rintro rfl
    exact ⟨pair.1, _, List.append_assoc .., pair.2, rest, rfl, rfl, rfl⟩

theorem many_eq_some {reader : Reader α} {write : α → List UInt8} (h : Reads reader write) {values : List α} :
    many reader count bytes = some (values, rest) ↔
      values.length = count ∧ bytes = values.flatMap write ++ rest := by
  induction count generalizing bytes values rest with
  | zero =>
    rw [many, pure_eq_some, List.length_eq_zero_iff, eq_comm]
    refine and_congr_right ?_
    rintro rfl
    rfl
  | succ count ih =>
    simp only [many, bind_eq_some, pure_eq_some, h _ _ _, ih]
    constructor
    · rintro ⟨value, _, rfl, values, _, ⟨rfl, rfl⟩, rfl, rfl⟩
      rw [List.flatMap_cons, List.append_assoc]
      exact ⟨rfl, rfl⟩
    · rintro ⟨hlen, rfl⟩
      cases values with
      | nil => cases hlen
      | cons value values =>
        rw [List.flatMap_cons, List.append_assoc]
        exact ⟨value, _, rfl, values, rest, ⟨Nat.succ.inj hlen, rfl⟩, rfl, rfl⟩

end ShiftReduce.Bytes
