import Mathlib.Data.List.Basic
import ShiftReduce.Proofs.Command.World

/-!
# Files keep what was written

`Directory.read_of_write`: a file that was written is read with the bytes that were written.
`Directory.read_of_write_of_ne`: a path to another file is read as before. What a path leads to depends on no file
that is there, as long as it leads anywhere. So a session is a lawful host (`Session.lawful`).
-/

namespace ShiftReduce

/-- New bytes under a key of a list of files are found under this key only. -/
theorem lookup_replace (files : List (String × List UInt8)) (key other : String) (bytes : List UInt8) :
    (files.map fun f => if f.1 == key then (key, bytes) else f).lookup other =
      if other = key then (files.lookup key).map fun _ => bytes else files.lookup other := by
  induction files with
  | nil => simp
  | cons f files ih =>
    obtain ⟨name, old⟩ := f
    by_cases hname : name = key
    · subst hname
      by_cases hother : other = name
      · subst hother
        simp
      · simpa [List.lookup_cons, beq_false_of_ne hother, hother] using ih
    · have hkey : (key == name) = false := beq_false_of_ne (Ne.symm hname)
      by_cases hother : other = name
      · subst hother
        simp [hname]
      · simpa [List.lookup_cons, hname, beq_false_of_ne hother, hkey] using ih

namespace Directory

variable {d d' : Directory} {path other key : String} {bytes content : List UInt8}

theorem lookup_put (d : Directory) (key other : String) (bytes : List UInt8) :
    (d.put key bytes).files.lookup other = if other = key then some bytes else d.files.lookup other := by
  have hany : d.files.any (·.1 == key) = (d.files.lookup key).isSome := by
    rw [Bool.eq_iff_iff, List.lookup_isSome_iff, List.any_eq_true]
    simp only [beq_iff_eq, eq_comm (a := key)]
  rw [put, hany]
  cases hold : d.files.lookup key with
  | some old =>
    rw [Option.isSome_some, if_pos rfl, lookup_replace, hold]
    rfl
  | none =>
    rw [Option.isSome_none, if_neg Bool.false_ne_true, List.lookup_append]
    by_cases hother : other = key
    · subst hother
      simp [hold]
    · simp [hother, List.lookup_cons, beq_false_of_ne hother]

theorem find_eq_ok {base name : String} : d.find base name = .ok content ↔
    name.utf8ByteSize ≤ nameLimit ∧ d.files.lookup (base ++ name) = some content := by
  rw [find]
  by_cases hlong : nameLimit < name.utf8ByteSize
  · simp [hlong, Nat.not_le.mpr hlong]
  · rw [if_neg hlong]
    cases d.files.lookup (base ++ name) <;> simp [Nat.not_lt.mp hlong]

/-- A path that leads anywhere leads there whatever files there are. -/
theorem walk_eq_ok {slashed : Bool} {base : String} {parts : List PathPart} {place : Place}
    (h : d.walk slashed base parts = .ok place) : d'.walk slashed base parts = .ok place := by
  fun_induction walk d slashed base parts with
  | case1 => exact h
  | case2 _ _ ih => exact ih h
  | case3 _ _ ih => exact ih h
  | case4 => exact h
  | case5 => cases h
  | case6 => cases h

theorem locate_eq_ok {place : Place} (h : d.locate path = .ok place) : d'.locate path = .ok place := by
  unfold locate at h ⊢
  split at h
  · cases h
  next hempty =>
  split at h
  · cases h
  next hlong =>
  rw [if_neg hempty, if_neg hlong]
  exact walk_eq_ok h

/-- The name by which a file at a path is kept. -/
def key? (d : Directory) (path : String) : Option String :=
  match d.locate path with
  | .ok (.file base name _) => some (base ++ name)
  | _ => none

theorem read_eq_ok : d.read path = .ok content ↔
    ∃ base name, d.locate path = .ok (.file base name false) ∧ d.find base name = .ok content := by
  rw [read]
  cases d.locate path with
  | error why => simp
  | ok place =>
    cases place with
    | directory => simp
    | file base name slashed =>
      cases slashed <;> cases hfind : d.find base name <;> simp [hfind]

theorem write_eq_ok : d.write path bytes = .ok d' ↔ ∃ base name, d.locate path = .ok (.file base name false) ∧
    name.utf8ByteSize ≤ nameLimit ∧ d' = d.put (base ++ name) bytes := by
  rw [write]
  cases d.locate path with
  | error why => simp
  | ok place =>
    cases place with
    | directory => simp
    | file base name slashed =>
      cases slashed with
      | true => simp
      | false =>
        by_cases hlong : nameLimit < name.utf8ByteSize
        · simp [hlong, Nat.not_le.mpr hlong]
        · simp [hlong, Nat.not_lt.mp hlong, eq_comm (a := d')]

/-- A file is read as it was written. -/
theorem read_of_write (h : d.write path bytes = .ok d') : d'.read path = .ok bytes := by
  obtain ⟨base, name, hlocate, hname, rfl⟩ := write_eq_ok.mp h
  refine read_eq_ok.mpr ⟨base, name, locate_eq_ok hlocate, find_eq_ok.mpr ⟨hname, ?_⟩⟩
  rw [lookup_put, if_pos rfl]

/-- The other files are read as before. -/
theorem read_of_write_of_ne (h : d.write path bytes = .ok d') (hne : d.key? other ≠ d.key? path)
    (hread : d.read other = .ok content) : d'.read other = .ok content := by
  obtain ⟨base, name, hlocate, -, rfl⟩ := write_eq_ok.mp h
  obtain ⟨base', name', hlocate', hfind⟩ := read_eq_ok.mp hread
  obtain ⟨hname, hlookup⟩ := find_eq_ok.mp hfind
  have hkey : base' ++ name' ≠ base ++ name := by
    simpa only [key?, hlocate, hlocate', ne_eq, Option.some.injEq] using hne
  refine read_eq_ok.mpr ⟨base', name', locate_eq_ok hlocate', find_eq_ok.mpr ⟨hname, ?_⟩⟩
  rw [lookup_put, if_neg hkey, hlookup]

end Directory

/-- Sessions as worlds. A path leads to the file that it is kept by. -/
def Session.worlds : Worlds (StateM Session) where
  World := Session
  Files := Directory
  run x s := Id.run (x.run s)
  files := Session.directory
  printed := Session.printed
  content := Directory.read
  Writable d path := ∀ bytes, ∃ d', d.write path bytes = .ok d'
  Same d path other := d.key? path = d.key? other

theorem Session.run_write {s : Session} {path : String} {bytes : List UInt8} {d : Directory}
    (h : s.directory.write path bytes = .ok d) :
    worlds.run (host.write path bytes) s = (.ok (), { s with directory := d }) := by
  simp [worlds, host, h]

theorem Session.lawful : Session.host.Lawful Session.worlds where
  run_pure _ _ := rfl
  run_bind _ _ _ := rfl
  read _ _ := rfl
  files_read _ _ := rfl
  printed_read _ _ := rfl
  files_print _ _ := rfl
  printed_print _ _ := rfl
  write {_ s} h bytes := by
    obtain ⟨d, hd⟩ := h bytes
    rw [run_write (s := s) hd]
  content_write {_ s} h bytes := by
    obtain ⟨d, hd⟩ := h bytes
    rw [run_write (s := s) hd]
    exact Directory.read_of_write hd
  content_write_of_not_same {_ _ s bytes _} h hother hcontent := by
    obtain ⟨d, hd⟩ := h bytes
    rw [run_write (s := s) hd]
    exact Directory.read_of_write_of_ne hd hother hcontent

end ShiftReduce
