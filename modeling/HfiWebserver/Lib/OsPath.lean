import HfiWebserver.Lib.StdPath

/-! # File names in Python

The string and path functions of Python a script takes file names apart with: `endswith` and `rfind`
on strings, `basename` and `splitext` of `os.path`. `os.path.join` is `StdPath.join`.

* `rfind_append`: a suffix is found where it starts;
* `basename_join`: the name of a directory entry is read back from its path;
* `splitext_append`: a stem and an extension are split back. -/

namespace HfiWebserver.Lib.OsPath

open HfiWebserver.Lib.ByteStrings HfiWebserver.Lib.StdPath

/-- `s.endswith(p)`. -/
def endswith (s p : Bytes) : Bool := decide (p <:+ s)

/-- `s.rfind(p)`, with `none` for `-1`. -/
def rfind (p : Bytes) : Bytes → Option ℕ
  | [] => if p = [] then some 0 else none
  | c :: s =>
    match rfind p s with
    | some i => some (i + 1)
    | none => if p <+: c :: s then some 0 else none

/-- `os.path.basename`: what stands after the last separator. -/
def basename (p : Bytes) : Bytes :=
  match rsplit sep p with
  | some (_, name) => name
  | none => p

/-- `os.path.splitext`: the extension starts at the last dot of the last component, unless only dots
stand before it there. -/
def splitext (p : Bytes) : Bytes × Bytes :=
  match rsplit dot p with
  | some (root, ext) =>
    if sep ∉ ext ∧ ∃ c ∈ basename root, c ≠ dot then (root, dot :: ext) else (p, [])
  | none => (p, [])

theorem endswith_iff {s p : Bytes} : endswith s p = true ↔ ∃ w, s = w ++ p := by
  unfold endswith
  rw [decide_eq_true_iff]
  exact exists_congr fun _ => eq_comm

theorem rfind_eq_none {p s : Bytes} (h : s.length < p.length) : rfind p s = none := by
  induction s with
  | nil =>
    have hp : p ≠ [] := by rintro rfl; simp at h
    simp [rfind, hp]
  | cons c s ih =>
    have hlen : s.length + 1 < p.length := by simpa using h
    have hp : ¬ p <+: c :: s := fun hp => by
      have := hp.length_le
      simp only [List.length_cons] at this
      omega
    simp [rfind, ih (by omega), hp]

theorem rfind_self (p : Bytes) : rfind p p = some 0 := by
  rcases p with _ | ⟨c, s⟩
  · rfl
  · have h : rfind (c :: s) s = none := rfind_eq_none (by simp)
    simp [rfind, h]

/-- **A suffix is found where it starts.** -/
theorem rfind_append (w p : Bytes) : rfind p (w ++ p) = some w.length := by
  induction w with
  | nil => exact rfind_self p
  | cons c w ih => simp [rfind, ih]

theorem basename_of_no_sep {n : Bytes} (hn : sep ∉ n) : basename n = n := by
  simp [basename, rsplit_eq_none hn]

theorem basename_append_sep (d : Bytes) {n : Bytes} (hn : sep ∉ n) :
    basename (d ++ sep :: n) = n := by
  simp [basename, rsplit_append_cons hn]

/-- **The name of a directory entry is the last component of its path.** -/
theorem basename_join (d : Bytes) {n : Bytes} (hn : sep ∉ n) : basename (join d n) = n := by
  unfold join
  rw [if_neg (head_ne_sep hn)]
  by_cases hd : d = []
  · subst hd
    rw [if_pos (Or.inl rfl)]
    exact basename_of_no_sep hn
  · by_cases hl : d.getLast? = some sep
    · rw [if_pos (Or.inr hl)]
      obtain ⟨e, rfl⟩ := List.getLast?_eq_some_iff.mp hl
      rw [List.append_assoc, List.singleton_append]
      exact basename_append_sep e hn
    · rw [if_neg (by simp [hd, hl])]
      exact basename_append_sep d hn

/-- **A stem with something else than dots and an extension are split back.** -/
theorem splitext_append {s e : Bytes} (hs : ∃ c ∈ basename s, c ≠ dot) (hsep : sep ∉ e)
    (hdot : dot ∉ e) : splitext (s ++ dot :: e) = (s, dot :: e) := by
  simp only [splitext, rsplit_append_cons hdot]
  rw [if_pos ⟨hsep, hs⟩]

end HfiWebserver.Lib.OsPath
