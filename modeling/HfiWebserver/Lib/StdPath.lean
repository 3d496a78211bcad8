import HfiWebserver.Lib.ByteStrings

/-! # Lexical paths

The path functions of `std::path` on Unix, which work on the text of a path only: `components`
splits at `/` and drops empty and `.` components (a leading `.` of a relative path stays), two paths
are equal when their components are, `join` appends a relative path and lets an absolute one replace
the base, `parent` drops the last component, and `file_stem` and `extension` split the last
component at its last dot.

* `components_join`: joining a relative path appends its components;
* `components_join_name`, `file_name_join`, `parent_join`: the same for the name of a directory
  entry, whose join is a direct child of the directory. -/

namespace HfiWebserver.Lib.StdPath

open HfiWebserver.Lib.ByteStrings

/-- The separator `/`. -/
def sep : UInt8 := 47

/-- The dot of `.`, `..` and of extensions. -/
def dot : UInt8 := 46

inductive Component
  | rootDir
  | curDir
  | parentDir
  | normal (name : Bytes)
  deriving DecidableEq, Repr

/-- The component a segment between two separators stands for, if any. -/
def component (s : Bytes) : Option Component :=
  if s = [] ∨ s = [dot] then none
  else if s = [dot, dot] then some .parentDir
  else some (.normal s)

/-- What comes before the segments: the root, or a leading `.`. -/
def lead (p : Bytes) : List Component :=
  if p.head? = some sep then [.rootDir]
  else if (p.splitOn sep).head? = some [dot] then [.curDir]
  else []

/-- **The components of a path.** -/
def components (p : Bytes) : List Component := lead p ++ (p.splitOn sep).filterMap component

/-- `Path::join`. -/
def join (p f : Bytes) : Bytes :=
  if f.head? = some sep then f
  else if p = [] ∨ p.getLast? = some sep then p ++ f
  else p ++ sep :: f

/-- `Path::parent`, by its components. -/
def parent (p : Bytes) : Option (List Component) :=
  match (components p).getLast? with
  | none => none
  | some .rootDir => none
  | some _ => some (components p).dropLast

/-- `Path::file_name`. -/
def file_name (p : Bytes) : Option Bytes :=
  match (components p).getLast? with
  | some (.normal n) => some n
  | _ => none

/-- A file name split at its last dot; a leading dot does not count. -/
def rsplit_file_at_dot (file : Bytes) : Option Bytes × Option Bytes :=
  if file = [dot, dot] then (some file, none)
  else match rsplit dot file with
    | none => (none, some file)
    | some ([], _) => (some file, none)
    | some (before, after) => (some before, some after)

/-- `Path::file_stem`. -/
def file_stem (p : Bytes) : Option Bytes :=
  (file_name p).bind fun f => (rsplit_file_at_dot f).1 <|> (rsplit_file_at_dot f).2

/-- `Path::extension`. -/
def extension (p : Bytes) : Option Bytes :=
  (file_name p).bind fun f => (rsplit_file_at_dot f).1.bind fun _ => (rsplit_file_at_dot f).2

/-! ### Components of a join -/

theorem splitOn_head_append (d f : Bytes) :
    ((d ++ sep :: f).splitOn sep).head? = (d.splitOn sep).head? := by
  rw [List.splitOn_append_cons_self]
  obtain ⟨s, ss, hs⟩ := List.exists_cons_of_ne_nil (List.splitOn_ne_nil sep d)
  rw [hs]; rfl

theorem component_nil : component [] = none := by simp [component]

theorem components_sep (d f : Bytes) (hd : d ≠ []) :
    components (d ++ sep :: f) = components d ++ (f.splitOn sep).filterMap component := by
  have hhead : (d ++ sep :: f).head? = d.head? := by
    obtain ⟨a, d, rfl⟩ := List.exists_cons_of_ne_nil hd; rfl
  unfold components lead
  rw [splitOn_head_append, hhead, List.splitOn_append_cons_self, List.filterMap_append,
    List.append_assoc]

theorem components_root (f : Bytes) :
    components (sep :: f) = .rootDir :: (f.splitOn sep).filterMap component := by
  have h : (sep :: f).splitOn sep = [] :: f.splitOn sep := by
    simpa using List.splitOn_append_cons_self (a := sep) [] f
  simp [components, lead, h, component_nil]

/-- A relative path that does not start with a `.` component. -/
def Plain (f : Bytes) : Prop := f.head? ≠ some sep ∧ (f.splitOn sep).head? ≠ some [dot]

theorem Plain.components {f : Bytes} (hf : Plain f) :
    components f = (f.splitOn sep).filterMap component := by
  simp [StdPath.components, lead, hf.1, hf.2]

/-- **Joining a relative path appends its components.** -/
theorem components_join {d f : Bytes} (hf : Plain f) :
    components (join d f) = components d ++ (f.splitOn sep).filterMap component := by
  unfold join
  rw [if_neg hf.1]
  by_cases hd : d = []
  · subst hd
    rw [if_pos (Or.inl rfl), List.nil_append, hf.components]; rfl
  · by_cases hl : d.getLast? = some sep
    · rw [if_pos (Or.inr hl)]
      obtain ⟨e, rfl⟩ := List.getLast?_eq_some_iff.mp hl
      rw [List.append_assoc, List.singleton_append]
      by_cases he : e = []
      · subst he
        rw [List.nil_append, List.nil_append, components_root, components_root]
        simp [component_nil]
      · rw [components_sep e f he, components_sep e [] he]
        simp [component_nil]
    · rw [if_neg (by simp [hd, hl]), components_sep d f hd]

/-! ### File names have no separator -/

theorem not_mem_of_mem_splitOn {x : UInt8} : ∀ {l s : Bytes}, s ∈ l.splitOn x → x ∉ s
  | [], s, h => by
    rw [List.splitOn_nil, List.mem_singleton] at h
    simp [h]
  | c :: l, s, h => by
    have ih := fun s => not_mem_of_mem_splitOn (x := x) (l := l) (s := s)
    rw [List.splitOn_cons_eq_if_modifyHead] at h
    obtain ⟨t, ts, hts⟩ := List.exists_cons_of_ne_nil (List.splitOn_ne_nil x l)
    rw [hts] at h ih
    split_ifs at h with hc
    · rcases List.mem_cons.mp h with rfl | h
      · simp
      · exact ih s h
    · rcases List.mem_cons.mp h with rfl | h
      · have hxt := ih t (by simp)
        have hxc : x ≠ c := by rintro rfl; simp at hc
        simp [hxt, hxc]
      · exact ih s (by simp [h])

theorem no_sep_of_file_name {p n : Bytes} (h : file_name p = some n) : sep ∉ n := by
  have hn : .normal n ∈ components p := by
    unfold file_name at h
    split at h
    · next hl =>
      rw [Option.some.injEq] at h
      rw [← h]
      exact List.mem_of_getLast? hl
    · simp at h
  have hseg : .normal n ∈ (p.splitOn sep).filterMap component := by
    unfold components lead at hn
    split_ifs at hn <;> simpa using hn
  obtain ⟨s, hs, hc⟩ := List.mem_filterMap.mp hseg
  unfold component at hc
  split_ifs at hc
  · cases hc
  · cases hc
    exact not_mem_of_mem_splitOn hs

/-- The stem and the extension are parts of the name. -/
theorem no_sep_of_file_stem {p s : Bytes} (h : file_stem p = some s) : sep ∉ s := by
  obtain ⟨n, hn, hs⟩ := Option.bind_eq_some_iff.mp h
  have hsep := no_sep_of_file_name hn
  unfold rsplit_file_at_dot at hs
  split_ifs at hs with hd
  · cases hs
    exact hsep
  · rcases hr : rsplit dot n with _ | ⟨_ | ⟨c, b⟩, a⟩ <;> rw [hr] at hs
    · cases hs
      exact hsep
    · cases hs
      exact hsep
    · cases hs
      rw [eq_of_rsplit hr] at hsep
      exact fun hmem => hsep (List.mem_append_left _ hmem)

/-! ### Directory entries -/

/-- **The name of a directory entry**: one component, not `.` or `..`. -/
structure EntryName where
  name : Bytes
  ne_nil : name ≠ []
  no_sep : sep ∉ name
  ne_dot : name ≠ [dot]
  ne_dotdot : name ≠ [dot, dot]
  deriving DecidableEq

theorem head_ne_sep {f : Bytes} (hs : sep ∉ f) : f.head? ≠ some sep :=
  fun h => hs (List.mem_of_mem_head? h)

theorem plain_of_no_sep {f : Bytes} (hs : sep ∉ f) (hd : f ≠ [dot]) : Plain f := by
  refine ⟨head_ne_sep hs, ?_⟩
  rw [List.splitOn_eq_singleton hs]
  simpa using hd

namespace EntryName

variable (n : EntryName)

theorem component_name : component n.name = some (.normal n.name) := by
  simp [component, n.ne_nil, n.ne_dot, n.ne_dotdot]

theorem components_join_name (d : Bytes) :
    components (join d n.name) = components d ++ [.normal n.name] := by
  rw [components_join (plain_of_no_sep n.no_sep n.ne_dot), List.splitOn_eq_singleton n.no_sep]
  simp [n.component_name]

/-- **The entry's path is a direct child of the directory.** -/
theorem parent_join (d : Bytes) : parent (join d n.name) = some (components d) := by
  simp [parent, n.components_join_name d]

@[simp] theorem file_name_join (d : Bytes) : file_name (join d n.name) = some n.name := by
  simp [file_name, n.components_join_name d]

@[simp] theorem file_stem_join (d : Bytes) : file_stem (join d n.name) =
    ((rsplit_file_at_dot n.name).1 <|> (rsplit_file_at_dot n.name).2) := by
  simp [file_stem]

@[simp] theorem extension_join (d : Bytes) : extension (join d n.name) =
    (rsplit_file_at_dot n.name).1.bind fun _ => (rsplit_file_at_dot n.name).2 := by
  simp [extension]

end EntryName

theorem exists_join_eq (p f : Bytes) : ∃ pre, join p f = pre ++ f := by
  unfold join
  split_ifs
  · exact ⟨[], rfl⟩
  · exact ⟨p, rfl⟩
  · exact ⟨p ++ [sep], by simp⟩

/-- **The file name of a path is what stands after its last separator**, if that is a name. -/
theorem EntryName.file_name_append_sep (n : EntryName) (d : Bytes) :
    file_name (d ++ sep :: n.name) = some n.name := by
  have hlast : (n.name.splitOn sep).filterMap component = [.normal n.name] := by
    rw [List.splitOn_eq_singleton n.no_sep]
    simp [n.component_name]
  by_cases hd : d = []
  · subst hd
    simp [file_name, components_root, hlast]
  · simp [file_name, components_sep d n.name hd, hlast]

/-- A stem and an extension are split back. -/
theorem rsplit_file_at_dot_append {s e : Bytes} (hs : s ≠ []) (he : dot ∉ e) (he' : e ≠ []) :
    rsplit_file_at_dot (s ++ dot :: e) = (some s, some e) := by
  have hne : s ++ dot :: e ≠ [dot, dot] := by
    intro h
    have hlast := congrArg List.getLast? h
    rw [List.getLast?_append_cons] at hlast
    obtain ⟨a, e, rfl⟩ := List.exists_cons_of_ne_nil he'
    rw [List.getLast?_cons_cons] at hlast
    exact he (List.mem_of_getLast? hlast)
  unfold rsplit_file_at_dot
  rw [if_neg hne, rsplit_append_cons he]
  rcases s with _ | ⟨a, s⟩
  · exact absurd rfl hs
  · rfl

/-- A name with an extension is its stem, a dot and the extension. -/
theorem eq_of_extension {f e : Bytes} (h : (rsplit_file_at_dot f).1.bind
      (fun _ => (rsplit_file_at_dot f).2) = some e) :
    ∃ s, s ≠ [] ∧ f = s ++ dot :: e ∧ (rsplit_file_at_dot f).1 = some s := by
  unfold rsplit_file_at_dot at h ⊢
  split_ifs at h ⊢ with hf
  · simp at h
  · rcases hr : rsplit dot f with _ | ⟨b, a⟩
    · simp [hr] at h
    · rcases b with _ | ⟨c, b⟩
      · simp [hr] at h
      · simp only [hr, Option.bind_some, Option.some.injEq] at h ⊢
        exact ⟨c :: b, by simp, by rw [eq_of_rsplit hr, h], rfl⟩

end HfiWebserver.Lib.StdPath
