import Mathlib.Data.List.Forall2
import Mathlib.Data.List.Induction
import Mathlib.Data.List.Nodup

/-! # Pairs by key

A list of pairs as an unordered collection of members, where the last member takes the place of one
that is removed (`swapRemove`), and the values of a list of pairs by key (`groups`): each key once,
in the order of the first occurrences, with its values in their order. -/

namespace HfiWebserver.Lib.Groups

variable {κ ν μ : Type} [BEq κ] [LawfulBEq κ]

/-! ### Members -/

/-- The first member with a key is the one that `lookup` finds. -/
theorem exists_of_lookup {k : κ} {v : ν} {l : List (κ × ν)} (h : l.lookup k = some v) :
    ∃ pre post, l = pre ++ (k, v) :: post ∧ k ∉ pre.map Prod.fst := by
  induction l with
  | nil => cases h
  | cons m l ih =>
    obtain ⟨k', w⟩ := m
    by_cases hk : k = k'
    · subst hk
      rw [List.lookup_cons_self] at h
      cases h
      exact ⟨[], l, rfl, by simp⟩
    · rw [List.lookup_cons, beq_false_of_ne hk] at h
      obtain ⟨pre, post, rfl, hno⟩ := ih h
      exact ⟨(k', w) :: pre, post, rfl, by simpa [hk] using hno⟩

theorem lookup_isSome {k : κ} {l : List (κ × ν)} (h : k ∈ l.map Prod.fst) :
    ∃ v, l.lookup k = some v := by
  induction l with
  | nil => simp at h
  | cons m l ih =>
    obtain ⟨k', w⟩ := m
    by_cases hk : k = k'
    · exact ⟨w, by rw [hk, List.lookup_cons_self]⟩
    · rw [List.lookup_cons, beq_false_of_ne hk]
      refine ih ?_
      rw [List.map_cons, List.mem_cons] at h
      exact h.resolve_left hk

/-- The members without the first one with key `k`; the last takes its place. -/
def swapRemove (k : κ) (l : List (κ × ν)) : List (κ × ν) :=
  match l.findIdx? (fun m => m.1 == k), l.getLast? with
  | some i, some last => (l.set i last).dropLast
  | _, _ => l

theorem perm_swapRemove {k : κ} {v : ν} {l : List (κ × ν)} (h : l.lookup k = some v) :
    l.Perm ((k, v) :: swapRemove k l) := by
  obtain ⟨pre, post, rfl, hno⟩ := exists_of_lookup h
  have hfind : (pre ++ (k, v) :: post).findIdx? (fun m => m.1 == k) = some pre.length := by
    have hpre : pre.findIdx? (fun m => m.1 == k) = none := by
      rw [List.findIdx?_eq_none_iff]
      intro m hm
      refine beq_false_of_ne ?_
      rintro rfl
      exact hno (List.mem_map_of_mem hm)
    rw [List.findIdx?_append, hpre, List.findIdx?_cons]
    simp
  rcases List.eq_nil_or_concat post with rfl | ⟨mid, last, rfl⟩
  · rw [swapRemove, hfind, List.getLast?_concat]
    simp
  · have hlast : (pre ++ (k, v) :: (mid ++ [last])).getLast? = some last := by
      rw [← List.cons_append, ← List.append_assoc, List.getLast?_concat]
    have hset : ((pre ++ (k, v) :: (mid ++ [last])).set pre.length last).dropLast =
        pre ++ last :: mid := by
      rw [List.set_append_right _ _ (Nat.le_refl _), Nat.sub_self, List.set_cons_zero,
        ← List.cons_append, ← List.append_assoc, List.dropLast_concat]
    rw [List.concat_eq_append] at hfind ⊢
    rw [swapRemove, hfind, hlast]
    simp only [hset]
    calc (pre ++ (k, v) :: (mid ++ [last])).Perm ((k, v) :: (pre ++ (mid ++ [last]))) :=
          List.perm_middle
      _ |>.Perm ((k, v) :: (pre ++ last :: mid)) :=
          ((List.perm_append_singleton last mid).append_left pre).cons (k, v)

/-! ### Groups -/

/-- Adds a value to the group of its key. -/
def put (k : κ) (v : ν) : List (κ × List ν) → List (κ × List ν)
  | [] => [(k, [v])]
  | (k', vs) :: gs => if k' == k then (k', vs ++ [v]) :: gs else (k', vs) :: put k v gs

def groups (l : List (κ × ν)) : List (κ × List ν) := l.foldl (fun gs m => put m.1 m.2 gs) []

variable {k : κ} {v : ν} {l : List (κ × ν)} {gs : List (κ × List ν)}

omit [LawfulBEq κ] in
theorem groups_concat : groups (l ++ [(k, v)]) = put k v (groups l) := by
  rw [groups, List.foldl_append]
  rfl

theorem put_of_not_mem (h : k ∉ gs.map Prod.fst) : put k v gs = gs ++ [(k, [v])] := by
  induction gs with
  | nil => rfl
  | cons g gs ih =>
    obtain ⟨k', vs⟩ := g
    rw [List.map_cons, List.mem_cons, not_or] at h
    rw [put, if_neg (by simpa using Ne.symm h.1), ih h.2, List.cons_append]

theorem put_of_mem {vs : List ν} {pre post : List (κ × List ν)} (h : k ∉ pre.map Prod.fst) :
    put k v (pre ++ (k, vs) :: post) = pre ++ (k, vs ++ [v]) :: post := by
  induction pre with
  | nil => rw [List.nil_append, put, if_pos (beq_self_eq_true k), List.nil_append]
  | cons g pre ih =>
    obtain ⟨k', us⟩ := g
    rw [List.map_cons, List.mem_cons, not_or] at h
    rw [List.cons_append, put, if_neg (by simpa using Ne.symm h.1), ih h.2, List.cons_append]

/-- The two cases of `put`. -/
theorem put_cases (k : κ) (v : ν) (gs : List (κ × List ν)) :
    (k ∉ gs.map Prod.fst ∧ put k v gs = gs ++ [(k, [v])]) ∨
      ∃ pre vs post, gs = pre ++ (k, vs) :: post ∧ put k v gs = pre ++ (k, vs ++ [v]) :: post := by
  by_cases h : k ∈ gs.map Prod.fst
  · obtain ⟨vs, hvs⟩ := lookup_isSome h
    obtain ⟨pre, post, rfl, hno⟩ := exists_of_lookup hvs
    exact Or.inr ⟨pre, vs, post, rfl, put_of_mem hno⟩
  · exact Or.inl ⟨h, put_of_not_mem h⟩

theorem nodup_put (h : (gs.map Prod.fst).Nodup) : ((put k v gs).map Prod.fst).Nodup := by
  rcases put_cases k v gs with ⟨hno, hput⟩ | ⟨pre, vs, post, rfl, hput⟩
  · rw [hput, List.map_append, List.map_singleton, ← List.concat_eq_append]
    exact List.Nodup.concat hno h
  · rw [hput]
    simpa using h

theorem nodup_groups (l : List (κ × ν)) : ((groups l).map Prod.fst).Nodup := by
  induction l using List.reverseRecOn with
  | nil => exact List.nodup_nil
  | append_singleton l m ih =>
    obtain ⟨k, v⟩ := m
    rw [groups_concat]
    exact nodup_put ih

theorem mem_keys_put {k' : κ} : k' ∈ (put k v gs).map Prod.fst ↔ k' ∈ gs.map Prod.fst ∨ k' = k := by
  rcases put_cases k v gs with ⟨-, hput⟩ | ⟨pre, vs, post, rfl, hput⟩
  · rw [hput]
    simp
  · rw [hput]
    simp
    tauto

theorem mem_keys_groups : k ∈ (groups l).map Prod.fst ↔ k ∈ l.map Prod.fst := by
  induction l using List.reverseRecOn with
  | nil => rfl
  | append_singleton l m ih =>
    obtain ⟨k', v⟩ := m
    rw [groups_concat, mem_keys_put, ih]
    simp

/-- A group holds values of its key, at least one. -/
theorem of_mem_groups {vs : List ν} (h : (k, vs) ∈ groups l) :
    vs ≠ [] ∧ ∀ v ∈ vs, (k, v) ∈ l := by
  induction l using List.reverseRecOn generalizing k vs with
  | nil => cases h
  | append_singleton l m ih =>
    obtain ⟨k', v⟩ := m
    have hmono : ∀ {us : List ν}, (∀ u ∈ us, (k, u) ∈ l) → ∀ u ∈ us, (k, u) ∈ l ++ [(k', v)] :=
      fun hus u hu => List.mem_append_left _ (hus u hu)
    rw [groups_concat] at h
    rcases put_cases k' v (groups l) with ⟨-, hput⟩ | ⟨pre, us, post, hgs, hput⟩
    · rw [hput, List.mem_append, List.mem_singleton] at h
      rcases h with h | h
      · exact ⟨(ih h).1, hmono (ih h).2⟩
      · cases h
        simp
    · have hold : ∀ g ∈ pre ++ post, g ∈ groups l := by
        intro g hg
        rw [hgs]
        simp only [List.mem_append, List.mem_cons] at hg ⊢
        tauto
      rw [hput] at h
      by_cases hg : (k, vs) ∈ pre ++ post
      · exact ⟨(ih (hold _ hg)).1, hmono (ih (hold _ hg)).2⟩
      · simp only [List.mem_append, List.mem_cons] at h hg
        obtain ⟨rfl, rfl⟩ : k = k' ∧ vs = us ++ [v] := by
          have heq : (k, vs) = (k', us ++ [v]) := by tauto
          cases heq
          exact ⟨rfl, rfl⟩
        have hmem : (k, us) ∈ groups l := by
          rw [hgs]
          simp
        refine ⟨by simp, fun u hu => ?_⟩
        rcases List.mem_append.mp hu with hu | hu
        · exact hmono (ih hmem).2 u hu
        · rw [List.mem_singleton.mp hu]
          simp

/-- Pairs with the same keys and related values. -/
def Alike (R : ν → μ → Prop) (a : κ × ν) (b : κ × μ) : Prop := a.1 = b.1 ∧ R a.2 b.2

omit [LawfulBEq κ] in
theorem put_alike {R : ν → μ → Prop} {w : μ} {hs : List (κ × List μ)} (hv : R v w)
    (h : List.Forall₂ (Alike (List.Forall₂ R)) gs hs) :
    List.Forall₂ (Alike (List.Forall₂ R)) (put k v gs) (put k w hs) := by
  induction h with
  | nil => exact .cons ⟨rfl, .cons hv .nil⟩ .nil
  | @cons g g' gs hs hg _ ih =>
    obtain ⟨k1, vs⟩ := g
    obtain ⟨k2, ws⟩ := g'
    obtain ⟨rfl, hvs⟩ : k1 = k2 ∧ List.Forall₂ R vs ws := hg
    by_cases hk : (k1 == k) = true
    · rw [put, put, if_pos hk, if_pos hk]
      exact .cons ⟨rfl, List.rel_append hvs (.cons hv .nil)⟩ ‹_›
    · rw [put, put, if_neg hk, if_neg hk]
      exact .cons ⟨rfl, hvs⟩ ih

omit [LawfulBEq κ] in
/-- Groups of related values. -/
theorem groups_alike {R : ν → μ → Prop} {l' : List (κ × μ)} (h : List.Forall₂ (Alike R) l l') :
    List.Forall₂ (Alike (List.Forall₂ R)) (groups l) (groups l') := by
  have hfold : ∀ {gs : List (κ × List ν)} {hs : List (κ × List μ)},
      List.Forall₂ (Alike (List.Forall₂ R)) gs hs → List.Forall₂ (Alike (List.Forall₂ R))
        (l.foldl (fun gs m => put m.1 m.2 gs) gs) (l'.foldl (fun gs m => put m.1 m.2 gs) hs) := by
    induction h with
    | nil => exact id
    | @cons m m' l l' hm _ ih =>
      intro gs hs hgs
      obtain ⟨k1, v⟩ := m
      obtain ⟨k2, w⟩ := m'
      obtain ⟨rfl, hv⟩ : k1 = k2 ∧ R v w := hm
      exact ih (put_alike hv hgs)
  exact hfold .nil

end HfiWebserver.Lib.Groups
