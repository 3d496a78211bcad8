import HfiWebserver.Guest.Template
import HfiWebserver.Lib.Fallible
import Mathlib.Data.Set.Insert

/-! # What a template means

The sections of a tree alternate with texts, so a tree is a `Doc`: a text, or a text, a section with
its contents, and what follows. `Doc.eval` gives its meaning without a map that changes: a loop is
the concatenation of its contents, each under the values with the variable added, and an `if` is its
contents or nothing.

* `render_eq_ok_iff`: rendering any source gives the meaning of its tree, and leaves the values of
  the template as they were;
* `render_faults`: once the source is read, rendering fails only at a `{{name}}` or at a loop
  variable that exists;
* `render_of_scoped`: a template whose names are all in scope, and whose loop variables are not,
  renders. -/

namespace HfiWebserver.Guest.TemplateTree

open HfiWebserver.Lib.ByteStrings HfiWebserver.Lib.Fallible
open HfiWebserver.Lib
open HfiWebserver.Guest.Template

/-- A template over texts `C` and tags `K`. -/
inductive Doc (C K : Type)
  | text (c : C)
  | block (c : C) (k : K) (body rest : Doc C K)

variable {F C K : Type}

/-- The sections of a tree, as `eatSection` adds them. -/
def Doc.sections : Doc Bytes Control → List ControlSection
  | .text c => [.code c]
  | .block c k body rest => .code c :: .block k body.sections :: rest.sections

theorem Doc.sections_injective : ∀ {d e : Doc Bytes Control}, d.sections = e.sections → d = e
  | .text c, .text c', h => by
    simp only [sections, List.cons.injEq, ControlSection.code.injEq] at h
    rw [h.1]
  | .text c, .block c' k' b' r', h => by simp [sections] at h
  | .block c k b r, .text c', h => by simp [sections] at h
  | .block c k b r, .block c' k' b' r', h => by
    simp only [sections, List.cons.injEq, ControlSection.code.injEq,
      ControlSection.block.injEq] at h
    obtain ⟨hc, ⟨hk, hb⟩, hr⟩ := h
    rw [hc, hk, sections_injective hb, sections_injective hr]

/-! ### The meaning of a tree -/

def already_exists (varName : Bytes) : Fault :=
  .render_error (lit "variable " ++ varName ++ lit " already exists in this context")

/-- What a section means, given what its contents mean. -/
def Control.eval [FloatText F] (k : Control) (contents : ValueMap F → Except Fault Bytes)
    (m : ValueMap F) : Except Fault Bytes :=
  match k with
  | .forRange v n =>
    if (m v).isSome then .error (already_exists v)
    else (((List.range n.toNat).map Int.ofNat).mapM fun i =>
      contents (Function.update m v (some (.IntValue i)))).map List.flatten
  | .forTuple v t =>
    if (m v).isSome then .error (already_exists v)
    else
      match m t with
      | none => .error .out_of_range
      | some (.TupleValue values) =>
        (values.mapM fun x => contents (Function.update m v (some x))).map List.flatten
      | some _ =>
        .error (.render_error (lit "variable " ++ t ++ lit " no longer valid in context"))
  | .ifSection neg x => if computeExpression neg x m then contents m else .ok []

/-- **The meaning of a tree**, given that of its texts. -/
def Doc.eval [FloatText F] (leaf : C → ValueMap F → Except Fault Bytes) :
    Doc C Control → ValueMap F → Except Fault Bytes
  | .text c, m => leaf c m
  | .block c k body rest, m => do
    let x ← leaf c m
    let y ← Control.eval k (body.eval leaf) m
    let z ← rest.eval leaf m
    pure (x ++ (y ++ z))

/-- **The rule of the loops**: what the iterations return, when each keeps an invariant of the
map. -/
theorem loop_eq {β : Type} {I : ValueMap F → Prop}
    {g : β → ValueMap F → Except Fault (Bytes × ValueMap F)} {f : β → Except Fault Bytes}
    (hbody : ∀ i m, I m → ∃ m', I m' ∧ g i m = (f i).map (·, m')) (is : List β) {m : ValueMap F}
    (hm : I m) :
    ∃ m', I m' ∧ loop g is m = ((is.mapM f).map List.flatten).map (·, m') := by
  induction is generalizing m with
  | nil => exact ⟨m, hm, rfl⟩
  | cons i is ih =>
    obtain ⟨m1, hm1, h1⟩ := hbody i m hm
    obtain ⟨m2, hm2, h2⟩ := ih hm1
    refine ⟨m2, hm2, ?_⟩
    rw [loop, h1, List.mapM_cons]
    rcases f i with e | x
    · rfl
    · simp only [map_ok, ok_bind, h2]
      rcases is.mapM f with e | xs
      · rfl
      · rfl

theorem update_none {m : ValueMap F} {v : Bytes} {x : Option (Value F)}
    (hv : ¬ (m v).isSome = true) : Function.update (Function.update m v x) v none = m := by
  have hnone : m v = none := by simpa using hv
  rw [Function.update_idem, ← hnone, Function.update_eq_self]

section

variable {contents : ValueMap F → Except Fault (Bytes × ValueMap F)}
  {f : ValueMap F → Except Fault Bytes} (h : ∀ m, contents m = (f m).map (·, m))
include h

/-- The loop of a `ForRangeSection`: between two iterations the map has the variable, with some
number. -/
theorem loop_rangeStep (m : ValueMap F) (v : Bytes) (is : List ℤ) :
    ∃ j, loop (rangeStep contents v) is (Function.update m v (some (.IntValue 0))) =
      ((is.mapM fun i => f (Function.update m v (some (.IntValue i)))).map List.flatten).map
        (·, Function.update m v (some (.IntValue j))) := by
  obtain ⟨m', ⟨j, rfl⟩, hloop⟩ := loop_eq (g := rangeStep contents v)
    (I := fun m' => ∃ j, m' = Function.update m v (some (Value.IntValue j)))
    (f := fun i => f (Function.update m v (some (.IntValue i))))
    (fun i m' hm' => by
      obtain ⟨j, rfl⟩ := hm'
      refine ⟨_, ⟨i, rfl⟩, ?_⟩
      unfold rangeStep
      simp only [Function.update_self, Function.update_idem]
      exact h _) is ⟨0, rfl⟩
  exact ⟨j, hloop⟩

/-- The loop of a `ForSection`: between two iterations the map is the one before the loop. -/
theorem loop_tupleStep {m : ValueMap F} {v : Bytes} (hv : ¬ (m v).isSome = true)
    (values : List (Value F)) :
    loop (tupleStep contents v) values m =
      ((values.mapM fun x => f (Function.update m v (some x))).map List.flatten).map (·, m) := by
  obtain ⟨m', rfl, hloop⟩ := loop_eq (g := tupleStep contents v) (I := fun m' => m' = m)
    (f := fun x => f (Function.update m v (some x)))
    (fun x m' hm' => by
      refine ⟨m, rfl, ?_⟩
      rw [tupleStep, hm', h]
      rcases f (Function.update m v (some x)) with e | y
      · rfl
      · simp only [map_ok, ok_bind, pure_eq, update_none hv]) values rfl
  exact hloop

/-- A section renders to what it means, if its contents do. -/
theorem Control.render_eq [FloatText F] (k : Control) (m : ValueMap F) :
    Control.render contents k m = (Control.eval k f m).map (·, m) := by
  unfold Control.render Control.eval
  cases k with
  | forRange v n =>
    simp only
    split_ifs with hv
    · rfl
    · obtain ⟨j, hloop⟩ := loop_rangeStep h m v ((List.range n.toNat).map Int.ofNat)
      simp only [pure_eq, hloop]
      rcases ((List.range n.toNat).map Int.ofNat).mapM fun i =>
        f (Function.update m v (some (.IntValue i))) with e | xs
      · rfl
      · simp only [map_ok, ok_bind, update_none hv]
  | forTuple v t =>
    simp only
    split_ifs with hv
    · rfl
    · rcases m t with _ | (_ | _ | _ | values)
      · rfl
      · rfl
      · rfl
      · rfl
      · exact loop_tupleStep h hv values
  | ifSection neg x =>
    simp only
    split_ifs
    · exact h m
    · rfl

end

section

variable [FloatText F]

/-- **Rendering a tree gives its meaning**, and the values are as before. -/
theorem render_sections_eq (d : Doc Bytes Control) (m : ValueMap F) :
    render_sections d.sections m = (d.eval doSubstitutions m).map (·, m) := by
  induction d generalizing m with
  | text c =>
    simp only [Doc.sections, render_sections, ControlSection.render, Doc.eval]
    rcases doSubstitutions c m with e | x
    · rfl
    · simp
  | block c k body rest ihb ihr =>
    simp only [Doc.sections, render_sections, ControlSection.render, Doc.eval,
      Control.render_eq ihb, ihr]
    rcases doSubstitutions c m with e | x
    · rfl
    · rcases hy : Control.eval k (body.eval doSubstitutions) m with e | y
      · simp [hy]
      · rcases hz : rest.eval doSubstitutions m with e | z
        · simp [hy, hz]
        · simp [hy, hz]

end

/-! ### What `eatSection` reads -/

/-- What a successful call of `eatSection` did: it read a text to the end of the source, or up to an
end tag, or up to a section, the section, and what follows it. -/
inductive Eaten (top : ValueMap F) (n : ℕ) (text : Bytes) : List ControlSection → Bytes → Prop
  | last (h : ¬ openTag <:+: text) : Eaten top n text [.code text] []
  | atEnd (c tag : Bytes) (e : ℕ) (htext : text = c ++ tag) (hopen : openTag <+: tag)
      (hclose : Split.find closeTag tag = some e)
      (hword : split (trim (inside tag e)) (lit " ") = [lit "endfor"] ∨
        split (trim (inside tag e)) (lit " ") = [lit "endif"]) :
      Eaten top n text [.code c] tag
  | block (c tag : Bytes) (e : ℕ) (k : Control) (body more : List ControlSection)
      (pos after rest : Bytes) (htext : text = c ++ tag) (hopen : openTag <+: tag)
      (hclose : Split.find closeTag tag = some e)
      (hk : openSection top (trim (inside tag e)) (split (trim (inside tag e)) (lit " ")) = .ok k)
      (hbody : eatSection top n (tag.drop (e + 2)) = .ok (body, pos))
      (hend : controlEnd k pos = .ok after)
      (hmore : eatSection top n after = .ok (more, rest)) :
      Eaten top n text (.code c :: .block k body :: more) rest

theorem openTag_ne_nil : openTag ≠ [] := by decide

theorem eaten_of_eatSection {top : ValueMap F} {n : ℕ} {text rest : Bytes}
    {sections : List ControlSection} (h : eatSection top (n + 1) text = .ok (sections, rest)) :
    Eaten top n text sections rest := by
  rw [eatSection] at h
  rcases hopen : Split.find openTag text with _ | i
  · rw [hopen] at h
    cases h
    exact Eaten.last (Split.find_eq_none_iff.mp hopen)
  · obtain ⟨c, r, rfl, rfl, -⟩ := Split.exists_of_find openTag_ne_nil hopen
    simp only [hopen, List.take_left, List.drop_left] at h
    rcases hclose : Split.find closeTag (openTag ++ r) with _ | e
    · rw [hclose] at h
      cases h
    · rw [hclose] at h
      simp only at h
      split_ifs at h with hend hlen
      · cases h
      · cases h
        refine Eaten.atEnd c _ e rfl (List.prefix_append _ _) hclose ?_
        have hone : (split (trim (inside (openTag ++ r) e)) (lit " ")).length = 1 := by
          simpa using hlen
        obtain ⟨w, hw⟩ := List.length_eq_one_iff.mp hone
        rw [hw] at hend ⊢
        simpa using hend
      · obtain ⟨k, hk, h⟩ := bind_eq_ok.mp h
        obtain ⟨⟨body, pos⟩, hbody, h⟩ := bind_eq_ok.mp h
        obtain ⟨after, hend, h⟩ := bind_eq_ok.mp h
        obtain ⟨⟨more, final⟩, hmore, h⟩ := bind_eq_ok.mp h
        cases h
        exact Eaten.block c _ e k body more pos after final rfl (List.prefix_append _ _) hclose hk
          hbody hend hmore

theorem length_lt_of_controlEnd {k : Control} {pos rest : Bytes} (h : controlEnd k pos = .ok rest) :
    rest.length < pos.length := by
  unfold controlEnd at h
  rcases hf : Split.find closeTag pos with _ | i
  · rw [hf] at h
    cases k <;> cases h
  · have hle := Split.find_add_length_le hf
    have htwo : closeTag.length = 2 := rfl
    rw [hf] at h
    simp only at h
    split_ifs at h
    cases h
    rw [List.length_drop]
    omega

/-- What is left is no longer than the source. -/
theorem eatSection_length {top : ValueMap F} {n : ℕ} {text rest : Bytes}
    {sections : List ControlSection} (h : eatSection top n text = .ok (sections, rest)) :
    rest.length ≤ text.length := by
  induction n generalizing text rest sections with
  | zero => cases h
  | succ n ih =>
    cases eaten_of_eatSection h with
    | last => exact Nat.zero_le _
    | atEnd c tag e htext =>
      rw [htext, List.length_append]
      omega
    | block c tag e k body more pos after rest htext _ _ _ hbody hend hmore =>
      have h1 := ih hbody
      have h2 := length_lt_of_controlEnd hend
      have h3 := ih hmore
      rw [List.length_drop] at h1
      rw [htext, List.length_append]
      omega

/-- The faults of the parser: a `render_error`, or a read past the words of a tag. -/
def Reading : Fault → Prop
  | .render_error _ => True
  | .past_end => True
  | _ => False

theorem faultsIn_word (words : List Bytes) (i : ℕ) : FaultsIn Reading (word words i) := by
  unfold word
  split
  · exact faultsIn_ok _
  · exact faultsIn_error.mpr trivial

theorem faultsIn_forControl (top : ValueMap F) (controlChange : Bytes) (words : List Bytes) :
    FaultsIn Reading (forControl top controlChange words) := by
  unfold forControl
  refine (faultsIn_word _ _).bind fun v _ => (faultsIn_word _ _).bind fun second _ => ?_
  split_ifs <;> simp only [pure_eq, throw_eq, error_bind]
  all_goals
    first
    | exact faultsIn_error.mpr trivial
    | (repeat' split) <;> first | exact faultsIn_ok _ | exact faultsIn_error.mpr trivial

theorem faultsIn_parseIfCondition (expression : Bytes) :
    FaultsIn Reading (parseIfCondition expression) := by
  unfold parseIfCondition
  simp only [pure_eq, throw_eq, error_bind]
  (repeat' split) <;> first | exact faultsIn_ok _ | exact faultsIn_error.mpr trivial

theorem faultsIn_openSection (top : ValueMap F) (controlChange : Bytes) (words : List Bytes) :
    FaultsIn Reading (openSection top controlChange words) := by
  unfold openSection
  split_ifs
  · exact faultsIn_forControl top controlChange words
  · exact (faultsIn_word _ _).bind fun _ _ => faultsIn_parseIfCondition controlChange
  · exact faultsIn_error.mpr trivial

theorem faultsIn_controlEnd (k : Control) (pos : Bytes) : FaultsIn Reading (controlEnd k pos) := by
  unfold controlEnd
  simp only [pure_eq, throw_eq]
  (repeat' split) <;> first | exact faultsIn_ok _ | exact faultsIn_error.mpr trivial

/-- With more fuel than the source has bytes `eatSection` does not run out of it. -/
theorem faultsIn_eatSection (top : ValueMap F) {n : ℕ} {text : Bytes} (hn : text.length < n) :
    FaultsIn Reading (eatSection top n text) := by
  induction n generalizing text with
  | zero => omega
  | succ n ih =>
    rw [eatSection]
    rcases hopen : Split.find openTag text with _ | i
    · exact faultsIn_ok _
    · rcases hclose : Split.find closeTag (text.drop i) with _ | e
      · simp only [hclose, throw_eq, faultsIn_error]
        trivial
      · have hle := Split.find_add_length_le hclose
        have htwo : closeTag.length = 2 := rfl
        rw [List.length_drop] at hle
        simp only [hclose]
        split_ifs
        · exact faultsIn_error.mpr trivial
        · exact faultsIn_ok _
        · refine (faultsIn_openSection _ _ _).bind fun k _ => ?_
          refine (ih ?_).bind fun bp hbody => (faultsIn_controlEnd _ _).bind fun after hend => ?_
          · rw [List.length_drop, List.length_drop]
            omega
          · refine (ih ?_).bind fun mf _ => faultsIn_ok _
            have h1 : bp.2.length ≤ _ := eatSection_length hbody
            have h2 := length_lt_of_controlEnd hend
            rw [List.length_drop, List.length_drop] at h1
            omega

/-- More fuel changes nothing. -/
theorem eatSection_fuel (top : ValueMap F) {n n' : ℕ} {text : Bytes} (hn : text.length < n)
    (hle : n ≤ n') : eatSection top n' text = eatSection top n text := by
  induction n generalizing n' text with
  | zero => omega
  | succ n ih =>
    obtain ⟨n', rfl⟩ : ∃ k, n' = k + 1 := ⟨n' - 1, by omega⟩
    rw [eatSection, eatSection]
    rcases hopen : Split.find openTag text with _ | i
    · rfl
    · rcases hclose : Split.find closeTag (text.drop i) with _ | e
      · simp only [hclose]
      · have hcl := Split.find_add_length_le hclose
        have htwo : closeTag.length = 2 := rfl
        rw [List.length_drop] at hcl
        have hbody : eatSection top n' ((text.drop i).drop (e + 2)) =
            eatSection top n ((text.drop i).drop (e + 2)) := by
          refine ih ?_ (by omega)
          rw [List.length_drop, List.length_drop]
          omega
        simp only [hclose, hbody]
        rcases hb : eatSection top n ((text.drop i).drop (e + 2)) with _ | ⟨body, pos⟩
        · rfl
        · have h1 := eatSection_length hb
          rw [List.length_drop, List.length_drop] at h1
          have hrest : ∀ k : Control, ∀ after, controlEnd k pos = .ok after →
              eatSection top n' after = eatSection top n after := by
            intro k after hend
            have h2 := length_lt_of_controlEnd hend
            exact ih (by omega) (by omega)
          split_ifs
          · rfl
          · rfl
          · rcases openSection top _ _ with _ | k
            · rfl
            · simp only [ok_bind]
              rcases hend : controlEnd k pos with _ | after
              · rfl
              · simp only [ok_bind, hrest k after hend]

/-! ### Trees of sources -/

/-- The tuple of a loop is a value of the template. -/
def TupleBound (top : ValueMap F) : Control → Prop
  | .forTuple _ t => ∃ values, top t = some (.TupleValue values)
  | _ => True

/-- Every loop over a tuple is bound. -/
def Doc.Bound (top : ValueMap F) : Doc C Control → Prop
  | .text _ => True
  | .block _ k body rest => TupleBound top k ∧ body.Bound top ∧ rest.Bound top

theorem tupleBound_of_forControl {top : ValueMap F} {controlChange : Bytes} {words : List Bytes}
    {k : Control} (h : forControl top controlChange words = .ok k) : TupleBound top k := by
  unfold forControl at h
  obtain ⟨v, -, h⟩ := bind_eq_ok.mp h
  obtain ⟨second, -, h⟩ := bind_eq_ok.mp h
  simp only [pure_eq, throw_eq, error_bind] at h
  (repeat' split at h) <;> cases h
  · trivial
  · trivial
  · next hv _ => exact ⟨_, hv⟩

theorem tupleBound_of_openSection {top : ValueMap F} {controlChange : Bytes} {words : List Bytes}
    {k : Control} (h : openSection top controlChange words = .ok k) : TupleBound top k := by
  unfold openSection at h
  split_ifs at h
  · exact tupleBound_of_forControl h
  · obtain ⟨_, -, h⟩ := bind_eq_ok.mp h
    unfold parseIfCondition at h
    simp only [pure_eq, throw_eq, error_bind] at h
    (repeat' split at h) <;> cases h
    trivial

/-- **The sections of a source are a tree**, whose loops over tuples are bound. -/
theorem exists_doc_of_eatSection {top : ValueMap F} {n : ℕ} {text rest : Bytes}
    {sections : List ControlSection} (h : eatSection top n text = .ok (sections, rest)) :
    ∃ d : Doc Bytes Control, sections = d.sections ∧ d.Bound top := by
  induction n generalizing text rest sections with
  | zero => cases h
  | succ n ih =>
    cases eaten_of_eatSection h with
    | last => exact ⟨.text text, rfl, trivial⟩
    | atEnd c => exact ⟨.text c, rfl, trivial⟩
    | block c tag e k body more pos after rest htext _ _ hk hbody hend hmore =>
      obtain ⟨b, rfl, hb⟩ := ih hbody
      obtain ⟨r, rfl, hr⟩ := ih hmore
      exact ⟨.block c k b r, rfl, tupleBound_of_openSection hk, hb, hr⟩

/-- **`eatSection` reads every source**: with more fuel than the source has bytes it does not run
out of it, its faults are those of the parser, and more fuel changes nothing. -/
theorem eatSection_reads (top : ValueMap F) {n n' : ℕ} {text : Bytes} (hn : text.length < n)
    (hle : n ≤ n') :
    FaultsIn Reading (eatSection top n text) ∧ eatSection top n' text = eatSection top n text :=
  ⟨faultsIn_eatSection top hn, eatSection_fuel top hn hle⟩

theorem eatSection_reads_if : FaultsIn Reading
    (eatSection (fun _ => none : ValueMap Empty) 20 (lit "{% if its %}def")) ∧
      eatSection (fun _ => none : ValueMap Empty) 30 (lit "{% if its %}def") =
        eatSection (fun _ => none : ValueMap Empty) 20 (lit "{% if its %}def") :=
  eatSection_reads _ (by decide) (by decide)

section

variable [FloatText F]

/-- A source that was read renders to the meaning of its tree. -/
theorem render_tree {s : Bytes} {m : ValueMap F} {d : Doc Bytes Control}
    (h : eatSection m (s.length + 1) s = .ok (d.sections, [])) :
    render s m = (d.eval doSubstitutions m).map (·, m) := by
  unfold render
  rw [h]
  simp only [ok_bind, ne_eq, not_true, if_false, render_sections_eq]

/-- **Rendering any source gives the meaning of its tree and leaves the values as they were.** -/
theorem render_eq_ok_iff {s out : Bytes} {m m' : ValueMap F} :
    render s m = .ok (out, m') ↔ m' = m ∧ ∃ d : Doc Bytes Control,
      eatSection m (s.length + 1) s = .ok (d.sections, []) ∧
        d.eval doSubstitutions m = .ok out := by
  unfold render
  constructor
  · intro h
    obtain ⟨⟨root, pos⟩, heat, h⟩ := bind_eq_ok.mp h
    obtain ⟨d, rfl, -⟩ := exists_doc_of_eatSection heat
    by_cases hpos : pos = []
    · subst hpos
      simp only [ne_eq, not_true, if_false, render_sections_eq] at h
      obtain ⟨x, hx, hpair⟩ := map_eq_ok.mp h
      cases hpair
      exact ⟨rfl, d, heat, hx⟩
    · simp [hpos] at h
  · rintro ⟨rfl, d, heat, heval⟩
    have h := render_tree heat
    rw [heval] at h
    exact h

end

/-! ### Scopes -/

/-- What follows each `{{` of a text, up to the next one. -/
def holes (c : Bytes) : List Bytes := (split c (lit "\x7b\x7b")).drop 1

/-- A hole with a name in scope and a `}}` behind it. -/
def Filled (scope : Set Bytes) (hole : Bytes) : Prop :=
  ∃ name text more, split hole (lit "\x7d\x7d") = name :: text :: more ∧ trim name ∈ scope

/-- The names that have a value. -/
def names (m : ValueMap F) : Set Bytes := {x | (m x).isSome = true}

/-- **Static scoping**: every hole is filled, and a loop adds its variable, which is new, to the
scope of its contents. -/
def Doc.Scoped : Doc Bytes Control → Set Bytes → Prop
  | .text c, scope => ∀ hole ∈ holes c, Filled scope hole
  | .block c (.forRange v _) body rest, scope =>
    (∀ hole ∈ holes c, Filled scope hole) ∧ (v ∉ scope ∧ body.Scoped (insert v scope)) ∧
      rest.Scoped scope
  | .block c (.forTuple v _) body rest, scope =>
    (∀ hole ∈ holes c, Filled scope hole) ∧ (v ∉ scope ∧ body.Scoped (insert v scope)) ∧
      rest.Scoped scope
  | .block c (.ifSection _ _) body rest, scope =>
    (∀ hole ∈ holes c, Filled scope hole) ∧ body.Scoped scope ∧ rest.Scoped scope

theorem names_update (m : ValueMap F) (v : Bytes) (x : Value F) :
    names (Function.update m v (some x)) = insert v (names m) := by
  ext y
  by_cases hy : y = v
  · subst hy
    simp [names]
  · simp [names, hy]

/-- What `m` has, `m'` has too. -/
def Extends (m m' : ValueMap F) : Prop := ∀ x v, m x = some v → m' x = some v

theorem Extends.refl (m : ValueMap F) : Extends m m := fun _ _ h => h

theorem Extends.update {top m : ValueMap F} (h : Extends top m) {v : Bytes}
    (hv : ¬ (m v).isSome = true) (x : Value F) : Extends top (Function.update m v (some x)) := by
  intro y w hw
  have hyv : y ≠ v := by
    rintro rfl
    rw [h y w hw] at hv
    exact hv rfl
  rw [Function.update_of_ne hyv]
  exact h y w hw

/-- The faults of rendering a tree that was read with the same values: a hole without a `}}`, a hole
whose name is not defined, and a loop variable that exists. -/
def Rendering (e : Fault) : Prop :=
  e = .past_end ∨ (∃ name, e = .render_error (lit "name " ++ name ++ lit " not defined")) ∨
    ∃ v, e = already_exists v

section

variable [FloatText F]

/-- `startI` only decides how the part before the first hole is skipped. -/
theorem doSubstitutions_eq (c : Bytes) (m : ValueMap F) :
    doSubstitutions c m = ((holes c).mapM (substitution m)).map fun texts =>
      (split c (lit "\x7b\x7b")).headD [] ++ texts.flatten := by
  have hmap : ∀ (ps : List Bytes) (pre : Bytes),
      (do let texts ← ps.mapM (substitution m); pure (pre ++ texts.flatten)) =
        (ps.mapM (substitution m)).map fun texts => pre ++ texts.flatten := by
    intro ps pre
    rcases ps.mapM (substitution m) with e | ts <;> rfl
  unfold doSubstitutions holes
  by_cases h0 : c.take 2 = lit "\x7b\x7b"
  · have hc : c = [] ++ (lit "\x7b\x7b" ++ c.drop 2) := by
      rw [← h0, List.nil_append, List.take_append_drop]
    have hsplit : split c (lit "\x7b\x7b") =
        [] :: Split.split (lit "\x7b\x7b") (c.drop 2) := by
      conv_lhs => rw [hc]
      exact Split.split_append (by decide) (by decide) _
    have hlen : (([] : Bytes) :: Split.split (lit "\x7b\x7b") (c.drop 2)).length > 1 := by
      have := List.length_pos_iff.mpr (Split.split_ne_nil (p := lit "\x7b\x7b") (s := c.drop 2))
      rw [List.length_cons]
      omega
    simp only [h0, if_true, hsplit, hmap, hlen, List.head?_cons, and_self]
    rfl
  · simp only [h0, if_false, hmap]
    rfl

theorem substitution_ok_iff {m : ValueMap F} {hole : Bytes} :
    (∃ out, substitution m hole = .ok out) ↔ Filled (names m) hole := by
  unfold substitution Filled
  obtain ⟨name, parts, hsplit⟩ := List.exists_cons_of_ne_nil
    (Split.split_ne_nil (p := lit "\x7d\x7d") (s := hole))
  have hsplit' : split hole (lit "\x7d\x7d") = name :: parts := hsplit
  rw [hsplit']
  simp only [List.headD_cons, List.cons.injEq]
  rcases hm : m (trim name) with _ | v
  · constructor
    · rintro ⟨out, h⟩
      cases h
    · rintro ⟨_, text, more, ⟨rfl, -⟩, hname⟩
      simp [names, hm] at hname
  · constructor
    · rintro ⟨out, h⟩
      cases parts with
      | nil => cases h
      | cons text more => exact ⟨name, text, more, ⟨rfl, rfl⟩, by simp [names, hm]⟩
    · rintro ⟨_, text, more, ⟨rfl, rfl⟩, -⟩
      exact ⟨_, rfl⟩

theorem faultsIn_substitution (m : ValueMap F) (hole : Bytes) :
    FaultsIn Rendering (substitution m hole) := by
  unfold substitution
  simp only
  split
  · exact faultsIn_error.mpr (Or.inr (Or.inl ⟨_, rfl⟩))
  · refine FaultsIn.bind ?_ fun text _ => faultsIn_ok _
    unfold word
    split
    · exact faultsIn_ok _
    · exact faultsIn_error.mpr (Or.inl rfl)

/-- **A text renders exactly when its holes are filled.** -/
theorem doSubstitutions_ok_iff {m : ValueMap F} {c : Bytes} :
    (∃ out, doSubstitutions c m = .ok out) ↔ ∀ hole ∈ holes c, Filled (names m) hole := by
  rw [doSubstitutions_eq]
  constructor
  · rintro ⟨out, h⟩ hole hmem
    obtain ⟨texts, ht, -⟩ := map_eq_ok.mp h
    exact substitution_ok_iff.mp (exists_ok_of_mapM_eq_ok ht hole hmem)
  · intro h
    obtain ⟨texts, ht⟩ := exists_mapM_eq_ok fun hole hmem => substitution_ok_iff.mpr (h hole hmem)
    rw [ht]
    exact ⟨_, rfl⟩

theorem faultsIn_doSubstitutions (c : Bytes) (m : ValueMap F) :
    FaultsIn Rendering (doSubstitutions c m) := by
  rw [doSubstitutions_eq]
  exact (FaultsIn.mapM fun hole _ => faultsIn_substitution m hole).map

/-- A section fails as its contents do, or because its variable exists. -/
theorem faultsIn_control {top m : ValueMap F} {k : Control} {f : ValueMap F → Except Fault Bytes}
    (hk : TupleBound top k) (hm : Extends top m)
    (hf : ∀ m', Extends top m' → FaultsIn Rendering (f m')) :
    FaultsIn Rendering (Control.eval k f m) := by
  unfold Control.eval
  cases k with
  | forRange v n =>
    simp only
    split_ifs with hv
    · exact faultsIn_error.mpr (Or.inr (Or.inr ⟨v, rfl⟩))
    · exact (FaultsIn.mapM fun i _ => hf _ (hm.update hv _)).map
  | forTuple v t =>
    obtain ⟨values, ht⟩ := hk
    simp only [hm t _ ht]
    split_ifs with hv
    · exact faultsIn_error.mpr (Or.inr (Or.inr ⟨v, rfl⟩))
    · exact (FaultsIn.mapM fun x _ => hf _ (hm.update hv x)).map
  | ifSection neg x =>
    simp only
    split_ifs
    · exact hf m hm
    · exact faultsIn_ok _

theorem faultsIn_eval {top : ValueMap F} {d : Doc Bytes Control} (hd : d.Bound top)
    {m : ValueMap F} (hm : Extends top m) : FaultsIn Rendering (d.eval doSubstitutions m) := by
  induction d generalizing m with
  | text c => exact faultsIn_doSubstitutions c m
  | block c k body rest ihb ihr =>
    obtain ⟨hk, hb, hr⟩ := hd
    refine (faultsIn_doSubstitutions c m).bind fun x _ => ?_
    refine (faultsIn_control hk hm fun m' hm' => ihb hb hm').bind fun y _ => ?_
    exact (ihr hr hm).bind fun z _ => faultsIn_ok _

/-- A section whose contents render under the values it adds renders. -/
theorem control_of_scoped {top m : ValueMap F} {k : Control} {body : Doc Bytes Control}
    {c : Bytes} {rest : Doc Bytes Control} {f : ValueMap F → Except Fault Bytes}
    (hk : TupleBound top k) (hm : Extends top m) (hs : (Doc.block c k body rest).Scoped (names m))
    (hf : ∀ m', Extends top m' → body.Scoped (names m') → ∃ out, f m' = .ok out) :
    ∃ out, Control.eval k f m = .ok out := by
  cases k with
  | forRange v n =>
    obtain ⟨-, ⟨hv, hbody⟩, -⟩ := hs
    have hv' : ¬ (m v).isSome = true := hv
    simp only [Control.eval, if_neg hv']
    refine exists_map_eq_ok (exists_mapM_eq_ok fun i _ => hf _ (hm.update hv' _) ?_) _
    rwa [names_update]
  | forTuple v t =>
    obtain ⟨-, ⟨hv, hbody⟩, -⟩ := hs
    obtain ⟨values, ht⟩ := hk
    have hv' : ¬ (m v).isSome = true := hv
    simp only [Control.eval, if_neg hv', hm t _ ht]
    refine exists_map_eq_ok (exists_mapM_eq_ok fun x _ => hf _ (hm.update hv' _) ?_) _
    rwa [names_update]
  | ifSection neg x =>
    obtain ⟨-, hbody, -⟩ := hs
    simp only [Control.eval]
    split_ifs
    · exact hf m hm hbody
    · exact ⟨[], rfl⟩

theorem Doc.Scoped.text_ok {c : Bytes} {k : Control} {body rest : Doc Bytes Control}
    {scope : Set Bytes} (hs : (Doc.block c k body rest).Scoped scope) :
    (∀ hole ∈ holes c, Filled scope hole) ∧ rest.Scoped scope := by
  cases k <;> exact ⟨hs.1, hs.2.2⟩

theorem eval_of_scoped {top : ValueMap F} {d : Doc Bytes Control} (hd : d.Bound top)
    {m : ValueMap F} (hm : Extends top m) (hs : d.Scoped (names m)) :
    ∃ out, d.eval doSubstitutions m = .ok out := by
  induction d generalizing m with
  | text c => exact doSubstitutions_ok_iff.mpr hs
  | block c k body rest ihb ihr =>
    obtain ⟨hk, hb, hr⟩ := hd
    obtain ⟨x, hx⟩ := doSubstitutions_ok_iff.mpr hs.text_ok.1
    obtain ⟨y, hy⟩ := control_of_scoped hk hm hs fun m' hm' hs' => ihb hb hm' hs'
    obtain ⟨z, hz⟩ := ihr hr hm hs.text_ok.2
    exact ⟨x ++ (y ++ z), by simp [Doc.eval, hx, hy, hz]⟩

/-- `{% for i in range(2) %}[{{i}}]{% endfor %}`. -/
def loopSource : Bytes :=
  lit "\x7b% for i in range(2) %\x7d[\x7b\x7bi\x7d\x7d]\x7b% endfor %\x7d"

def loopTree : Doc Bytes Control :=
  .block [] (.forRange (lit "i") 2) (.text (lit "[\x7b\x7bi\x7d\x7d]")) (.text [])

instance : FloatText Empty where
  toString x := nomatch x
  isZero x := nomatch x

def noValues : ValueMap Empty := fun _ => none

/-- **A well-scoped template renders.** -/
theorem render_of_scoped {s : Bytes} {m : ValueMap F} {d : Doc Bytes Control}
    (h : eatSection m (s.length + 1) s = .ok (d.sections, [])) (hs : d.Scoped (names m)) :
    ∃ out, render s m = .ok (out, m) := by
  obtain ⟨d', hd', hbound⟩ := exists_doc_of_eatSection h
  obtain rfl := Doc.sections_injective hd'
  obtain ⟨out, hout⟩ := eval_of_scoped hbound (Extends.refl m) hs
  rw [render_tree h, hout]
  exact ⟨out, rfl⟩

theorem render_of_scoped_loop : ∃ out, render loopSource noValues = .ok (out, noValues) := by
  refine render_of_scoped (d := loopTree) (by with_unfolding_all rfl) ?_
  have hnil : holes [] = [] := by decide +kernel
  refine ⟨by simp [hnil], ⟨by simp [names, noValues], ?_⟩, by simp [Doc.Scoped, hnil]⟩
  intro hole hmem
  obtain rfl : hole = lit "i\x7d\x7d]" := by
    have h : holes (lit "[\x7b\x7bi\x7d\x7d]") = [lit "i\x7d\x7d]"] := by decide +kernel
    simpa [h] using hmem
  exact ⟨lit "i", lit "]", [], by decide +kernel, Or.inl (by decide +kernel)⟩

end

end HfiWebserver.Guest.TemplateTree
