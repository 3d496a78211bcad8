import HfiWebserver.Guest.RapidjsonRoundTrip
import HfiWebserver.Guest.XmlToJson

/-! # The members of an element

What `xml2json_traverse_node` makes of an element, with all its swaps and arrays: every child gives
a value, no value is lost (`traverse_opened`), and unless a child has the name of a member of an
attribute, each name has the values of its children in their order (`traverse_same`). -/

namespace HfiWebserver.Guest.XmlMembers

open HfiWebserver.Lib.ByteStrings HfiWebserver.Lib.Groups
open HfiWebserver.Guest.Rapidxml HfiWebserver.Guest.Rapidjson HfiWebserver.Guest.XmlToJson
open HfiWebserver.Guest.RapidjsonRoundTrip (value_induction)

/-! ### One child -/

/-- The value of a member that takes another one. -/
def joined (target v : Value) : Value :=
  match target with
  | .array elements => .array (elements ++ [v])
  | target => .array [target, v]

theorem to_array_form_eq {name : Bytes} {jsvalue : Members} {w v : Value}
    (h : jsvalue.lookup name = some w) : xml2json_to_array_form name jsvalue v =
      some (swapRemove name jsvalue ++ [(name, joined w v)]) := by
  unfold xml2json_to_array_form
  rw [h]
  cases w <;> rfl

/-- The values of a member: the elements of an array, or the one value it has. -/
def opened (m : Bytes × Value) : Members :=
  match m.2 with
  | .array elements => elements.map fun v => (m.1, v)
  | v => [(m.1, v)]

theorem opened_joined (name : Bytes) (w v : Value) :
    opened (name, joined w v) = opened (name, w) ++ [(name, v)] := by
  cases w <;> simp [opened, joined]

theorem opened_of_ne {m : Bytes × Value} (h : ∀ es, m.2 ≠ .array es) : opened m = [m] := by
  obtain ⟨name, v⟩ := m
  cases v with
  | array es => exact absurd rfl (h es)
  | _ => rfl

theorem fst_of_mem_opened {m p : Bytes × Value} (h : p ∈ opened m) : p.1 = m.1 := by
  obtain ⟨name, v⟩ := m
  cases v with
  | array es =>
    obtain ⟨v, -, rfl⟩ := List.mem_map.mp h
    rfl
  | _ => exact congrArg Prod.fst (List.mem_singleton.mp h)

theorem flatMap_opened {ms : Members} (h : ∀ m ∈ ms, ∀ es, m.2 ≠ .array es) :
    ms.flatMap opened = ms := by
  induction ms with
  | nil => rfl
  | cons m ms ih =>
    rw [List.flatMap_cons, opened_of_ne (h m List.mem_cons_self),
      ih fun m' hm => h m' (List.mem_cons_of_mem m hm), List.singleton_append]

/-- **What the loop keeps**, behind the children `kvs`: the values of the members are those of the
attributes and of the children, and each name of a child has one member, beside the attributes'. -/
structure Kept (attrs kvs : Members) (name_count : Bytes → ℕ) (jsvalue : Members) : Prop where
  counted : ∀ k, 0 < name_count k ↔ k ∈ kvs.map Prod.fst
  values : (jsvalue.flatMap opened).Perm (attrs ++ kvs)
  names : (jsvalue.map Prod.fst).Perm (attrs.map Prod.fst ++ (groups kvs).map Prod.fst)

section

variable {attrs kvs jsvalue : Members} {name_count : Bytes → ℕ} {name : Bytes} {v : Value}

theorem Kept.exists_lookup (h : Kept attrs kvs name_count jsvalue) (hk : 0 < name_count name) :
    ∃ w, jsvalue.lookup name = some w := by
  obtain ⟨m, hm, rfl⟩ := List.mem_map.mp ((h.counted name).mp hk)
  obtain ⟨m', hm', hmem⟩ := List.mem_flatMap.mp
    (h.values.mem_iff.mpr (List.mem_append_right attrs hm))
  rw [fst_of_mem_opened hmem]
  exact lookup_isSome (List.mem_map_of_mem hm')

/-- The two cases of `add_child`, in the count before the child. -/
theorem add_child_cases (h : Kept attrs kvs name_count jsvalue) (v : Value) :
    name ∉ kvs.map Prod.fst ∧
        add_child (Function.update name_count name (name_count name + 1)) name jsvalue v =
          some (jsvalue ++ [(name, v)]) ∨
      name ∈ kvs.map Prod.fst ∧ ∃ w, jsvalue.lookup name = some w ∧
        add_child (Function.update name_count name (name_count name + 1)) name jsvalue v =
          some (swapRemove name jsvalue ++ [(name, joined w v)]) := by
  unfold add_child
  rw [Function.update_self]
  by_cases hk : 0 < name_count name
  · obtain ⟨w, hw⟩ := h.exists_lookup hk
    exact Or.inr ⟨(h.counted name).mp hk, w, hw, by rw [if_pos (by omega), to_array_form_eq hw]⟩
  · exact Or.inl ⟨(h.counted name).not.mp hk, by rw [if_neg (by omega)]⟩

theorem counted_update (h : ∀ k, 0 < name_count k ↔ k ∈ kvs.map Prod.fst) (k : Bytes) :
    0 < Function.update name_count name (name_count name + 1) k ↔
      k ∈ (kvs ++ [(name, v)]).map Prod.fst := by
  by_cases hk : k = name
  · subst hk
    simp
  · rw [Function.update_of_ne hk, h k]
    simp [hk]

theorem Kept.step (h : Kept attrs kvs name_count jsvalue)
    (hv : ∀ es, v ≠ .array es) : ∃ jsvalue', add_child (Function.update name_count name
      (name_count name + 1)) name jsvalue v = some jsvalue' ∧
      Kept attrs (kvs ++ [(name, v)]) (Function.update name_count name (name_count name + 1))
        jsvalue' := by
  have hsnoc : (attrs ++ kvs ++ [(name, v)]).Perm (attrs ++ (kvs ++ [(name, v)])) := by
    rw [List.append_assoc]
  rcases add_child_cases h v with ⟨hno, hadd⟩ | ⟨hmem, w, hw, hadd⟩
  · refine ⟨_, hadd, counted_update h.counted, ?_, ?_⟩
    · rw [List.flatMap_append, List.flatMap_singleton, opened_of_ne hv]
      exact (h.values.append_right _).trans hsnoc
    · have hnew : name ∉ (groups kvs).map Prod.fst := fun hk => hno (mem_keys_groups.mp hk)
      rw [groups_concat, put_of_not_mem hnew, List.map_append, List.map_append, ← List.append_assoc]
      exact h.names.append_right _
  · have hperm := perm_swapRemove hw
    refine ⟨_, hadd, counted_update h.counted, ?_, ?_⟩
    · have hrest := (hperm.flatMap_right opened).symm.trans h.values
      rw [List.flatMap_cons] at hrest
      rw [List.flatMap_append, List.flatMap_singleton, opened_joined, ← List.append_assoc]
      exact ((List.perm_append_comm.trans hrest).append_right _).trans hsnoc
    · have hsame : ((groups (kvs ++ [(name, v)])).map Prod.fst) = (groups kvs).map Prod.fst := by
        rw [groups_concat]
        rcases put_cases name v (groups kvs) with ⟨hno, -⟩ | ⟨pre, vs, post, hgs, hput⟩
        · exact absurd (mem_keys_groups.mpr hmem) hno
        · rw [hput, hgs]
          simp
      rw [hsame, List.map_append, List.map_singleton]
      have hrest := (hperm.map Prod.fst).symm.trans h.names
      rw [List.map_cons] at hrest
      exact (List.perm_append_singleton _ _).trans hrest

end

/-! ### The tree -/

mutual

theorem node_induction {P : Node → Prop} (element : ∀ name attributes children,
      (∀ c ∈ children, P c) → P (.element name attributes children))
    (data : ∀ v, P (.data v)) (cdata : ∀ v, P (.cdata v)) : ∀ n, P n
  | .element name attributes children =>
    element name attributes children (children_induction element data cdata children)
  | .data v => data v
  | .cdata v => cdata v

theorem children_induction {P : Node → Prop} (element : ∀ name attributes children,
      (∀ c ∈ children, P c) → P (.element name attributes children))
    (data : ∀ v, P (.data v)) (cdata : ∀ v, P (.cdata v)) : ∀ children : List Node,
    ∀ c ∈ children, P c
  | [] => by simp
  | c :: children => List.forall_mem_cons.mpr
    ⟨node_induction element data cdata c, children_induction element data cdata children⟩

end

/-- The members of the attributes. -/
def attribute_members (attributes : List (Bytes × Bytes)) : Members :=
  xml2json_add_attributes attributes []

theorem add_attributes_eq (attributes : List (Bytes × Bytes)) (jsvalue : Members) :
    xml2json_add_attributes attributes jsvalue = jsvalue ++ attribute_members attributes := rfl

theorem attribute_members_ne_array (attributes : List (Bytes × Bytes)) :
    ∀ m ∈ attribute_members attributes, ∀ es, m.2 ≠ .array es := by
  intro m hm es
  simp only [attribute_members, xml2json_add_attributes, List.nil_append, List.mem_map] at hm
  obtain ⟨a, -, rfl⟩ := hm
  exact Value.noConfusion

/-- The member of a child. -/
def IsMember (c : Node) (m : Bytes × Value) : Prop :=
  m.1 = current_name c ∧ xml2json_traverse_node c = some m.2

/-- A node is an element that makes an object of its children, or one of the short forms. -/
theorem traverse_element (name : Bytes) (attributes : List (Bytes × Bytes))
    (children : List Node) :
    let x := xml2json_traverse_node (.element name attributes children)
    (attributes = [] ∧ children = [] ∧ x = some .null) ∨
      (∃ v, attributes = [] ∧ children = [.data v] ∧ x = some (.string (c_str v))) ∨
      (∃ v, attributes ≠ [] ∧ children = [.data v] ∧ x = some (.object
        ((xml2json_text_additional_name, .string (c_str v)) :: attribute_members attributes))) ∨
      ((attributes ≠ [] ∨ children ≠ []) ∧ (∀ v, children ≠ [.data v]) ∧ x =
        (traverse_children children (fun _ => 0) (attribute_members attributes)).map .object) := by
  intro x
  by_cases hd : ∃ v, children = [.data v]
  · obtain ⟨v, rfl⟩ := hd
    by_cases ha : attributes = []
    · subst ha
      exact Or.inr (Or.inl ⟨v, rfl, rfl, by simp [x, xml2json_traverse_node]⟩)
    · refine Or.inr (Or.inr (Or.inl ⟨v, ha, rfl, ?_⟩))
      simp [x, xml2json_traverse_node, ha, add_attributes_eq]
  · have hne : ∀ v, children ≠ [.data v] := fun v h => hd ⟨v, h⟩
    by_cases ha : attributes = []
    · subst ha
      by_cases hc : children = []
      · subst hc
        exact Or.inl ⟨rfl, rfl, by simp [x, xml2json_traverse_node]⟩
      · refine Or.inr (Or.inr (Or.inr ⟨Or.inr hc, hne, ?_⟩))
        simp only [x, xml2json_traverse_node, ne_eq, not_true, if_false]
        rfl
    · refine Or.inr (Or.inr (Or.inr ⟨Or.inl ha, hne, ?_⟩))
      simp only [x, xml2json_traverse_node, ne_eq, ha, not_false_eq_true, if_true]
      rfl

/-- The value of a node is no array, so an array in an object holds several children. -/
theorem traverse_ne_array {n : Node} {v : Value} (h : xml2json_traverse_node n = some v) :
    ∀ es, v ≠ .array es := by
  rintro es rfl
  cases n with
  | element name attributes children =>
    rcases traverse_element name attributes children with
      ⟨-, -, hx⟩ | ⟨v, -, -, hx⟩ | ⟨v, -, -, hx⟩ | ⟨-, -, hx⟩
    · rw [h] at hx
      cases hx
    · rw [h] at hx
      cases hx
    · rw [h] at hx
      cases hx
    · rw [h] at hx
      obtain ⟨ms, -, hms⟩ := Option.map_eq_some_iff.mp hx.symm
      cases hms
  | data v => cases h
  | cdata v => cases h

/-- The rule for the loop over the children: what one child keeps, the loop keeps. -/
theorem traverse_children_inv {I : Members → (Bytes → ℕ) → Members → Prop} {children : List Node}
    {kvs : Members} (hkvs : List.Forall₂ IsMember children kvs)
    (step : ∀ {kvs' name_count jsvalue}, I kvs' name_count jsvalue → ∀ m ∈ kvs, ∃ jsvalue',
      add_child (Function.update name_count m.1 (name_count m.1 + 1)) m.1 jsvalue m.2 =
        some jsvalue' ∧
      I (kvs' ++ [m]) (Function.update name_count m.1 (name_count m.1 + 1)) jsvalue')
    {kvs' jsvalue : Members} {name_count : Bytes → ℕ} (h : I kvs' name_count jsvalue) :
    ∃ jsvalue' name_count', traverse_children children name_count jsvalue = some jsvalue' ∧
      I (kvs' ++ kvs) name_count' jsvalue' := by
  induction hkvs generalizing kvs' name_count jsvalue with
  | nil => exact ⟨jsvalue, name_count, rfl, by rwa [List.append_nil]⟩
  | @cons c m children kvs hm _ ih =>
    obtain ⟨name, v⟩ := m
    obtain ⟨rfl, hv⟩ : name = current_name c ∧ xml2json_traverse_node c = some v := hm
    obtain ⟨js, hadd, hI⟩ := step h _ List.mem_cons_self
    obtain ⟨js', nc', hrest, hI'⟩ := ih (fun h m hm => step h m (List.mem_cons_of_mem _ hm)) hI
    refine ⟨js', nc', ?_, by simpa using hI'⟩
    rw [traverse_children]
    simp only [hv, Option.bind_some, hadd, hrest]

theorem kept_nil (attributes : List (Bytes × Bytes)) :
    Kept (attribute_members attributes) [] (fun _ => 0) (attribute_members attributes) where
  counted k := by simp
  values := by rw [flatMap_opened (attribute_members_ne_array attributes), List.append_nil]
  names := by simp [groups]

theorem exists_members {children : List Node}
    (h : ∀ c ∈ children, ∃ v, xml2json_traverse_node c = some v) :
    ∃ kvs, List.Forall₂ IsMember children kvs := by
  induction children with
  | nil => exact ⟨[], .nil⟩
  | cons c children ih =>
    obtain ⟨v, hv⟩ := h c List.mem_cons_self
    obtain ⟨kvs, hkvs⟩ := ih fun d hd => h d (List.mem_cons_of_mem c hd)
    exact ⟨(current_name c, v) :: kvs, .cons ⟨rfl, hv⟩ hkvs⟩

theorem ne_array_of_isMember {children : List Node} {kvs : Members}
    (h : List.Forall₂ IsMember children kvs) : ∀ m ∈ kvs, ∀ es, m.2 ≠ .array es := by
  induction h with
  | nil => simp
  | cons hm _ ih => exact List.forall_mem_cons.mpr ⟨traverse_ne_array hm.2, ih⟩

theorem traverse_children_kept {children : List Node} {kvs : Members}
    (h : List.Forall₂ IsMember children kvs) (attributes : List (Bytes × Bytes)) :
    ∃ jsvalue name_count,
      traverse_children children (fun _ => 0) (attribute_members attributes) = some jsvalue ∧
      Kept (attribute_members attributes) kvs name_count jsvalue :=
  traverse_children_inv h (fun hI m hm => hI.step (ne_array_of_isMember h m hm))
    (kept_nil attributes)

/-- Every node has a value: no member is read that is not there. -/
theorem exists_traverse (n : Node) : ∃ v, xml2json_traverse_node n = some v := by
  induction n using node_induction with
  | element name attributes children ih =>
    obtain ⟨kvs, hkvs⟩ := exists_members ih
    obtain ⟨js, -, hjs, -⟩ := traverse_children_kept hkvs attributes
    rcases traverse_element name attributes children with
      ⟨-, -, hx⟩ | ⟨v, -, -, hx⟩ | ⟨v, -, -, hx⟩ | ⟨-, -, hx⟩
    · exact ⟨_, hx⟩
    · exact ⟨_, hx⟩
    · exact ⟨_, hx⟩
    · exact ⟨.object js, by rw [hx, hjs]; rfl⟩
  | data v => exact ⟨_, rfl⟩
  | cdata v => exact ⟨_, rfl⟩

/-- **No value is lost**: an element is `null`, its only text, or an object whose members, arrays
opened, are those of the attributes and of the children, with one member for each name of a child
beside those of the attributes. -/
theorem traverse_opened (name : Bytes) (attributes : List (Bytes × Bytes))
    (children : List Node) : ∃ kvs, List.Forall₂ IsMember children kvs ∧
      let x := xml2json_traverse_node (.element name attributes children)
      ((attributes = [] ∧ children = [] ∧ x = some .null) ∨
        (∃ v, attributes = [] ∧ children = [.data v] ∧ x = some (.string (c_str v))) ∨
        ∃ jsvalue, x = some (.object jsvalue) ∧
          (jsvalue.flatMap opened).Perm (attribute_members attributes ++ kvs) ∧
          (jsvalue.map Prod.fst).Perm
            ((attribute_members attributes).map Prod.fst ++ (groups kvs).map Prod.fst)) := by
  obtain ⟨kvs, hkvs⟩ := exists_members fun c (_ : c ∈ children) => exists_traverse c
  refine ⟨kvs, hkvs, ?_⟩
  rcases traverse_element name attributes children with
    ⟨ha, hc, hx⟩ | ⟨v, ha, hc, hx⟩ | ⟨v, ha, rfl, hx⟩ | ⟨-, -, hx⟩
  · exact Or.inl ⟨ha, hc, hx⟩
  · exact Or.inr (Or.inl ⟨v, ha, hc, hx⟩)
  · refine Or.inr (Or.inr ⟨_, hx, ?_⟩)
    have hone : kvs = [(xml2json_text_additional_name, .string (c_str v))] := by
      cases hkvs with
      | @cons _ m _ _ hm htail =>
        cases htail
        obtain ⟨k, w⟩ := m
        obtain ⟨hkey, hv⟩ : k = current_name (.data v) ∧ xml2json_traverse_node (.data v) = some w :=
          hm
        rw [hkey, ← Option.some.inj hv]
        rfl
    subst hone
    constructor
    · rw [List.flatMap_cons, flatMap_opened (attribute_members_ne_array attributes)]
      exact List.perm_append_comm
    · exact (List.perm_append_singleton _ _).symm
  · obtain ⟨js, nc, hjs, hkept⟩ := traverse_children_kept hkvs attributes
    exact Or.inr (Or.inr ⟨js, by rw [hx, hjs]; rfl, hkept.values, hkept.names⟩)

/-! ### Leaves -/

mutual

/-- The texts in a value, in the order in which it is written. -/
def leaves : Value → List Bytes
  | .null => []
  | .string str => [str]
  | .array elements => elementLeaves elements
  | .object members => memberLeaves members

def elementLeaves : List Value → List Bytes
  | [] => []
  | v :: elements => leaves v ++ elementLeaves elements

def memberLeaves : List (Bytes × Value) → List Bytes
  | [] => []
  | (_, value) :: members => leaves value ++ memberLeaves members

end

mutual

/-- The texts in a node: the values of the attributes, the text and the CDATA sections, up to a
NUL. -/
def texts : Node → List Bytes
  | .element _ attributes children =>
    attributes.map (fun a => c_str a.2) ++ children_texts children
  | .data value => [c_str value]
  | .cdata value => [c_str value]

def children_texts : List Node → List Bytes
  | [] => []
  | c :: children => texts c ++ children_texts children

end

theorem memberLeaves_eq (ms : Members) : memberLeaves ms = ms.flatMap fun m => leaves m.2 := by
  induction ms with
  | nil => rfl
  | cons m ms ih =>
    obtain ⟨name, v⟩ := m
    rw [memberLeaves, ih, List.flatMap_cons]

theorem memberLeaves_opened (m : Bytes × Value) : memberLeaves (opened m) = leaves m.2 := by
  have harray : ∀ (name : Bytes) (es : List Value),
      memberLeaves (es.map fun v => (name, v)) = elementLeaves es := by
    intro name es
    induction es with
    | nil => rfl
    | cons v es ih => rw [List.map_cons, memberLeaves, elementLeaves, ih]
  obtain ⟨name, v⟩ := m
  cases v with
  | array es => exact harray name es
  | _ => exact List.append_nil _

/-- Opening the arrays of an object keeps its leaves. -/
theorem memberLeaves_flatMap_opened (ms : Members) :
    memberLeaves (ms.flatMap opened) = memberLeaves ms := by
  rw [memberLeaves_eq, List.flatMap_assoc, memberLeaves_eq]
  refine List.flatMap_congr fun m _ => ?_
  rw [← memberLeaves_eq, memberLeaves_opened]

theorem memberLeaves_perm {ms ns : Members} (h : ms.Perm ns) :
    (memberLeaves ms).Perm (memberLeaves ns) := by
  rw [memberLeaves_eq, memberLeaves_eq]
  exact h.flatMap_right _

theorem memberLeaves_attributes (attributes : List (Bytes × Bytes)) :
    memberLeaves (attribute_members attributes) = attributes.map fun a => c_str a.2 := by
  rw [attribute_members, xml2json_add_attributes, List.nil_append]
  induction attributes with
  | nil => rfl
  | cons a attributes ih => rw [List.map_cons, memberLeaves, ih]; rfl

theorem memberLeaves_append (ms ns : Members) :
    memberLeaves (ms ++ ns) = memberLeaves ms ++ memberLeaves ns := by
  rw [memberLeaves_eq, List.flatMap_append, memberLeaves_eq, memberLeaves_eq]

/-- **The texts of a node are the leaves of its value**, each as often as it is there. -/
theorem traverse_leaves {n : Node} {v : Value} (h : xml2json_traverse_node n = some v) :
    (leaves v).Perm (texts n) := by
  induction n using node_induction generalizing v with
  | element name attributes children ih =>
    obtain ⟨kvs, hkvs, ⟨rfl, rfl, hx⟩ | ⟨s, rfl, rfl, hx⟩ | ⟨js, hx, hvalues, -⟩⟩ :=
      traverse_opened name attributes children
    · rw [hx] at h
      cases h
      exact .refl _
    · rw [hx] at h
      cases h
      exact .refl _
    · rw [hx] at h
      cases h
      have hchildren : (memberLeaves kvs).Perm (children_texts children) := by
        clear hx hvalues
        induction hkvs with
        | nil => exact .refl _
        | @cons c m children kvs hm _ ih' =>
          obtain ⟨k, w⟩ := m
          exact (ih c List.mem_cons_self hm.2).append
            (ih' fun d hd => ih d (List.mem_cons_of_mem c hd))
      have hopened := memberLeaves_perm hvalues
      rw [memberLeaves_flatMap_opened, memberLeaves_append, memberLeaves_attributes] at hopened
      exact hopened.trans (hchildren.append_left _)
  | data s =>
    cases h
    exact .refl _
  | cdata s =>
    cases h
    exact .refl _

/-! ### What the tree means -/

/-- The value of a name: that of its one child, or the array of all. -/
def bundle : List Value → Value
  | [v] => v
  | vs => .array vs

mutual

/-- **What a node means**: its text, nothing, or its attributes and its children by name, in the
order in which the names occur. -/
def json : Node → Value
  | .data v => .string (c_str v)
  | .cdata v => .string (c_str v)
  | .element _ attributes children =>
    match attributes, children with
    | [], [] => .null
    | [], [.data v] => .string (c_str v)
    | _, _ => .object (attribute_members attributes ++
        (groups (json_children children)).map fun g => (g.1, bundle g.2))

def json_children : List Node → Members
  | [] => []
  | c :: children => (current_name c, json c) :: json_children children

end

/-- The same value but for the order of the members. -/
inductive Same : Value → Value → Prop
  | null : Same .null .null
  | string (str : Bytes) : Same (.string str) (.string str)
  | array {vs ws : List Value} : List.Forall₂ Same vs ws → Same (.array vs) (.array ws)
  | object {ms ms' ns : Members} : ms.Perm ms' → ms'.map Prod.fst = ns.map Prod.fst →
      List.Forall₂ Same (ms'.map Prod.snd) (ns.map Prod.snd) → Same (.object ms) (.object ns)

/-- No child has the name of a member of an attribute, here and below. -/
inductive Distinct : Node → Prop
  | data (v : Bytes) : Distinct (.data v)
  | cdata (v : Bytes) : Distinct (.cdata v)
  | element {name : Bytes} {attributes : List (Bytes × Bytes)} {children : List Node} :
      (∀ c ∈ children, current_name c ∉ (attribute_members attributes).map Prod.fst) →
      (∀ c ∈ children, Distinct c) → Distinct (.element name attributes children)

/-- The loop behind the children `kvs`, when no name of a child is that of an attribute. -/
structure Grouped (attrs kvs : Members) (name_count : Bytes → ℕ) (jsvalue : Members) : Prop
    extends Kept attrs kvs name_count jsvalue where
  grouped : jsvalue.Perm (attrs ++ (groups kvs).map fun g => (g.1, bundle g.2))
  plain : ∀ m ∈ kvs, ∀ es, m.2 ≠ .array es

theorem joined_bundle {vs : List Value} (v : Value) (hne : vs ≠ [])
    (h : ∀ u ∈ vs, ∀ es, u ≠ .array es) : joined (bundle vs) v = bundle (vs ++ [v]) := by
  match vs, hne with
  | [u], _ =>
    have hu := h u List.mem_cons_self
    cases u with
    | array es => exact absurd rfl (hu es)
    | _ => rfl
  | u :: u' :: us, _ => rfl

section

variable {attrs kvs jsvalue : Members} {name_count : Bytes → ℕ} {name : Bytes} {v : Value}

/-- The member of a name that occurred has the values of its group. -/
theorem Grouped.lookup_eq (h : Grouped attrs kvs name_count jsvalue)
    (hname : name ∉ attrs.map Prod.fst) {w : Value} (hw : jsvalue.lookup name = some w)
    {vs : List Value} (hvs : (name, vs) ∈ groups kvs) : w = bundle vs := by
  have hmem : (name, w) ∈ attrs ++ (groups kvs).map fun g => (g.1, bundle g.2) :=
    h.grouped.mem_iff.mp ((perm_swapRemove hw).mem_iff.mpr List.mem_cons_self)
  rcases List.mem_append.mp hmem with hmem | hmem
  · exact absurd (List.mem_map_of_mem hmem) hname
  · obtain ⟨⟨k, us⟩, hus, heq⟩ := List.mem_map.mp hmem
    cases heq
    have hsame := List.inj_on_of_nodup_map (nodup_groups kvs) hus hvs rfl
    cases hsame
    rfl

theorem Grouped.step (h : Grouped attrs kvs name_count jsvalue)
    (hname : name ∉ attrs.map Prod.fst) (hv : ∀ es, v ≠ .array es) :
    ∃ jsvalue', add_child (Function.update name_count name (name_count name + 1)) name jsvalue v =
        some jsvalue' ∧
      Grouped attrs (kvs ++ [(name, v)])
        (Function.update name_count name (name_count name + 1)) jsvalue' := by
  obtain ⟨js, hadd, hkept⟩ := h.toKept.step hv
  refine ⟨js, hadd, hkept, ?_, ?_⟩
  · rcases add_child_cases h.toKept v with ⟨hno, hadd'⟩ | ⟨hmem, w, hw, hadd'⟩
    · rw [hadd] at hadd'
      cases hadd'
      have hnew : name ∉ (groups kvs).map Prod.fst := fun hk => hno (mem_keys_groups.mp hk)
      rw [groups_concat, put_of_not_mem hnew, List.map_append, ← List.append_assoc]
      exact h.grouped.append_right _
    · rw [hadd] at hadd'
      cases hadd'
      rcases put_cases name v (groups kvs) with ⟨hno, -⟩ | ⟨pre, vs, post, hgs, hput⟩
      · exact absurd (mem_keys_groups.mpr hmem) hno
      have hvs : (name, vs) ∈ groups kvs := by
        rw [hgs]
        simp
      obtain ⟨hne, hall⟩ := of_mem_groups hvs
      obtain rfl := h.lookup_eq hname hw hvs
      rw [joined_bundle v hne fun u hu => h.plain _ (hall u hu), groups_concat, hput]
      have hperm := (perm_swapRemove hw).symm.trans h.grouped
      rw [hgs, List.map_append, List.map_cons, ← List.append_assoc] at hperm
      have hrest := (hperm.trans List.perm_middle).cons_inv
      rw [List.map_append, List.map_cons, ← List.append_assoc]
      calc (swapRemove name jsvalue ++ [(name, bundle (vs ++ [v]))]).Perm
            ((name, bundle (vs ++ [v])) :: swapRemove name jsvalue) :=
            List.perm_append_singleton _ _
        _ |>.Perm ((name, bundle (vs ++ [v])) :: (attrs ++ pre.map (fun g => (g.1, bundle g.2)) ++
            post.map fun g => (g.1, bundle g.2))) := hrest.cons _
        _ |>.Perm _ := List.perm_middle.symm
  · intro m hm
    rcases List.mem_append.mp hm with hm | hm
    · exact h.plain m hm
    · rw [List.mem_singleton.mp hm]
      exact hv

end

theorem same_bundle {vs ws : List Value} (h : List.Forall₂ Same vs ws) :
    Same (bundle vs) (bundle ws) := by
  match vs, ws, h with
  | [], [], h => exact .array h
  | [v], [w], .cons h _ => exact h
  | v :: v' :: vs, w :: w' :: ws, h => exact .array h

theorem same_refl (v : Value) : Same v v := by
  have hall : ∀ {vs : List Value}, (∀ v ∈ vs, Same v v) → List.Forall₂ Same vs vs :=
    fun h => List.forall₂_same.mpr h
  induction v using value_induction with
  | null => exact .null
  | string str => exact .string str
  | array elements ih => exact .array (hall ih)
  | object members ih =>
    refine .object (.refl _) rfl (hall fun v hv => ?_)
    obtain ⟨m, hm, rfl⟩ := List.mem_map.mp hv
    exact ih m hm

/-- Objects whose members are the same, in some order. -/
theorem same_object {ms ms' ns : Members} (hperm : ms.Perm ms')
    (h : List.Forall₂ (Alike Same) ms' ns) : Same (.object ms) (.object ns) := by
  refine .object hperm ?_ ?_
  · induction h generalizing ms with
    | nil => rfl
    | cons hm _ ih => rw [List.map_cons, List.map_cons, hm.1, ih (.refl _)]
  · induction h generalizing ms with
    | nil => exact .nil
    | cons hm _ ih => exact .cons hm.2 (ih (.refl _))

theorem alike_refl (ms : Members) : List.Forall₂ (Alike Same) ms ms :=
  List.forall₂_same.mpr fun m _ => ⟨rfl, same_refl m.2⟩

theorem alike_bundle {gs hs : List (Bytes × List Value)}
    (h : List.Forall₂ (Alike (List.Forall₂ Same)) gs hs) :
    List.Forall₂ (Alike Same) (gs.map fun g => (g.1, bundle g.2))
      (hs.map fun g => (g.1, bundle g.2)) := by
  induction h with
  | nil => exact .nil
  | cons hg _ ih => exact .cons ⟨hg.1, same_bundle hg.2⟩ ih

theorem json_object {name : Bytes} {attributes : List (Bytes × Bytes)} {children : List Node}
    (h : attributes ≠ [] ∨ children ≠ []) (hd : attributes ≠ [] ∨ ∀ v, children ≠ [.data v]) :
    json (.element name attributes children) = .object (attribute_members attributes ++
      (groups (json_children children)).map fun g => (g.1, bundle g.2)) := by
  rw [json]
  · exact fun ha hc => h.elim (fun h => h ha) fun h => h hc
  · exact fun v ha hc => hd.elim (fun h => h ha) fun h => h v hc

theorem exists_alike {children : List Node}
    (h : ∀ c ∈ children, ∃ v, xml2json_traverse_node c = some v ∧ Same v (json c)) :
    ∃ kvs, List.Forall₂ IsMember children kvs ∧
      List.Forall₂ (Alike Same) kvs (json_children children) := by
  induction children with
  | nil => exact ⟨[], .nil, .nil⟩
  | cons c children ih =>
    obtain ⟨v, hv, hsame⟩ := h c List.mem_cons_self
    obtain ⟨kvs, hkvs, halike⟩ := ih fun d hd => h d (List.mem_cons_of_mem c hd)
    exact ⟨(current_name c, v) :: kvs, .cons ⟨rfl, hv⟩ hkvs, .cons ⟨rfl, hsame⟩ halike⟩

theorem names_of_isMember {children : List Node} {kvs : Members}
    (h : List.Forall₂ IsMember children kvs) : kvs.map Prod.fst = children.map current_name := by
  induction h with
  | nil => rfl
  | cons hm _ ih => rw [List.map_cons, List.map_cons, hm.1, ih]

/-- **A node is turned into what it means**, but for the order of the members. -/
theorem traverse_same {n : Node} (h : Distinct n) :
    ∃ v, xml2json_traverse_node n = some v ∧ Same v (json n) := by
  induction h with
  | data v => exact ⟨_, rfl, .string _⟩
  | cdata v => exact ⟨_, rfl, .string _⟩
  | @element name attributes children hno _ ih =>
    obtain ⟨kvs, hkvs, halike⟩ := exists_alike ih
    rcases traverse_element name attributes children with
      ⟨rfl, rfl, hx⟩ | ⟨v, rfl, rfl, hx⟩ | ⟨v, ha, rfl, hx⟩ | ⟨hne, hd, hx⟩
    · exact ⟨_, hx, .null⟩
    · exact ⟨_, hx, .string _⟩
    · refine ⟨_, hx, ?_⟩
      rw [json_object (Or.inl ha) (Or.inl ha)]
      exact same_object (List.perm_append_singleton _ _).symm (alike_refl _)
    · have hnames := names_of_isMember hkvs
      have hstart : Grouped (attribute_members attributes) [] (fun _ => 0)
          (attribute_members attributes) :=
        ⟨kept_nil attributes, by simp [groups], by simp⟩
      obtain ⟨js, nc, hjs, hI⟩ := traverse_children_inv hkvs (fun hI m hm => by
        refine hI.step ?_ (ne_array_of_isMember hkvs m hm)
        have hm' := List.mem_map_of_mem (f := Prod.fst) hm
        rw [hnames] at hm'
        obtain ⟨c, hc, heq⟩ := List.mem_map.mp hm'
        rw [← heq]
        exact hno c hc) hstart
      refine ⟨.object js, by rw [hx, hjs]; rfl, ?_⟩
      rw [json_object hne (Or.inr hd)]
      exact same_object hI.grouped
        (List.rel_append (alike_refl _) (alike_bundle (groups_alike halike)))

end HfiWebserver.Guest.XmlMembers
