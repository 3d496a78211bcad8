import HfiWebserver.Guest.XmlTags

/-! # What the XML parser accepts

The parser reads exactly the texts of the grammar (`parse_eq_ok_iff`). -/

namespace HfiWebserver.Guest.XmlParse

open HfiWebserver.Lib.ByteStrings HfiWebserver.Lib.Fallible
open HfiWebserver.Lib
open HfiWebserver.Guest.Rapidxml HfiWebserver.Guest.XmlGrammar
open HfiWebserver.Guest.XmlValue HfiWebserver.Guest.XmlTags
open HfiWebserver.Server.StringResults (insert_coded_character)

/-! ### The parser reads every text of the grammar -/

section

variable {rest : Bytes}

theorem contents_close {ws et : Bytes} (hws : Blank ws) (h : EndTag et) (n : ℕ) :
    parse_node_contents (n + 1) (ws ++ (et ++ rest)) = .ok ([], rest) := by
  obtain ⟨t, ht, hclose⟩ := parse_closing_append h rest
  have hblank : whitespace_pred (ch (60 :: 47 :: t) 0) = false := rfl
  rw [ht, parse_node_contents, skip_append hws hblank]
  simp only [ch_cons_zero, if_true, List.drop_succ_cons, List.drop_zero, hclose]
  rfl

theorem contents_markup {ws X r : Bytes} {child : Option Node} {ns : List Node} {n : ℕ}
    (hws : Blank ws) (h47 : ch X 0 ≠ 47) (hchild : parse_node n X = .ok (child, r))
    (hmore : parse_node_contents n r = .ok (ns, rest)) :
    parse_node_contents (n + 1) (ws ++ 60 :: X) = .ok (child.toList ++ ns, rest) := by
  have hblank : whitespace_pred (ch (60 :: X) 0) = false := rfl
  have h1 : ch (60 :: X) 1 = ch X 0 := rfl
  rw [parse_node_contents, skip_append hws hblank]
  simp only [ch_cons_zero, if_true, h1, if_neg h47, List.drop_succ_cons, List.drop_zero, hchild,
    ok_bind, hmore, pure_eq]

theorem contents_data {v s X : Bytes} {ns : List Node} {n : ℕ} (h : Spelled text_pred v s)
    (hne : ∃ c ∈ s, whitespace_pred c = false) (hX : ch X 0 = 60)
    (hmore : parse_node_contents n X = .ok (ns, rest)) :
    parse_node_contents (n + 1) (s ++ X) = .ok (.data v :: ns, rest) := by
  obtain ⟨h60, h0⟩ := data_head h hne X
  have hexp := expand_append stop_text h (by rw [hX]; rfl)
  rw [parse_node_contents]
  simp only [if_neg h60, if_neg h0, hexp, ok_bind, hmore, pure_eq]

theorem ch_of_head {t et : Bytes} (ht : t = [] ∨ t.head? = some 60) (h : EndTag et) :
    ch (t ++ (et ++ rest)) 0 = 60 := by
  rcases ht with rfl | ht
  · cases h
    rfl
  · obtain ⟨c, t, rfl⟩ := List.exists_cons_of_ne_nil (fun h : t = [] => by simp [h] at ht)
    exact Option.some.inj ht

/-- **The contents of an element are read as their nodes.** -/
theorem parse_contents {ns : List Node} {t : Bytes} (h : Contents ns t) {et : Bytes}
    (het : EndTag et) (rest : Bytes) {n : ℕ} (hn : 2 * (t ++ (et ++ rest)).length < n) :
    parse_node_contents n (t ++ (et ++ rest)) = .ok (ns, rest) := by
  induction h generalizing n et rest with
  | nil hws =>
    obtain ⟨n, rfl⟩ : ∃ k, n = k + 1 := ⟨n - 1, by omega⟩
    exact contents_close hws het n
  | @misc ws m t ns hws hm _ ih =>
    have hlen : (ws ++ 60 :: (m ++ t)).length = ws.length + 1 + m.length + t.length := by
      simp only [List.length_append, List.length_cons]
      omega
    rw [List.length_append, hlen] at hn
    obtain ⟨n, rfl⟩ : ∃ k, n = k + 2 := ⟨n - 2, by omega⟩
    have hmore := ih het rest (n := n + 1) (by rw [List.length_append]; omega)
    obtain ⟨c, q, hq, h47⟩ := head_misc hm
    have htext : ws ++ 60 :: (m ++ t) ++ (et ++ rest) = ws ++ 60 :: (m ++ (t ++ (et ++ rest))) := by
      simp
    rw [htext]
    exact contents_markup hws (by rw [hq]; exact h47) (parse_misc hm n _) hmore
  | @cdata ws v m t ns hws hm _ ih =>
    have hlen : (ws ++ 60 :: (m ++ t)).length = ws.length + 1 + m.length + t.length := by
      simp only [List.length_append, List.length_cons]
      omega
    rw [List.length_append, hlen] at hn
    obtain ⟨n, rfl⟩ : ∃ k, n = k + 2 := ⟨n - 2, by omega⟩
    have hmore := ih het rest (n := n + 1) (by rw [List.length_append]; omega)
    have htext : ws ++ 60 :: (m ++ t) ++ (et ++ rest) = ws ++ 60 :: (m ++ (t ++ (et ++ rest))) := by
      simp
    rw [htext]
    refine contents_markup hws ?_ (parse_cdata hm n _) hmore
    cases hm
    exact (by decide : (33 : UInt8) ≠ 47)
  | @empty ws name st t as ns hws hst _ ih =>
    have hlen :
        (ws ++ 60 :: (st ++ 47 :: 62 :: t)).length = ws.length + st.length + t.length + 3 := by
      simp only [List.length_append, List.length_cons]
      omega
    rw [List.length_append, hlen] at hn
    obtain ⟨n, rfl⟩ : ∃ k, n = k + 3 := ⟨n - 3, by omega⟩
    have hmore := ih het rest (n := n + 2) (by rw [List.length_append]; omega)
    obtain ⟨c, q, hq, h47, -⟩ := head_start hst
    have htext : ws ++ 60 :: (st ++ 47 :: 62 :: t) ++ (et ++ rest) =
        ws ++ 60 :: (st ++ 47 :: 62 :: (t ++ (et ++ rest))) := by simp
    rw [htext]
    exact contents_markup hws (by rw [hq]; exact h47) (parse_node_empty hst n) hmore
  | @element ws name st ct et' t as children ns hws hst _ het' _ ihc ih =>
    have hlen : (ws ++ 60 :: (st ++ 62 :: (ct ++ (et' ++ t)))).length =
        ws.length + st.length + ct.length + et'.length + t.length + 2 := by
      simp only [List.length_append, List.length_cons]
      omega
    rw [List.length_append, hlen] at hn
    obtain ⟨n, rfl⟩ : ∃ k, n = k + 3 := ⟨n - 3, by omega⟩
    have hst0 : 0 < st.length := by
      obtain ⟨c, q, rfl, -⟩ := head_start hst
      simp
    have hinner := ihc het' (t ++ (et ++ rest)) (n := n) (by
      simp only [List.length_append] at hn ⊢
      omega)
    have hmore := ih het rest (n := n + 2) (by rw [List.length_append]; omega)
    obtain ⟨c, q, hq, h47, -⟩ := head_start hst
    have htext : ws ++ 60 :: (st ++ 62 :: (ct ++ (et' ++ t))) ++ (et ++ rest) =
        ws ++ 60 :: (st ++ 62 :: (ct ++ (et' ++ (t ++ (et ++ rest))))) := by simp
    rw [htext]
    exact contents_markup hws (by rw [hq]; exact h47) (parse_node_element hst hinner) hmore
  | @data v s t ns hs hne ht _ ih =>
    obtain ⟨n, rfl⟩ : ∃ k, n = k + 1 := ⟨n - 1, by omega⟩
    have hpos : 0 < s.length := by
      obtain ⟨c, hc, -⟩ := hne
      exact List.length_pos_of_mem hc
    rw [List.length_append, List.length_append] at hn
    have hmore := ih het rest (n := n) (by rw [List.length_append]; omega)
    rw [List.append_assoc]
    exact contents_data hs hne (ch_of_head ht het) hmore

end

/-! ### Every text the parser reads is one of the grammar -/

theorem contents_of_markup {ws m t : Bytes} {child : Option Node} {ns : List Node} (hws : Blank ws)
    (hm : Markup child m) (h : Contents ns t) :
    Contents (child.toList ++ ns) (ws ++ 60 :: (m ++ t)) := by
  cases hm with
  | misc hm => exact .misc hws hm h
  | cdata hm => exact .cdata hws hm h
  | @empty name st as hst =>
    have htext : st ++ [47, 62] ++ t = st ++ 47 :: 62 :: t := by simp
    rw [htext]
    exact .empty hws hst h
  | @element name st ct et as children hst hc het =>
    have htext : st ++ 62 :: (ct ++ et) ++ t = st ++ 62 :: (ct ++ (et ++ t)) := by simp
    rw [htext]
    exact .element hws hst hc het h

/-- Success of `parse_node_contents` with fuel `n` comes from the grammar. -/
def ContentsSound (n : ℕ) : Prop := ∀ {text rest : Bytes} {ns : List Node},
  parse_node_contents n text = .ok (ns, rest) →
    ∃ t et, text = t ++ (et ++ rest) ∧ Contents ns t ∧ EndTag et

section

variable {text rest : Bytes}

theorem of_parse_node {n : ℕ} {child : Option Node} (ih : ∀ m < n, ContentsSound m)
    (h : parse_node n text = .ok (child, rest)) : ∃ m, text = m ++ rest ∧ Markup child m := by
  rcases n with _ | n
  · cases h
  rw [parse_node] at h
  split_ifs at h with h63 h33
  · obtain ⟨t, hq, h⟩ := bind_eq_ok.mp h
    cases h
    obtain ⟨m, hm, hmisc⟩ := of_parse_question hq
    exact ⟨m, by rw [cons_of_ch (by decide) h63, hm], .misc hmisc⟩
  · obtain ⟨m, hm, ⟨rfl, hmisc⟩ | ⟨v, rfl, hcdata⟩⟩ := of_parse_exclamation h
    · exact ⟨m, by rw [cons_of_ch (by decide) h33, hm], .misc hmisc⟩
    · exact ⟨m, by rw [cons_of_ch (by decide) h33, hm], .cdata hcdata⟩
  · obtain ⟨⟨e, t⟩, he, h⟩ := bind_eq_ok.mp h
    cases h
    rcases n with _ | n
    · cases he
    rw [parse_element] at he
    obtain ⟨⟨name, u⟩, hname, he1⟩ := bind_eq_ok.mp he
    obtain ⟨⟨as, u'⟩, hattrs, he2⟩ := bind_eq_ok.mp he1
    clear he he1 h
    obtain ⟨st, rfl, hst⟩ := of_parse_start h33 hname hattrs
    simp only [ne_eq, pure_eq, throw_eq, error_bind] at he2
    split_ifs at he2 with h62 h47 hclose
    · obtain ⟨⟨children, r⟩, hc, he3⟩ := bind_eq_ok.mp he2
      cases he3
      obtain ⟨ct, et, hct, hcontents, het⟩ := ih n (by omega) hc
      have hcons := cons_of_ch (by decide) h62
      exact ⟨_, by rw [hcons, hct]; simp, .element hst hcontents het⟩
    · cases he2
      have hcons := cons_of_ch (by decide) h47
      have h1 : ch (u'.drop 1) 0 = 62 := by
        rw [hcons] at hclose
        exact hclose
      have hcons' := cons_of_ch (by decide) h1
      rw [List.drop_drop] at hcons'
      exact ⟨_, by rw [hcons, hcons']; simp, .empty hst⟩

theorem not_end_of_contents {n : ℕ} {ns : List Node}
    (h : parse_node_contents n text = .ok (ns, rest)) : ch text 0 ≠ 0 := by
  intro h0
  rcases n with _ | n
  · cases h
  · have hskip : skip whitespace_pred text = text := skip_of_not (by rw [h0]; rfl)
    rw [parse_node_contents, hskip] at h
    simp only [h0] at h
    cases h

theorem text_pred_eq_false {c : UInt8} (h : text_pred c = false) : c = 60 ∨ c = 0 := by
  simp only [text_pred, Bool.not_eq_false', Bool.or_eq_true, beq_iff_eq] at h
  exact h

/-- Data has a character that is not white space. -/
theorem data_nonblank {s u : Bytes} (hu : text_pred (ch u 0) = false)
    (h60 : ch (skip whitespace_pred (s ++ u)) 0 ≠ 60)
    (h0 : ch (skip whitespace_pred (s ++ u)) 0 ≠ 0) : ∃ c ∈ s, whitespace_pred c = false := by
  by_contra hno
  have hblank : Blank s := by
    intro c hc
    by_contra hw
    exact hno ⟨c, hc, by simpa using hw⟩
  have hstop : whitespace_pred (ch u 0) = false := by
    rcases text_pred_eq_false hu with h | h <;> rw [h] <;> rfl
  rw [skip_append hblank hstop] at h60 h0
  rcases text_pred_eq_false hu with h | h
  · exact h60 h
  · exact h0 h

theorem of_parse_contents (n : ℕ) : ContentsSound n := by
  induction n using Nat.strong_induction_on with
  | _ n ih =>
  intro text rest ns h
  rcases n with _ | n
  · cases h
  rw [parse_node_contents] at h
  obtain ⟨ws, hws, hblank, -⟩ := blank_skip text
  split_ifs at h with h60 h47 h0
  · obtain ⟨r, hclose, h⟩ := bind_eq_ok.mp h
    cases h
    obtain ⟨et, het, hend⟩ := of_parse_closing hclose
    have h1 : ch ((skip whitespace_pred text).drop 1) 0 = 47 := by
      rw [cons_of_ch (by decide) h60] at h47
      exact h47
    have hcons := cons_of_ch (by decide) h60
    have hcons' := cons_of_ch (by decide) h1
    rw [List.drop_drop] at hcons'
    refine ⟨ws, et, ?_, .nil hblank, hend⟩
    rw [hws, hcons, hcons', ← het]
  · obtain ⟨⟨child, r⟩, hchild, h⟩ := bind_eq_ok.mp h
    obtain ⟨⟨children, r'⟩, hmore, h⟩ := bind_eq_ok.mp h
    cases h
    obtain ⟨m, hm, hmarkup⟩ := of_parse_node (fun k hk => ih k (by omega)) hchild
    obtain ⟨t, et, rfl, hc, het⟩ := ih n (by omega) hmore
    have hcons := cons_of_ch (by decide) h60
    refine ⟨ws ++ 60 :: (m ++ t), et, ?_, contents_of_markup hblank hmarkup hc, het⟩
    rw [hws, hcons, hm]
    simp
  · obtain ⟨⟨v, u⟩, hexp, h⟩ := bind_eq_ok.mp h
    obtain ⟨⟨children, r'⟩, hmore, h⟩ := bind_eq_ok.mp h
    cases h
    obtain ⟨s, rfl, hspell, hu⟩ := of_expand rfl hexp
    have hne := data_nonblank hu h60 h0
    have hu60 : ch u 0 = 60 := (text_pred_eq_false hu).resolve_right (not_end_of_contents hmore)
    obtain ⟨t, et, rfl, hc, het⟩ := ih n (by omega) hmore
    refine ⟨s ++ t, et, by simp, .data hspell hne ?_ hc, het⟩
    rcases t with _ | ⟨c, t⟩
    · exact Or.inl rfl
    · exact Or.inr (by rw [← hu60]; rfl)

end

/-! ### Documents -/

theorem parse_markup {child : Option Node} {m : Bytes} (h : Markup child m) {n : ℕ} (rest : Bytes)
    (hn : 2 * (m ++ rest).length + 1 < n) : parse_node n (m ++ rest) = .ok (child, rest) := by
  obtain ⟨n, rfl⟩ : ∃ k, n = k + 2 := ⟨n - 2, by omega⟩
  cases h with
  | misc h => exact parse_misc h (n + 1) rest
  | cdata h => exact parse_cdata h (n + 1) rest
  | @empty name st as h =>
    have htext : st ++ [47, 62] ++ rest = st ++ 47 :: 62 :: rest := by simp
    rw [htext]
    exact parse_node_empty h n
  | @element name st ct et as children h hc het =>
    have htext : st ++ 62 :: (ct ++ et) ++ rest = st ++ 62 :: (ct ++ (et ++ rest)) := by simp
    rw [htext] at hn ⊢
    refine parse_node_element h (parse_contents hc het rest ?_)
    simp only [List.length_append, List.length_cons] at hn ⊢
    omega

theorem parse_document {ns : List Node} {t : Bytes} (h : Document ns t) {n : ℕ}
    (hn : t.length < n) : parse_nodes n t = .ok ns := by
  induction h generalizing n with
  | @nil ws hws =>
    obtain ⟨n, rfl⟩ : ∃ k, n = k + 1 := ⟨n - 1, by omega⟩
    have hskip := skip_append hws (r := []) rfl
    rw [List.append_nil] at hskip
    rw [parse_nodes, hskip]
    rfl
  | @markup ws m t child ns hws hm _ ih =>
    obtain ⟨n, rfl⟩ : ∃ k, n = k + 1 := ⟨n - 1, by omega⟩
    have hblank : whitespace_pred (ch (60 :: (m ++ t)) 0) = false := rfl
    have h0 : ¬ (60 : UInt8) = 0 := by decide
    have hchild := parse_markup hm t (n := 2 * (60 :: (m ++ t)).length) (by
      rw [List.length_cons]
      omega)
    have hmore := ih (n := n) (by
      rw [List.length_append, List.length_cons, List.length_append] at hn
      omega)
    rw [parse_nodes, skip_append hws hblank]
    simp only [ch_cons_zero, if_neg h0, if_true, List.drop_succ_cons, List.drop_zero, hchild,
      ok_bind, hmore, pure_eq]

theorem of_parse_nodes {n : ℕ} {text : Bytes} {ns : List Node} (h0 : 0 ∉ text)
    (h : parse_nodes n text = .ok ns) : Document ns text := by
  induction n generalizing text ns with
  | zero => cases h
  | succ n ih =>
    rw [parse_nodes] at h
    obtain ⟨ws, hws, hblank, -⟩ := blank_skip text
    simp only at h
    split_ifs at h with hend h60
    · cases h
      have hnil : skip whitespace_pred text = [] := by
        rcases hs : skip whitespace_pred text with _ | ⟨c, t⟩
        · rfl
        · rw [hs, ch_cons_zero] at hend
          rw [hws, hs, hend] at h0
          exact absurd (by simp) h0
      rw [hws, hnil, List.append_nil]
      exact .nil hblank
    · obtain ⟨⟨child, r⟩, hchild, h⟩ := bind_eq_ok.mp h
      obtain ⟨children, hmore, h⟩ := bind_eq_ok.mp h
      cases h
      obtain ⟨m, hm, hmarkup⟩ := of_parse_node (fun k _ => of_parse_contents k) hchild
      have hcons := cons_of_ch (by decide) h60
      have htext : text = ws ++ 60 :: (m ++ r) := by rw [← hm, ← hcons, ← hws]
      have hr : 0 ∉ r := fun hr => h0 (by rw [htext]; simp [hr])
      rw [htext]
      exact .markup hblank hmarkup (ih hr hmore)

theorem not_mem_c_str (s : Bytes) : 0 ∉ c_str s := fun h => by
  simpa using List.mem_takeWhile_imp h

theorem not_mem_bom {s : Bytes} (h : 0 ∉ s) : 0 ∉ parse_bom s := by
  unfold parse_bom
  split_ifs
  · exact fun hs => h (List.mem_of_mem_drop hs)
  · exact h

/-- **The parser accepts exactly the texts of documents**, and reads each as its nodes. -/
theorem parse_eq_ok_iff {s : Bytes} {ns : List Node} :
    parse s = .ok ns ↔ Document ns (parse_bom (c_str s)) := by
  constructor
  · exact of_parse_nodes (not_mem_bom (not_mem_c_str s))
  · exact fun h => parse_document h (Nat.lt_succ_self _)

/-! ### The parser ends -/

/-- The only fault of the parser with enough fuel. -/
def Aborts (e : Fault) : Prop := e = .parse_error

section

variable {text rest : Bytes}

theorem faultsIn_numeric (base : UInt32) (src : Bytes) : FaultsIn Aborts (numeric base src) := by
  unfold numeric
  split
  · exact faultsIn_error.mpr rfl
  · split_ifs
    · exact faultsIn_ok _
    · exact faultsIn_error.mpr rfl

theorem faultsIn_reference (src : Bytes) : FaultsIn Aborts (reference src) := by
  unfold reference
  split_ifs
  all_goals first | exact faultsIn_ok _ | exact (faultsIn_numeric _ _).map

theorem faultsIn_translation_loop {pred : UInt8 → Bool} (h0 : pred 0 = false) {n : ℕ} {src : Bytes}
    (hn : src.length < n) : FaultsIn Aborts (translation_loop pred n src) := by
  induction n generalizing src with
  | zero => omega
  | succ n ih =>
    rw [translation_loop]
    split_ifs with hp
    · have hpos : 0 < src.length := by
        rcases src with _ | ⟨c, s⟩
        · exact absurd hp (by simp [ch, h0])
        · simp
      refine (faultsIn_reference src).bind fun x hx => ?_
      rcases x with _ | ⟨dest, src'⟩
      · have hlen : (src.drop 1).length < n := by
          rw [List.length_drop]
          omega
        have hmore := ih hlen
        exact hmore.bind fun _ _ => faultsIn_ok _
      · obtain ⟨r, rfl, hr⟩ := of_reference hx
        obtain ⟨q, rfl⟩ := head_reference hr
        rw [List.length_append, List.length_cons] at hn
        have hlen : src'.length < n := by omega
        have hmore := ih hlen
        exact hmore.bind fun _ _ => faultsIn_ok _
    · exact faultsIn_ok _

theorem faultsIn_expand {pred : UInt8 → Bool} (h0 : pred 0 = false) (text : Bytes) :
    FaultsIn Aborts (skip_and_expand_character_refs pred text) :=
  (faultsIn_translation_loop h0 (Nat.lt_succ_self _)).bind fun _ _ => faultsIn_ok _

theorem faultsIn_skip_to (mark text : Bytes) : FaultsIn Aborts (skip_to mark text) := by
  unfold skip_to
  split
  · exact faultsIn_error.mpr rfl
  · exact faultsIn_ok _

theorem faultsIn_parse_doctype (depth : ℕ) (text : Bytes) :
    FaultsIn Aborts (parse_doctype depth text) := by
  induction text generalizing depth with
  | nil =>
    rw [parse_doctype]
    exact faultsIn_error.mpr rfl
  | cons c text ih =>
    rcases depth with _ | depth
    · rw [parse_doctype]
      split_ifs
      · exact faultsIn_ok _
      · exact ih _
      · exact ih _
    · rw [parse_doctype]
      split_ifs <;> exact ih _

theorem faultsIn_parse_question (text : Bytes) : FaultsIn Aborts (parse_question text) := by
  rw [parse_question_eq]
  exact (faultsIn_skip_to _ _).map

theorem faultsIn_parse_exclamation (text : Bytes) : FaultsIn Aborts (parse_exclamation text) := by
  unfold parse_exclamation
  split_ifs
  · exact (faultsIn_skip_to _ _).bind fun _ _ => faultsIn_ok _
  · exact (faultsIn_skip_to _ _).bind fun _ _ => faultsIn_ok _
  · exact (faultsIn_parse_doctype _ _).bind fun _ _ => faultsIn_ok _
  · exact (faultsIn_skip_to _ _).bind fun _ _ => faultsIn_ok _

theorem faultsIn_parse_attribute (text : Bytes) : FaultsIn Aborts (parse_attribute text) := by
  unfold parse_attribute
  simp only [ne_eq, pure_eq, throw_eq, error_bind]
  split_ifs
  · exact faultsIn_error.mpr rfl
  · refine (faultsIn_expand (by simp [attribute_value_pred]) _).bind fun x _ => ?_
    split_ifs
    · exact faultsIn_ok _
    · exact faultsIn_error.mpr rfl
  · exact faultsIn_error.mpr rfl

theorem length_of_parse_attribute {a : Bytes × Bytes}
    (hname : attribute_name_pred (ch text 0) = true) (h : parse_attribute text = .ok (a, rest)) :
    rest.length < text.length := by
  obtain ⟨t, ws, rfl, ha, -, -⟩ := of_parse_attribute hname h
  have ht : 0 < t.length := by
    cases ha
    simp
  simp only [List.length_append]
  omega

theorem faultsIn_parse_node_attributes {n : ℕ} (hn : text.length < n) :
    FaultsIn Aborts (parse_node_attributes n text) := by
  induction n generalizing text with
  | zero => omega
  | succ n ih =>
    rw [parse_node_attributes]
    split_ifs with hname
    · refine (faultsIn_parse_attribute text).bind fun x hx => ?_
      obtain ⟨a, t⟩ := x
      have hlen := length_of_parse_attribute hname hx
      have ht : t.length < n := by omega
      exact (ih ht).bind fun _ _ => faultsIn_ok _
    · exact faultsIn_ok _

theorem faultsIn_parse_name (text : Bytes) : FaultsIn Aborts (parse_name text) := by
  unfold parse_name
  simp only [pure_eq, throw_eq, error_bind]
  split_ifs
  all_goals first | exact faultsIn_ok _ | exact faultsIn_error.mpr rfl

theorem faultsIn_parse_closing (text : Bytes) : FaultsIn Aborts (parse_closing text) := by
  unfold parse_closing
  simp only [ne_eq, pure_eq, throw_eq, error_bind]
  split_ifs
  · exact faultsIn_ok _
  · exact faultsIn_error.mpr rfl

/-- The start tag takes a character of its name. -/
theorem length_of_parse_start {name u : Bytes} {as : List (Bytes × Bytes)} {n : ℕ}
    (hhead : ch text 0 ≠ 33) (h : parse_name text = .ok (name, u))
    (ha : parse_node_attributes n (skip whitespace_pred u) = .ok (as, rest)) :
    rest.length < text.length := by
  obtain ⟨st, rfl, hst⟩ := of_parse_start hhead h ha
  obtain ⟨c, q, rfl, -⟩ := head_start hst
  rw [List.length_append, List.length_cons]
  omega

theorem faultsIn_parse_node {n : ℕ} (hn : 2 * text.length + 2 ≤ n)
    (ih : ∀ m < n, ∀ t : Bytes, 2 * t.length < m → FaultsIn Aborts (parse_node_contents m t)) :
    FaultsIn Aborts (parse_node n text) := by
  obtain ⟨n, rfl⟩ : ∃ k, n = k + 2 := ⟨n - 2, by omega⟩
  rw [parse_node]
  split_ifs with h63 h33
  · exact (faultsIn_parse_question _).bind fun _ _ => faultsIn_ok _
  · exact faultsIn_parse_exclamation _
  refine FaultsIn.bind ?_ fun _ _ => faultsIn_ok _
  rw [parse_element]
  refine (faultsIn_parse_name text).bind fun x hx => ?_
  obtain ⟨name, u⟩ := x
  refine (faultsIn_parse_node_attributes (Nat.lt_succ_self _)).bind fun y hy => ?_
  obtain ⟨as, t⟩ := y
  have hlen := length_of_parse_start h33 hx hy
  simp only [ne_eq, pure_eq, throw_eq, error_bind]
  split_ifs
  · refine FaultsIn.bind (ih n (by omega) _ ?_) fun _ _ => faultsIn_ok _
    rw [List.length_drop]
    omega
  · exact faultsIn_ok _
  · exact faultsIn_error.mpr rfl
  · exact faultsIn_error.mpr rfl

theorem faultsIn_parse_node_contents (n : ℕ) (text : Bytes) (hn : 2 * text.length < n) :
    FaultsIn Aborts (parse_node_contents n text) := by
  induction n using Nat.strong_induction_on generalizing text with
  | _ n ih =>
  obtain ⟨n, rfl⟩ : ∃ k, n = k + 1 := ⟨n - 1, by omega⟩
  obtain ⟨ws, hws, -, -⟩ := blank_skip text
  have hskip : ws.length + (skip whitespace_pred text).length = text.length := by
    rw [← List.length_append, ← hws]
  rw [parse_node_contents]
  split_ifs with h60 h47 h0
  · exact (faultsIn_parse_closing _).bind fun _ _ => faultsIn_ok _
  · have hpos : 0 < (skip whitespace_pred text).length := by
      rw [cons_of_ch (by decide) h60]
      simp
    refine FaultsIn.bind ?_ fun x hx => ?_
    · refine faultsIn_parse_node ?_ fun m hm => ih m (by omega)
      rw [List.length_drop]
      omega
    · obtain ⟨child, t⟩ := x
      obtain ⟨m, hm, -⟩ := of_parse_node (fun k _ => of_parse_contents k) hx
      have hlen := congrArg List.length hm
      rw [List.length_drop, List.length_append] at hlen
      refine FaultsIn.bind (ih n (by omega) t ?_) fun _ _ => faultsIn_ok _
      omega
  · exact faultsIn_error.mpr rfl
  · refine (faultsIn_expand rfl text).bind fun x hx => ?_
    obtain ⟨v, t⟩ := x
    obtain ⟨s, rfl, -, ht⟩ := of_expand rfl hx
    obtain ⟨c, hc, -⟩ := data_nonblank ht h60 h0
    have hpos := List.length_pos_of_mem hc
    rw [List.length_append] at hn
    refine FaultsIn.bind (ih n (by omega) t ?_) fun _ _ => faultsIn_ok _
    omega

theorem faultsIn_parse_nodes {n : ℕ} (hn : text.length < n) :
    FaultsIn Aborts (parse_nodes n text) := by
  induction n generalizing text with
  | zero => omega
  | succ n ih =>
    obtain ⟨ws, hws, -, -⟩ := blank_skip text
    have hskip : ws.length + (skip whitespace_pred text).length = text.length := by
      rw [← List.length_append, ← hws]
    rw [parse_nodes]
    simp only
    split_ifs with hend h60
    · exact faultsIn_ok _
    · have hpos : 0 < (skip whitespace_pred text).length := by
        rw [cons_of_ch (by decide) h60]
        simp
      refine FaultsIn.bind ?_ fun x hx => ?_
      · refine faultsIn_parse_node ?_ fun m _ => faultsIn_parse_node_contents m
        rw [List.length_drop]
        omega
      · obtain ⟨child, t⟩ := x
        obtain ⟨m, hm, -⟩ := of_parse_node (fun k _ => of_parse_contents k) hx
        have hlen := congrArg List.length hm
        rw [List.length_drop, List.length_append] at hlen
        have ht : t.length < n := by omega
        exact (ih ht).bind fun _ _ => faultsIn_ok _
    · exact faultsIn_error.mpr rfl

end

/-- The parser does not run out of fuel. -/
theorem faultsIn_parse (s : Bytes) : FaultsIn Aborts (parse s) :=
  faultsIn_parse_nodes (Nat.lt_succ_self _)

/-- **The parser ends on every text**, and every text that is not a document ends the module. -/
theorem parse_eq_error_iff {s : Bytes} : parse s ≠ .error .unfinished ∧
    (parse s = .error .parse_error ↔ ∀ ns, ¬ Document ns (parse_bom (c_str s))) := by
  have hends := faultsIn_parse s
  refine ⟨fun hs => ?_, ?_⟩
  · cases hends _ hs
  rcases hs : parse s with e | ns
  · obtain rfl : e = .parse_error := hends e hs
    refine iff_of_true rfl fun ns h => ?_
    have hok : parse s = .ok ns := parse_document h (Nat.lt_succ_self _)
    rw [hs] at hok
    cases hok
  · refine iff_of_false (by simp) fun h => h ns ?_
    exact of_parse_nodes (not_mem_bom (not_mem_c_str s)) hs

/-! ### The strings of a tree -/

/-- The bytes that the strings of the attributes take in the text, each with its NUL. -/
def attributesSize (attributes : List (Bytes × Bytes)) : ℕ :=
  (attributes.map fun a => a.1.length + 1 + (a.2.length + 1)).sum

mutual

/-- The bytes that the strings of a node take in the text, each with its NUL. -/
def size : Node → ℕ
  | .element name attributes children =>
    name.length + 1 + attributesSize attributes + sizes children
  | .data value => value.length + 1
  | .cdata value => value.length + 1

def sizes : List Node → ℕ
  | [] => 0
  | n :: ns => size n + sizes ns

end

theorem sizes_append (ns ms : List Node) : sizes (ns ++ ms) = sizes ns + sizes ms := by
  induction ns with
  | nil => rw [List.nil_append, sizes, Nat.zero_add]
  | cons n ns ih => rw [List.cons_append, sizes, sizes, ih, Nat.add_assoc]

theorem length_coded {c : UInt32} {dest : Bytes} (h : insert_coded_character false c = some dest) :
    dest.length ≤ 4 := by
  unfold insert_coded_character at h
  rw [if_neg Bool.false_ne_true] at h
  split_ifs at h <;> obtain rfl := Option.some.inj h <;> simp

/-- A reference is no shorter than what it stands for, so a value fits where its text was. -/
theorem length_reference {dest r : Bytes} (h : Reference dest r) : dest.length ≤ r.length := by
  cases h with
  | hexadecimal digits dest _ hdest =>
    have h4 := length_coded hdest
    have hx : (lit "&#x").length = 3 := rfl
    have hend : (lit ";").length = 1 := rfl
    rw [List.length_append, List.length_append, hx, hend]
    omega
  | decimal digits dest _ hdest =>
    have h4 := length_coded hdest
    have hx : (lit "&#").length = 2 := rfl
    have hend : (lit ";").length = 1 := rfl
    rw [List.length_append, List.length_append, hx, hend]
    rcases digits with _ | ⟨d, ds⟩
    · obtain rfl : dest = [0] := (Option.some.inj hdest).symm
      simp
    · rw [List.length_cons]
      omega
  | _ => decide

theorem length_spelled {pred : UInt8 → Bool} {v t : Bytes} (h : Spelled pred v t) :
    v.length ≤ t.length := by
  induction h with
  | nil => exact le_rfl
  | char c _ _ _ ih => simpa using ih
  | ampersand _ _ ih => simpa using ih
  | reference hr _ ih =>
    rw [List.length_append, List.length_append]
    exact Nat.add_le_add (length_reference hr) ih

theorem length_named {name nt : Bytes} (h : Named name nt) : name.length ≤ nt.length := by
  cases h with
  | plain => exact le_rfl
  | prefixed p name =>
    rw [List.length_append, List.length_cons]
    omega

theorem size_attributes {as : List (Bytes × Bytes)} {t : Bytes} (h : Attributes as t) :
    attributesSize as ≤ t.length := by
  induction h with
  | nil => exact le_rfl
  | @cons a as t ws u ha _ _ ih =>
    have hone : a.1.length + 1 + (a.2.length + 1) ≤ t.length := by
      obtain ⟨hv⟩ := ha
      have hlen := length_spelled ‹_›
      simp only [List.length_append, List.length_cons, List.length_nil]
      omega
    have hcons : attributesSize (a :: as) =
        a.1.length + 1 + (a.2.length + 1) + attributesSize as := rfl
    rw [hcons, List.length_append, List.length_append]
    omega

theorem size_start {name st : Bytes} {as : List (Bytes × Bytes)} (h : StartTag name as st) :
    name.length + attributesSize as ≤ st.length := by
  obtain ⟨hname, -, -, has⟩ := h
  have h1 := length_named hname
  have h2 := size_attributes has
  rw [List.length_append, List.length_append]
  omega

theorem length_end {et : Bytes} (h : EndTag et) : 3 ≤ et.length := by
  cases h
  simp only [List.length_append, List.length_cons]
  omega

theorem size_cdata {v m : Bytes} (h : Cdata v m) : size (.cdata v) ≤ m.length := by
  cases h
  rw [size, List.length_append, List.length_append]
  have hend : (lit "]]>").length = 3 := rfl
  omega

/-- The NUL of a text takes the byte behind it, which at the end of the contents is the `<` of the
closing tag. -/
theorem size_contents {ns : List Node} {t : Bytes} (h : Contents ns t) :
    sizes ns ≤ t.length + 1 ∧ (t = [] ∨ t.head? = some 60 → sizes ns ≤ t.length) := by
  induction h with
  | nil => exact ⟨Nat.zero_le _, fun _ => Nat.zero_le _⟩
  | misc _ _ _ ih =>
    simp only [List.length_append, List.length_cons]
    omega
  | cdata _ hm _ ih =>
    have h1 := size_cdata hm
    simp only [sizes, List.length_append, List.length_cons]
    omega
  | empty _ hst _ ih =>
    have h1 := size_start hst
    simp only [size, sizes, List.length_append, List.length_cons]
    omega
  | element _ hst _ het _ ihc ih =>
    have h1 := size_start hst
    have h2 := length_end het
    simp only [size, sizes, List.length_append, List.length_cons]
    omega
  | @data v s t ns hs hc ht _ ih =>
    have h1 := length_spelled hs
    have h2 := ih.2 ht
    refine ⟨by simp only [size, sizes, List.length_append]; omega, fun hhead => ?_⟩
    -- a text has a first byte, which is not a `<`
    obtain ⟨c, hc, -⟩ := hc
    obtain ⟨d, s, rfl⟩ := List.exists_cons_of_ne_nil (List.ne_nil_of_mem hc)
    have hd := mem_spelled hs d List.mem_cons_self
    rcases hhead with hnil | hhead
    · cases hnil
    · obtain rfl : d = 60 := by simpa using hhead
      cases hd

theorem size_markup {child : Option Node} {m : Bytes} (h : Markup child m) :
    sizes child.toList ≤ m.length + 1 := by
  cases h with
  | misc _ => exact Nat.zero_le _
  | cdata hm =>
    have h1 := size_cdata hm
    simp only [Option.toList_some, sizes]
    omega
  | empty hst =>
    have h1 := size_start hst
    simp only [Option.toList_some, size, sizes, List.length_append]
    omega
  | element hst hc het =>
    have h1 := size_start hst
    have h2 := (size_contents hc).1
    have h3 := length_end het
    simp only [Option.toList_some, size, sizes, List.length_append, List.length_cons]
    omega

theorem size_document {ns : List Node} {t : Bytes} (h : Document ns t) : sizes ns ≤ t.length := by
  induction h with
  | nil => exact Nat.zero_le _
  | markup _ hm _ ih =>
    have h1 := size_markup hm
    rw [sizes_append]
    simp only [List.length_append, List.length_cons]
    omega

theorem length_bom (s : Bytes) : (parse_bom s).length ≤ s.length := by
  unfold parse_bom
  split_ifs
  · rw [List.length_drop]
    omega
  · exact le_rfl

/-- **The strings of the tree take no more bytes than the text**, each with the NUL that the parser
writes behind it. -/
theorem parse_size {s : Bytes} {ns : List Node} (h : parse s = .ok ns) : sizes ns ≤ s.length := by
  have hdoc := of_parse_nodes (not_mem_bom (not_mem_c_str s)) h
  calc sizes ns ≤ (parse_bom (c_str s)).length := size_document hdoc
    _ ≤ (c_str s).length := length_bom _
    _ ≤ s.length := (List.takeWhile_prefix _).length_le

/-- A decimal reference with a prefixed name and a CDATA section. -/
theorem parse_size_reference :
    sizes [.element (lit "b") [(lit "k", lit "A")] [.cdata (lit "x")]] ≤
      (lit "<a:b k='&#65;'><![CDATA[x]]></a>").length :=
  parse_size (s := lit "<a:b k='&#65;'><![CDATA[x]]></a>") (by with_unfolding_all rfl)

end HfiWebserver.Guest.XmlParse
