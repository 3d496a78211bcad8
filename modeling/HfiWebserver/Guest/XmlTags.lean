import HfiWebserver.Guest.XmlValue

/-! # How the XML parser reads tags

For each part of the grammar that is not a list of nodes, the function of the parser that reads it:
what it does on a text of the grammar, and that what it reads is one. -/

namespace HfiWebserver.Guest.XmlTags

open HfiWebserver.Lib.ByteStrings HfiWebserver.Lib.Fallible
open HfiWebserver.Lib
open HfiWebserver.Guest.Rapidxml HfiWebserver.Guest.XmlGrammar HfiWebserver.Guest.XmlValue

/-! ### Marks -/

theorem skip_to_append {p l : Bytes} (hp : p ≠ [])
    (h : ¬ p <:+: l ++ p.dropLast) (rest : Bytes) :
    skip_to p (l ++ (p ++ rest)) = .ok (l, rest) := by
  have hlen : l.length + p.length = (l ++ p).length := List.length_append.symm
  rw [skip_to, Split.find_append hp h]
  simp only
  rw [List.take_left, hlen, ← List.append_assoc, List.drop_left]
  rfl

theorem of_skip_to {p text l rest : Bytes} (hp : p ≠ [])
    (h : skip_to p text = .ok (l, rest)) :
    text = l ++ (p ++ rest) ∧ ¬ p <:+: l ++ p.dropLast := by
  rw [skip_to] at h
  split at h
  · cases h
  · next i hi =>
    obtain ⟨a, r, rfl, rfl, hno⟩ := Split.exists_of_find hp hi
    have hlen : a.length + p.length = (a ++ p).length := List.length_append.symm
    rw [List.take_left, hlen, ← List.append_assoc, List.drop_left] at h
    cases h
    exact ⟨rfl, hno⟩

theorem parse_doctype_append {depth : ℕ} {t : Bytes} (h : Doctype depth t) (rest : Bytes) :
    parse_doctype depth (t ++ rest) = .ok rest := by
  induction h with
  | close => rfl
  | char c h62 h91 _ ih => rw [List.cons_append, parse_doctype, if_neg h62, if_neg h91, ih]
  | @opening depth t _ ih =>
    cases depth with
    | zero => exact ih
    | succ depth => exact ih
  | closing _ ih => rw [List.cons_append, parse_doctype, if_neg (by decide), if_pos rfl, ih]
  | inner c h91 h93 _ ih => rw [List.cons_append, parse_doctype, if_neg h91, if_neg h93, ih]

theorem of_parse_doctype {depth : ℕ} {text rest : Bytes}
    (h : parse_doctype depth text = .ok rest) : ∃ t, text = t ++ rest ∧ Doctype depth t := by
  induction text generalizing depth with
  | nil => cases depth <;> cases h
  | cons c text ih =>
    cases depth with
    | zero =>
      rw [parse_doctype] at h
      split_ifs at h with h62 h91
      · cases h
        exact ⟨[62], by rw [h62]; rfl, .close⟩
      · obtain ⟨t, rfl, ht⟩ := ih h
        exact ⟨91 :: t, by rw [h91]; rfl, .opening ht⟩
      · obtain ⟨t, rfl, ht⟩ := ih h
        exact ⟨c :: t, rfl, .char c h62 h91 ht⟩
    | succ depth =>
      rw [parse_doctype] at h
      split_ifs at h with h91 h93
      · obtain ⟨t, rfl, ht⟩ := ih h
        exact ⟨91 :: t, by rw [h91]; rfl, .opening ht⟩
      · obtain ⟨t, rfl, ht⟩ := ih h
        exact ⟨93 :: t, by rw [h93]; rfl, .closing ht⟩
      · obtain ⟨t, rfl, ht⟩ := ih h
        exact ⟨c :: t, rfl, .inner c h91 h93 ht⟩

theorem skip_to_cons {c : UInt8} {p : Bytes} (hp : p ≠ []) (hc : p.head? ≠ some c)
    (text : Bytes) : (skip_to p (c :: text)).map Prod.snd = (skip_to p text).map Prod.snd := by
  obtain ⟨d, q, rfl⟩ := List.exists_cons_of_ne_nil hp
  have hne : (d :: q).isPrefixOf (c :: text) = false := by
    have hdc : d ≠ c := fun h => hc (by rw [h]; rfl)
    simp [List.isPrefixOf, hdc]
  rw [skip_to, skip_to, Split.find, hne]
  rcases Split.find (d :: q) text with _ | i
  · rfl
  · simp only [Bool.false_eq_true, if_false, Option.map_some, pure_eq, map_ok,
      Nat.add_right_comm i 1, List.drop_succ_cons]

/-- The four characters of `<?xml ` cannot hold an end of it. -/
theorem parse_question_eq (text : Bytes) :
    parse_question text = (skip_to (lit "?>") text).map Prod.snd := by
  have hbind : ∀ x : Except Fault (Bytes × Bytes),
      (x >>= fun p => pure p.2) = x.map Prod.snd := by
    rintro (e | x) <;> rfl
  unfold parse_question
  split_ifs with hxml
  · refine (hbind _).trans ?_
    obtain ⟨h0, h1, h2, h3⟩ := hxml
    have hcons : ∀ {c : UInt8} (t : Bytes), c ≠ 63 →
        (skip_to (lit "?>") (c :: t)).map Prod.snd = (skip_to (lit "?>") t).map Prod.snd :=
      fun {c} t hc => skip_to_cons (p := lit "?>") (by decide)
        (show some 63 ≠ some c by simpa using hc.symm) t
    rcases text with _ | ⟨a, _ | ⟨b, _ | ⟨c, _ | ⟨d, t⟩⟩⟩⟩
    · exact absurd h3 Bool.false_ne_true
    · exact absurd h3 Bool.false_ne_true
    · exact absurd h3 Bool.false_ne_true
    · exact absurd h3 Bool.false_ne_true
    · change a = 120 ∨ a = 88 at h0
      change b = 109 ∨ b = 77 at h1
      change c = 108 ∨ c = 76 at h2
      change whitespace_pred d = true at h3
      have ha : a ≠ 63 := by
        rintro rfl
        exact absurd h0 (by decide)
      have hb : b ≠ 63 := by
        rintro rfl
        exact absurd h1 (by decide)
      have hc : c ≠ 63 := by
        rintro rfl
        exact absurd h2 (by decide)
      have hd : d ≠ 63 := by
        rintro rfl
        exact absurd h3 (by decide)
      rw [hcons _ ha, hcons _ hb, hcons _ hc, hcons _ hd]
      rfl
  · exact hbind _

theorem parse_misc {m : Bytes} (h : Misc m) (n : ℕ) (rest : Bytes) :
    parse_node (n + 1) (m ++ rest) = .ok (none, rest) := by
  cases h with
  | question c hno =>
    have hto := skip_to_append (p := lit "?>") (by decide) hno rest
    rw [List.cons_append, List.append_assoc, parse_node, ch_cons_zero, if_pos rfl,
      List.drop_succ_cons, List.drop_zero, parse_question_eq, hto]
    rfl
  | comment c hno =>
    have hto := skip_to_append (p := lit "-->") (by decide) hno rest
    have hpar : parse_node (n + 1) (lit "!--" ++ (c ++ (lit "-->" ++ rest))) =
        skip_to (lit "-->") (c ++ (lit "-->" ++ rest)) >>= fun x => pure (none, x.2) := rfl
    rw [List.append_assoc, List.append_assoc, hpar, hto]
    rfl
  | @doctype w t hw ht =>
    have hdoc := parse_doctype_append ht rest
    have hpar : parse_node (n + 1) (lit "!DOCTYPE" ++ (w :: (t ++ rest))) =
        (do let t ← parse_doctype 0 (t ++ rest); pure (none, t)) := by
      have h1 : (lit "--").isPrefixOf (lit "DOCTYPE" ++ (w :: (t ++ rest))) = false := rfl
      have h2 : (lit "[CDATA[").isPrefixOf (lit "DOCTYPE" ++ (w :: (t ++ rest))) = false := rfl
      have h3 : (lit "DOCTYPE").isPrefixOf (lit "DOCTYPE" ++ (w :: (t ++ rest))) = true := rfl
      have h7 : ch (lit "DOCTYPE" ++ (w :: (t ++ rest))) 7 = w := rfl
      have hex : parse_node (n + 1) (lit "!DOCTYPE" ++ (w :: (t ++ rest))) =
          parse_exclamation (lit "DOCTYPE" ++ (w :: (t ++ rest))) := rfl
      rw [hex, parse_exclamation]
      simp only [h1, h2, h3, h7, hw, Bool.false_eq_true, if_false, and_self, if_true]
      rfl
    rw [List.append_assoc, List.cons_append, hpar, hdoc]
    rfl
  | other c h62 hcomment hcdata hdoctype =>
    have hpre : ∀ p : Bytes, 62 ∉ p → (p.isPrefixOf (c ++ 62 :: rest) = true ↔ p <+: c) :=
      fun p hp => List.isPrefixOf_iff_prefix.trans (prefix_append_cons_iff hp)
    have h1 := (hpre (lit "--") (by decide)).not.mpr hcomment
    have h2 := (hpre (lit "[CDATA[") (by decide)).not.mpr hcdata
    have h3 : ¬ ((lit "DOCTYPE").isPrefixOf (c ++ 62 :: rest) = true ∧
        whitespace_pred (ch (c ++ 62 :: rest) 7) = true) := by
      rintro ⟨hdoc, hw⟩
      have hc := (hpre (lit "DOCTYPE") (by decide)).mp hdoc
      have hcw := hdoctype hc
      obtain ⟨t, rfl⟩ := hc
      cases t with
      | nil => exact absurd hw Bool.false_ne_true
      | cons d t =>
        rw [show ch (lit "DOCTYPE" ++ d :: t) 7 = d from rfl] at hcw
        rw [show ch (lit "DOCTYPE" ++ d :: t ++ 62 :: rest) 7 = d from rfl, hcw] at hw
        exact absurd hw Bool.false_ne_true
    have hto := skip_to_append (p := lit ">") (l := c) (by decide) (by
      have hlit : lit ">" = [62] := by decide
      rwa [hlit, List.dropLast_singleton, List.append_nil, List.singleton_infix_iff]) rest
    rw [List.cons_append, List.append_assoc, parse_node, ch_cons_zero, if_neg (by decide),
      if_pos rfl, List.drop_succ_cons, List.drop_zero, parse_exclamation]
    rw [List.singleton_append, if_neg h1, if_neg h2, if_neg h3]
    rw [show lit ">" ++ rest = 62 :: rest from rfl] at hto
    rw [hto]
    rfl

theorem parse_cdata {v m : Bytes} (h : Cdata v m) (n : ℕ) (rest : Bytes) :
    parse_node (n + 1) (m ++ rest) = .ok (some (.cdata v), rest) := by
  cases h with
  | mk hno =>
  have hto := skip_to_append (p := lit "]]>") (by decide) hno rest
  have hpar : parse_node (n + 1) (lit "![CDATA[" ++ (v ++ (lit "]]>" ++ rest))) =
      skip_to (lit "]]>") (v ++ (lit "]]>" ++ rest)) >>= fun x => pure (some (.cdata x.1), x.2) :=
    rfl
  rw [List.append_assoc, List.append_assoc, hpar, hto]
  rfl

theorem of_parse_question {text rest : Bytes} (h : parse_question text = .ok rest) :
    ∃ m, 63 :: text = m ++ rest ∧ Misc m := by
  rw [parse_question_eq] at h
  obtain ⟨⟨c, rest'⟩, hto, heq⟩ := map_eq_ok.mp h
  cases heq
  obtain ⟨rfl, hno⟩ := of_skip_to (by decide) hto
  exact ⟨63 :: (c ++ lit "?>"), by simp, .question c hno⟩

theorem of_parse_exclamation {text rest : Bytes} {child : Option Node}
    (h : parse_exclamation text = .ok (child, rest)) :
    ∃ m, 33 :: text = m ++ rest ∧
      (child = none ∧ Misc m ∨ ∃ v, child = some (.cdata v) ∧ Cdata v m) := by
  unfold parse_exclamation at h
  split_ifs at h with hcomment hcdata hdoctype
  · obtain ⟨⟨c, t⟩, hto, h⟩ := bind_eq_ok.mp h
    cases h
    obtain ⟨htext, hno⟩ := of_skip_to (by decide) hto
    have hpre : text = lit "--" ++ text.drop 2 := eq_of_isPrefixOf hcomment
    refine ⟨_, ?_, Or.inl ⟨rfl, .comment c hno⟩⟩
    rw [hpre, htext]
    simp [show lit "!--" = 33 :: lit "--" by decide]
  · obtain ⟨⟨v, t⟩, hto, h⟩ := bind_eq_ok.mp h
    cases h
    obtain ⟨htext, hno⟩ := of_skip_to (by decide) hto
    have hpre : text = lit "[CDATA[" ++ text.drop 7 := eq_of_isPrefixOf hcdata
    refine ⟨_, ?_, Or.inr ⟨v, rfl, .mk v hno⟩⟩
    rw [hpre, htext]
    simp [show lit "![CDATA[" = 33 :: lit "[CDATA[" by decide]
  · obtain ⟨hdoc, hw⟩ := hdoctype
    obtain ⟨t, hto, h⟩ := bind_eq_ok.mp h
    cases h
    obtain ⟨d, hd, hdoctype⟩ := of_parse_doctype hto
    have hpre : text = lit "DOCTYPE" ++ text.drop 7 := eq_of_isPrefixOf hdoc
    obtain ⟨w, s, hs⟩ : ∃ w s, text.drop 7 = w :: s := by
      refine List.exists_cons_of_ne_nil fun hnil => ?_
      rw [hpre, hnil] at hw
      exact absurd hw Bool.false_ne_true
    have h7 : ch text 7 = w := by rw [hpre, hs]; rfl
    have h8 : text.drop 8 = s := by rw [hpre, hs]; rfl
    rw [h7] at hw
    rw [h8] at hd
    refine ⟨lit "!DOCTYPE" ++ w :: d, ?_, Or.inl ⟨rfl, .doctype w hw hdoctype⟩⟩
    rw [hpre, hs, hd]
    simp [show lit "!DOCTYPE" = 33 :: lit "DOCTYPE" by decide]
  · obtain ⟨⟨c, t⟩, hto, h⟩ := bind_eq_ok.mp h
    cases h
    have hlit : lit ">" = [62] := by decide
    obtain ⟨rfl, hno⟩ := of_skip_to (by decide) hto
    have hpre : ∀ p : Bytes, p <+: c → p <+: c ++ (lit ">" ++ rest) := fun p hp =>
      hp.trans (List.prefix_append c _)
    rw [hlit, List.dropLast_singleton, List.append_nil, List.singleton_infix_iff] at hno
    refine ⟨33 :: (c ++ [62]), by rw [hlit]; simp, Or.inl ⟨rfl, .other c hno ?_ ?_ ?_⟩⟩
    · exact fun hp => hcomment (List.isPrefixOf_iff_prefix.mpr (hpre _ hp))
    · exact fun hp => hcdata (List.isPrefixOf_iff_prefix.mpr (hpre _ hp))
    · intro hp
      by_contra hw
      rw [Bool.not_eq_false] at hw
      refine hdoctype ⟨List.isPrefixOf_iff_prefix.mpr (hpre _ hp), ?_⟩
      obtain ⟨t, rfl⟩ := hp
      cases t with
      | nil => exact absurd hw Bool.false_ne_true
      | cons d t => exact hw

/-! ### Attributes -/

section

variable {text rest : Bytes}

theorem stop_attribute {quote : UInt8} (hq : quote = 39 ∨ quote = 34) :
    ∀ p ∈ openings, ∀ c ∈ p, attribute_value_pred quote c = true := by
  have h : ∀ q, q = 39 ∨ q = 34 →
      openings.all (fun p => p.all (attribute_value_pred q)) = true := by
    rintro q (rfl | rfl) <;> decide
  intro p hp c hc
  exact List.all_eq_true.mp (List.all_eq_true.mp (h quote hq) p hp) c hc

theorem stop_text : ∀ p ∈ openings, ∀ c ∈ p, text_pred c = true := by
  have h : openings.all (fun p => p.all text_pred) = true := by decide
  intro p hp c hc
  exact List.all_eq_true.mp (List.all_eq_true.mp h p hp) c hc

theorem not_attribute_of_blank {ws : Bytes} (hws : Blank ws) {c : UInt8}
    (hc : attribute_name_pred c = false) (t : Bytes) :
    attribute_name_pred (ch (ws ++ c :: t) 0) = false := by
  cases ws with
  | nil => exact hc
  | cons w ws =>
    have hw := hws w List.mem_cons_self
    simp [ch, attribute_name_pred, hw]

theorem parse_attribute_append {a : Bytes × Bytes} {t ws : Bytes} (h : Attribute a t)
    (hws : Blank ws) (hrest : whitespace_pred (ch rest 0) = false) :
    parse_attribute (t ++ (ws ++ rest)) = .ok (a, rest) := by
  cases h with
  | @mk name w1 w2 v t quote hne hname hw1 hw2 hq hv =>
  have hquote : attribute_value_pred quote (ch (quote :: (ws ++ rest)) 0) = false := by
    simp [ch, attribute_value_pred]
  have hexp := expand_append (stop_attribute hq) hv hquote
  have hqw : whitespace_pred quote = false := by rcases hq with rfl | rfl <;> rfl
  have hq' : ¬ (quote ≠ 39 ∧ quote ≠ 34) := by
    rintro ⟨h1, h2⟩
    exact hq.elim h1 h2
  have htext : name ++ (w1 ++ 61 :: (w2 ++ quote :: (t ++ [quote]))) ++ (ws ++ rest) =
      name ++ (w1 ++ 61 :: (w2 ++ quote :: (t ++ quote :: (ws ++ rest)))) := by simp
  rw [htext, parse_attribute]
  have hstop := not_attribute_of_blank hw1 (show attribute_name_pred 61 = false from rfl)
    (w2 ++ quote :: (t ++ quote :: (ws ++ rest)))
  rw [takeWhile_append hname hstop, skip_append hname hstop]
  rw [skip_append hw1 (show whitespace_pred (ch (61 :: _) 0) = false from rfl)]
  simp only [ch_cons_zero, ne_eq, not_true, if_false, pure_eq, List.drop_succ_cons,
    List.drop_zero]
  rw [skip_append hw2 (show whitespace_pred (ch (quote :: _) 0) = false from hqw)]
  simp only [ch_cons_zero, List.drop_succ_cons, List.drop_zero, hexp, ok_bind, if_neg hq',
    skip_append hws hrest, if_false, not_true]

theorem cons_of_ch {c : UInt8} (hc : c ≠ 0) (h : ch text 0 = c) : text = c :: text.drop 1 := by
  rcases text with _ | ⟨d, t⟩
  · exact absurd h.symm hc
  · rw [ch_cons_zero] at h
    rw [h]
    rfl

theorem blank_skip (text : Bytes) : ∃ ws, text = ws ++ skip whitespace_pred text ∧ Blank ws ∧
    whitespace_pred (ch (skip whitespace_pred text) 0) = false := by
  obtain ⟨htext, hws, hstop⟩ := skip_spec whitespace_pred text rfl
  exact ⟨_, htext, hws, hstop⟩

theorem of_parse_attribute {a : Bytes × Bytes} (hname : attribute_name_pred (ch text 0) = true)
    (h : parse_attribute text = .ok (a, rest)) : ∃ t ws, text = t ++ (ws ++ rest) ∧
      Attribute a t ∧ Blank ws ∧ whitespace_pred (ch rest 0) = false := by
  unfold parse_attribute at h
  obtain ⟨htext, hall, -⟩ := skip_spec attribute_name_pred text rfl
  obtain ⟨w1, hw1, hblank1, -⟩ := blank_skip (skip attribute_name_pred text)
  have hne : text.takeWhile attribute_name_pred ≠ [] := by
    rcases text with _ | ⟨c, s⟩
    · exact absurd hname Bool.false_ne_true
    · rw [ch_cons_zero] at hname
      rw [List.takeWhile_cons_of_pos hname]
      exact List.cons_ne_nil _ _
  set u := skip whitespace_pred (skip attribute_name_pred text) with hu
  simp only [ne_eq, pure_eq, throw_eq, error_bind] at h
  split_ifs at h with h61 hq
  obtain ⟨w2, hw2, hblank2, -⟩ := blank_skip (u.drop 1)
  set q := skip whitespace_pred (u.drop 1) with hqdef
  obtain ⟨⟨v, s⟩, hexp, h⟩ := bind_eq_ok.mp h
  simp only at h
  split_ifs at h with hclose
  cases h
  have hquote : ch q 0 = 39 ∨ ch q 0 = 34 := by
    by_contra hno
    rw [not_or] at hno
    exact hq hno
  have hq0 : ch q 0 ≠ 0 := by rcases hquote with h | h <;> rw [h] <;> decide
  obtain ⟨t, ht, hspell, -⟩ := of_expand (by simp [attribute_value_pred]) hexp
  obtain ⟨w3, hw3, hblank3, hstop⟩ := blank_skip (s.drop 1)
  refine ⟨_, w3, ?_, .mk _ hne hall hblank1 hblank2 hquote hspell, hblank3, hstop⟩
  have h1 := cons_of_ch (by decide) h61
  have h2 := cons_of_ch hq0 rfl
  have h3 := cons_of_ch hq0 hclose
  calc text = text.takeWhile attribute_name_pred ++ (w1 ++ u) := by rw [← hw1, ← htext]
    _ = text.takeWhile attribute_name_pred ++ (w1 ++ 61 :: (w2 ++ q)) := by rw [h1, hw2]
    _ = text.takeWhile attribute_name_pred ++ (w1 ++ 61 :: (w2 ++ ch q 0 :: (t ++ s))) := by
      rw [← ht, ← h2]
    _ = text.takeWhile attribute_name_pred ++ (w1 ++ 61 :: (w2 ++ ch q 0 :: (t ++ ch q 0 ::
        (w3 ++ skip whitespace_pred (s.drop 1))))) := by rw [← hw3, ← h3]
    _ = _ := by simp

theorem attributes_head {as : List (Bytes × Bytes)} {t : Bytes} (h : Attributes as t)
    (hrest : whitespace_pred (ch rest 0) = false) :
    whitespace_pred (ch (t ++ rest) 0) = false := by
  cases h with
  | nil => exact hrest
  | cons ha _ _ =>
    cases ha with
    | mk name hne hname =>
      obtain ⟨c, name, rfl⟩ := List.exists_cons_of_ne_nil hne
      have hc := hname c List.mem_cons_self
      simp only [attribute_name_pred, Bool.not_eq_true', Bool.or_eq_false_iff] at hc
      exact hc.1.1.1.1.1.1.1

theorem parse_attributes_append {as : List (Bytes × Bytes)} {t : Bytes} (h : Attributes as t)
    (hrest : whitespace_pred (ch rest 0) = false) (hend : attribute_name_pred (ch rest 0) = false)
    {n : ℕ} (hn : t.length < n) : parse_node_attributes n (t ++ rest) = .ok (as, rest) := by
  induction h generalizing n with
  | nil =>
    obtain ⟨n, rfl⟩ : ∃ k, n = k + 1 := ⟨n - 1, by omega⟩
    rw [List.nil_append, parse_node_attributes, hend]
    rfl
  | @cons a as t ws u ha hws hu ih =>
    obtain ⟨n, rfl⟩ : ∃ k, n = k + 1 := ⟨n - 1, by omega⟩
    have hone := parse_attribute_append ha hws (attributes_head hu hrest)
    have hlen : 0 < t.length := by
      cases ha
      simp
    have hhead : attribute_name_pred (ch (t ++ (ws ++ (u ++ rest))) 0) = true := by
      cases ha with
      | mk name hne hname =>
        obtain ⟨c, name, rfl⟩ := List.exists_cons_of_ne_nil hne
        exact hname c List.mem_cons_self
    have hmore := ih (n := n) (by
      simp only [List.length_append] at hn
      omega)
    rw [List.append_assoc, List.append_assoc, parse_node_attributes, if_pos hhead, hone]
    simp only [ok_bind, hmore, pure_eq]

theorem of_parse_attributes {as : List (Bytes × Bytes)} {n : ℕ}
    (h : parse_node_attributes n text = .ok (as, rest)) : ∃ t, text = t ++ rest ∧
      Attributes as t ∧ attribute_name_pred (ch rest 0) = false := by
  induction n generalizing text as with
  | zero => cases h
  | succ n ih =>
    rw [parse_node_attributes] at h
    split_ifs at h with hname
    · obtain ⟨⟨a, s⟩, hone, h⟩ := bind_eq_ok.mp h
      obtain ⟨⟨as', s'⟩, hmore, h⟩ := bind_eq_ok.mp h
      cases h
      obtain ⟨t, ws, rfl, ha, hws, -⟩ := of_parse_attribute hname hone
      obtain ⟨u, rfl, hu, hend⟩ := ih hmore
      exact ⟨t ++ (ws ++ u), by simp, .cons ha hws hu, hend⟩
    · cases h
      exact ⟨[], rfl, .nil, by simpa using hname⟩

/-! ### Names -/

theorem node_name_of_element {c : UInt8} (h : element_name_pred c = true) :
    node_name_pred c = true := by
  simp only [element_name_pred, Bool.and_eq_true] at h
  exact h.1

theorem node_name_of_attribute_name {c : UInt8} (h : attribute_name_pred c = true) :
    node_name_pred c = true := by
  simp only [attribute_name_pred, node_name_pred, Bool.not_eq_true', Bool.or_eq_false_iff] at h ⊢
  tauto

theorem parse_name_append {name nt : Bytes} (h : Named name nt)
    (hrest : node_name_pred (ch rest 0) = false) :
    parse_name (nt ++ rest) = .ok (name, rest) := by
  have hcolon : ch rest 0 ≠ 58 := fun hc => by
    rw [hc] at hrest
    exact absurd hrest (by decide)
  have hstop : element_name_pred (ch rest 0) = false := by simp [element_name_pred, hrest]
  cases h with
  | plain name hne hhead hname =>
    rw [parse_name, takeWhile_append hname hstop, skip_append hname hstop]
    simp [hne, hcolon]
  | prefixed p name hpne hhead hp hne hname =>
    have hcolon' : element_name_pred (ch (58 :: (name ++ rest)) 0) = false := rfl
    rw [List.append_assoc, List.cons_append, parse_name, takeWhile_append hp hcolon',
      skip_append hp hcolon']
    simp only [ch_cons_zero, if_neg hpne, if_true, pure_eq, List.drop_succ_cons,
      List.drop_zero, takeWhile_append hname hrest, skip_append hname hrest, if_neg hne]

theorem ne_nil_of_takeWhile {pred : UInt8 → Bool} (h : text.takeWhile pred ≠ []) :
    (text.takeWhile pred).head? = some (ch text 0) := by
  rcases text with _ | ⟨c, t⟩
  · exact absurd rfl h
  · by_cases hc : pred c = true
    · rw [List.takeWhile_cons_of_pos hc]
      rfl
    · rw [List.takeWhile_cons_of_neg hc] at h
      exact absurd rfl h

theorem of_parse_name {name : Bytes} (hhead : ch text 0 ≠ 33)
    (h : parse_name text = .ok (name, rest)) : ∃ nt, text = nt ++ rest ∧ Named name nt ∧
      node_name_pred (ch rest 0) = false := by
  obtain ⟨htext, hall, hstop⟩ := skip_spec element_name_pred text rfl
  unfold parse_name at h
  simp only [pure_eq, throw_eq, error_bind] at h
  split_ifs at h with hne hcolon hname
  · have hfirst : (text.takeWhile element_name_pred).head? ≠ some 33 := by
      rw [ne_nil_of_takeWhile hne]
      exact fun hc => hhead (Option.some.inj hc)
    obtain ⟨htext', hall', hstop'⟩ := skip_spec node_name_pred
      ((skip element_name_pred text).drop 1) rfl
    cases h
    refine ⟨_, ?_, .prefixed _ _ hne hfirst hall hname hall', hstop'⟩
    have hcons := cons_of_ch (by decide) hcolon
    calc text = text.takeWhile element_name_pred ++ skip element_name_pred text := htext
      _ = text.takeWhile element_name_pred ++ 58 :: (skip element_name_pred text).drop 1 := by
        rw [← hcons]
      _ = _ := by
        rw [List.append_assoc, List.cons_append, ← htext']
  · have hfirst : (text.takeWhile element_name_pred).head? ≠ some 33 := by
      rw [ne_nil_of_takeWhile hne]
      exact fun hc => hhead (Option.some.inj hc)
    cases h
    refine ⟨_, htext, .plain _ hne hfirst hall, ?_⟩
    simpa [element_name_pred, hcolon] using hstop

end

/-! ### Contents -/

section

variable {text rest : Bytes}

/-- What the parser reads of a start tag. -/
theorem parse_start {name st : Bytes} {as : List (Bytes × Bytes)} (h : StartTag name as st)
    {c : UInt8} (hc : c = 47 ∨ c = 62) (rest : Bytes) :
    ∃ u, parse_name (st ++ c :: rest) = .ok (name, u) ∧
      parse_node_attributes ((skip whitespace_pred u).length + 1) (skip whitespace_pred u) =
        .ok (as, c :: rest) := by
  obtain ⟨hname, hws, hsep, hattrs⟩ := h
  rename_i nt ws t
  have hcw : whitespace_pred (ch (c :: rest) 0) = false := by rcases hc with rfl | rfl <;> rfl
  have hca : attribute_name_pred (ch (c :: rest) 0) = false := by rcases hc with rfl | rfl <;> rfl
  have hcn : node_name_pred c = false := by rcases hc with rfl | rfl <;> rfl
  have hstop : node_name_pred (ch (ws ++ (t ++ c :: rest)) 0) = false := by
    rcases ws with _ | ⟨w, ws⟩
    · obtain rfl : as = [] := by
        by_contra hne
        exact hsep hne rfl
      cases hattrs
      exact hcn
    · have hw := hws w List.mem_cons_self
      simp [ch, node_name_pred, hw]
  have hskip := skip_append hws (attributes_head hattrs hcw)
  refine ⟨ws ++ (t ++ c :: rest), ?_, ?_⟩
  · rw [List.append_assoc, List.append_assoc]
    exact parse_name_append hname hstop
  · rw [hskip]
    refine parse_attributes_append hattrs hcw hca ?_
    rw [List.length_append]
    omega

theorem of_parse_start {name u : Bytes} {as : List (Bytes × Bytes)} {n : ℕ}
    (hhead : ch text 0 ≠ 33) (h : parse_name text = .ok (name, u))
    (ha : parse_node_attributes n (skip whitespace_pred u) = .ok (as, rest)) :
    ∃ st, text = st ++ rest ∧ StartTag name as st := by
  obtain ⟨nt, rfl, hname, hstop⟩ := of_parse_name hhead h
  obtain ⟨ws, hu, hws, -⟩ := blank_skip u
  obtain ⟨t, ht, hattrs, -⟩ := of_parse_attributes ha
  refine ⟨nt ++ (ws ++ t), ?_, .mk hname hws (fun hne hnil => ?_) hattrs⟩
  · rw [List.append_assoc, List.append_assoc, ← ht, ← hu]
  · subst hnil
    cases hattrs with
    | nil => exact hne rfl
    | @cons a as t ws' u' hattr _ _ =>
      cases hattr with
      | mk aname hane haname =>
        obtain ⟨c, aname, rfl⟩ := List.exists_cons_of_ne_nil hane
        have hc := haname c List.mem_cons_self
        rw [List.nil_append] at hu
        rw [← hu] at ht
        rw [ht] at hstop
        have hcn : node_name_pred c = false := hstop
        rw [node_name_of_attribute_name hc] at hcn
        cases hcn

theorem parse_closing_append {et : Bytes} (h : EndTag et) (rest : Bytes) :
    ∃ t, et ++ rest = 60 :: 47 :: t ∧ parse_closing t = .ok rest := by
  obtain ⟨hname, hws⟩ := h
  rename_i name ws
  have hstop : node_name_pred (ch (ws ++ 62 :: rest) 0) = false := by
    rcases ws with _ | ⟨w, ws⟩
    · rfl
    · have hw := hws w List.mem_cons_self
      simp [ch, node_name_pred, hw]
  have hblank : whitespace_pred (ch (62 :: rest) 0) = false := rfl
  refine ⟨name ++ (ws ++ 62 :: rest), by simp, ?_⟩
  rw [parse_closing, skip_append hname hstop, skip_append hws hblank]
  rfl

theorem of_parse_closing {t : Bytes} (h : parse_closing t = .ok rest) :
    ∃ et, 60 :: 47 :: t = et ++ rest ∧ EndTag et := by
  obtain ⟨ht, hname, -⟩ := skip_spec node_name_pred t rfl
  obtain ⟨ws, hu, hws, -⟩ := blank_skip (skip node_name_pred t)
  unfold parse_closing at h
  simp only [ne_eq, pure_eq, throw_eq, error_bind] at h
  split_ifs at h with h62
  cases h
  have hcons := cons_of_ch (by decide) h62
  refine ⟨_, ?_, .mk hname hws⟩
  calc 60 :: 47 :: t = 60 :: 47 :: (t.takeWhile node_name_pred ++ skip node_name_pred t) := by
        rw [← ht]
    _ = 60 :: 47 :: (t.takeWhile node_name_pred ++ (ws ++ 62 ::
        (skip whitespace_pred (skip node_name_pred t)).drop 1)) := by rw [← hcons, ← hu]
    _ = _ := by simp

end

section

variable {text rest : Bytes}

theorem head_misc {m : Bytes} (h : Misc m) : ∃ c q, m = c :: q ∧ c ≠ 47 := by
  cases h <;> exact ⟨_, _, rfl, by decide⟩

theorem head_start {name st : Bytes} {as : List (Bytes × Bytes)} (h : StartTag name as st) :
    ∃ c q, st = c :: q ∧ c ≠ 47 ∧ c ≠ 63 ∧ c ≠ 33 := by
  have hnode : ∀ c, element_name_pred c = true → c ≠ 47 ∧ c ≠ 63 := by
    intro c hc
    constructor <;> rintro rfl <;> exact absurd hc (by decide)
  obtain ⟨hname, -, -, -⟩ := h
  cases hname with
  | plain name hne hhead hname =>
    obtain ⟨c, q, rfl⟩ := List.exists_cons_of_ne_nil hne
    have hc := hnode c (hname c List.mem_cons_self)
    exact ⟨c, _, rfl, hc.1, hc.2, fun h => hhead (by rw [h]; rfl)⟩
  | prefixed p name hne hhead hp _ _ =>
    obtain ⟨c, q, rfl⟩ := List.exists_cons_of_ne_nil hne
    have hc := hnode c (hp c List.mem_cons_self)
    exact ⟨c, _, rfl, hc.1, hc.2, fun h => hhead (by rw [h]; rfl)⟩

theorem parse_node_start {name st : Bytes} {as : List (Bytes × Bytes)} (h : StartTag name as st)
    (n : ℕ) : parse_node (n + 1) (st ++ text) = (parse_element n (st ++ text)).map
      fun x => (some x.1, x.2) := by
  obtain ⟨c, q, rfl, -, h63, h33⟩ := head_start h
  rw [List.cons_append, parse_node, ch_cons_zero, if_neg h63, if_neg h33]
  rcases parse_element n (c :: (q ++ text)) with e | x <;> rfl

theorem parse_node_empty {name st : Bytes} {as : List (Bytes × Bytes)} (h : StartTag name as st)
    (n : ℕ) :
    parse_node (n + 2) (st ++ 47 :: 62 :: rest) = .ok (some (.element name as []), rest) := by
  obtain ⟨u, hname, hattrs⟩ := parse_start h (Or.inl rfl) (62 :: rest)
  rw [parse_node_start h, parse_element, hname]
  simp only [ok_bind, hattrs]
  rfl

theorem parse_node_element {name st : Bytes} {as : List (Bytes × Bytes)} {children : List Node}
    (h : StartTag name as st) {n : ℕ} (hc : parse_node_contents n text = .ok (children, rest)) :
    parse_node (n + 2) (st ++ 62 :: text) = .ok (some (.element name as children), rest) := by
  obtain ⟨u, hname, hattrs⟩ := parse_start h (Or.inr rfl) text
  rw [parse_node_start h, parse_element, hname]
  simp only [ok_bind, hattrs, ch_cons_zero, if_true, List.drop_succ_cons, List.drop_zero, hc]
  rfl

theorem mem_spelled {v s : Bytes} (h : Spelled text_pred v s) : ∀ c ∈ s, text_pred c = true := by
  have hdigit : ∀ c, isDigit c = true → text_pred c = true := by
    intro c hc
    simp only [text_pred, Bool.not_eq_true', Bool.or_eq_false_iff, beq_eq_false_iff_ne]
    constructor <;> rintro rfl <;> exact absurd hc (by decide)
  have hlit : ∀ {x : String}, (lit x).all text_pred = true → ∀ c ∈ lit x, text_pred c = true :=
    fun h => List.all_eq_true.mp h
  induction h with
  | nil => simp
  | char c hc _ _ ih => exact List.forall_mem_cons.mpr ⟨hc, ih⟩
  | ampersand _ _ ih => exact List.forall_mem_cons.mpr ⟨rfl, ih⟩
  | reference hr _ ih =>
    refine List.forall_mem_append.mpr ⟨?_, ih⟩
    cases hr with
    | hexadecimal digits dest hd _ =>
      exact List.forall_mem_append.mpr ⟨hlit rfl, List.forall_mem_append.mpr
        ⟨fun c hc => hdigit c (hd c hc), hlit rfl⟩⟩
    | decimal digits dest hd _ =>
      exact List.forall_mem_append.mpr ⟨hlit rfl, List.forall_mem_append.mpr
        ⟨fun c hc => hdigit c (hd c hc), hlit rfl⟩⟩
    | _ => exact hlit rfl

/-- Text with a character that is not white space is data. -/
theorem data_head {v s : Bytes} (h : Spelled text_pred v s)
    (hne : ∃ c ∈ s, whitespace_pred c = false) (rest : Bytes) :
    ch (skip whitespace_pred (s ++ rest)) 0 ≠ 60 ∧ ch (skip whitespace_pred (s ++ rest)) 0 ≠ 0 := by
  have hall := mem_spelled h
  clear h
  induction s with
  | nil => simp at hne
  | cons c s ih =>
    by_cases hc : whitespace_pred c = true
    · have hskip : skip whitespace_pred (c :: s ++ rest) = skip whitespace_pred (s ++ rest) :=
        List.dropWhile_cons_of_pos hc
      rw [hskip]
      refine ih ?_ fun d hd => hall d (List.mem_cons_of_mem c hd)
      obtain ⟨d, hd, hdw⟩ := hne
      rcases List.mem_cons.mp hd with rfl | hd
      · rw [hc] at hdw
        cases hdw
      · exact ⟨d, hd, hdw⟩
    · rw [Bool.not_eq_true] at hc
      have hskip : skip whitespace_pred (c :: s ++ rest) = c :: s ++ rest := skip_of_not hc
      have htext := hall c List.mem_cons_self
      rw [hskip, List.cons_append, ch_cons_zero]
      simpa [text_pred] using htext

end

end HfiWebserver.Guest.XmlTags
